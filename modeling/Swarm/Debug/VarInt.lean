import Swarm.Bytes

/-!
# Variable-length integers

A number is written in base 128, least significant digit first; every byte but
the last has its top bit set. Reading takes at most five bytes and keeps the
number modulo the range of 32 bits. Signed numbers are first folded onto the
naturals: zero, minus one, one, minus two, and so on.
-/

namespace Swarm.Debug.VarInt

/-- The bytes of a number. -/
def encodeNat (n : Nat) : Bytes :=
  if n < 128 then [UInt8.ofNat n]
  else UInt8.ofNat (n % 128 + 128) :: encodeNat (n / 128)

/-- The bytes of a 32-bit number. -/
def encode (n : UInt32) : Bytes := encodeNat n.toNat

/-- The number that the first bytes stand for, if it ends within `limit` of them, and the
bytes after it. -/
def decodeNat? : Nat → Bytes → Option (Nat × Bytes)
  | 0, _ => none
  | _, [] => none
  | limit + 1, b :: rest =>
    if b < 128 then some (b.toNat, rest)
    else (decodeNat? limit rest).map fun (n, rest) => (b.toNat % 128 + 128 * n, rest)

/-- The 32-bit number that the first bytes stand for, and the bytes after it. -/
def decode? (bs : Bytes) : Option (UInt32 × Bytes) :=
  (decodeNat? 5 bs).map fun (n, rest) => (UInt32.ofNat n, rest)

/-- Reading a number takes at least one byte. -/
theorem length_lt_of_decodeNat? {limit n : Nat} {bs rest : Bytes}
    (h : decodeNat? limit bs = some (n, rest)) : rest.length < bs.length := by
  fun_induction decodeNat? limit bs generalizing n rest with
  | case1 => contradiction
  | case2 => contradiction
  | case3 limit b tail _ => cases h; simp
  | case4 limit b tail _ ih =>
    obtain ⟨⟨m, tail'⟩, hm, heq⟩ := Option.map_eq_some_iff.1 h
    cases heq
    have := ih hm
    simp only [List.length_cons]
    omega

/-- Reading a number uses up at least one byte. -/
theorem length_lt_of_decode? {n : UInt32} {bs rest : Bytes} (h : decode? bs = some (n, rest)) :
    rest.length < bs.length := by
  obtain ⟨⟨m, tail⟩, hm, heq⟩ := Option.map_eq_some_iff.1 h
  cases heq
  exact length_lt_of_decodeNat? hm

/-- Fold a signed number onto the naturals. -/
def zigzag (n : Int) : Nat := if n < 0 then (-2 * n - 1).toNat else (2 * n).toNat

/-- The signed number that is folded onto a natural one. -/
def unzigzag (n : Nat) : Int := if n % 2 = 0 then (n / 2 : Nat) else -(n / 2 : Nat) - 1

/-- A signed number is recovered from the natural one that it is folded onto. -/
theorem unzigzag_zigzag (n : Int) : unzigzag (zigzag n) = n := by
  unfold zigzag unzigzag
  split <;> split <;> omega

end Swarm.Debug.VarInt
