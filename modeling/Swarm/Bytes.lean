/-!
# Byte strings and little-endian words

Byte strings are lists of bytes. A word of a given width is written least
significant byte first; writing keeps a number modulo the width's range, and
reading is the inverse of writing on byte strings of that width.
-/

namespace Swarm

/-- A byte string: a script string, a message payload or the content of a file. -/
abbrev Bytes := List UInt8

/-- The `width` lowest base-256 digits of a number, least significant first. -/
def littleEndian : Nat → Nat → Bytes
  | 0, _ => []
  | width + 1, n => UInt8.ofNat n :: littleEndian width (n / 256)

/-- The number whose base-256 digits, least significant first, are the bytes. -/
def littleEndianValue : Bytes → Nat
  | [] => 0
  | b :: bs => b.toNat + 256 * littleEndianValue bs

/-- The number of values of a word of the given width. -/
def wordRange : Nat → Nat
  | 0 => 1
  | width + 1 => 256 * wordRange width

/-- As many bytes are written as asked for. -/
@[simp] theorem length_littleEndian (width n : Nat) : (littleEndian width n).length = width := by
  induction width generalizing n with
  | zero => rfl
  | succ width ih => simp [littleEndian, ih]

/-- A written word reads back as the number modulo the range of its width. -/
theorem littleEndianValue_littleEndian (width n : Nat) :
    littleEndianValue (littleEndian width n) = n % wordRange width := by
  induction width generalizing n with
  | zero => simp [littleEndian, littleEndianValue, wordRange, Nat.mod_one]
  | succ width ih =>
    simp only [littleEndian, littleEndianValue, wordRange, ih, UInt8.toNat_ofNat']
    rw [Nat.mod_mul]

/-- Reading a byte string and writing the number in the same width gives the bytes back. -/
theorem littleEndian_littleEndianValue (bs : Bytes) :
    littleEndian bs.length (littleEndianValue bs) = bs := by
  induction bs with
  | nil => rfl
  | cons b bs ih =>
    have hdiv : (b.toNat + 256 * littleEndianValue bs) / 256 = littleEndianValue bs := by
      have := b.toNat_lt
      omega
    have hmod : UInt8.ofNat (b.toNat + 256 * littleEndianValue bs) = b := by
      apply UInt8.toNat_inj.1
      have := b.toNat_lt
      simp only [UInt8.toNat_ofNat']
      omega
    simp [littleEndian, littleEndianValue, hdiv, hmod, ih]

/-- A byte string of a given width reads as a number below that width's range. -/
theorem littleEndianValue_lt (bs : Bytes) : littleEndianValue bs < wordRange bs.length := by
  induction bs with
  | nil => simp [littleEndianValue, wordRange]
  | cons b bs ih =>
    have := b.toNat_lt
    simp only [littleEndianValue, List.length_cons, wordRange]
    omega

namespace Bytes

/-- Cut off the first `count` bytes, if there are that many. -/
def cut? (count : Nat) (bs : Bytes) : Option (Bytes × Bytes) :=
  let front := bs.take count
  if front.length = count then some (front, bs.drop count) else none

/-- A cut loses nothing and its front has the asked length. -/
theorem eq_append_of_cut? {count : Nat} {bs front rest : Bytes}
    (h : bs.cut? count = some (front, rest)) : bs = front ++ rest ∧ front.length = count := by
  simp only [cut?, Option.ite_none_right_eq_some, Option.some.injEq, Prod.mk.injEq] at h
  obtain ⟨hlength, rfl, rfl⟩ := h
  exact ⟨(List.take_append_drop count bs).symm, hlength⟩

/-- What was put in front is what is cut off. -/
theorem cut?_append (front rest : Bytes) :
    Bytes.cut? front.length (front ++ rest) = some (front, rest) := by
  simp [cut?]

/-- A byte string that is too short cannot be cut. -/
theorem cut?_eq_none_iff {count : Nat} {bs : Bytes} : bs.cut? count = none ↔ bs.length < count := by
  simp only [cut?, ite_eq_right_iff, reduceCtorEq, imp_false, List.length_take]
  omega

end Bytes

end Swarm
