import Mathlib.Algebra.BigOperators.Group.List.Basic
import Mathlib.Tactic.Ring
import Swarm.Proofs.SymbolTables

/-!
# Numbers in base 128

A numeral is a string of bytes of which only the last one has its top bit clear. Its value is
the number with the lowest seven bits of the bytes as its digits. Reading takes numerals of at
most five bytes and keeps the value modulo 2³². Five digits have room for 35 bits, so the three
highest bits of a fifth byte are lost, and a numeral is read as its value if and only if it has
none of them.
-/

namespace Swarm.Debug.VarInt

variable {bs front rest : Bytes} {n : Nat} {v : UInt32}

/-- The number with the lowest seven bits of the bytes as its digits, the least significant one
first. -/
def value (front : Bytes) : Nat :=
  (front.mapIdx fun i b => b.toNat % 128 * 2 ^ (7 * i)).sum

/-- The last byte has its top bit clear, and it is the only one. -/
def IsNumeral (front : Bytes) : Prop :=
  ∃ init last, front = init ++ [last] ∧ (∀ b ∈ init, 128 ≤ b) ∧ last < 128

/-- The bytes begin with a numeral of at most five bytes, whose value is the number. -/
def Denotes (bs : Bytes) (v : UInt32) (rest : Bytes) : Prop :=
  ∃ front, bs = front ++ rest ∧ IsNumeral front ∧ front.length ≤ 5 ∧ value front = v.toNat

/-- The bytes begin with a numeral of at most five bytes, whose value does not fit into 32 bits. -/
def Overflows (bs : Bytes) : Prop :=
  ∃ front rest, bs = front ++ rest ∧ IsNumeral front ∧ front.length ≤ 5 ∧ 2 ^ 32 ≤ value front

/-! ### Digits -/

/-- The last byte has the highest digit. -/
theorem value_concat (init : Bytes) (last : UInt8) :
    value (init ++ [last]) = value init + last.toNat % 128 * 2 ^ (7 * init.length) := by
  simp [value, List.mapIdx_append]

/-- The first digit is the least significant one. -/
theorem value_cons (b : UInt8) (front : Bytes) :
    value (b :: front) = b.toNat % 128 + 128 * value front := by
  induction front using List.reverseRecOn with
  | nil => simp [value]
  | append_singleton init last ih =>
    rw [← List.cons_append, value_concat, ih, value_concat, List.length_cons]
    ring

/-- The value is less than all numbers with one digit more. -/
theorem value_lt (front : Bytes) : value front < 128 ^ front.length := by
  induction front with
  | nil => simp [value]
  | cons b front ih =>
    rw [value_cons, List.length_cons, Nat.pow_succ]
    omega

/-- A byte below 128 is a numeral. -/
theorem isNumeral_singleton {b : UInt8} (h : b < 128) : IsNumeral [b] :=
  ⟨[], b, rfl, by simp, h⟩

/-- A byte with its top bit set goes on with a numeral. -/
theorem isNumeral_cons_iff {b : UInt8} (h : 128 ≤ b) :
    IsNumeral (b :: front) ↔ IsNumeral front := by
  constructor
  · rintro ⟨init, last, heq, hinit, hlast⟩
    cases init with
    | nil =>
      obtain ⟨rfl, rfl⟩ := List.cons.inj heq
      exact absurd hlast (UInt8.not_lt.2 h)
    | cons c init =>
      obtain ⟨rfl, rfl⟩ := List.cons.inj heq
      exact ⟨init, last, rfl, fun b hb => hinit b (List.mem_cons_of_mem _ hb), hlast⟩
  · rintro ⟨init, last, rfl, hinit, hlast⟩
    exact ⟨b :: init, last, rfl, List.forall_mem_cons.2 ⟨h, hinit⟩, hlast⟩

/-- A byte with its top bit clear is a numeral by itself. -/
theorem isNumeral_cons_of_lt {b : UInt8} (h : b < 128) (hnumeral : IsNumeral (b :: front)) :
    front = [] := by
  obtain ⟨init, last, heq, hinit, -⟩ := hnumeral
  cases init with
  | nil => exact (List.cons.inj heq).2
  | cons c init =>
    obtain ⟨rfl, -⟩ := List.cons.inj heq
    exact absurd h (UInt8.not_lt.2 (hinit b List.mem_cons_self))

/-- Without bytes there is no numeral. -/
theorem not_isNumeral_nil : ¬IsNumeral [] := by
  rintro ⟨init, last, heq, -⟩
  simp at heq

/-- No numeral begins with another one. -/
theorem IsNumeral.unique {front' rest' : Bytes} (h : IsNumeral front) (h' : IsNumeral front')
    (heq : front ++ rest = front' ++ rest') : front = front' ∧ rest = rest' := by
  induction front generalizing front' with
  | nil => exact absurd h not_isNumeral_nil
  | cons b front ih =>
    cases front' with
    | nil => exact absurd h' not_isNumeral_nil
    | cons c front' =>
      obtain ⟨rfl, htail⟩ := List.cons.inj heq
      by_cases hb : b < 128
      · obtain rfl := isNumeral_cons_of_lt hb h
        obtain rfl := isNumeral_cons_of_lt hb h'
        exact ⟨rfl, htail⟩
      · have hb := UInt8.not_lt.1 hb
        obtain ⟨rfl, hrest⟩ :=
          ih ((isNumeral_cons_iff hb).1 h) ((isNumeral_cons_iff hb).1 h') htail
        exact ⟨rfl, hrest⟩

/-! ### What is read -/

/-- Within a bound on their length numerals are read as their values, and nothing else is read. -/
theorem decodeNat?_eq_some_iff {limit : Nat} : decodeNat? limit bs = some (n, rest) ↔
    ∃ front, bs = front ++ rest ∧ IsNumeral front ∧ front.length ≤ limit ∧ value front = n := by
  induction limit generalizing bs n with
  | zero =>
    simp only [decodeNat?, reduceCtorEq, Nat.le_zero, List.length_eq_zero_iff, false_iff]
    rintro ⟨front, -, hnumeral, rfl, -⟩
    exact not_isNumeral_nil hnumeral
  | succ limit ih =>
    cases bs with
    | nil =>
      simp only [decodeNat?, reduceCtorEq, false_iff]
      rintro ⟨front, heq, hnumeral, -⟩
      obtain ⟨rfl, -⟩ := List.append_eq_nil_iff.1 heq.symm
      exact not_isNumeral_nil hnumeral
    | cons b tail =>
      unfold decodeNat?
      by_cases hb : b < 128
      · have hsmall : b.toNat % 128 = b.toNat := Nat.mod_eq_of_lt (UInt8.lt_iff_toNat_lt.1 hb)
        rw [if_pos hb, Option.some.injEq, Prod.mk.injEq]
        constructor
        · rintro ⟨rfl, rfl⟩
          refine ⟨[b], rfl, isNumeral_singleton hb, by simp, ?_⟩
          simp [value, hsmall]
        · rintro ⟨front, heq, hnumeral, -, rfl⟩
          have heq : [b] ++ tail = front ++ rest := heq
          obtain ⟨rfl, rfl⟩ := (isNumeral_singleton hb).unique hnumeral heq
          simp [value, hsmall]
      · rw [if_neg hb]
        have hb := UInt8.not_lt.1 hb
        constructor
        · intro h
          obtain ⟨⟨m, tail'⟩, hm, heq⟩ := Option.map_eq_some_iff.1 h
          obtain ⟨rfl, rfl⟩ := Prod.mk.inj heq
          obtain ⟨front, rfl, hnumeral, hlength, rfl⟩ := ih.1 hm
          exact ⟨b :: front, rfl, (isNumeral_cons_iff hb).2 hnumeral, Nat.succ_le_succ hlength,
            value_cons b front⟩
        · rintro ⟨front, heq, hnumeral, hlength, rfl⟩
          cases front with
          | nil => exact absurd hnumeral not_isNumeral_nil
          | cons c front =>
            obtain ⟨rfl, htail⟩ := List.cons.inj heq
            have hrest := ih.2 ⟨front, htail, (isNumeral_cons_iff hb).1 hnumeral,
              Nat.le_of_succ_le_succ hlength, rfl⟩
            rw [hrest, value_cons]
            rfl

/-- Numerals of at most five bytes are read modulo 2³², and nothing else is read. -/
theorem decode?_eq_some_iff : decode? bs = some (v, rest) ↔
    ∃ front, bs = front ++ rest ∧ IsNumeral front ∧ front.length ≤ 5 ∧
      value front % 2 ^ 32 = v.toNat := by
  simp only [decode?, Option.map_eq_some_iff, Prod.exists, Prod.mk.injEq, decodeNat?_eq_some_iff]
  constructor
  · rintro ⟨n, tail, ⟨front, rfl, hnumeral, hlength, rfl⟩, rfl, rfl⟩
    exact ⟨front, rfl, hnumeral, hlength, (UInt32.toNat_ofNat' ..).symm⟩
  · rintro ⟨front, rfl, hnumeral, hlength, hv⟩
    refine ⟨value front, rest, ⟨front, rfl, hnumeral, hlength, rfl⟩, ?_, rfl⟩
    rw [← UInt32.toNat_inj, UInt32.toNat_ofNat', hv]

/-- Nothing is read if and only if no byte among the first five has its top bit clear. -/
theorem decode?_eq_none_iff : decode? bs = none ↔ ∀ b ∈ bs.take 5, 128 ≤ b := by
  have hnat (limit : Nat) (bs : Bytes) :
      decodeNat? limit bs = none ↔ ∀ b ∈ bs.take limit, 128 ≤ b := by
    induction limit generalizing bs with
    | zero => simp [decodeNat?]
    | succ limit ih =>
      cases bs with
      | nil => simp [decodeNat?]
      | cons b tail =>
        unfold decodeNat?
        by_cases hb : b < 128
        · simp [hb]
        · simp [hb, ih, UInt8.not_lt.1 hb]
  rw [decode?, Option.map_eq_none_iff, hnat]

/-! ### Values that do not fit -/

/-- A value that does not fit is recognized by the fifth byte. -/
theorem overflows_iff : Overflows bs ↔ ∃ init last rest, bs = init ++ last :: rest ∧
    init.length = 4 ∧ (∀ b ∈ init, 128 ≤ b) ∧ 16 ≤ last ∧ last < 128 := by
  have hvalue (init : Bytes) {last : UInt8} (hlength : init.length = 4) (hlast : last < 128) :
      2 ^ 32 ≤ value (init ++ [last]) ↔ 16 ≤ last := by
    have hinit := value_lt init
    have hdigit : last.toNat < 128 := UInt8.lt_iff_toNat_lt.1 hlast
    have hhigh : 16 ≤ last ↔ 16 ≤ last.toNat := UInt8.le_iff_toNat_le
    rw [value_concat, Nat.mod_eq_of_lt hdigit, hlength, hhigh]
    rw [hlength] at hinit
    omega
  constructor
  · rintro ⟨front, rest, rfl, ⟨init, last, rfl, hinit, hlast⟩, hlength, hlarge⟩
    rw [List.length_append, List.length_singleton] at hlength
    have hfour : init.length = 4 := by
      by_contra hshort
      have hless := value_lt (init ++ [last])
      have hpow : 128 ^ (init ++ [last]).length ≤ 128 ^ 4 := by
        refine Nat.pow_le_pow_right (by decide) ?_
        rw [List.length_append, List.length_singleton]
        omega
      omega
    exact ⟨init, last, rest, by simp, hfour, hinit, (hvalue init hfour hlast).1 hlarge, hlast⟩
  · rintro ⟨init, last, rest, rfl, hfour, hinit, hhigh, hlast⟩
    exact ⟨init ++ [last], rest, by simp, ⟨init, last, rfl, hinit, hlast⟩, by simp [hfour],
      (hvalue init hfour hlast).2 hhigh⟩

/-- Values are read as they are if and only if no value that does not fit stands there. -/
theorem decode?_exact_iff :
    (∀ v rest, decode? bs = some (v, rest) ↔ Denotes bs v rest) ↔ ¬Overflows bs := by
  constructor
  · rintro hexact ⟨front, rest, rfl, hnumeral, hlength, hvalue⟩
    have hread : decode? (front ++ rest) = some (UInt32.ofNat (value front), rest) :=
      decode?_eq_some_iff.2 ⟨front, rfl, hnumeral, hlength, (UInt32.toNat_ofNat' ..).symm⟩
    obtain ⟨front', heq, hnumeral', -, hsame⟩ := (hexact _ _).1 hread
    obtain ⟨rfl, -⟩ := hnumeral.unique hnumeral' heq
    have := (UInt32.ofNat (value front)).toNat_lt
    omega
  · intro hfits v rest
    rw [decode?_eq_some_iff]
    refine exists_congr fun front => and_congr_right fun heq => and_congr_right fun hnumeral =>
      and_congr_right fun hlength => ?_
    have hless : value front < 2 ^ 32 := Nat.lt_of_not_le fun hvalue =>
      hfits ⟨front, rest, heq, hnumeral, hlength, hvalue⟩
    rw [Nat.mod_eq_of_lt hless]

/-! ### Reading with shifts -/

/-- Read byte by byte into a word of 32 bits: the lowest seven bits of a byte are moved up and
joined to those read before, and bits that are moved out of the word are lost. -/
def shiftIn (result : UInt32) (shift : Nat) : Bytes → Option (UInt32 × Bytes)
  | [] => none
  | b :: rest =>
    let result := result ||| ((b &&& 0x7f).toUInt32 <<< UInt32.ofNat shift)
    if b &&& 0x80 = 0 then some (result, rest)
    else if 35 ≤ shift + 7 then none
    else shiftIn result (shift + 7) rest

/-- Joining bits above those read before adds them, except for what does not fit. -/
theorem toNat_join {result : UInt32} {shift : Nat} (hshift : shift < 32)
    (hresult : result.toNat < 2 ^ shift) (b : UInt8) :
    (result ||| ((b &&& 0x7f).toUInt32 <<< UInt32.ofNat shift)).toNat =
      (result.toNat + 2 ^ shift * (b.toNat % 128)) % 2 ^ 32 := by
  have hdigit : (b &&& 0x7f).toNat = b.toNat % 128 := by
    rw [UInt8.toNat_and]
    exact Nat.and_two_pow_sub_one_eq_mod b.toNat 7
  have hsplit : 2 ^ 32 = 2 ^ shift * 2 ^ (32 - shift) := by
    rw [← Nat.pow_add, Nat.add_sub_cancel' (Nat.le_of_lt hshift)]
  have hmoved : (b.toNat % 128) <<< shift % 2 ^ 32 =
      2 ^ shift * (b.toNat % 128 % 2 ^ (32 - shift)) := by
    rw [Nat.shiftLeft_eq, Nat.mul_comm, hsplit, Nat.mul_mod_mul_left]
  have hsum : (result.toNat + 2 ^ shift * (b.toNat % 128)) % 2 ^ 32 =
      result.toNat + 2 ^ shift * (b.toNat % 128 % 2 ^ (32 - shift)) := by
    rw [hsplit, Nat.mod_mul, Nat.add_mul_mod_self_left, Nat.mod_eq_of_lt hresult,
      Nat.add_mul_div_left _ _ (Nat.two_pow_pos shift), Nat.div_eq_of_lt hresult, Nat.zero_add]
  rw [UInt32.toNat_or, UInt32.toNat_shiftLeft, UInt8.toNat_toUInt32, hdigit,
    UInt32.toNat_ofNat_of_lt' (Nat.lt_trans hshift (by decide)), Nat.mod_eq_of_lt hshift, hmoved,
    hsum, Nat.or_comm, ← Nat.two_pow_add_eq_or_of_lt hresult, Nat.add_comm]

/-- The top bit is clear below 128. -/
theorem and_top_eq_zero_iff (b : UInt8) : b &&& 0x80 = 0 ↔ b < 128 := by
  have hall : ∀ n : Fin 256, n.val &&& 128 = 0 ↔ n.val < 128 := by decide +kernel
  rw [← UInt8.toNat_inj, UInt8.toNat_and, UInt8.lt_iff_toNat_lt]
  exact hall ⟨b.toNat, b.toNat_lt⟩

/-- Bits are shifted in digit by digit. The induction is on the bytes that may still be read;
everything read before lies below the shift. -/
theorem shiftIn_eq {result : UInt32} {shift : Nat} (limit : Nat) (hshift : shift + 7 * limit = 35)
    (hlimit : 0 < limit) (hresult : result.toNat < 2 ^ shift) (bs : Bytes) :
    shiftIn result shift bs = (decodeNat? limit bs).map fun (n, rest) =>
      (UInt32.ofNat (result.toNat + 2 ^ shift * n), rest) := by
  induction bs generalizing limit result shift with
  | nil => cases limit <;> rfl
  | cons b rest ih =>
    obtain ⟨limit, rfl⟩ := Nat.exists_eq_succ_of_ne_zero (Nat.ne_of_gt hlimit)
    have hjoin := toNat_join (by omega) hresult b
    rw [shiftIn, decodeNat?]
    simp only [and_top_eq_zero_iff]
    by_cases hb : b < 128
    · have hsmall : b.toNat % 128 = b.toNat := Nat.mod_eq_of_lt (UInt8.lt_iff_toNat_lt.1 hb)
      rw [if_pos hb, if_pos hb, Option.map_some, Option.some.injEq, Prod.mk.injEq]
      refine ⟨?_, rfl⟩
      rw [← UInt32.toNat_inj, hjoin, hsmall, UInt32.toNat_ofNat']
    · rw [if_neg hb, if_neg hb]
      by_cases hlast : limit = 0
      · subst hlast
        rw [if_pos (by omega)]
        rfl
      · rw [if_neg (by omega)]
        -- All bits fit here, as the fifth digit is still to come.
        have hpow : 2 ^ (shift + 7) = 2 ^ shift * 128 := Nat.pow_add 2 shift 7
        have hless : result.toNat + 2 ^ shift * (b.toNat % 128) < 2 ^ (shift + 7) := by
          have hdigit : 2 ^ shift * (b.toNat % 128) ≤ 2 ^ shift * 127 :=
            Nat.mul_le_mul_left _ (by omega)
          omega
        have hfits : 2 ^ (shift + 7) ≤ 2 ^ 32 := Nat.pow_le_pow_right (by decide) (by omega)
        rw [Nat.mod_eq_of_lt (Nat.lt_of_lt_of_le hless hfits)] at hjoin
        rw [ih limit (by omega) (by omega) (hjoin ▸ hless), hjoin, Option.map_map]
        refine congrArg (fun f => Option.map f (decodeNat? limit rest)) (funext ?_)
        rintro ⟨n, tail⟩
        have hvalue : result.toNat + 2 ^ shift * (b.toNat % 128) + 2 ^ (shift + 7) * n =
            result.toNat + 2 ^ shift * (b.toNat % 128 + 128 * n) := by
          rw [hpow]
          ring
        simp only [Function.comp_apply, hvalue]

/-! ### Which numbers are read -/

/-- What reading makes of the bytes, and of a number that is written in front of them. -/
structure ReadsNumerals (bs : Bytes) : Prop where
  written : ∀ v, decode? (encode v ++ bs) = some (v, bs)
  shifted : decode? bs = shiftIn 0 0 bs
  modulo : ∀ v rest, decode? bs = some (v, rest) ↔ ∃ front, bs = front ++ rest ∧
    IsNumeral front ∧ front.length ≤ 5 ∧ value front % 2 ^ 32 = v.toNat
  /-- No numeral ends within the first five bytes. -/
  rejects : decode? bs = none ↔ ∀ b ∈ bs.take 5, 128 ≤ b
  exact_iff : (∀ v rest, decode? bs = some (v, rest) ↔ Denotes bs v rest) ↔ ¬Overflows bs
  overflows : Overflows bs ↔ ∃ init last rest, bs = init ++ last :: rest ∧
    init.length = 4 ∧ (∀ b ∈ init, 128 ≤ b) ∧ 16 ≤ last ∧ last < 128

/-- Numerals of at most five bytes are read modulo 2³², and as their values if and only if these
fit. -/
theorem readsNumerals (bs : Bytes) : ReadsNumerals bs where
  written v := decode?_encode v bs
  shifted := by
    rw [shiftIn_eq 5 (by decide) (by decide) (by decide)]
    simp [decode?]
  modulo _ _ := decode?_eq_some_iff
  rejects := decode?_eq_none_iff
  exact_iff := decode?_exact_iff
  overflows := overflows_iff

/-- The numeral of 2³². -/
def overfull : Bytes := [0x80, 0x80, 0x80, 0x80, 0x10]

/-- A table with one entry, which has the numeral as its offset. -/
def overfullTable : Bytes := Table.magic ++ [1, 0, 1, 0, 0x61] ++ overfull ++ [2, 2, 0]

/-- The bytes denote no number of 32 bits, but zero is read, and the table in which they stand for
an offset is accepted. -/
theorem decode?_overfull : value overfull = 2 ^ 32 ∧ (∀ v rest, ¬Denotes overfull v rest) ∧
    decode? overfull = some (0, []) ∧
      Table.ofBytes overfullTable = .ok ⟨#["a"], #[⟨0, 1, 1, 0⟩]⟩ := by
  have hnumeral : IsNumeral overfull :=
    ⟨[0x80, 0x80, 0x80, 0x80], 0x10, rfl, by simp, by decide⟩
  have hvalue : value overfull = 2 ^ 32 := by decide
  refine ⟨hvalue, ?_, by decide +kernel, by decide +kernel⟩
  rintro v rest ⟨front, heq, hfront, -, hv⟩
  obtain ⟨rfl, -⟩ := hnumeral.unique hfront ((List.append_nil _).trans heq)
  have := v.toNat_lt
  omega

end Swarm.Debug.VarInt
