import Swarm.Code.Instruction

/-!
# Decoding a code section

Code may come from anywhere, so every read is checked. Decoding at an offset
yields the instruction that starts there; a decoder walks a code section from
its start and stops for good after the first fault.
-/

namespace Swarm

/-- Why no instruction starts at an offset. -/
inductive DecodeError where
  /-- The byte at the offset stands for no opcode. -/
  | invalidOpcode (offset : Nat) (byte : UInt8)
  /-- The code ends inside the operand. -/
  | truncated (offset : Nat) (op : Opcode)
  /-- The offset is not inside the code. -/
  | outOfBounds (offset : Nat)
  deriving DecidableEq, Repr

namespace DecodeError

/-- The two hexadecimal digits of a byte. -/
def byteDigits (b : UInt8) : String :=
  String.ofList [Nat.digitChar (b.toNat / 16), Nat.digitChar (b.toNat % 16)]

/-- The wording of a decoding fault. -/
def message : DecodeError → String
  | .invalidOpcode offset byte => s!"invalid opcode 0x{byteDigits byte} at offset {offset}"
  | .truncated offset op => s!"truncated {op.name} instruction at offset {offset}"
  | .outOfBounds offset => s!"offset {offset} is outside the code section"

end DecodeError

/-- A code section. -/
abbrev Code := Array UInt8

namespace Code

/-- The instruction that starts at an offset, with the offset behind the bytes that were read
for it. -/
def decodeNext (code : Code) (offset : Nat) : Except DecodeError (Instruction × Nat) :=
  match code[offset]? with
  | none => .error (.outOfBounds offset)
  | some byte =>
    match Opcode.ofByte? byte with
    | none => .error (.invalidOpcode offset byte)
    | some op =>
      let start := offset + 1
      let stop := start + op.operandSize
      if stop ≤ code.size then
        .ok (.ofOperand (littleEndianValue (code.extract start stop).toList) op, stop)
      else .error (.truncated offset op)

/-- The instruction that starts at an offset. -/
def decodeAt (code : Code) (offset : Nat) : Except DecodeError Instruction :=
  (code.decodeNext offset).map Prod.fst

/-- Decoding without the next offset checks and reads the same bytes. -/
theorem decodeAt_eq (code : Code) (offset : Nat) :
    code.decodeAt offset =
      match code[offset]? with
      | none => .error (.outOfBounds offset)
      | some byte =>
        match Opcode.ofByte? byte with
        | none => .error (.invalidOpcode offset byte)
        | some op =>
          if offset + 1 + op.operandSize ≤ code.size then
            let operand := code.extract (offset + 1) (offset + 1 + op.operandSize)
            .ok (.ofOperand (littleEndianValue operand.toList) op)
          else .error (.truncated offset op) := by
  unfold decodeAt decodeNext
  split
  · rfl
  · split
    · rfl
    · dsimp only
      split <;> rfl

/-- Decoding fails alike with and without the next offset. -/
theorem decodeNext_eq_error_iff {code : Code} {offset : Nat} {e : DecodeError} :
    code.decodeNext offset = .error e ↔ code.decodeAt offset = .error e := by
  unfold decodeAt
  cases code.decodeNext offset <;> simp [Except.map]

/-- Decoding with the next offset finds the instruction that decoding finds, and the next offset is
the one behind it. -/
theorem decodeNext_eq_ok_iff {code : Code} {offset next : Nat} {i : Instruction} :
    code.decodeNext offset = .ok (i, next) ↔
      code.decodeAt offset = .ok i ∧ next = offset + i.size := by
  rw [decodeAt_eq]
  unfold decodeNext
  cases code[offset]? with
  | none => simp
  | some byte =>
    cases hop : Opcode.ofByte? byte with
    | none => simp [hop]
    | some op =>
      simp only [hop]
      split
      · simp only [Except.ok.injEq, Prod.mk.injEq, Nat.add_assoc]
        constructor
        · rintro ⟨rfl, rfl⟩
          simp [Instruction.size]
        · rintro ⟨rfl, rfl⟩
          simp [Instruction.size]
      · simp

end Code

/-- A walk through a code section. -/
structure Decoder where
  /-- The code section. -/
  code : Code
  /-- Where the next instruction starts. -/
  offset : Nat := 0
  /-- Whether the walk has met a fault. -/
  failed : Bool := false
  deriving DecidableEq, Repr

namespace Decoder

/-- What a walk finds: an instruction with its offset, or a fault. -/
abbrev Item := Except DecodeError (Nat × Instruction)

/-- Whether the walk has come to the end of the code. -/
def atEnd (d : Decoder) : Bool := d.code.size ≤ d.offset

/-- The next item, and the walk after it. -/
def next? (d : Decoder) : Option (Item × Decoder) :=
  if d.failed || d.atEnd then none
  else match d.code.decodeNext d.offset with
    | .ok (i, next) => some (.ok (d.offset, i), { d with offset := next })
    | .error e => some (.error e, { d with failed := true })

/-- A walk goes on behind the instruction that it finds. -/
theorem next?_eq (d : Decoder) :
    d.next? =
      if d.failed || d.atEnd then none
      else match d.code.decodeAt d.offset with
        | .ok i => some (.ok (d.offset, i), { d with offset := d.offset + i.size })
        | .error e => some (.error e, { d with failed := true }) := by
  unfold next?
  split
  · rfl
  · cases hnext : d.code.decodeNext d.offset with
    | error e => rw [Code.decodeNext_eq_error_iff.mp hnext]
    | ok found =>
      obtain ⟨i, next⟩ := found
      obtain ⟨hdecode, rfl⟩ := Code.decodeNext_eq_ok_iff.mp hnext
      rw [hdecode]

/-- A bound on the number of items that are left. -/
def remaining (d : Decoder) : Nat := if d.failed then 0 else d.code.size - d.offset

/-- Every item that is taken leaves less of the code. -/
theorem remaining_lt_of_next? {d e : Decoder} {item : Item} (h : d.next? = some (item, e)) :
    e.remaining < d.remaining := by
  rw [next?_eq] at h
  split at h
  · contradiction
  · rename_i hgo
    simp only [atEnd, Bool.or_eq_true, decide_eq_true_eq, not_or, Bool.not_eq_true] at hgo
    split at h
    · rename_i i _
      cases h
      have := i.size_pos
      simp only [remaining, hgo.1, Bool.false_eq_true, ↓reduceIte]
      omega
    · cases h
      simp only [remaining, hgo.1, ↓reduceIte, Bool.false_eq_true]
      omega

/-- Walk to the end and append all items found to those already there. -/
def drain (d : Decoder) (found : Array Item) : Array Item × Decoder :=
  match h : d.next? with
  | none => (found, d)
  | some (item, e) =>
    have := remaining_lt_of_next? h
    e.drain (found.push item)
  termination_by d.remaining

/-- All items of the rest of the walk, and the finished walk. -/
def run (d : Decoder) : Array Item × Decoder := d.drain #[]

end Decoder

namespace Code

/-- Every item of a code section, from its start. -/
def items (code : Code) : Array Decoder.Item := (Decoder.mk code 0 false).run.1

end Code

end Swarm
