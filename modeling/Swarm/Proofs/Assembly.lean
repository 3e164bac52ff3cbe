import Swarm.Code.Assembler
import Swarm.Proofs.Listing

/-!
# What is assembled is what is decoded

Code that an assembler has built is cut by a decoder into the instructions that
were emitted. Binding a label writes over the address of one branch in the middle
of the code; all instructions stay where they are, and no other one changes.
-/

namespace Swarm

/-- A number that is written in a width is written like its remainder. -/
theorem littleEndian_mod (width n : Nat) :
    littleEndian width (n % wordRange width) = littleEndian width n := by
  have hwritten := littleEndian_littleEndianValue (littleEndian width n)
  rwa [littleEndianValue_littleEndian, length_littleEndian] at hwritten

namespace Code

/-- An instruction whose bytes stand in the code is decoded where they begin. -/
theorem decodeAt_append {code : Code} {before after : Bytes} {i : Instruction}
    (hcode : code.toList = before ++ (i.encode ++ after)) :
    code.decodeAt before.length = .ok i := by
  have hsize : code.size = before.length + (i.size + after.length) := by
    rw [← Array.length_toList, hcode, List.length_append, List.length_append,
      Instruction.length_encode]
  have hopcode : code[before.length]? = some i.opcode.toByte := by
    rw [← Array.getElem?_toList, hcode, List.getElem?_append_right (Nat.le_refl _), Nat.sub_self]
    rfl
  have hoperand : (code.extract (before.length + 1)
      (before.length + 1 + i.opcode.operandSize)).toList =
        littleEndian i.opcode.operandSize i.operand := by
    rw [Array.toList_extract, hcode]
    simp [Instruction.encode, List.extract_eq_take_drop, List.drop_append, List.take_append]
  have hread : littleEndianValue (littleEndian i.opcode.operandSize i.operand) = i.operand := by
    rw [littleEndianValue_littleEndian, Nat.mod_eq_of_lt i.operand_lt]
  rw [decodeAt_eq, hopcode]
  dsimp only
  rw [Opcode.ofByte?_toByte]
  dsimp only
  rw [if_pos, hoperand, hread, Instruction.ofOperand_operand]
  have := hsize
  unfold Instruction.size at this
  omega

/-- A walk over code that consists of instructions ends at the end of the code. -/
theorem Tiles.drain_eq {code : Code} {offset : Nat} {items : List Decoder.Item}
    (h : code.Tiles offset items) (hok : ∀ e, Except.error e ∉ items) (hle : offset ≤ code.size)
    (found : Array Decoder.Item) :
    (Decoder.mk code offset false).drain found =
      (found ++ items.toArray, ⟨code, code.size, false⟩) := by
  induction h generalizing found with
  | @done offset hend =>
    have heq : offset = code.size := by omega
    subst heq
    rw [Decoder.drain_of_next?_none (by simp [Decoder.next?, Decoder.atEnd])]
    simp
  | fault _ _ => exact absurd (List.mem_singleton_self _) (hok _)
  | @next offset i rest hlt hdecode _ ih =>
    have hnext : (Decoder.mk code offset false).next? =
        some (.ok (offset, i), ⟨code, offset + i.size, false⟩) := by
      have hgo : ¬code.size ≤ offset := by omega
      simp [Decoder.next?_eq, Decoder.atEnd, hgo, hdecode]
    have hok' : ∀ e, Except.error e ∉ rest := fun e he => hok e (List.mem_cons_of_mem _ he)
    rw [Decoder.drain_of_next? hnext, ih hok' (add_size_le_of_decodeAt hdecode)]
    simp

end Code

namespace Assembler

/-- What an emitter was asked to append at an offset. -/
inductive Emission where
  /-- An instruction whose operand was passed. -/
  | whole (offset : Nat) (i : Instruction)
  /-- A branch to an address that was passed. -/
  | known (offset : Nat) (branch : Branch) (address : Nat)
  /-- A branch whose label has not been bound. -/
  | pending (offset : Nat) (branch : Branch) (label : Label)
  /-- A branch whose label was bound when the target was the current offset. -/
  | bound (offset : Nat) (branch : Branch) (target : Nat)
  deriving DecidableEq, Repr

namespace Emission

/-- The instruction that stands for an emission in the code, with its offset. Of an address the
lowest 32 bits are kept; it is zero where a label has not been bound. -/
def entry : Emission → Nat × Instruction
  | whole offset i => (offset, i)
  | known offset branch address => (offset, branch.to (UInt32.ofNat address))
  | pending offset branch _ => (offset, branch.to 0)
  | bound offset branch target => (offset, branch.to (UInt32.ofNat target))

/-- The bytes of an emission. -/
def bytes (e : Emission) : Bytes := e.entry.2.encode

/-- The emission stands at the offset, and if it has a label, the label is that of its address. -/
def StandsAt (offset : Nat) (e : Emission) : Prop :=
  e.entry.1 = offset ∧
    ∀ place branch label, e = pending place branch label → label.position = offset + 1

end Emission

/-- A sequence of calls on a new assembler, with what its emitters were asked to append. A call that
binds takes a label that an emitter has returned and that has not been bound. -/
inductive Builds : Assembler → List Emission → Prop where
  | start : Builds {} []
  | emit {a : Assembler} {emissions : List Emission} (h : Builds a emissions) (i : Instruction) :
      Builds (a.emit i) (emissions ++ [.whole a.offset i])
  | emitTo {a : Assembler} {emissions : List Emission} (h : Builds a emissions) (branch : Branch)
      (address : Nat) :
      Builds (a.emitTo branch address) (emissions ++ [.known a.offset branch address])
  | emitBranch {a : Assembler} {emissions : List Emission} (h : Builds a emissions)
      (branch : Branch) :
      Builds (a.emitBranch branch).1
        (emissions ++ [.pending a.offset branch (a.emitBranch branch).2])
  | bind {a : Assembler} (before after : List Emission) {offset : Nat} {branch : Branch}
      {label : Label} (h : Builds a (before ++ .pending offset branch label :: after)) :
      Builds (a.bind label) (before ++ .bound offset branch a.offset :: after)

/-- Emissions stand one after the other from an offset on. -/
def Placed : Nat → List Emission → Prop
  | _, [] => True
  | offset, e :: rest => e.StandsAt offset ∧ Placed (offset + e.bytes.length) rest

/-- Later emissions are placed behind earlier ones. -/
theorem placed_append {offset : Nat} {emissions others : List Emission} :
    Placed offset (emissions ++ others) ↔
      Placed offset emissions ∧
        Placed (offset + (emissions.flatMap Emission.bytes).length) others := by
  induction emissions generalizing offset with
  | nil => simp [Placed]
  | cons e rest ih =>
    simp only [List.cons_append, Placed, ih, List.flatMap_cons, List.length_append, and_assoc,
      Nat.add_assoc]

/-- The code has the bytes of the emissions and nothing else. -/
structure Lays (a : Assembler) (emissions : List Emission) : Prop where
  code : a.code.toList = emissions.flatMap Emission.bytes
  placed : Placed 0 emissions

/-- The offset is behind the bytes of all emissions. -/
theorem Lays.offset_eq {a : Assembler} {emissions : List Emission} (h : a.Lays emissions) :
    a.offset = (emissions.flatMap Emission.bytes).length := by
  rw [offset, ← Array.length_toList, h.code]

/-- An instruction is appended after all others. -/
theorem Lays.emit {a : Assembler} {emissions : List Emission} (h : a.Lays emissions)
    {i : Instruction} {e : Emission} (hbytes : e.bytes = i.encode) (hstands : e.StandsAt a.offset) :
    (a.emit i).Lays (emissions ++ [e]) where
  code := by simp [toList_code_emit, h.code, hbytes]
  placed := by
    rw [placed_append]
    refine ⟨h.placed, ?_, trivial⟩
    rwa [Nat.zero_add, ← h.offset_eq]

/-- Overwriting exchanges bytes for as many others. -/
theorem toList_overwrite {code : Code} {before old new after : Bytes}
    (hcode : code.toList = before ++ (old ++ after)) (hlength : old.length = new.length) :
    (overwrite code before.length new).toList = before ++ (new ++ after) := by
  induction new generalizing code before old with
  | nil =>
    rw [List.eq_nil_of_length_eq_zero hlength] at hcode
    exact hcode
  | cons b rest ih =>
    obtain ⟨c, old, rfl⟩ := List.exists_cons_of_length_eq_add_one hlength
    have hset : (code.setIfInBounds before.length b).toList =
        (before ++ [b]) ++ (old ++ after) := by
      rw [Array.toList_setIfInBounds, hcode, List.set_append_right _ _ (Nat.le_refl _),
        Nat.sub_self]
      simp
    have hrest := ih hset (by simpa using hlength)
    rw [List.length_append, List.length_singleton] at hrest
    rw [overwrite, hrest]
    simp

/-- A branch is its opcode byte with the four bytes of its address. -/
theorem encode_to (branch : Branch) (address : UInt32) :
    (branch.to address).encode = branch.opcode.toByte :: littleEndian 4 address.toNat := by
  cases branch <;> rfl

/-- Binding a label replaces the address of its own branch. -/
theorem Lays.bind {a : Assembler} {before after : List Emission} {offset : Nat} {branch : Branch}
    {label : Label} (h : a.Lays (before ++ .pending offset branch label :: after)) :
    (a.bind label).Lays (before ++ .bound offset branch a.offset :: after) := by
  obtain ⟨hbefore, ⟨hstands, hlabel⟩, hafter⟩ := placed_append.mp h.placed
  rw [Nat.zero_add] at hstands hlabel hafter
  have hposition := hlabel offset branch label rfl
  let address := UInt32.ofNat a.offset
  have haddress : littleEndian 4 a.offset = littleEndian 4 address.toNat := by
    rw [UInt32.toNat_ofNat', ← littleEndian_mod]
    rfl
  constructor
  · have hcode : a.code.toList =
        (before.flatMap Emission.bytes ++ [branch.opcode.toByte]) ++
          (littleEndian 4 (0 : UInt32).toNat ++ after.flatMap Emission.bytes) := by
      rw [h.code, List.flatMap_append, List.flatMap_cons]
      simp [Emission.bytes, Emission.entry, encode_to]
    have hlength :
        (littleEndian 4 (0 : UInt32).toNat).length = (littleEndian 4 a.offset).length := by
      simp
    have hwritten := toList_overwrite hcode hlength
    rw [List.length_append, List.length_singleton, ← hposition] at hwritten
    rw [Assembler.bind]
    dsimp only
    rw [hwritten, haddress]
    simp [Emission.bytes, Emission.entry, encode_to branch address, address]
  · rw [placed_append]
    have hlength : (Emission.bound offset branch a.offset).bytes.length =
        (Emission.pending offset branch label).bytes.length := by
      simp [Emission.bytes, Emission.entry, Instruction.size]
    refine ⟨hbefore, ?_, ?_⟩
    · rw [Nat.zero_add]
      refine ⟨hstands, ?_⟩
      intro _ _ _ heq
      cases heq
    · rw [Nat.zero_add, hlength]
      exact hafter

/-- Whatever has been called, the code has the bytes of what was emitted. -/
theorem Builds.lays {a : Assembler} {emissions : List Emission} (h : a.Builds emissions) :
    a.Lays emissions := by
  induction h with
  | start => exact ⟨rfl, trivial⟩
  | emit _ i ih => exact ih.emit rfl ⟨rfl, nofun⟩
  | @emitTo a _ _ branch address ih =>
    rw [a.emitTo_eq]
    exact ih.emit rfl ⟨rfl, nofun⟩
  | @emitBranch a _ _ branch ih =>
    rw [a.emitBranch_fst]
    refine ih.emit rfl ⟨rfl, ?_⟩
    rintro _ _ _ heq
    cases heq
    exact a.position_emitBranch branch
  | bind _ _ _ ih => exact ih.bind

/-- The instructions of emissions that are laid out tile the code. -/
theorem tiles_of_placed {code : Code} (before : Bytes) {emissions : List Emission}
    (hcode : code.toList = before ++ emissions.flatMap Emission.bytes)
    (hplaced : Placed before.length emissions) :
    code.Tiles before.length (emissions.map fun e => .ok e.entry) := by
  induction emissions generalizing before with
  | nil =>
    refine .done ?_
    rw [← Array.length_toList, hcode]
    simp
  | cons e rest ih =>
    obtain ⟨⟨hoffset, _⟩, hrest⟩ := hplaced
    have hentry : e.entry = (before.length, e.entry.2) := by rw [← hoffset]
    have hdecode : code.decodeAt before.length = .ok e.entry.2 := Code.decodeAt_append hcode
    have hlt : before.length < code.size := by
      have hle := Code.add_size_le_of_decodeAt hdecode
      have hpos := e.entry.2.size_pos
      omega
    have htiles := ih (before ++ e.bytes) (by rw [hcode]; simp) (by simpa using hrest)
    rw [List.map_cons, hentry]
    refine .next hlt hdecode ?_
    simpa [Emission.bytes] using htiles

/-- A decoder finds exactly the instructions that were emitted, each at the offset that was current
before it, and ends at the end of the code. -/
theorem Builds.decodes {a : Assembler} {emissions : List Emission} (h : a.Builds emissions) :
    (Decoder.mk a.code 0 false).run =
      ((emissions.map fun e => .ok e.entry).toArray, ⟨a.code, a.code.size, false⟩) := by
  have htiles : a.code.Tiles 0 (emissions.map fun e => .ok e.entry) :=
    tiles_of_placed [] h.lays.code h.lays.placed
  unfold Decoder.run
  rw [htiles.drain_eq (by simp) (Nat.zero_le _), Array.empty_append]

/-- A jump over an instruction, bound after it, is decoded with the offset behind it. -/
theorem decodes_forward_jump :
    let a := ((((({} : Assembler).emit (.pushInt 0)).emitBranch .jumpIfZero).1.emit
      (.pushInt 1)).bind ⟨6⟩).emit .done
    (Decoder.mk a.code 0 false).run =
      (#[.ok (0, .pushInt 0), .ok (5, .jumpIfZero 15), .ok (10, .pushInt 1), .ok (15, .done)],
        ⟨a.code, 16, false⟩) := by
  have hpending := ((Builds.start.emit (.pushInt 0)).emitBranch .jumpIfZero).emit (.pushInt 1)
  have hbound := hpending.bind [.whole 0 (.pushInt 0)] [.whole 10 (.pushInt 1)]
  exact (hbound.emit .done).decodes

end Assembler

end Swarm
