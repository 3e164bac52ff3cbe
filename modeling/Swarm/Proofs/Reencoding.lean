import Swarm.Proofs.Assembly
import Swarm.Proofs.WellFormed

/-!
# Decoded code is written back

Whatever bytes are decoded, the instruction that is found is the one whose encoding stands there.
So a walk over any code section retells it: the instructions that it finds stand one after the
other without a gap, and emitting them again gives the code back up to its end, or up to the only
fault.
-/

namespace Swarm

/-- The offset that a decoding fault tells of. -/
def DecodeError.offset : DecodeError → Nat
  | .invalidOpcode offset _ | .truncated offset _ | .outOfBounds offset => offset

namespace Code

/-- A decoding fault tells of the offset where decoding was tried. -/
theorem offset_of_decodeAt {code : Code} {offset : Nat} {e : DecodeError}
    (h : code.decodeAt offset = .error e) : e.offset = offset := by
  rw [decodeAt_eq] at h
  split at h
  · cases h
    rfl
  · split at h
    · cases h
      rfl
    · split at h <;> cases h
      rfl

/-- The bytes that were read for an instruction are those that it is encoded in. -/
theorem extract_of_decodeAt {code : Code} {offset : Nat} {i : Instruction}
    (h : code.decodeAt offset = .ok i) :
    (code.extract offset (offset + i.size)).toList = i.encode := by
  rw [decodeAt_eq] at h
  split at h
  · cases h
  · rename_i byte hbyte
    split at h
    · cases h
    · rename_i op hop
      split at h
      · rename_i hsize
        cases h
        let operand := (code.extract (offset + 1) (offset + 1 + op.operandSize)).toList
        have hlength : operand.length = op.operandSize := by
          simp only [operand, Array.length_toList, Array.size_extract]
          omega
        have hvalue := littleEndianValue_lt operand
        rw [hlength] at hvalue
        have hwritten := littleEndian_littleEndianValue operand
        rw [hlength] at hwritten
        obtain ⟨hlt, hget⟩ := Array.getElem?_eq_some_iff.mp hbyte
        have hslice : (code.extract offset (offset + 1 + op.operandSize)).toList =
            byte :: operand := by
          simp only [operand, Array.toList_extract, List.extract_eq_take_drop]
          rw [List.drop_eq_getElem_cons (by simpa using hlt), ← hget]
          rw [show offset + 1 + op.operandSize - offset =
            offset + 1 + op.operandSize - (offset + 1) + 1 by omega]
          simp
        rw [Instruction.size, Instruction.encode, Instruction.opcode_ofOperand,
          Instruction.operand_ofOperand hvalue, Opcode.toByte_of_ofByte? hop, ← Nat.add_assoc]
        rw [hslice, hwritten]
      · cases h

/-- Decoding from the first offset lists the instructions, each where the one before it ends, and
comes to the second offset. -/
inductive Lists (code : Code) : Nat → List (Nat × Instruction) → Nat → Prop where
  | stay (offset : Nat) : Lists code offset [] offset
  | step {offset stop : Nat} {i : Instruction} {rest : List (Nat × Instruction)}
      (hdecode : code.decodeAt offset = .ok i) (hrest : Lists code (offset + i.size) rest stop) :
      Lists code offset ((offset, i) :: rest) stop

variable {code : Code}

/-- A listing reaches from its first offset to its last. -/
theorem Lists.reaches {start stop : Nat} {listing : List (Nat × Instruction)}
    (h : code.Lists start listing stop) : code.Decodes start stop := by
  induction h with
  | stay offset => exact .stay offset
  | step hdecode _ ih => exact .step hdecode ih

/-- From every offset decoding lists instructions up to the end of the code or to a fault. -/
theorem exists_lists {start : Nat} (hle : start ≤ code.size) :
    ∃ listing stop, code.Lists start listing stop ∧
      (stop = code.size ∨ stop < code.size ∧ ∃ e, code.decodeAt stop = .error e) := by
  induction hleft : code.size - start using Nat.strongRecOn generalizing start with
  | _ left ih =>
    rcases Nat.eq_or_lt_of_le hle with heq | hlt
    · exact ⟨[], start, .stay start, .inl heq⟩
    · cases hdecode : code.decodeAt start with
      | error e => exact ⟨[], start, .stay start, .inr ⟨hlt, e, hdecode⟩⟩
      | ok i =>
        have hpos := i.size_pos
        obtain ⟨listing, stop, hlists, hend⟩ :=
          ih _ (by omega) (add_size_le_of_decodeAt hdecode) rfl
        exact ⟨_, stop, .step hdecode hlists, hend⟩

/-- The instructions that are listed are encoded in the bytes that decoding has passed. -/
theorem Lists.encode {start stop : Nat} {listing : List (Nat × Instruction)}
    (h : code.Lists start listing stop) :
    listing.flatMap (fun entry => entry.2.encode) = (code.extract start stop).toList := by
  induction h with
  | stay offset => simp
  | @step offset stop i rest hdecode hrest ih =>
    have hle := hrest.reaches.le
    rw [List.flatMap_cons, ih, ← extract_of_decodeAt hdecode, ← Array.toList_append,
      Array.extract_append_extract, Nat.min_eq_left (Nat.le_add_right _ _), Nat.max_eq_right hle]

/-- A walk finds the instructions that are listed from where it stands. -/
theorem Lists.drain_eq {start stop : Nat} {listing : List (Nat × Instruction)}
    (h : code.Lists start listing stop) (found : Array Decoder.Item) :
    (Decoder.mk code start false).drain found =
      (Decoder.mk code stop false).drain (found ++ (listing.map .ok).toArray) := by
  induction h generalizing found with
  | stay offset => simp
  | @step offset stop i rest hdecode _ ih =>
    have hnext : (Decoder.mk code offset false).next? =
        some (.ok (offset, i), ⟨code, offset + i.size, false⟩) := by
      have hgo : ¬code.size ≤ offset := Nat.not_le.mpr (lt_size_of_decodeAt hdecode)
      simp [Decoder.next?_eq, Decoder.atEnd, hgo, hdecode]
    rw [Decoder.drain_of_next? hnext, ih]
    simp

end Code

namespace Assembler

/-- The bytes are what the emitter of the instruction appends to any code. An emitter that returns
a label appends them once the four bytes of the address are filled in. -/
structure Writes (i : Instruction) (bytes : Bytes) : Prop where
  /-- The instruction is emitted as a whole. -/
  emit : ∀ a : Assembler, (a.emit i).code.toList = a.code.toList ++ bytes
  /-- The instruction is a branch that is emitted with a label. -/
  label : ∀ (a : Assembler) (branch : Branch) (address : UInt32), i = branch.to address →
    (overwrite (a.emitBranch branch).1.code (a.emitBranch branch).2.position
      (littleEndian 4 address.toNat)).toList = a.code.toList ++ bytes

/-- The emitters write the bytes that decoding reads. -/
theorem writes_encode (i : Instruction) : Writes i i.encode where
  emit a := a.toList_code_emit i
  label := by
    rintro a branch address rfl
    have hcode : (a.emitBranch branch).1.code.toList =
        (a.code.toList ++ [branch.opcode.toByte]) ++
          (littleEndian 4 (0 : UInt32).toNat ++ []) := by
      simp [emitBranch_fst, toList_code_emit, encode_to]
    have hposition : (a.emitBranch branch).2.position =
        (a.code.toList ++ [branch.opcode.toByte]).length := by
      simp [position_emitBranch, offset]
    rw [hposition, toList_overwrite hcode (by simp), encode_to branch address]
    simp

/-- The instructions of a listing, emitted one after the other. -/
def reassemble (listing : List (Nat × Instruction)) : Assembler :=
  listing.foldl (fun a entry => a.emit entry.2) {}

/-- Emitting a listing lays the encodings of its instructions one behind the other. -/
theorem toList_code_reassemble (listing : List (Nat × Instruction)) :
    (reassemble listing).code.toList = listing.flatMap fun entry => entry.2.encode := by
  have hkeep (a : Assembler) : (listing.foldl (fun a entry => a.emit entry.2) a).code.toList =
      a.code.toList ++ listing.flatMap fun entry => entry.2.encode := by
    induction listing generalizing a with
    | nil => simp
    | cons entry rest ih =>
      rw [List.foldl_cons, ih, (writes_encode entry.2).emit, List.flatMap_cons, List.append_assoc]
  simpa [reassemble] using hkeep {}

end Assembler

namespace Decoder

/-- The instructions among the items of a walk. -/
def told (items : Array Item) : List (Nat × Instruction) :=
  items.toList.filterMap Except.toOption

/-- A walk over the code has found the items and is exhausted. -/
structure Retells (code : Code) (items : Array Item) (d : Decoder) : Prop where
  /-- The instructions stand one after the other, from the start of the code to where the walk has
  stopped. -/
  adjoins : code.Lists 0 (told items) d.offset
  /-- Emitting them again gives the bytes up to there. -/
  rewritten : (Assembler.reassemble (told items)).code = code.extract 0 d.offset
  /-- The walk has stopped at the end of the code, or else with the only fault, which is its last
  item and tells of the offset where it has stopped. -/
  ends : items.toList = (told items).map .ok ∧ d.offset = code.size ∨
    ∃ e, items.toList = (told items).map .ok ++ [.error e] ∧ e.offset = d.offset ∧
      d.offset < code.size
  /-- Without a fault, emitting the instructions again gives the whole code. -/
  whole : (∀ e, Except.error e ∉ items) → (Assembler.reassemble (told items)).code = code
  /-- The walk finds nothing more. -/
  exhausted : d.next? = none

/-- The instructions of a listing come before those of what follows it. -/
theorem told_append (listing : List (Nat × Instruction)) (rest : List Item) :
    told (listing.map Except.ok ++ rest).toArray = listing ++ told rest.toArray := by
  simp [told, List.filterMap_map, Function.comp_def, Except.toOption]

/-- A walk that has listed instructions from the start of the code and then found an ending
retells the code, if the ending is what decoding gives at the place. -/
theorem retells_of_lists {code : Code} {stop : Nat} {listing : List (Nat × Instruction)}
    (h : code.Lists 0 listing stop) (ending : List Item) {d : Decoder} (hoffset : d.offset = stop)
    (hexhausted : d.next? = none)
    (hending : ending = [] ∧ stop = code.size ∨
      ∃ e, ending = [.error e] ∧ e.offset = stop ∧ stop < code.size) :
    Retells code (listing.map Except.ok ++ ending).toArray d := by
  have htold : told (listing.map Except.ok ++ ending).toArray = listing := by
    rw [told_append]
    rcases hending with ⟨rfl, -⟩ | ⟨e, rfl, -⟩ <;> simp [told, Except.toOption]
  have hrewritten : (Assembler.reassemble listing).code = code.extract 0 stop := by
    rw [← Array.toList_inj, Assembler.toList_code_reassemble, h.encode]
  subst hoffset
  constructor
  · rwa [htold]
  · rwa [htold]
  · rw [htold]
    rcases hending with ⟨rfl, hend⟩ | ⟨e, rfl, he, hlt⟩
    · exact .inl ⟨List.append_nil _, hend⟩
    · exact .inr ⟨e, rfl, he, hlt⟩
  · intro hok
    rw [htold, hrewritten]
    rcases hending with ⟨rfl, hend⟩ | ⟨e, rfl, -⟩
    · rw [hend, Array.extract_size]
    · exact absurd (by simp) (hok e)
  · exact hexhausted

/-- Every walk over a code section from its start retells the code. -/
theorem retells_run (code : Code) :
    Retells code (Decoder.mk code 0 false).run.1 (Decoder.mk code 0 false).run.2 := by
  obtain ⟨listing, stop, hlists, hend⟩ := Code.exists_lists (Nat.zero_le code.size)
  unfold run
  rw [hlists.drain_eq]
  rcases hend with rfl | ⟨hlt, e, hdecode⟩
  · have hnext : (Decoder.mk code code.size false).next? = none := by simp [next?, atEnd]
    rw [drain_of_next?_none hnext]
    simpa using retells_of_lists hlists [] rfl hnext (.inl ⟨rfl, rfl⟩)
  · have hgo : ¬code.size ≤ stop := Nat.not_le.mpr hlt
    have hnext : (Decoder.mk code stop false).next? =
        some (.error e, ⟨code, stop, true⟩) := by
      simp [next?_eq, atEnd, hgo, hdecode]
    rw [drain_of_next? hnext, drain_of_failed rfl]
    have hfault := Code.offset_of_decodeAt hdecode
    simpa using retells_of_lists hlists [.error e] (d := ⟨code, stop, true⟩) rfl
      (by simp [next?]) (.inr ⟨e, rfl, hfault, hlt⟩)

end Decoder

/-- An instruction that is decoded is followed by the next offset, both lie inside the code, and
the bytes between them are what emitting the instruction writes. A walk retells the code: its
instructions follow each other without a gap, and emitting them again gives the code up to its
end or up to the only fault. -/
theorem Code.reencodes (code : Code) :
    (∀ offset i next, code.decodeNext offset = .ok (i, next) →
      next = offset + i.size ∧ next ≤ code.size ∧
        Assembler.Writes i (code.extract offset next).toList) ∧
    Decoder.Retells code (Decoder.mk code 0 false).run.1 (Decoder.mk code 0 false).run.2 := by
  constructor
  · intro offset i next h
    obtain ⟨hdecode, rfl⟩ := decodeNext_eq_ok_iff.mp h
    refine ⟨rfl, add_size_le_of_decodeAt hdecode, ?_⟩
    rw [extract_of_decodeAt hdecode]
    exact Assembler.writes_encode i
  · exact Decoder.retells_run code

/-- Code that is cut inside its last instruction. -/
def Code.severed : Code := #[3, 5, 0, 0, 0, 8, 16]

/-- The whole instructions of code that is cut are retold up to the cut one. -/
theorem Code.reencodes_severed :
    Code.severed.decodeNext 0 = .ok (.pushInt 5, 5) ∧
      Assembler.Writes (.pushInt 5) [3, 5, 0, 0, 0] ∧
      Decoder.told Code.severed.items = [(0, .pushInt 5), (5, .dup)] ∧
      (Assembler.reassemble [(0, .pushInt 5), (5, .dup)]).code = #[3, 5, 0, 0, 0, 8] := by
  obtain ⟨hnext, hwalk⟩ := reencodes severed
  have hdecode : severed.decodeNext 0 = .ok (.pushInt 5, 5) := by decide
  have htold : Decoder.told severed.items = [(0, .pushInt 5), (5, .dup)] := by decide +kernel
  have hstop : (Decoder.mk severed 0 false).run.2.offset = 6 := by decide +kernel
  refine ⟨hdecode, (hnext 0 _ 5 hdecode).2.2, htold, ?_⟩
  have hrewritten := hwalk.rewritten
  rw [hstop] at hrewritten
  rwa [← htold]

end Swarm
