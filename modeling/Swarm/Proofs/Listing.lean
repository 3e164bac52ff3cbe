import Swarm.Program.Image

/-!
# Where instructions start

A decoder cuts code into items that follow each other without a gap. In the code
of a program every item is an instruction, so the offset after an instruction is
the start of another one or the end of the code. The addresses and the string
indices in the code of a program that was read from an image are valid.
-/

namespace Swarm

namespace Code

/-- An instruction starts at the offset: the decoder finds it there. -/
def IsStart (code : Code) (offset : Nat) : Prop :=
  ∃ i, Except.ok (offset, i) ∈ code.items.toList

/-- Execution can stand at the offset: an instruction starts there, or the code ends. -/
def IsBoundary (code : Code) (offset : Nat) : Prop :=
  code.IsStart offset ∨ offset = code.size

/-- The items from an offset on: each instruction is followed by the items after it, and a
fault by nothing. -/
inductive Tiles (code : Code) : Nat → List Decoder.Item → Prop where
  | done {offset : Nat} (h : code.size ≤ offset) : Tiles code offset []
  | fault {offset : Nat} {e : DecodeError} (h : offset < code.size)
      (hdecode : code.decodeAt offset = .error e) : Tiles code offset [.error e]
  | next {offset : Nat} {i : Instruction} {rest : List Decoder.Item} (h : offset < code.size)
      (hdecode : code.decodeAt offset = .ok i) (hrest : Tiles code (offset + i.size) rest) :
      Tiles code offset (.ok (offset, i) :: rest)

/-- A decoded instruction lies inside the code. -/
theorem add_size_le_of_decodeAt {code : Code} {offset : Nat} {i : Instruction}
    (h : code.decodeAt offset = .ok i) : offset + i.size ≤ code.size := by
  rw [decodeAt_eq] at h
  split at h
  · cases h
  · split at h
    · cases h
    · split at h
      · cases h
        simp only [Instruction.size, Instruction.opcode_ofOperand]
        omega
      · cases h

/-- Outside the code there is nothing to decode. -/
theorem decodeAt_eq_outOfBounds {code : Code} {offset : Nat} (h : code.size ≤ offset) :
    code.decodeAt offset = .error (.outOfBounds offset) := by
  simp [decodeAt_eq, Array.getElem?_eq_none h]

end Code

namespace Decoder

/-- A walk that is over finds nothing more. -/
theorem drain_of_next?_none {d : Decoder} (h : d.next? = none) (found : Array Item) :
    d.drain found = (found, d) := by
  unfold drain
  split
  · rfl
  · rename_i heq
    rw [h] at heq
    cases heq

/-- A walk that is not over goes on after its next item. -/
theorem drain_of_next? {d e : Decoder} {item : Item} (h : d.next? = some (item, e))
    (found : Array Item) : d.drain found = e.drain (found.push item) := by
  conv => lhs; unfold drain
  split
  · rename_i heq
    rw [h] at heq
    cases heq
  · rename_i heq
    rw [h] at heq
    cases heq
    rfl

/-- A walk that has failed finds nothing more. -/
theorem drain_of_failed {d : Decoder} (h : d.failed = true) (found : Array Item) :
    d.drain found = (found, d) :=
  drain_of_next?_none (by simp [next?, h]) found

/-- A walk that has not failed appends the items from its offset on. -/
theorem drain_eq_append {d : Decoder} (hfailed : d.failed = false) (found : Array Item) :
    ∃ items, (d.drain found).1.toList = found.toList ++ items ∧
      d.code.Tiles d.offset items := by
  induction d, found using drain.induct with
  | case1 d found hnext =>
    refine ⟨[], by rw [drain_of_next?_none hnext, List.append_nil], .done ?_⟩
    rw [next?_eq] at hnext
    split at hnext
    · rename_i hend
      simpa [hfailed, atEnd] using hend
    · split at hnext <;> cases hnext
  | case2 d found item e hnext hlt ih =>
    have hdrain := drain_of_next? hnext found
    rw [next?_eq] at hnext
    split at hnext
    · cases hnext
    · rename_i hgo
      have hoffset : d.offset < d.code.size := by
        simpa [hfailed, atEnd] using hgo
      split at hnext
      · rename_i i hdecode
        cases hnext
        obtain ⟨items, hitems, htiles⟩ := ih hfailed
        refine ⟨.ok (d.offset, i) :: items, ?_, .next hoffset hdecode htiles⟩
        rw [hdrain, hitems]
        simp
      · rename_i error hdecode
        cases hnext
        refine ⟨[.error error], ?_, .fault hoffset hdecode⟩
        rw [hdrain, drain_of_failed rfl]
        simp

end Decoder

namespace Code

/-- The items of a code section are those from its start on. -/
theorem tiles_items (code : Code) : code.Tiles 0 code.items.toList := by
  obtain ⟨items, hitems, htiles⟩ := Decoder.drain_eq_append (d := ⟨code, 0, false⟩) rfl #[]
  have heq : code.items.toList = items := by
    simpa [Code.items, Decoder.run] using hitems
  rwa [heq]

/-- An instruction among the items was decoded where it stands. -/
theorem Tiles.decodeAt_of_mem {code : Code} {start offset : Nat} {items : List Decoder.Item}
    {i : Instruction} (h : code.Tiles start items) (hmem : Except.ok (offset, i) ∈ items) :
    code.decodeAt offset = .ok i := by
  induction h with
  | done _ => cases hmem
  | fault _ _ => simp at hmem
  | next _ hdecode _ ih =>
    rcases List.mem_cons.mp hmem with heq | hmem
    · cases heq
      exact hdecode
    · exact ih hmem

/-- Where all items are instructions, the first one starts at the start of the walk. -/
theorem Tiles.head_mem {code : Code} {start : Nat} {items : List Decoder.Item}
    (h : code.Tiles start items) (hok : ∀ e, Except.error e ∉ items) (hle : start ≤ code.size) :
    (∃ i, Except.ok (start, i) ∈ items) ∨ start = code.size := by
  cases h with
  | done hend => exact .inr (by omega)
  | fault _ _ => exact absurd (List.mem_singleton_self _) (hok _)
  | next _ _ _ => exact .inl ⟨_, List.mem_cons_self⟩

/-- Where all items are instructions, each is followed by another one or by the end. -/
theorem Tiles.next_mem {code : Code} {start offset : Nat} {items : List Decoder.Item}
    {i : Instruction} (h : code.Tiles start items) (hok : ∀ e, Except.error e ∉ items)
    (hmem : Except.ok (offset, i) ∈ items) :
    (∃ j, Except.ok (offset + i.size, j) ∈ items) ∨ offset + i.size = code.size := by
  induction h with
  | done _ => cases hmem
  | fault _ _ => simp at hmem
  | next _ hdecode hrest ih =>
    have hok' : ∀ e, Except.error e ∉ _ := fun e he => hok e (List.mem_cons_of_mem _ he)
    rcases List.mem_cons.mp hmem with heq | hmem
    · cases heq
      rcases hrest.head_mem hok' (add_size_le_of_decodeAt hdecode) with ⟨j, hj⟩ | hend
      · exact .inl ⟨j, List.mem_cons_of_mem _ hj⟩
      · exact .inr hend
    · rcases ih hok' hmem with ⟨j, hj⟩ | hend
      · exact .inl ⟨j, List.mem_cons_of_mem _ hj⟩
      · exact .inr hend

/-- The instruction that starts at an offset is the one decoded there. -/
theorem IsStart.decodeAt {code : Code} {offset : Nat} (h : code.IsStart offset) :
    ∃ i, code.decodeAt offset = .ok i ∧ Except.ok (offset, i) ∈ code.items.toList := by
  obtain ⟨i, hi⟩ := h
  exact ⟨i, code.tiles_items.decodeAt_of_mem hi, hi⟩

/-- The start of an instruction is a boundary. -/
theorem IsStart.isBoundary {code : Code} {offset : Nat} (h : code.IsStart offset) :
    code.IsBoundary offset := .inl h

end Code

namespace Program

/-- An item that passes the check is an instruction whose string operand is in range. -/
theorem eq_ok_of_checkItem {stringCount : Nat} {item : Decoder.Item} {entry : Nat × Instruction}
    (h : checkItem stringCount item = .ok entry) :
    item = .ok entry ∧ ∀ s, entry.2.string? = some s → s.toNat < stringCount := by
  unfold checkItem at h
  split at h
  · cases h
  · rename_i offset i
    split at h
    · rename_i hnone
      cases h
      exact ⟨rfl, fun s hs => by simp [hnone] at hs⟩
    · rename_i string hsome
      split at h
      · rename_i hlt
        cases h
        exact ⟨rfl, fun s hs => by rw [hsome] at hs; cases hs; exact hlt⟩
      · cases h

/-- Items that all pass the check are instructions whose string operands are in range. -/
theorem eq_map_of_mapM_checkItem {stringCount : Nat} {items : List Decoder.Item}
    {listing : List (Nat × Instruction)} (h : items.mapM (checkItem stringCount) = .ok listing) :
    items = listing.map .ok ∧
      ∀ entry ∈ listing, ∀ s, entry.2.string? = some s → s.toNat < stringCount := by
  induction items generalizing listing with
  | nil =>
    cases h
    simp
  | cons item items ih =>
    rw [List.mapM_cons] at h
    cases hitem : checkItem stringCount item with
    | error e =>
      rw [hitem] at h
      cases h
    | ok entry =>
      cases hrest : items.mapM (checkItem stringCount) with
      | error e =>
        rw [hitem, hrest] at h
        cases h
      | ok rest =>
        rw [hitem, hrest] at h
        cases h
        obtain ⟨heq, hlt⟩ := eq_ok_of_checkItem hitem
        obtain ⟨hmap, hall⟩ := ih hrest
        refine ⟨by rw [heq, hmap]; rfl, ?_⟩
        intro entry' hmem
        rcases List.mem_cons.mp hmem with rfl | hmem
        · exact hlt
        · exact hall entry' hmem

/-- The address operands of a listing that passes the check are starts. -/
theorem mem_starts_of_forM_checkAddress {starts : Std.TreeSet UInt32}
    {listing : List (Nat × Instruction)} (h : listing.forM (checkAddress starts) = .ok ()) :
    ∀ entry ∈ listing, ∀ a, entry.2.address? = some a → starts.contains a = true := by
  induction listing with
  | nil => simp
  | cons entry listing ih =>
    change (checkAddress starts entry >>= fun _ => listing.forM (checkAddress starts)) = _ at h
    cases hentry : checkAddress starts entry with
    | error e =>
      rw [hentry] at h
      cases h
    | ok _ =>
      rw [hentry] at h
      intro entry' hmem a ha
      rcases List.mem_cons.mp hmem with rfl | hmem
      · unfold checkAddress at hentry
        rw [ha] at hentry
        simpa using hentry
      · exact ih h entry' hmem a ha

/-- The code of a program can be listed: every item is an instruction, every string operand
is in range and every address operand is the start of an instruction. -/
theorem exists_listing (p : Program) :
    ∃ listing : List (Nat × Instruction), p.code.items.toList = listing.map .ok ∧
      (∀ entry ∈ listing, ∀ s, entry.2.string? = some s → s.toNat < p.strings.size) ∧
      ∀ entry ∈ listing, ∀ a, entry.2.address? = some a →
        ∃ target ∈ listing, UInt32.ofNat target.1 = a := by
  have hcheck := p.checked
  unfold check at hcheck
  split at hcheck
  · cases hcheck
  · cases hmap : p.code.items.toList.mapM (checkItem p.strings.size) with
    | error e =>
      rw [hmap] at hcheck
      cases hcheck
    | ok listing =>
      rw [hmap] at hcheck
      obtain ⟨hitems, hstrings⟩ := eq_map_of_mapM_checkItem hmap
      refine ⟨listing, hitems, hstrings, fun entry hentry a ha => ?_⟩
      have hstart := mem_starts_of_forM_checkAddress hcheck entry hentry a ha
      simpa [starts, Std.TreeSet.contains_ofList] using hstart

/-- The code of a program is not empty. -/
theorem code_ne_empty (p : Program) : 0 < p.code.size := by
  have hcheck := p.checked
  unfold check at hcheck
  split at hcheck
  · cases hcheck
  · rename_i hempty
    simpa [Nat.pos_iff_ne_zero] using hempty

/-- The items of a program are not faults. -/
theorem error_not_mem_items (p : Program) (e : DecodeError) :
    Except.error e ∉ p.code.items.toList := by
  obtain ⟨listing, hitems, _⟩ := p.exists_listing
  simp [hitems]

/-- The code of a program begins with an instruction. -/
theorem isStart_zero (p : Program) : p.code.IsStart 0 := by
  rcases p.code.tiles_items.head_mem p.error_not_mem_items (Nat.zero_le _) with h | h
  · exact h
  · have := p.code_ne_empty
    omega

/-- Execution goes on at a boundary after each instruction of a program. -/
theorem isBoundary_next (p : Program) {offset : Nat} {i : Instruction}
    (h : Except.ok (offset, i) ∈ p.code.items.toList) : p.code.IsBoundary (offset + i.size) :=
  p.code.tiles_items.next_mem p.error_not_mem_items h

/-- String operands in a program are in range. -/
theorem string_lt (p : Program) {offset : Nat} {i : Instruction} {s : UInt16}
    (h : Except.ok (offset, i) ∈ p.code.items.toList) (hs : i.string? = some s) :
    s.toNat < p.strings.size := by
  obtain ⟨listing, hitems, hstrings, _⟩ := p.exists_listing
  rw [hitems] at h
  obtain ⟨entry, hentry, heq⟩ := List.mem_map.mp h
  cases heq
  exact hstrings _ hentry s hs

/-- Addresses in a program whose code is addressable are starts of instructions. -/
theorem isStart_address (p : Program) (hsize : p.code.size ≤ UInt32.size) {offset : Nat}
    {i : Instruction} {a : UInt32} (h : Except.ok (offset, i) ∈ p.code.items.toList)
    (ha : i.address? = some a) : p.code.IsStart a.toNat := by
  obtain ⟨listing, hitems, _, haddresses⟩ := p.exists_listing
  rw [hitems] at h
  obtain ⟨entry, hentry, heq⟩ := List.mem_map.mp h
  cases heq
  obtain ⟨target, htarget, rfl⟩ := haddresses _ hentry a ha
  have hmem : Except.ok (target.1, target.2) ∈ p.code.items.toList := by
    rw [hitems]
    exact List.mem_map_of_mem htarget
  have hdecode := p.code.tiles_items.decodeAt_of_mem hmem
  have hbound := Code.add_size_le_of_decodeAt hdecode
  have hpos := target.2.size_pos
  have hlt : target.1 < UInt32.size := by omega
  rw [UInt32.toNat_ofNat_of_lt' hlt]
  exact ⟨target.2, hmem⟩

/-- A program is made of the strings and the code that were given. -/
theorem code_of_new? {strings : Array Bytes} {code : Code} {p : Program}
    (h : new? strings code = .ok p) : p.code = code := by
  unfold new? at h
  split at h <;> cases h
  rfl

/-- A code section that was read is as long as a word of four bytes can say. -/
theorem size_lt_of_readCode {bs : Bytes} {code : Code} (h : readCode bs = .ok code) :
    code.size < UInt32.size := by
  unfold readCode at h
  split at h
  · cases h
  · rename_i size rest hword
    split at h
    · cases h
    · rename_i front rest' hcut
      split at h
      · cases h
        obtain ⟨word, hfour, heq⟩ := Option.map_eq_some_iff.mp hword
        cases heq
        have hvalue := littleEndianValue_lt word.1
        rw [(Bytes.eq_append_of_cut? hfour).2] at hvalue
        rw [List.size_toArray, (Bytes.eq_append_of_cut? hcut).2]
        exact hvalue
      · cases h

/-- A program that is read from an image has addressable code. -/
theorem size_lt_of_ofBytes {bs : Bytes} {p : Program} (h : ofBytes bs = .ok p) :
    p.code.size < UInt32.size := by
  have hbody : ∃ rest, readBody rest = .ok p := by
    unfold ofBytes at h
    split at h
    · cases h
    · split at h
      · cases h
      · split at h
        · cases h
        · split at h
          · exact ⟨_, h⟩
          · cases h
  obtain ⟨rest, hread⟩ := hbody
  unfold readBody at hread
  split at hread
  · cases hread
  · split at hread
    · cases hread
    · rename_i code hcode
      rw [code_of_new? hread]
      exact size_lt_of_readCode hcode

end Program

end Swarm
