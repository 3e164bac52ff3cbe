import Swarm.Proofs.Images

/-!
# Which strings and code make a program

Decoding goes from the start of the code from each instruction to the one behind it. What it
comes by is described here without the check: where an instruction stands, which string and
which address it names. The check accepts the well-formed code sections and no others, and it
blames the first fault in the order of the code, faults of single instructions before addresses
that lead nowhere.
-/

namespace Swarm

/-- The instruction names a string. -/
inductive Instruction.Names : Instruction → UInt16 → Prop where
  | pushString (string : UInt16) : Names (.pushString string) string
  | globalLoad (name : UInt16) : Names (.globalLoad name) name
  | globalStore (name : UInt16) : Names (.globalStore name) name

/-- The instruction leads to an address, or makes a function of it. -/
inductive Instruction.Targets : Instruction → UInt32 → Prop where
  | pushClosure (address : UInt32) : Targets (.pushClosure address) address
  | jump (address : UInt32) : Targets (.jump address) address
  | jumpIfZero (address : UInt32) : Targets (.jumpIfZero address) address
  | jumpIfNotZero (address : UInt32) : Targets (.jumpIfNotZero address) address

namespace Code

/-- Decoding one instruction after the other comes from the first offset to the second. -/
inductive Decodes (code : Code) : Nat → Nat → Prop where
  | stay (offset : Nat) : Decodes code offset offset
  | step {offset stop : Nat} {i : Instruction} (hdecode : code.decodeAt offset = .ok i)
      (hrest : Decodes code (offset + i.size) stop) : Decodes code offset stop

/-- Decoding from the start of the code finds the instruction at the offset. -/
def Finds (code : Code) (offset : Nat) (i : Instruction) : Prop :=
  code.Decodes 0 offset ∧ code.decodeAt offset = .ok i

end Code

namespace Program

/-- The code can be decoded as a whole, and it names nothing that does not exist. -/
structure WellFormed (stringCount : Nat) (code : Code) : Prop where
  nonempty : 0 < code.size
  complete : code.Decodes 0 code.size
  strings : ∀ offset i s, code.Finds offset i → i.Names s → s.toNat < stringCount
  addresses : ∀ offset i a, code.Finds offset i → i.Targets a → ∃ j, code.Finds a.toNat j

/-- At the offset there is no instruction, or one that names a string that does not exist. -/
inductive Flawed (stringCount : Nat) (code : Code) : Nat → ProgramError → Prop where
  | undecodable {offset : Nat} {e : DecodeError} (hreach : code.Decodes 0 offset)
      (hlt : offset < code.size) (hdecode : code.decodeAt offset = .error e) :
      Flawed stringCount code offset (.decode e)
  | unknownString {offset : Nat} {i : Instruction} {s : UInt16} (hfinds : code.Finds offset i)
      (hnames : i.Names s) (hrange : stringCount ≤ s.toNat) :
      Flawed stringCount code offset (.stringOutOfRange offset s)

/-- At the offset there is an instruction whose address is not that of an instruction. -/
inductive Misdirected (code : Code) : Nat → ProgramError → Prop where
  | intro {offset : Nat} {i : Instruction} {a : UInt32} (hfinds : code.Finds offset i)
      (htargets : i.Targets a) (hnowhere : ∀ j, ¬ code.Finds a.toNat j) :
      Misdirected code offset (.badAddress offset a)

/-- The error tells what is wrong with the code: that there is none, else the first flaw, and
where nothing is flawed the first address that leads nowhere. -/
inductive Blames (stringCount : Nat) (code : Code) : ProgramError → Prop where
  | empty (h : code.size = 0) : Blames stringCount code .emptyCode
  | flaw {offset : Nat} {error : ProgramError} (h : Flawed stringCount code offset error)
      (hfirst : ∀ m < offset, ∀ e, ¬ Flawed stringCount code m e) :
      Blames stringCount code error
  | address {offset : Nat} {error : ProgramError} (hfine : ∀ m e, ¬ Flawed stringCount code m e)
      (h : Misdirected code offset error) (hfirst : ∀ m < offset, ∀ e, ¬ Misdirected code m e) :
      Blames stringCount code error

end Program

/-! ### What an instruction names -/

namespace Instruction

/-- The string of an instruction is the one that it names. -/
theorem string?_eq_some_iff {i : Instruction} {s : UInt16} : i.string? = some s ↔ i.Names s := by
  constructor
  · intro h
    cases i <;> cases h <;> constructor
  · rintro ⟨⟩ <;> rfl

/-- The address of an instruction is the one that it targets. -/
theorem address?_eq_some_iff {i : Instruction} {a : UInt32} :
    i.address? = some a ↔ i.Targets a := by
  constructor
  · intro h
    cases i <;> cases h <;> constructor
  · rintro ⟨⟩ <;> rfl

end Instruction

/-! ### The offsets that decoding comes to -/

namespace Code

variable {code : Code}

/-- Decoding never goes backwards. -/
theorem Decodes.le {start stop : Nat} (h : code.Decodes start stop) : start ≤ stop := by
  induction h with
  | stay => exact Nat.le_refl _
  | step _ _ ih => exact Nat.le_trans (Nat.le_add_right _ _) ih

/-- There is something to decode only within the code. -/
theorem lt_size_of_decodeAt {offset : Nat} {i : Instruction}
    (h : code.decodeAt offset = .ok i) : offset < code.size := by
  have := add_size_le_of_decodeAt h
  have := i.size_pos
  omega

/-- Decoding that stays inside the code never gets behind its end. -/
theorem Decodes.le_size {start stop : Nat} (h : code.Decodes start stop)
    (hstart : start ≤ code.size) : stop ≤ code.size := by
  induction h with
  | stay => exact hstart
  | step hdecode _ ih => exact ih (add_size_le_of_decodeAt hdecode)

/-- Decoding comes to the end only through the offsets that it comes to. -/
theorem Decodes.through {start offset : Nat} (h : code.Decodes start offset)
    (hend : code.Decodes start code.size) : code.Decodes offset code.size := by
  induction h with
  | stay => exact hend
  | step hdecode _ ih =>
    cases hend with
    | stay => exact absurd (lt_size_of_decodeAt hdecode) (Nat.lt_irrefl _)
    | step hdecode' hrest =>
      rw [hdecode] at hdecode'
      cases hdecode'
      exact ih hrest

/-- What decoding finds at an offset. -/
def itemAt (code : Code) (offset : Nat) : Decoder.Item :=
  (code.decodeAt offset).map fun i => (offset, i)

/-- An item that is an instruction has been decoded at its offset. -/
theorem itemAt_eq_ok_iff {offset n : Nat} {i : Instruction} :
    code.itemAt offset = .ok (n, i) ↔ offset = n ∧ code.decodeAt offset = .ok i := by
  unfold itemAt
  cases code.decodeAt offset <;> simp [Except.map]

/-- An item that is an error is the one that decoding fails with. -/
theorem itemAt_eq_error_iff {offset : Nat} {e : DecodeError} :
    code.itemAt offset = .error e ↔ code.decodeAt offset = .error e := by
  unfold itemAt
  cases code.decodeAt offset <;> simp [Except.map]

/-- The items are found at the offsets that decoding comes to, in their order. -/
theorem Tiles.exists_offset {start : Nat} {items before after : List Decoder.Item}
    {item : Decoder.Item} (h : code.Tiles start items) (hsplit : items = before ++ item :: after) :
    ∃ offset, code.Decodes start offset ∧ offset < code.size ∧ item = code.itemAt offset ∧
      ∀ m < offset, code.Decodes start m → code.itemAt m ∈ before := by
  induction h generalizing before with
  | done h => simp at hsplit
  | @fault start e hlt hdecode =>
    obtain ⟨rfl, rfl, -⟩ : before = [] ∧ item = .error e ∧ after = [] := by
      cases before with
      | nil => simpa [eq_comm] using hsplit
      | cons _ _ => simp at hsplit
    exact ⟨start, .stay start, hlt, (itemAt_eq_error_iff.mpr hdecode).symm,
      fun m hm hreach => absurd hreach.le (Nat.not_le.mpr hm)⟩
  | @next start i rest hlt hdecode hrest ih =>
    have hitem : code.itemAt start = .ok (start, i) := itemAt_eq_ok_iff.mpr ⟨rfl, hdecode⟩
    cases before with
    | nil =>
      obtain ⟨rfl, rfl⟩ : item = .ok (start, i) ∧ after = rest := by
        simpa [eq_comm] using hsplit
      exact ⟨start, .stay start, hlt, hitem.symm,
        fun m hm hreach => absurd hreach.le (Nat.not_le.mpr hm)⟩
    | cons first before =>
      obtain ⟨rfl, hrest⟩ := List.cons.inj hsplit
      obtain ⟨offset, hreach, hlt, heq, hbefore⟩ := ih hrest
      refine ⟨offset, .step hdecode hreach, hlt, heq, fun m hm hreachm => ?_⟩
      cases hreachm with
      | stay => exact hitem ▸ List.mem_cons_self
      | step hdecode' hrest' =>
        rw [hdecode] at hdecode'
        cases hdecode'
        exact List.mem_cons_of_mem _ (hbefore m hm hrest')

/-- Wherever decoding comes inside the code, it finds one of the items. -/
theorem Tiles.itemAt_mem {start offset : Nat} {items : List Decoder.Item}
    (h : code.Tiles start items) (hreach : code.Decodes start offset)
    (hlt : offset < code.size) : code.itemAt offset ∈ items := by
  induction hreach generalizing items with
  | stay start =>
    cases h with
    | done hend => omega
    | fault _ hdecode => exact itemAt_eq_error_iff.mpr hdecode ▸ List.mem_cons_self
    | next _ hdecode _ => exact itemAt_eq_ok_iff.mpr ⟨rfl, hdecode⟩ ▸ List.mem_cons_self
  | step hdecode _ ih =>
    have hstart := lt_size_of_decodeAt hdecode
    cases h with
    | done hend => omega
    | fault _ hdecode' =>
      rw [hdecode] at hdecode'
      cases hdecode'
    | next _ hdecode' hrest =>
      rw [hdecode] at hdecode'
      cases hdecode'
      exact List.mem_cons_of_mem _ (ih hrest hlt)

/-- Where all items are instructions, decoding comes to the end. -/
theorem Tiles.decodes_end {start : Nat} {items : List Decoder.Item} (h : code.Tiles start items)
    (hok : ∀ e, Except.error e ∉ items) (hle : start ≤ code.size) :
    code.Decodes start code.size := by
  induction h with
  | done hend =>
    obtain rfl : _ = code.size := Nat.le_antisymm hle hend
    exact .stay _
  | fault _ _ => exact absurd (List.mem_singleton_self _) (hok _)
  | next _ hdecode _ ih =>
    exact .step hdecode (ih (fun e he => hok e (List.mem_cons_of_mem _ he))
      (add_size_le_of_decodeAt hdecode))

end Code

/-! ### The first fault of a list -/

section FirstFault

variable {α β ε : Type} {f : α → Except ε β}

/-- A traversal fails with the fault of the first element that fails. -/
theorem exists_split_of_mapM_error {l : List α} {e : ε} (h : l.mapM f = .error e) :
    ∃ before x after, l = before ++ x :: after ∧ f x = .error e ∧
      ∀ y ∈ before, ∃ b, f y = .ok b := by
  induction l with
  | nil => cases h
  | cons x l ih =>
    rw [List.mapM_cons] at h
    cases hx : f x with
    | error e' =>
      rw [hx] at h
      cases h
      exact ⟨[], x, l, rfl, hx, by simp⟩
    | ok b =>
      rw [hx] at h
      cases hl : l.mapM f with
      | ok bs =>
        rw [hl] at h
        cases h
      | error e' =>
        rw [hl] at h
        cases h
        obtain ⟨before, y, after, rfl, hy, hbefore⟩ := ih hl
        refine ⟨x :: before, y, after, rfl, hy, ?_⟩
        intro z hz
        rcases List.mem_cons.mp hz with rfl | hz
        · exact ⟨b, hx⟩
        · exact hbefore z hz

/-- A visit of all elements fails where the traversal fails. -/
theorem mapM_eq_error_of_forM {g : α → Except ε Unit} {l : List α} {e : ε}
    (h : l.forM g = .error e) : l.mapM g = .error e := by
  induction l with
  | nil => cases h
  | cons x l ih =>
    change (g x >>= fun _ => l.forM g) = _ at h
    rw [List.mapM_cons]
    cases hx : g x with
    | error e' =>
      rw [hx] at h
      cases h
      rfl
    | ok _ =>
      rw [hx] at h
      rw [ih h]
      rfl

end FirstFault

/-! ### What the check says -/

namespace Program

open Code

variable {stringCount : Nat} {code : Code} {offset : Nat} {error : ProgramError}

/-- The check of the item at an offset tells its flaw. -/
theorem checkItem_eq_error_iff (hreach : code.Decodes 0 offset) (hlt : offset < code.size) :
    checkItem stringCount (code.itemAt offset) = .error error ↔
      Flawed stringCount code offset error := by
  constructor
  · intro h
    unfold checkItem at h
    split at h
    · rename_i e heq
      cases h
      exact .undecodable hreach hlt (itemAt_eq_error_iff.mp heq)
    · rename_i n i heq
      obtain ⟨rfl, hdecode⟩ := itemAt_eq_ok_iff.mp heq
      split at h
      · cases h
      · rename_i s hs
        split at h <;> cases h
        rename_i hrange
        exact .unknownString ⟨hreach, hdecode⟩ (Instruction.string?_eq_some_iff.mp hs)
          (Nat.le_of_not_lt hrange)
  · rintro (⟨-, -, hdecode⟩ | ⟨⟨-, hdecode⟩, hnames, hrange⟩)
    · rw [itemAt_eq_error_iff.mpr hdecode]
      rfl
    · rw [itemAt_eq_ok_iff.mpr ⟨rfl, hdecode⟩]
      simp [checkItem, Instruction.string?_eq_some_iff.mpr hnames, Nat.not_lt.mpr hrange]

/-- A flaw is met where decoding comes, inside the code. -/
theorem Flawed.reached (h : Flawed stringCount code offset error) :
    code.Decodes 0 offset ∧ offset < code.size := by
  cases h with
  | undecodable hreach hlt _ => exact ⟨hreach, hlt⟩
  | unknownString hfinds _ _ => exact ⟨hfinds.1, lt_size_of_decodeAt hfinds.2⟩

/-- There is no more than one flaw at an offset. -/
theorem Flawed.unique {error' : ProgramError} (h : Flawed stringCount code offset error)
    (h' : Flawed stringCount code offset error') : error = error' := by
  obtain ⟨hreach, hlt⟩ := h.reached
  have heq := (checkItem_eq_error_iff hreach hlt).mpr h
  rw [(checkItem_eq_error_iff hreach hlt).mpr h'] at heq
  exact (Except.error.inj heq).symm

/-- The first pass fails with the first flaw. -/
theorem exists_flaw_of_mapM_error
    (h : code.items.toList.mapM (checkItem stringCount) = .error error) :
    ∃ offset, Flawed stringCount code offset error ∧
      ∀ m < offset, ∀ e, ¬ Flawed stringCount code m e := by
  obtain ⟨before, item, after, hsplit, hitem, hbefore⟩ := exists_split_of_mapM_error h
  obtain ⟨offset, hreach, hlt, rfl, hearlier⟩ := code.tiles_items.exists_offset hsplit
  refine ⟨offset, (checkItem_eq_error_iff hreach hlt).mp hitem, fun m hm e hflaw => ?_⟩
  obtain ⟨hreachm, hltm⟩ := hflaw.reached
  obtain ⟨entry, hentry⟩ := hbefore _ (hearlier m hm hreachm)
  rw [(checkItem_eq_error_iff hreachm hltm).mpr hflaw] at hentry
  cases hentry

/-- After the first pass there are no flaws, and decoding comes to the end. -/
theorem fine_of_mapM_ok {listing : List (Nat × Instruction)}
    (h : code.items.toList.mapM (checkItem stringCount) = .ok listing) :
    (∀ m e, ¬ Flawed stringCount code m e) ∧ code.Decodes 0 code.size ∧
      code.items.toList = listing.map .ok := by
  obtain ⟨hitems, hstrings⟩ := eq_map_of_mapM_checkItem h
  have hok : ∀ e, Except.error e ∉ code.items.toList := by simp [hitems]
  refine ⟨fun m e hflaw => ?_, code.tiles_items.decodes_end hok (Nat.zero_le _), hitems⟩
  obtain ⟨hreach, hlt⟩ := hflaw.reached
  have hmem := code.tiles_items.itemAt_mem hreach hlt
  cases hflaw with
  | undecodable _ _ hdecode => exact hok _ (itemAt_eq_error_iff.mpr hdecode ▸ hmem)
  | unknownString hfinds hnames hrange =>
    rw [itemAt_eq_ok_iff.mpr ⟨rfl, hfinds.2⟩, hitems] at hmem
    obtain ⟨entry, hentry, heq⟩ := List.mem_map.mp hmem
    cases heq
    have := hstrings _ hentry _ (Instruction.string?_eq_some_iff.mpr hnames)
    omega

/-- The starts of a listing of all items are the addresses at which decoding finds an
instruction. -/
theorem contains_starts_iff (hsize : code.size ≤ 4294967296)
    {listing : List (Nat × Instruction)} (hitems : code.items.toList = listing.map .ok)
    {a : UInt32} : (starts listing).contains a = true ↔ ∃ j, code.Finds a.toNat j := by
  have hmem : ∀ n i, (n, i) ∈ listing ↔ code.Finds n i := by
    intro n i
    constructor
    · intro h
      have hin : Except.ok (n, i) ∈ code.items.toList := by
        rw [hitems]
        exact List.mem_map_of_mem h
      obtain ⟨before, after, hsplit⟩ := List.append_of_mem hin
      obtain ⟨offset, hreach, -, heq, -⟩ := code.tiles_items.exists_offset hsplit
      obtain ⟨rfl, hdecode⟩ := itemAt_eq_ok_iff.mp heq.symm
      exact ⟨hreach, hdecode⟩
    · rintro ⟨hreach, hdecode⟩
      have hin := code.tiles_items.itemAt_mem hreach (lt_size_of_decodeAt hdecode)
      rw [itemAt_eq_ok_iff.mpr ⟨rfl, hdecode⟩, hitems] at hin
      obtain ⟨entry, hentry, heq⟩ := List.mem_map.mp hin
      cases heq
      exact hentry
  have hcontains : (starts listing).contains a = true ↔
      ∃ entry ∈ listing, UInt32.ofNat entry.1 = a := by
    simp [starts, Std.TreeSet.contains_ofList]
  rw [hcontains]
  constructor
  · rintro ⟨⟨n, i⟩, hentry, rfl⟩
    have hfinds := (hmem n i).mp hentry
    have hlt := lt_size_of_decodeAt hfinds.2
    -- Only offsets that fit into an address come back from it.
    have hn : (UInt32.ofNat n).toNat = n :=
      UInt32.toNat_ofNat_of_lt' (Nat.lt_of_lt_of_le hlt hsize)
    exact ⟨i, by rw [hn]; exact hfinds⟩
  · rintro ⟨j, hfinds⟩
    exact ⟨(a.toNat, j), (hmem _ _).mpr hfinds, UInt32.ofNat_toNat⟩

/-- The check of an address tells whether it leads nowhere. -/
theorem checkAddress_eq_error_iff (hsize : code.size ≤ 4294967296)
    {listing : List (Nat × Instruction)} (hitems : code.items.toList = listing.map .ok)
    {i : Instruction} (hfinds : code.Finds offset i) :
    checkAddress (starts listing) (offset, i) = .error error ↔ Misdirected code offset error := by
  constructor
  · intro h
    unfold checkAddress at h
    split at h
    · cases h
    · rename_i a ha
      split at h <;> cases h
      rename_i hcontains
      refine .intro hfinds (Instruction.address?_eq_some_iff.mp ha) fun j hj => hcontains ?_
      exact (contains_starts_iff hsize hitems).mpr ⟨j, hj⟩
  · rintro ⟨hfinds', htargets, hnowhere⟩
    obtain rfl := Except.ok.inj (hfinds.2.symm.trans hfinds'.2)
    have hcontains := mt (contains_starts_iff hsize hitems).mp (not_exists.mpr hnowhere)
    simp only [checkAddress, Instruction.address?_eq_some_iff.mpr htargets, hcontains,
      Bool.false_eq_true, ↓reduceIte]

/-- The second pass fails with the first address that leads nowhere. -/
theorem exists_misdirected_of_forM_error (hsize : code.size ≤ 4294967296)
    {listing : List (Nat × Instruction)} (hitems : code.items.toList = listing.map .ok)
    (h : listing.forM (checkAddress (starts listing)) = .error error) :
    ∃ offset, Misdirected code offset error ∧ ∀ m < offset, ∀ e, ¬ Misdirected code m e := by
  obtain ⟨before, ⟨n, i⟩, after, hsplit, hentry, hbefore⟩ :=
    exists_split_of_mapM_error (mapM_eq_error_of_forM h)
  have hsplit' : code.items.toList = before.map .ok ++ .ok (n, i) :: after.map .ok := by
    rw [hitems, hsplit, List.map_append, List.map_cons]
  obtain ⟨offset, hreach, -, heq, hearlier⟩ := code.tiles_items.exists_offset hsplit'
  obtain ⟨rfl, hdecode⟩ := itemAt_eq_ok_iff.mp heq.symm
  refine ⟨offset, (checkAddress_eq_error_iff hsize hitems ⟨hreach, hdecode⟩).mp hentry, ?_⟩
  intro m hm e hwrong
  obtain ⟨hfinds, htargets, hnowhere⟩ := hwrong
  have hin := hearlier m hm hfinds.1
  rw [itemAt_eq_ok_iff.mpr ⟨rfl, hfinds.2⟩] at hin
  obtain ⟨entry, hmem, heq⟩ := List.mem_map.mp hin
  cases heq
  obtain ⟨u, hok⟩ := hbefore _ hmem
  rw [(checkAddress_eq_error_iff hsize hitems hfinds).mpr ⟨hfinds, htargets, hnowhere⟩] at hok
  cases hok

/-- What the check says is so: it accepts well-formed code, and blames what is wrong. -/
theorem check_sound (stringCount : Nat) (hsize : code.size ≤ 4294967296) :
    (check stringCount code = .ok () → WellFormed stringCount code) ∧
      ∀ error, check stringCount code = .error error → Blames stringCount code error := by
  unfold check
  by_cases hempty : code.isEmpty = true
  · rw [if_pos hempty]
    refine ⟨fun h => (nomatch h), fun error h => ?_⟩
    cases h
    exact .empty (by simpa using hempty)
  rw [if_neg hempty]
  have hpos : 0 < code.size := by
    simpa [Nat.pos_iff_ne_zero] using hempty
  cases hmap : code.items.toList.mapM (checkItem stringCount) with
  | error e =>
    refine ⟨fun h => (nomatch h), fun error h => ?_⟩
    cases h
    obtain ⟨offset, hflaw, hfirst⟩ := exists_flaw_of_mapM_error hmap
    exact .flaw hflaw hfirst
  | ok listing =>
    obtain ⟨hfine, hend, hitems⟩ := fine_of_mapM_ok hmap
    change (listing.forM (checkAddress (starts listing)) = .ok () → _) ∧
      ∀ error, listing.forM (checkAddress (starts listing)) = .error error → _
    constructor
    · intro h
      refine ⟨hpos, hend, fun offset i s hfinds hnames => ?_, fun offset i a hfinds htargets => ?_⟩
      · exact Nat.lt_of_not_le fun hrange => hfine _ _ (.unknownString hfinds hnames hrange)
      · have hin := code.tiles_items.itemAt_mem hfinds.1 (lt_size_of_decodeAt hfinds.2)
        rw [itemAt_eq_ok_iff.mpr ⟨rfl, hfinds.2⟩, hitems] at hin
        obtain ⟨entry, hmem, heq⟩ := List.mem_map.mp hin
        cases heq
        exact (contains_starts_iff hsize hitems).mp (mem_starts_of_forM_checkAddress h _ hmem a
          (Instruction.address?_eq_some_iff.mpr htargets))
    · intro error h
      obtain ⟨offset, hwrong, hfirst⟩ := exists_misdirected_of_forM_error hsize hitems h
      exact .address hfine hwrong hfirst

/-! ### At most one verdict -/

/-- Nothing is flawed in well-formed code. -/
theorem WellFormed.fine (h : WellFormed stringCount code) :
    ¬ Flawed stringCount code offset error := by
  rintro (⟨hreach, hlt, hdecode⟩ | ⟨hfinds, hnames, hrange⟩)
  · cases hreach.through h.complete with
    | stay => exact absurd hlt (Nat.lt_irrefl _)
    | step hstep _ =>
      rw [hdecode] at hstep
      cases hstep
  · have := h.strings _ _ _ hfinds hnames
    omega

/-- Well-formed code is not blamed. -/
theorem WellFormed.not_blames (h : WellFormed stringCount code) :
    ¬ Blames stringCount code error := by
  rintro (hempty | ⟨hflaw, -⟩ | ⟨-, ⟨hfinds, htargets, hnowhere⟩, -⟩)
  · have := h.nonempty
    omega
  · exact h.fine hflaw
  · obtain ⟨j, hj⟩ := h.addresses _ _ _ hfinds htargets
    exact hnowhere j hj

/-- There is no more than one address at an offset. -/
theorem Misdirected.unique {error' : ProgramError} (h : Misdirected code offset error)
    (h' : Misdirected code offset error') : error = error' := by
  obtain ⟨hfinds, htargets, -⟩ := h
  obtain ⟨hfinds', htargets', -⟩ := h'
  obtain rfl := Except.ok.inj (hfinds.2.symm.trans hfinds'.2)
  have haddress := Instruction.address?_eq_some_iff.mpr htargets
  rw [Instruction.address?_eq_some_iff.mpr htargets'] at haddress
  cases haddress
  rfl

/-- Where each offset has one verdict, the first verdict is one. -/
theorem first_unique (verdict : Nat → ProgramError → Prop)
    (hunique : ∀ {n e e'}, verdict n e → verdict n e' → e = e') {n n' : Nat}
    {e e' : ProgramError} (h : verdict n e) (hfirst : ∀ m < n, ∀ e, ¬ verdict m e)
    (h' : verdict n' e') (hfirst' : ∀ m < n', ∀ e, ¬ verdict m e) : e = e' := by
  rcases Nat.lt_trichotomy n n' with hlt | rfl | hlt
  · exact absurd h (hfirst' n hlt e)
  · exact hunique h h'
  · exact absurd h' (hfirst n' hlt e')

/-- No code is blamed for two things. -/
theorem Blames.unique {error' : ProgramError} (h : Blames stringCount code error)
    (h' : Blames stringCount code error') : error = error' := by
  have hsome : ∀ {n e}, Flawed stringCount code n e → code.size ≠ 0 := by
    intro n e hflaw
    have := hflaw.reached.2
    omega
  have hsome' : ∀ {n e}, Misdirected code n e → code.size ≠ 0 := by
    rintro n e ⟨hfinds, -, -⟩
    have := lt_size_of_decodeAt hfinds.2
    omega
  cases h with
  | empty hempty =>
    cases h' with
    | empty => rfl
    | flaw hflaw _ => exact absurd hempty (hsome hflaw)
    | address _ hwrong _ => exact absurd hempty (hsome' hwrong)
  | flaw hflaw hfirst =>
    cases h' with
    | empty hempty => exact absurd hempty (hsome hflaw)
    | flaw hflaw' hfirst' =>
      exact first_unique (Flawed stringCount code) Flawed.unique hflaw hfirst hflaw' hfirst'
    | address hfine _ _ => exact absurd hflaw (hfine _ _)
  | address hfine hwrong hfirst =>
    cases h' with
    | empty hempty => exact absurd hempty (hsome' hwrong)
    | flaw hflaw _ => exact absurd hflaw (hfine _ _)
    | address _ hwrong' hfirst' =>
      exact first_unique (Misdirected code) Misdirected.unique hwrong hfirst hwrong' hfirst'

/-- Program validation accepts exactly the well-formed code sections, and it refuses any other
with the error that blames its first fault. -/
theorem new?_decides (strings : Array Bytes) (code : Code) (hsize : code.size ≤ 4294967296) :
    ((∃ p, new? strings code = .ok p) ↔ WellFormed strings.size code) ∧
      (∀ p, new? strings code = .ok p → p.strings = strings ∧ p.code = code) ∧
      ∀ error, new? strings code = .error error ↔ Blames strings.size code error := by
  obtain ⟨haccepts, hrefuses⟩ := check_sound strings.size hsize
  have hmake : ∀ p, new? strings code = .ok p → WellFormed strings.size code := by
    intro p hp
    obtain ⟨rfl, rfl⟩ := new?_eq_ok_iff.mp hp
    exact haccepts p.checked
  have hblame : ∀ error, new? strings code = .error error → Blames strings.size code error := by
    intro error herror
    unfold new? at herror
    split at herror <;> cases herror
    exact hrefuses _ ‹_›
  refine ⟨⟨fun ⟨p, hp⟩ => hmake p hp, fun hgood => ?_⟩, fun p hp => new?_eq_ok_iff.mp hp,
    fun error => ⟨hblame error, fun hbad => ?_⟩⟩
  · cases hnew : new? strings code with
    | ok p => exact ⟨p, rfl⟩
    | error error => exact absurd (hblame error hnew) hgood.not_blames
  · cases hnew : new? strings code with
    | ok p => exact absurd hbad (hmake p hnew).not_blames
    | error error' => rw [hbad.unique (hblame error' hnew)]

/-- A jump into the operand of the instruction behind it is blamed. -/
theorem new?_decides_inside_operand :
    (#[0x13, 6, 0, 0, 0, 0x03, 7, 0, 0, 0, 0] : Code).size ≤ 4294967296 ∧
      Blames 0 #[0x13, 6, 0, 0, 0, 0x03, 7, 0, 0, 0, 0] (.badAddress 0 6) := by
  refine ⟨by decide, ?_⟩
  exact ((new?_decides #[] _ (by decide)).2.2 _).mp (by decide +kernel)

end Program

end Swarm
