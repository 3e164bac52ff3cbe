import Swarm.Proofs.Lookup
import Swarm.Proofs.ReadTables

/-!
# Lookups find what a scan finds

Going through all entries and keeping the last one that is not after an offset needs no order.
Halving needs it, and finds the same in every table that there can be: one that was read from
whatever bytes, or one that was recorded in the order of offsets.
-/

namespace Swarm.Debug.Table

/-- The source position of an entry. -/
def position? (t : Table) (e : Entry) : Option Location :=
  t.files[e.file.toNat]?.map fun file => ⟨file, e.line, e.column⟩

/-- Keep the later one of two entries, unless it is after the offset. -/
def keepLater (pc : UInt32) (found : Option Entry) (e : Entry) : Option Entry :=
  if e.pc ≤ pc then some e else found

/-- The source position of an offset that is found by going through all entries. -/
def scan (t : Table) (pc : UInt32) : Option Location :=
  (t.entries.foldl (keepLater pc) none).bind t.position?

/-- The tables that there can be. -/
inductive Arises : Table → Prop where
  | read {bs : Bytes} {t : Table} (h : ofBytes bs = .ok t) : Arises t
  | recorded {marks : List Mark} (h : marks.Pairwise fun a b => a.pc ≤ b.pc) :
      Arises (ofMarks marks)

variable {t : Table} {pc : UInt32} {es : List Entry}

/-- The tables that there can be are orderly. -/
theorem Arises.orderly (h : t.Arises) : t.Orderly := by
  cases h with
  | read h => exact orderly_of_ofBytes h
  | recorded h => exact orderly_ofMarks h

/-- The entries that are not after an offset stand before all others. -/
theorem exists_split_of_sorted (h : es.Pairwise fun a b => a.pc ≤ b.pc) (pc : UInt32) :
    ∃ front back, es = front ++ back ∧ (∀ e ∈ front, e.pc ≤ pc) ∧ ∀ e ∈ back, pc < e.pc := by
  induction h with
  | nil => exact ⟨[], [], rfl, nofun, nofun⟩
  | @cons e es hlater _ ih =>
    by_cases hpc : e.pc ≤ pc
    · obtain ⟨front, back, rfl, hfront, hback⟩ := ih
      exact ⟨e :: front, back, rfl, List.forall_mem_cons.2 ⟨hpc, hfront⟩, hback⟩
    · have hlt : pc < e.pc := UInt32.not_le.1 hpc
      exact ⟨[], e :: es, rfl, nofun, List.forall_mem_cons.2
        ⟨hlt, fun e' he' => UInt32.lt_of_lt_of_le hlt (hlater e' he')⟩⟩

/-! ### What a scan finds -/

/-- Entries after the offset are not kept. -/
theorem foldl_keepLater_of_after (h : ∀ e ∈ es, pc < e.pc) (found : Option Entry) :
    es.foldl (keepLater pc) found = found := by
  induction es with
  | nil => rfl
  | cons e es ih =>
    obtain ⟨hfirst, hrest⟩ := List.forall_mem_cons.1 h
    rw [List.foldl_cons, keepLater, if_neg (UInt32.not_le.2 hfirst), ih hrest]

/-- Of entries that are not after the offset the last one is kept. -/
theorem foldl_keepLater_of_le (h : ∀ e ∈ es, e.pc ≤ pc) (found : Option Entry) :
    es.foldl (keepLater pc) found = es.getLast?.or found := by
  induction es generalizing found with
  | nil => rfl
  | cons e es ih =>
    obtain ⟨hfirst, hrest⟩ := List.forall_mem_cons.1 h
    rw [List.foldl_cons, keepLater, if_pos hfirst, ih hrest, List.getLast?_cons]
    cases es.getLast? <;> rfl

/-- A scan finds the entry behind which all others are after the offset. -/
theorem scan_eq_of_split {before after : List Entry} {e : Entry}
    (hentries : t.entries.toList = before ++ e :: after) (hpc : e.pc ≤ pc)
    (hafter : ∀ later ∈ after, pc < later.pc) : t.scan pc = t.position? e := by
  unfold scan
  rw [← Array.foldl_toList, hentries, List.foldl_append, List.foldl_cons,
    foldl_keepLater_of_after hafter, keepLater, if_pos hpc, Option.bind_some]

/-- The files of an orderly table are found. -/
theorem Orderly.exists_position?_eq (h : t.Orderly) {e : Entry} (he : e ∈ t.entries) :
    ∃ file, t.files[e.file.toNat]? = some file ∧
      t.position? e = some ⟨file, e.line, e.column⟩ := by
  have hfile := Array.getElem?_eq_getElem (h.named e he)
  exact ⟨_, hfile, by rw [position?, hfile, Option.map_some]⟩

/-! ### Lookups -/

/-- Halving finds the entry that a scan keeps. -/
theorem Orderly.entry?_eq_foldl (h : t.Orderly) (pc : UInt32) :
    t.entry? pc = t.entries.foldl (keepLater pc) none := by
  obtain ⟨front, back, hentries, hfront, hback⟩ := exists_split_of_sorted h.sorted pc
  rw [entry?_eq hentries hfront hback, ← Array.foldl_toList, hentries, List.foldl_append,
    foldl_keepLater_of_after hback, foldl_keepLater_of_le hfront, Option.or_none]

/-- In an orderly table the binary search finds what the scan finds. -/
theorem Orderly.lookup_eq_scan (h : t.Orderly) (pc : UInt32) : t.lookup pc = t.scan pc := by
  unfold lookup scan position?
  rw [h.entry?_eq_foldl]
  cases t.entries.foldl (keepLater pc) none with
  | none => rfl
  | some e => exact Option.map_eq_bind.symm

/-- A lookup finds nothing if and only if all entries are after the offset. -/
theorem Orderly.lookup_eq_none_iff (h : t.Orderly) (pc : UInt32) :
    t.lookup pc = none ↔ ∀ e ∈ t.entries, pc < e.pc := by
  rw [h.lookup_eq_scan]
  constructor
  · intro hnone e he
    obtain ⟨front, back, hentries, hfront, hback⟩ := exists_split_of_sorted h.sorted pc
    rcases List.eq_nil_or_concat front with rfl | ⟨before, last, rfl⟩
    · exact hback e (by simpa [hentries] using Array.mem_toList_iff.2 he)
    · -- A scan finds the last entry of the front.
      rw [List.concat_eq_append, List.append_assoc] at hentries
      have hlast : last ∈ t.entries := Array.mem_toList_iff.1 (by simp [hentries])
      obtain ⟨file, -, hposition⟩ := h.exists_position?_eq hlast
      rw [scan_eq_of_split hentries (hfront last (by simp)) hback, hposition] at hnone
      cases hnone
  · intro hafter
    unfold scan
    rw [← Array.foldl_toList,
      foldl_keepLater_of_after fun e he => hafter e (Array.mem_toList_iff.1 he)]
    rfl

/-- In every table that there can be a lookup finds what a scan finds: the source position of the
last entry that is not after the offset, and nothing exactly if there is no such entry. The
entries are in the order of their offsets, and their files are in the table. -/
theorem Arises.lookup_finds (h : t.Arises) :
    t.Orderly ∧ ∀ pc, t.lookup pc = t.scan pc ∧
      (t.lookup pc = none ↔ ∀ e ∈ t.entries, pc < e.pc) ∧
      ∀ before e after, t.entries.toList = before ++ e :: after → e.pc ≤ pc →
        (∀ later ∈ after, pc < later.pc) →
        ∃ file, t.files[e.file.toNat]? = some file ∧
          t.lookup pc = some ⟨file, e.line, e.column⟩ := by
  have horderly := h.orderly
  refine ⟨horderly, fun pc => ⟨horderly.lookup_eq_scan pc, horderly.lookup_eq_none_iff pc, ?_⟩⟩
  intro before e after hentries hpc hafter
  have he : e ∈ t.entries := Array.mem_toList_iff.1 (by simp [hentries])
  obtain ⟨file, hfile, hposition⟩ := horderly.exists_position?_eq he
  rw [horderly.lookup_eq_scan, scan_eq_of_split hentries hpc hafter]
  exact ⟨file, hfile, hposition⟩

/-- The bytes of a table with two entries at one offset, of which the second one is in another
file, and with one at the last offset. -/
def crowded : Bytes :=
  magic ++ [2, 0, 1, 0, 0x61, 1, 0, 0x62, 3, 2, 2, 0, 0, 2, 2, 1,
    0xfc, 0xff, 0xff, 0xff, 0x0f, 2, 2, 0]

/-- Of two entries at one offset the later one is found, before the first offset nothing is, and
the last entry is found at the last offset. -/
theorem Arises.lookup_finds_crowded : ∃ t, ofBytes crowded = .ok t ∧ t.lookup 2 = none ∧
    t.lookup 3 = some ⟨"b", 2, 2⟩ ∧ t.lookup 4294967294 = some ⟨"b", 2, 2⟩ ∧
      t.lookup 4294967295 = some ⟨"a", 3, 3⟩ := by
  let first : Entry := ⟨3, 1, 1, 0⟩
  let second : Entry := ⟨3, 2, 2, 1⟩
  let last : Entry := ⟨4294967295, 3, 3, 0⟩
  have hread : ofBytes crowded = .ok ⟨#["a", "b"], #[first, second, last]⟩ := by decide +kernel
  obtain ⟨-, hfinds⟩ := (Arises.read hread).lookup_finds
  refine ⟨_, hread, (hfinds 2).2.1.2 (by decide), ?_⟩
  have hsecond (pc : UInt32) (hlow : 3 ≤ pc) (hhigh : pc < 4294967295) :
      lookup ⟨#["a", "b"], #[first, second, last]⟩ pc = some ⟨"b", 2, 2⟩ := by
    obtain ⟨file, hfile, hlookup⟩ :=
      (hfinds pc).2.2 [first] second [last] rfl hlow (by simpa using hhigh)
    cases hfile
    exact hlookup
  obtain ⟨file, hfile, hlookup⟩ :=
    (hfinds 4294967295).2.2 [first, second] last [] rfl (by decide) nofun
  cases hfile
  exact ⟨hsecond 3 (by decide) (by decide), hsecond 4294967294 (by decide) (by decide), hlookup⟩

end Swarm.Debug.Table
