import Swarm.Proofs.SymbolTables

/-!
# Tables that were read

Reading sums up the differences of the entries. It rejects an offset that leaves its range, so
the entries of a table that was read are in the order of their offsets. A line or a column that
leaves its range is not rejected: the lowest 32 bits of the sum are kept, and they may be too far
from the entry before for one difference. A table that was read is read back from its own bytes
exactly if no sum has left the range.
-/

namespace Swarm.Debug

open VarInt

/-- The sums of an origin are numbers of 32 bits. -/
structure Origin.Fits (o : Origin) : Prop where
  line : 0 ≤ o.line ∧ o.line < 4294967296
  column : 0 ≤ o.column ∧ o.column < 4294967296

instance (o : Origin) : Decidable o.Fits :=
  decidable_of_iff
    ((0 ≤ o.line ∧ o.line < 4294967296) ∧ 0 ≤ o.column ∧ o.column < 4294967296)
    ⟨fun h => ⟨h.1, h.2⟩, fun h => ⟨h.line, h.column⟩⟩

/-- A number that was folded into 32 bits is a signed number of 32 bits. -/
theorem VarInt.unzigzag_bounds (n : UInt32) :
    -2147483648 ≤ unzigzag n.toNat ∧ unzigzag n.toNat ≤ 2147483647 := by
  have hlt := n.toNat_lt
  unfold unzigzag
  split <;> omega

namespace Table

/-- The entries are in the order of their offsets and name files of the table. -/
structure Orderly (t : Table) : Prop where
  sorted : t.entries.toList.Pairwise fun a b => a.pc ≤ b.pc
  named : ∀ e ∈ t.entries, e.file.toNat < t.files.size

/-- Where reading stands after every entry in the bytes. -/
def readOrigins (fileCount : Nat) (origin : Origin) (bs : Bytes) : List Origin :=
  match h : readEntry fileCount origin bs with
  | .error _ => []
  | .ok (_, next, rest) =>
    have := length_lt_of_readEntry h
    next :: readOrigins fileCount next rest
  termination_by bs.length

/-- The offsets and the sums of lines and of columns that reading a table comes to. -/
def sums (bs : Bytes) : List Origin :=
  match Counted.read (bs.drop magic.length) with
  | (names, some rest) => readOrigins names.size {} rest
  | (_, none) => []

/-- An entry that is read after an origin and leads to the next one: its offset is not before the
origin's, and its line and its column are what is kept of the sums. -/
structure Follows (fileCount : Nat) (origin : Origin) (e : Entry) (next : Origin) : Prop where
  pc_le : origin.pc ≤ e.pc
  pc : next.pc = e.pc
  line : e.line = word next.line
  column : e.column = word next.column
  line_step : -2147483648 ≤ next.line - origin.line ∧ next.line - origin.line ≤ 2147483647
  column_step : -2147483648 ≤ next.column - origin.column ∧
    next.column - origin.column ≤ 2147483647
  file : e.file.toNat < fileCount

/-- Entries that are read one after the other, from origin to origin. -/
inductive FollowsAll (fileCount : Nat) : Origin → List Entry → List Origin → Prop where
  | nil (origin : Origin) : FollowsAll fileCount origin [] []
  | cons {origin next : Origin} {e : Entry} {es : List Entry} {origins : List Origin}
      (h : Follows fileCount origin e next) (hrest : FollowsAll fileCount next es origins) :
      FollowsAll fileCount origin (e :: es) (next :: origins)

variable {fileCount : Nat} {origin next : Origin} {bs rest : Bytes} {e : Entry}
  {es : List Entry} {origins : List Origin}

/-! ### What is read -/

/-- An entry that is read follows the one before it. -/
theorem follows_of_readEntry (h : readEntry fileCount origin bs = .ok (e, next, rest)) :
    Follows fileCount origin e next := by
  unfold readEntry at h
  split at h
  · cases h
  rename_i pc line column file tail hnumbers
  unfold Origin.advance? at h
  by_cases hrange : origin.pc.toNat + pc.toNat < 4294967296
  · rw [if_pos hrange] at h
    dsimp only at h
    split at h
    · rename_i hfile
      cases h
      have hadd : (origin.pc + pc).toNat = origin.pc.toNat + pc.toNat := by
        rw [UInt32.toNat_add]
        omega
      have hline := unzigzag_bounds line
      have hcolumn := unzigzag_bounds column
      exact
        { pc_le := by
            rw [UInt32.le_iff_toNat_le, hadd]
            omega
          pc := rfl
          line := rfl
          column := rfl
          line_step := by
            dsimp only
            omega
          column_step := by
            dsimp only
            omega
          file := hfile }
    · cases h
  · rw [if_neg hrange] at h
    cases h

/-- After an entry reading goes on where it ended. -/
theorem readOrigins_of_readEntry (h : readEntry fileCount origin bs = .ok (e, next, rest)) :
    readOrigins fileCount origin bs = next :: readOrigins fileCount next rest := by
  conv => lhs; unfold readOrigins
  split
  · rename_i herror
    cases h.symm.trans herror
  · rename_i hentry
    cases h.symm.trans hentry
    rfl

/-- Without bytes there is nothing to read. -/
theorem readOrigins_nil (fileCount : Nat) (origin : Origin) :
    readOrigins fileCount origin [] = [] := by
  have herror : readEntry fileCount origin [] = .error .truncated := rfl
  unfold readOrigins
  split
  · rfl
  · rename_i hentry
    cases herror.symm.trans hentry

/-- Reading up to the end of the bytes passes through an origin with every entry. -/
theorem followsAll_of_readEntries {found entries : Array Entry}
    (h : readEntries fileCount origin found bs = .ok entries) :
    ∃ more, entries.toList = found.toList ++ more ∧
      FollowsAll fileCount origin more (readOrigins fileCount origin bs) := by
  fun_induction readEntries fileCount origin found bs with
  | case1 origin found bs hempty =>
    cases h
    rw [List.isEmpty_iff.1 hempty, readOrigins_nil]
    exact ⟨[], by simp, .nil origin⟩
  | case2 => cases h
  | case3 origin found bs _ e next rest hentry _ ih =>
    obtain ⟨more, hmore, hfollows⟩ := ih h
    rw [readOrigins_of_readEntry hentry]
    exact ⟨e :: more, by simpa using hmore, .cons (follows_of_readEntry hentry) hfollows⟩

/-! ### Order -/

/-- Offsets never go back. -/
theorem FollowsAll.pc_le (h : FollowsAll fileCount origin es origins) :
    ∀ e ∈ es, origin.pc ≤ e.pc := by
  induction h with
  | nil => exact nofun
  | cons hfirst _ ih =>
    intro e he
    rcases List.mem_cons.1 he with rfl | he
    · exact hfirst.pc_le
    · exact UInt32.le_trans hfirst.pc_le (hfirst.pc ▸ ih e he)

/-- Entries that follow each other are in the order of their offsets. -/
theorem FollowsAll.sorted (h : FollowsAll fileCount origin es origins) :
    es.Pairwise fun a b => a.pc ≤ b.pc := by
  induction h with
  | nil => exact .nil
  | cons hfirst hrest ih => exact .cons (fun e he => hfirst.pc ▸ hrest.pc_le e he) ih

/-- Entries that follow each other name files of the table. -/
theorem FollowsAll.named (h : FollowsAll fileCount origin es origins) :
    ∀ e ∈ es, e.file.toNat < fileCount := by
  induction h with
  | nil => exact nofun
  | cons hfirst _ ih => exact List.forall_mem_cons.2 ⟨hfirst.file, ih⟩

/-- What a table that was read consists of. -/
theorem exists_of_ofBytes {t : Table} (h : ofBytes bs = .ok t) :
    Counted.Fits (t.files.map Utf8.encode) ∧
      FollowsAll t.files.size {} t.entries.toList (sums bs) := by
  unfold ofBytes at h
  split at h
  · cases h
  rename_i front tail hcut
  split at h
  · rename_i hmagic
    obtain ⟨hbs, -⟩ := Bytes.eq_append_of_cut? hcut
    subst hmagic hbs
    obtain ⟨hfits, rest, rfl, hentries⟩ := readBody_eq_ok_iff.1 h
    obtain ⟨more, hmore, hfollows⟩ := followsAll_of_readEntries hentries
    have hsums : sums (magic ++ (Counted.write (t.files.map Utf8.encode) ++ rest)) =
        readOrigins t.files.size {} rest := by
      unfold sums
      rw [List.drop_left, Counted.read_eq_some_iff.2 ⟨hfits, rfl⟩]
      simp
    rw [hsums, hmore]
    exact ⟨hfits, by simpa using hfollows⟩
  · cases h

/-- A table that was read is orderly. -/
theorem orderly_of_ofBytes {t : Table} (h : ofBytes bs = .ok t) : t.Orderly := by
  obtain ⟨-, hfollows⟩ := exists_of_ofBytes h
  exact ⟨hfollows.sorted, fun e he => hfollows.named e (Array.mem_toList_iff.2 he)⟩

/-- A table that was recorded in the order of offsets is orderly. -/
theorem orderly_ofMarks {marks : List Mark} (h : marks.Pairwise fun a b => a.pc ≤ b.pc) :
    (ofMarks marks).Orderly := by
  have : IsTrans Entry fun a b => a.pc ≤ b.pc := ⟨fun _ _ _ => UInt32.le_trans⟩
  obtain ⟨-, hsorted⟩ := List.pairwise_cons.1 (List.isChain_iff_pairwise.1 (isChain_ofMarks h))
  exact ⟨hsorted, fun e he => file_lt_of_mem_ofMarks he⟩

/-! ### Reading back -/

/-- After an entry that was kept as it is, the next one is near if and only if its sums are kept
as they are: the lowest 32 bits of two sums differ by less than the sums themselves only if one
of these has left the range. -/
theorem Follows.near_iff {a : Entry} (h : Follows fileCount a.origin e next) :
    Near a e ↔ next.Fits := by
  have hline := congrArg UInt32.toNat h.line
  have hcolumn := congrArg UInt32.toNat h.column
  rw [toNat_word] at hline hcolumn
  have hline_step := h.line_step
  have hcolumn_step := h.column_step
  have haline := a.line.toNat_lt
  have hacolumn := a.column.toNat_lt
  dsimp only [Entry.origin] at hline_step hcolumn_step
  constructor
  · rintro ⟨hnear, hnear'⟩
    constructor <;> omega
  · rintro ⟨hfits, hfits'⟩
    constructor <;> omega

/-- An entry whose sums are kept as they are tells where reading stands. -/
theorem Follows.origin_eq (h : Follows fileCount origin e next) (hfits : next.Fits) :
    e.origin = next := by
  have hline := congrArg UInt32.toNat h.line
  have hcolumn := congrArg UInt32.toNat h.column
  rw [toNat_word] at hline hcolumn
  obtain ⟨hlow, hhigh⟩ := hfits.line
  obtain ⟨hlow', hhigh'⟩ := hfits.column
  obtain ⟨pc, line, column⟩ := next
  simp only [Entry.origin, Origin.mk.injEq]
  dsimp only at *
  exact ⟨h.pc.symm, by omega, by omega⟩

/-- Entries that were read are near one another exactly as long as no sum leaves the range. The
induction follows the reading: as long as the sums fit, every origin is that of the entry read
last. -/
theorem FollowsAll.isChain_near_iff {a : Entry} (h : FollowsAll fileCount a.origin es origins) :
    (a :: es).IsChain Near ↔ ∀ o ∈ origins, o.Fits := by
  induction es generalizing a origins with
  | nil =>
    cases h
    simp
  | cons e es ih =>
    cases h with
    | @cons _ next _ _ origins hfirst hrest =>
      rw [List.isChain_cons_cons, List.forall_mem_cons, hfirst.near_iff]
      refine and_congr_right fun hfits => ?_
      rw [← hfirst.origin_eq hfits] at hrest
      exact ih hrest

/-- An entry that was written after an earlier one is read with its offset and its file wherever
the sums stand. -/
theorem exists_readEntry_writeEntry {a : Entry} (horigin : origin.pc = a.pc) (hpc : a.pc ≤ e.pc)
    (hfile : e.file.toNat < fileCount) (rest : Bytes) :
    ∃ e' next, readEntry fileCount origin (writeEntry a.origin e ++ rest) =
        .ok (e', next, rest) ∧ next.pc = e.pc ∧ e'.pc = e.pc ∧ e'.file = e.file := by
  have hle : origin.pc ≤ e.pc := horigin ▸ hpc
  have hwritten : a.origin.pc = origin.pc := horigin.symm
  unfold readEntry
  rw [readNumbers?_writeEntry, hwritten]
  dsimp only
  rw [advance?_sub hle]
  simp [hfile]

/-- Entries that were written are read back with their offsets and their files, wherever the sums
stand. -/
theorem exists_readEntries_writeEntries {a : Entry} (horigin : origin.pc = a.pc)
    (hsorted : (a :: es).Pairwise fun a b => a.pc ≤ b.pc)
    (hnamed : ∀ e ∈ es, e.file.toNat < fileCount) (found : Array Entry) :
    ∃ more : List Entry,
      readEntries fileCount origin found (writeEntries a.origin es) = .ok (found ++ more.toArray) ∧
        more.map (fun e => (e.pc, e.file)) = es.map fun e => (e.pc, e.file) := by
  induction es generalizing a origin found with
  | nil => exact ⟨[], by simp [writeEntries, readEntries], rfl⟩
  | cons e es ih =>
    obtain ⟨hfirst, hsorted⟩ := List.pairwise_cons.1 hsorted
    obtain ⟨hfile, hnamed⟩ := List.forall_mem_cons.1 hnamed
    obtain ⟨e', next, hread, hnext, hpc, hsame⟩ :=
      exists_readEntry_writeEntry horigin (hfirst e List.mem_cons_self) hfile
        (writeEntries e.origin es)
    obtain ⟨more, hmore, hmap⟩ := ih hnext hsorted hnamed (found.push e')
    refine ⟨e' :: more, ?_, by simp [hpc, hsame, hmap]⟩
    rw [writeEntries, readEntries_of_readEntry hread, hmore]
    simp

/-- A table that was read is read back from its bytes if and only if no sum of differences has
left the range of 32 bits. In any case it is read back with its files, and with all offsets and
files of its entries. -/
theorem ofBytes_toBytes_iff_sums_fit {t : Table} (h : ofBytes bs = .ok t) :
    (ofBytes t.toBytes = .ok t ↔ ∀ o ∈ sums bs, o.Fits) ∧
      ∃ t', ofBytes t.toBytes = .ok t' ∧ t'.files = t.files ∧
        t'.entries.map (fun e => (e.pc, e.file)) = t.entries.map fun e => (e.pc, e.file) := by
  obtain ⟨hfits, hfollows⟩ := exists_of_ofBytes h
  have hstart : (start :: t.entries.toList).Pairwise fun a b => a.pc ≤ b.pc :=
    .cons hfollows.pc_le hfollows.sorted
  constructor
  · have hentries := readEntries_writeEntries_iff hstart.isChain hfollows.named #[]
    simp only [Array.toArray_toList, Array.empty_append] at hentries
    rw [ofBytes_toBytes_eq_ok_iff]
    exact (and_iff_right hfits).trans (hentries.trans hfollows.isChain_near_iff)
  · have horigin : start.origin.pc = start.pc := rfl
    obtain ⟨more, hmore, hmap⟩ :=
      exists_readEntries_writeEntries horigin hstart hfollows.named #[]
    rw [Array.empty_append] at hmore
    refine ⟨⟨t.files, more.toArray⟩, ?_, rfl, ?_⟩
    · rw [ofBytes_toBytes]
      exact readBody_eq_ok_iff.2 ⟨hfits, _, rfl, hmore⟩
    · rw [← Array.toList_inj]
      simpa using hmap

/-- The bytes of a table in which the lines rise to the last number of 32 bits, by differences
that are as large as they can be. -/
def rising : Bytes :=
  magic ++ [1, 0, 1, 0, 0x61, 0, 0xfe, 0xff, 0xff, 0xff, 0x0f, 2, 0,
    6, 0xfe, 0xff, 0xff, 0xff, 0x0f, 1, 0, 6, 2, 0, 0]

/-- The bytes of a table whose only line is one below zero. -/
def sunken : Bytes := magic ++ [1, 0, 1, 0, 0x61, 0, 1, 0, 0]

/-- The last line that there is is read back. -/
theorem sums_fit_rising : ∃ t, ofBytes rising = .ok t ∧
    t.entries.map Entry.line = #[2147483647, 4294967294, 4294967295] ∧
      ofBytes t.toBytes = .ok t := by
  have hread : ofBytes rising = .ok ⟨#["a"],
      #[⟨0, 2147483647, 1, 0⟩, ⟨6, 4294967294, 0, 0⟩, ⟨12, 4294967295, 0, 0⟩]⟩ := by
    decide +kernel
  exact ⟨_, hread, by simp, (ofBytes_toBytes_iff_sums_fit hread).1.2 (by decide +kernel)⟩

/-- A line below zero is read as one that is too far above it, and read back as another one. -/
theorem ofBytes_toBytes_sunken : ∃ t t', ofBytes sunken = .ok t ∧ ofBytes t.toBytes = .ok t' ∧
    t' ≠ t ∧ t.lookup 0 = some ⟨"a", 4294967295, 0⟩ ∧
      t'.lookup 0 = some ⟨"a", 2147483647, 0⟩ :=
  ⟨⟨#["a"], #[⟨0, 4294967295, 0, 0⟩]⟩, ⟨#["a"], #[⟨0, 2147483647, 0, 0⟩]⟩, by decide +kernel,
    by decide +kernel, by decide, by decide +kernel, by decide +kernel⟩

end Table

end Swarm.Debug
