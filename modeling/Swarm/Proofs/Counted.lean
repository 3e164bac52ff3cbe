import Swarm.Program.Strings

/-!
# Reading counted strings

Words and counted strings are read from exactly the bytes that writing them gives, and only
if they fit into the words before them.
-/

namespace Swarm.Counted

/-- A word is read where it was written, and it is in the range of its width. -/
theorem readWord?_eq_some_iff {width n : Nat} {bs rest : Bytes} :
    readWord? width bs = some (n, rest) ↔
      n < wordRange width ∧ bs = littleEndian width n ++ rest := by
  constructor
  · intro h
    obtain ⟨⟨front, rest'⟩, hcut, heq⟩ := Option.map_eq_some_iff.1 h
    cases heq
    obtain ⟨hbs, hlength⟩ := Bytes.eq_append_of_cut? hcut
    subst hlength
    refine ⟨littleEndianValue_lt front, ?_⟩
    rw [littleEndian_littleEndianValue, hbs]
  · rintro ⟨hlt, rfl⟩
    rw [readWord?_littleEndian, Nat.mod_eq_of_lt hlt]

/-- A string is read where it was written, and its length fits into two bytes. -/
theorem readString?_eq_some_iff {string bs rest : Bytes} :
    readString? bs = some (string, rest) ↔
      string.length < 65536 ∧ bs = writeString string ++ rest := by
  constructor
  · intro h
    unfold readString? at h
    split at h
    · cases h
    · rename_i length tail hword
      obtain ⟨hlt, hbs⟩ := readWord?_eq_some_iff.1 hword
      obtain ⟨htail, hlength⟩ := Bytes.eq_append_of_cut? h
      subst hlength
      refine ⟨hlt, ?_⟩
      rw [hbs, htail, writeString, List.append_assoc]
  · rintro ⟨hlt, rfl⟩
    exact readString?_writeString hlt rest

/-- As many strings as asked for are read where they were written one after the other. -/
theorem readStrings_eq_some_iff {count : Nat} {found strings : Array Bytes} {bs rest : Bytes} :
    readStrings count found bs = (strings, some rest) ↔
      ∃ more : List Bytes, more.length = count ∧ (∀ s ∈ more, s.length < 65536) ∧
        strings.toList = found.toList ++ more ∧ bs = more.flatMap writeString ++ rest := by
  induction count generalizing found bs with
  | zero =>
    constructor
    · intro h
      cases h
      exact ⟨[], by simp⟩
    · rintro ⟨more, hlength, -, hstrings, hbs⟩
      cases List.eq_nil_of_length_eq_zero hlength
      have hfound : strings = found := Array.toList_inj.1 (by simpa using hstrings)
      have hrest : bs = rest := by simpa using hbs
      rw [hfound, hrest, readStrings]
  | succ count ih =>
    unfold readStrings
    constructor
    · intro h
      split at h
      · cases h
      · rename_i string tail hstring
        obtain ⟨hlt, hbs⟩ := readString?_eq_some_iff.1 hstring
        obtain ⟨more, hlength, hmore, hstrings, htail⟩ := ih.1 h
        refine ⟨string :: more, by rw [List.length_cons, hlength], ?_, ?_, ?_⟩
        · exact List.forall_mem_cons.2 ⟨hlt, hmore⟩
        · simpa using hstrings
        · rw [hbs, htail, List.flatMap_cons, List.append_assoc]
    · rintro ⟨more, hlength, hmore, hstrings, hbs⟩
      obtain ⟨string, more, rfl⟩ := List.exists_cons_of_length_eq_add_one hlength
      obtain ⟨hlt, hmore⟩ := List.forall_mem_cons.1 hmore
      have hread : readString? bs = some (string, more.flatMap writeString ++ rest) := by
        rw [readString?_eq_some_iff, hbs, List.flatMap_cons, List.append_assoc]
        exact ⟨hlt, rfl⟩
      rw [hread]
      exact ih.2 ⟨more, by simpa using hlength, hmore, by simpa using hstrings, rfl⟩

/-- The strings that fit into words of two bytes: their number and every length does. -/
structure Fits (strings : Array Bytes) : Prop where
  /-- There are few enough strings. -/
  count : strings.size < 65536
  /-- Every string is short enough. -/
  each : ∀ s ∈ strings, s.length < 65536

/-- Strings are read completely where they were written with their number, if they fit. -/
theorem read_eq_some_iff {strings : Array Bytes} {bs rest : Bytes} :
    read bs = (strings, some rest) ↔ Fits strings ∧ bs = write strings ++ rest := by
  constructor
  · intro h
    unfold read at h
    split at h
    · cases h
    · rename_i count tail hword
      obtain ⟨hlt, hbs⟩ := readWord?_eq_some_iff.1 hword
      obtain ⟨more, hlength, hmore, hstrings, htail⟩ := readStrings_eq_some_iff.1 h
      have hmore' : strings.toList = more := by simpa using hstrings
      have hsize : strings.size = count := by rw [← Array.length_toList, hmore', hlength]
      refine ⟨⟨by rw [hsize]; exact hlt, fun s hs => hmore s ?_⟩, ?_⟩
      · rw [← hmore']
        exact hs.val
      · rw [hbs, htail, write, hmore', hsize, List.append_assoc]
  · rintro ⟨hfits, rfl⟩
    have hword : readWord? 2 (write strings ++ rest) =
        some (strings.size, strings.toList.flatMap writeString ++ rest) := by
      rw [readWord?_eq_some_iff, write, List.append_assoc]
      exact ⟨hfits.count, rfl⟩
    unfold read
    rw [hword]
    refine readStrings_eq_some_iff.2 ⟨strings.toList, Array.length_toList, ?_, by simp, rfl⟩
    intro s hs
    exact hfits.each s ⟨hs⟩

end Swarm.Counted
