import Swarm.Proofs.Building

/-!
# The indices of a builder's strings

The strings of a builder only grow and stay different from each other, so the index that is
returned for a string is its place for good. Sixteen bits of it are kept: the indices name their
strings in the finished program if and only if it has at most 2¹⁶ of them.
-/

namespace Swarm.Program.Builder

variable {a b c : Builder} {events more : List Event}

/-! ### The strings of a builder and their indices -/

/-- A string that is missing is added behind all others. -/
theorem string_of_not_mem {value : Bytes} (h : value ∉ b.strings) :
    b.string value =
      ({ b with strings := b.strings.push value }, UInt16.ofNat b.strings.size) := by
  have hnone : b.strings.findIdx? (· == value) = none :=
    Array.findIdx?_eq_none_iff.2 fun s hs => beq_eq_false_iff_ne.2 fun heq => h (heq ▸ hs)
  rw [string, hnone]

/-- A string that is there already stays where it is. -/
theorem string_of_mem {value : Bytes} (h : value ∈ b.strings) :
    ∃ place, b.strings[place]? = some value ∧ b.string value = (b, UInt16.ofNat place) := by
  cases hfound : b.strings.findIdx? (· == value) with
  | none => simpa using Array.findIdx?_eq_none_iff.1 hfound value h
  | some place =>
    obtain ⟨hlt, hvalue, -⟩ := Array.findIdx?_eq_some_iff_getElem.1 hfound
    refine ⟨place, ?_, by rw [string, hfound]⟩
    rw [Array.getElem?_eq_getElem hlt, beq_iff_eq.1 hvalue]

/-- The strings differ from each other, and the indices that were returned are their places, of
which sixteen bits were kept. -/
structure Indexed (b : Builder) (events : List Event) : Prop where
  nodup : b.strings.toList.Nodup
  named_iff : ∀ value index, .named value index ∈ events ↔
    ∃ place, b.strings[place]? = some value ∧ index = UInt16.ofNat place

/-- What leaves the strings alone leaves the indices right. -/
theorem Indexed.of_strings_eq (h : b.Indexed events) (hstrings : c.strings = b.strings)
    (hmore : ∀ value index, .named value index ∉ more) : c.Indexed (events ++ more) where
  nodup := hstrings ▸ h.nodup
  named_iff value index := by simp [h.named_iff, hstrings, hmore]

/-- A string that is asked for keeps the indices in order. -/
theorem Indexed.string (h : b.Indexed events) (value : Bytes) :
    (b.string value).1.Indexed (events ++ [.named value (b.string value).2]) := by
  by_cases hmem : value ∈ b.strings
  · obtain ⟨place, hplace, hstring⟩ := string_of_mem hmem
    rw [hstring]
    refine ⟨h.nodup, fun other index => ?_⟩
    simp only [List.mem_append, h.named_iff, List.mem_singleton, Event.named.injEq]
    constructor
    · rintro (hold | ⟨rfl, rfl⟩)
      · exact hold
      · exact ⟨place, hplace, rfl⟩
    · exact .inl
  · rw [string_of_not_mem hmem]
    constructor
    · rw [Array.toList_push]
      refine List.nodup_append.2 ⟨h.nodup, by simp, fun s hs v hv heq => ?_⟩
      rw [heq, List.mem_singleton.1 hv] at hs
      exact hmem (Array.mem_toList_iff.1 hs)
    · intro other index
      simp only [List.mem_append, h.named_iff, List.mem_singleton, Event.named.injEq,
        Array.getElem?_push]
      constructor
      · rintro (⟨place, hplace, rfl⟩ | ⟨rfl, rfl⟩)
        · have hlt := (Array.getElem?_eq_some_iff.1 hplace).1
          exact ⟨place, by rw [if_neg (Nat.ne_of_lt hlt), hplace], rfl⟩
        · exact ⟨b.strings.size, if_pos rfl, rfl⟩
      · rintro ⟨place, hplace, rfl⟩
        split at hplace
        · rename_i heq
          exact .inr ⟨(Option.some.inj hplace).symm, by rw [heq]⟩
        · exact .inl ⟨place, hplace, rfl⟩

/-- Every step keeps the indices right. -/
theorem Indexed.step (h : b.Indexed events) (hstep : Step b more c) :
    c.Indexed (events ++ more) := by
  cases hstep with
  | string value => exact h.string value
  | mark line column => exact h.of_strings_eq rfl (by simp)
  | emit i => exact h.of_strings_eq rfl (by simp)
  | emitBranch branch => exact h.of_strings_eq rfl (by simp)
  | bind label => exact h.of_strings_eq (by simp only [bind]) (by simp)

/-- Building from an empty table keeps the indices in order. -/
theorem Steps.indexed (h : Steps a events b) (hstart : a.strings = #[]) : b.Indexed events := by
  induction h with
  | refl => exact ⟨by simp [hstart], by simp [hstart]⟩
  | tail _ hstep ih => exact ih.step hstep

/-! ### Indices in the finished program -/

/-- Every index that was returned names its string in the program, and the indices of two strings
are equal if and only if the strings are. -/
structure NamesStrings (p : Program) (events : List Event) : Prop where
  named : ∀ value index, .named value index ∈ events → p.strings[index.toNat]? = some value
  eq_iff : ∀ value index other otherIndex, .named value index ∈ events →
    .named other otherIndex ∈ events → (value = other ↔ index = otherIndex)

/-- A place below the limit is its own index. -/
theorem toNat_place {place count : Nat} (hlt : place < count) (hcount : count ≤ 65536) :
    (UInt16.ofNat place).toNat = place :=
  UInt16.toNat_ofNat_of_lt' (Nat.lt_of_lt_of_le hlt hcount)

/-- Two places of one string are the same. -/
theorem Indexed.place_unique (h : b.Indexed events) {value : Bytes} {place other : Nat}
    (hplace : b.strings[place]? = some value) (hother : b.strings[other]? = some value) :
    place = other := by
  have hlt := (Array.getElem?_eq_some_iff.1 hplace).1
  have hsame : b.strings.toList[place]? = b.strings.toList[other]? := by
    rw [Array.getElem?_toList, Array.getElem?_toList, hplace, hother]
  exact (List.getElem?_inj (by simpa using hlt) h.nodup).1 hsame

/-- As long as the places fit into sixteen bits, the indices name the strings. -/
theorem Indexed.namesStrings (h : b.Indexed events) {p : Program} (hp : p.strings = b.strings)
    (hfew : p.strings.size ≤ 65536) : NamesStrings p events := by
  rw [hp] at hfew
  constructor
  · intro value index hnamed
    obtain ⟨place, hplace, rfl⟩ := (h.named_iff value index).1 hnamed
    rw [hp, toNat_place (Array.getElem?_eq_some_iff.1 hplace).1 hfew, hplace]
  · intro value index other otherIndex hnamed hother
    obtain ⟨place, hplace, rfl⟩ := (h.named_iff value index).1 hnamed
    obtain ⟨otherPlace, hotherPlace, rfl⟩ := (h.named_iff other otherIndex).1 hother
    constructor
    · rintro rfl
      rw [h.place_unique hplace hotherPlace]
    · intro heq
      have hsame := congrArg UInt16.toNat heq
      rw [toNat_place (Array.getElem?_eq_some_iff.1 hplace).1 hfew,
        toNat_place (Array.getElem?_eq_some_iff.1 hotherPlace).1 hfew] at hsame
      rw [hsame, hotherPlace] at hplace
      exact (Option.some.inj hplace).symm

/-- The string behind the first 2¹⁶ ones gets the index of the first one. -/
theorem Indexed.named_zero (h : b.Indexed events) {value : Bytes}
    (hvalue : b.strings[65536]? = some value) : .named value 0 ∈ events :=
  (h.named_iff value 0).2 ⟨65536, hvalue, rfl⟩

/-- With more strings some index names another one. -/
theorem Indexed.not_namesStrings (h : b.Indexed events) {p : Program}
    (hp : p.strings = b.strings) (hmany : 65536 < p.strings.size) : ¬NamesStrings p events := by
  intro hnames
  rw [hp] at hmany
  have hlast : b.strings[65536]? = some b.strings[65536] := Array.getElem?_eq_getElem hmany
  have hfirst := hnames.named _ _ (h.named_zero hlast)
  rw [hp] at hfirst
  exact absurd (h.place_unique hlast hfirst) (by decide)

/-- The strings of a finished program are all different, and the index that was returned for a
string is its place, of which sixteen bits are kept. So the indices name their strings, equal ones
by equal indices and different ones by different indices, if and only if the program has at most
2¹⁶ strings. -/
theorem Calls.namesStrings_iff {file : String} {p : Program} {t : Debug.Table}
    (h : Calls { file } events b) (hfinish : b.finish = .ok (p, t)) :
    p.strings.toList.Nodup ∧
    (∀ value index, .named value index ∈ events →
      ∃ place, p.strings[place]? = some value ∧ index = UInt16.ofNat place) ∧
    (NamesStrings p events ↔ p.strings.size ≤ 65536) := by
  have hindexed := h.steps.indexed rfl
  obtain ⟨hstrings, -, -⟩ := finish_eq_ok_iff.1 hfinish
  refine ⟨hstrings ▸ hindexed.nodup, fun value index hnamed => ?_, fun hnames => ?_, ?_⟩
  · rw [hstrings]
    exact (hindexed.named_iff value index).1 hnamed
  · exact Nat.le_of_not_lt fun hmany => hindexed.not_namesStrings hstrings hmany hnames
  · exact hindexed.namesStrings hstrings

/-- A program that pushes one string twice and another one in between. -/
def repeating : Builder :=
  (((({ file := "x" } : Builder).pushString [1]).pushString [2]).pushString [1]).emit .done

/-- The string that is pushed twice has one index. -/
theorem Calls.namesStrings_repeating : ∃ p, repeating.finish = .ok (p, {}) ∧
    NamesStrings p [.named [1] 0, .emitted 0 (.pushString 0), .named [2] 1,
      .emitted 3 (.pushString 1), .named [1] 0, .emitted 6 (.pushString 0), .emitted 9 .done] := by
  let p : Program := ⟨#[[1], [2]], #[5, 0, 0, 5, 1, 0, 5, 0, 0, 0], by decide +kernel⟩
  have hfinish : repeating.finish = .ok (p, {}) :=
    finish_eq_ok_iff.2 ⟨by decide +kernel, by decide +kernel, by decide +kernel⟩
  have hpushed := (((Calls.start { file := "x" }).pushString [1]).pushString [2]).pushString [1]
  obtain ⟨events, rfl, hcalls⟩ : ∃ events, events = [.named [1] 0, .emitted 0 (.pushString 0),
      .named [2] 1, .emitted 3 (.pushString 1), .named [1] 0, .emitted 6 (.pushString 0),
      .emitted 9 .done] ∧ Calls { file := "x" } events repeating :=
    ⟨_, by decide +kernel, hpushed.step (.emit _ .done)⟩
  exact ⟨p, hfinish, (hcalls.namesStrings_iff hfinish).2.2.2 (by decide)⟩

/-! ### Too many strings -/

/-- Ask for strings one after the other. -/
def intern (b : Builder) (values : List Bytes) : Builder :=
  values.foldl (fun b value => (b.string value).1) b

/-- New strings that are asked for are added in their order; the code stays as it is. -/
theorem intern_of_nodup {values : List Bytes} (h : (b.strings.toList ++ values).Nodup) :
    (b.intern values).strings.toList = b.strings.toList ++ values ∧
      (b.intern values).assembler = b.assembler := by
  induction values generalizing b with
  | nil => simp [intern]
  | cons value values ih =>
    have hnew : value ∉ b.strings := fun hmem =>
      (List.nodup_append.1 h).2.2 value (Array.mem_toList_iff.2 hmem) value (by simp) rfl
    have hstrings : (b.string value).1.strings.toList = b.strings.toList ++ [value] := by
      rw [string_of_not_mem hnew, Array.toList_push]
    have hrest := ih (b := (b.string value).1) (by rw [hstrings]; simpa using h)
    rwa [hstrings, assembler_string, List.append_assoc] at hrest

/-- Strings may be asked for one after the other. -/
theorem Calls.intern (h : Calls a events b) (values : List Bytes) :
    ∃ more, Calls a more (b.intern values) := by
  induction values generalizing b events with
  | nil => exact ⟨events, h⟩
  | cons value values ih => exact ih (h.step (.string b value))

/-- Code that does nothing is accepted with any strings. -/
theorem check_done (count : Nat) : check count #[0] = .ok () := by
  have hitems : Code.items #[0] = #[.ok (0, .done)] := by decide +kernel
  unfold check
  rw [hitems]
  rfl

/-- A program that does nothing can be built with any strings that are different. -/
theorem exists_finished (file : String) {values : List Bytes} (hnodup : values.Nodup) :
    ∃ events p t, Calls { file } events (({ file } : Builder).intern values |>.emit .done) ∧
      (({ file } : Builder).intern values |>.emit .done).finish = .ok (p, t) ∧
      p.strings.toList = values ∧
      (({ file } : Builder).intern values |>.emit .done).Indexed events := by
  obtain ⟨events, hintern⟩ := (Calls.start { file }).intern values
  have hcalls := hintern.step (.emit _ .done)
  obtain ⟨hstrings, hassembler⟩ := intern_of_nodup (b := { file }) (by simpa using hnodup)
  have hcode : (({ file } : Builder).intern values |>.emit .done).assembler.code = #[0] := by
    rw [emit, hassembler]
    rfl
  refine ⟨_, ⟨(({ file } : Builder).intern values).strings, #[0], check_done _⟩, _, hcalls,
    finish_eq_ok_iff.2 ⟨rfl, hcode.symm, rfl⟩, by simpa using hstrings,
    hcalls.steps.indexed rfl⟩

/-- All strings of two bytes, and then the empty one. -/
def crowd : List Bytes := (List.range 65536).map (littleEndian 2) ++ [[]]

/-- A program with those strings that does nothing. -/
def crowded : Builder := (({ file := "x" } : Builder).intern crowd).emit .done

/-- The strings differ from each other. -/
theorem nodup_crowd : crowd.Nodup := by
  refine List.nodup_append.2 ⟨?_, by simp, ?_⟩
  · refine List.pairwise_map.2 (List.nodup_range.imp_of_mem fun hm hn hne heq => hne ?_)
    have hvalue := congrArg littleEndianValue heq
    rw [littleEndianValue_littleEndian, littleEndianValue_littleEndian] at hvalue
    rwa [Nat.mod_eq_of_lt (List.mem_range.1 hm : _ < wordRange 2),
      Nat.mod_eq_of_lt (List.mem_range.1 hn : _ < wordRange 2)] at hvalue
  · rintro s hs _ hempty rfl
    obtain ⟨n, -, rfl⟩ := List.mem_map.1 hs
    simp [littleEndian] at hempty

/-- The first string has two zero bytes. -/
theorem crowd_zero : crowd[0]? = some [0, 0] := by
  rw [crowd, List.getElem?_append_left (by simp)]
  simp [littleEndian]

/-- The last string is the empty one. -/
theorem crowd_last : crowd[65536]? = some [] := by
  rw [crowd, List.getElem?_append_right (by simp)]
  simp

/-- The builder returns index 0 for the empty string, and the program is finished, but its first
string is another one. -/
theorem Calls.misnames_crowded : ∃ events p t, Calls { file := "x" } events crowded ∧
    crowded.finish = .ok (p, t) ∧ .named [] 0 ∈ events ∧ p.strings[0]? = some [0, 0] := by
  obtain ⟨events, p, t, hcalls, hfinish, hstrings, hindexed⟩ := exists_finished "x" nodup_crowd
  have hplace (place : Nat) : p.strings[place]? = crowd[place]? := by
    rw [← Array.getElem?_toList, hstrings]
  have hlast := hplace 65536
  rw [crowd_last, (finish_eq_ok_iff.1 hfinish).1] at hlast
  exact ⟨events, p, t, hcalls, hfinish, hindexed.named_zero hlast,
    (hplace 0).trans crowd_zero⟩

end Swarm.Program.Builder
