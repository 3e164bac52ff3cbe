import Swarm.Proofs.Images

/-!
# Images are prefix free

An image is read from its front, and what has been read does not depend on the bytes behind it.
If the last bytes of an accepted image are missing, the first read that crosses the cut fails and
no check before it does; and bytes that are too many are noticed behind the code.
-/

namespace Swarm

/-- What is cut off does not depend on later bytes. -/
theorem Bytes.cut?_append_right {count : Nat} {bs front rest : Bytes}
    (h : bs.cut? count = some (front, rest)) (more : Bytes) :
    Bytes.cut? count (bs ++ more) = some (front, rest ++ more) := by
  obtain ⟨rfl, rfl⟩ := eq_append_of_cut? h
  rw [List.append_assoc]
  exact cut?_append front (rest ++ more)

namespace Counted

/-- The word that is read does not depend on later bytes. -/
theorem readWord?_append_right {width n : Nat} {bs rest : Bytes}
    (h : readWord? width bs = some (n, rest)) (more : Bytes) :
    readWord? width (bs ++ more) = some (n, rest ++ more) := by
  obtain ⟨hlt, rfl⟩ := readWord?_eq_some_iff.1 h
  exact readWord?_eq_some_iff.2 ⟨hlt, List.append_assoc _ _ _⟩

/-- Strings that are read completely do not depend on later bytes. -/
theorem read_append_right {strings : Array Bytes} {bs rest : Bytes}
    (h : read bs = (strings, some rest)) (more : Bytes) :
    read (bs ++ more) = (strings, some (rest ++ more)) := by
  obtain ⟨hfits, rfl⟩ := read_eq_some_iff.1 h
  exact read_eq_some_iff.2 ⟨hfits, List.append_assoc _ _ _⟩

end Counted

namespace Program

variable {bs front rest : Bytes} {p : Program}

/-! ### Bytes that are missing -/

/-- Code that misses its end is truncated. -/
theorem readCode_of_append {code : Code} (h : readCode (front ++ rest) = .ok code)
    (hrest : rest ≠ []) : readCode front = .error .truncated := by
  cases hword : Counted.readWord? 4 front with
  | none => simp [readCode, hword]
  | some found =>
    obtain ⟨size, tail⟩ := found
    cases hcut : tail.cut? size with
    | none => simp [readCode, hword, hcut]
    | some parts =>
      -- Then the bytes that are there end no earlier than the code, so none can be missing.
      obtain ⟨body, behind⟩ := parts
      simp [readCode, Counted.readWord?_append_right hword, Bytes.cut?_append_right hcut,
        hrest] at h

/-- A body that misses its end is truncated. -/
theorem readBody_of_append (h : readBody (front ++ rest) = .ok p) (hrest : rest ≠ []) :
    readBody front = .error .truncated := by
  cases hread : Counted.read front with
  | mk strings tail? =>
    cases tail? with
    | none => simp [readBody, hread]
    | some tail =>
      simp only [readBody, Counted.read_append_right hread] at h
      cases hcode : readCode (tail ++ rest) with
      | error e => simp [hcode] at h
      | ok code => simp [readBody, hread, readCode_of_append hcode hrest]

/-- An image that is cut is refused, by the magic word if not even that is whole. -/
theorem ofBytes_of_append (h : ofBytes (front ++ rest) = .ok p) (hrest : rest ≠ []) :
    ofBytes front = .error (if front.length < 4 then .badMagic else .truncated) := by
  cases hcut : front.cut? 4 with
  | none => simp [ofBytes, hcut, Bytes.cut?_eq_none_iff.1 hcut]
  | some parts =>
    obtain ⟨word, tail⟩ := parts
    have hlong : ¬front.length < 4 := by
      rw [← Bytes.cut?_eq_none_iff, hcut]
      exact Option.some_ne_none _
    rw [if_neg hlong]
    simp only [ofBytes, Bytes.cut?_append_right hcut] at h
    by_cases hmagic : word = magic
    · cases tail with
      | nil => simp [ofBytes, hcut, hmagic]
      | cons b tail =>
        by_cases hversion : b = version
        · simp only [hmagic, hversion, List.cons_append, ne_eq, not_true_eq_false, if_false,
            if_true] at h
          simp [ofBytes, hcut, hmagic, hversion, readBody_of_append h hrest]
        · simp [hmagic, hversion] at h
    · simp [hmagic] at h

/-! ### Bytes that are too many -/

/-- Bytes behind the code are too many. -/
theorem readCode_append {code : Code} (h : readCode bs = .ok code) (hrest : rest ≠ []) :
    readCode (bs ++ rest) = .error (.trailingBytes rest.length) := by
  obtain ⟨hlt, rfl⟩ := readCode_eq_ok_iff.1 h
  have hword : Counted.readWord? 4 (littleEndian 4 code.size ++ (code.toList ++ rest)) =
      some (code.size, code.toList ++ rest) := Counted.readWord?_eq_some_iff.2 ⟨hlt, rfl⟩
  have hcut : Bytes.cut? code.size (code.toList ++ rest) = some (code.toList, rest) :=
    Bytes.cut?_append code.toList rest
  rw [List.append_assoc]
  simp [readCode, hword, hcut, hrest]

/-- Bytes behind the body are too many. -/
theorem readBody_append (h : readBody bs = .ok p) (hrest : rest ≠ []) :
    readBody (bs ++ rest) = .error (.trailingBytes rest.length) := by
  obtain ⟨hfits, rfl⟩ := readBody_eq_ok_iff.1 h
  have hcode := readCode_append (readCode_eq_ok_iff.2 ⟨hfits.code, rfl⟩) hrest
  rw [List.append_assoc, readBody, Counted.read_eq_some_iff.2 ⟨hfits.strings, rfl⟩]
  simp only [hcode]

/-- Behind an image nothing may follow. -/
theorem ofBytes_append (h : ofBytes bs = .ok p) (hrest : rest ≠ []) :
    ofBytes (bs ++ rest) = .error (.trailingBytes rest.length) := by
  obtain ⟨hfits, rfl⟩ := ofBytes_eq_ok_iff.1 h
  have hbody := readBody_append (readBody_eq_ok_iff.2 ⟨hfits, rfl⟩) hrest
  have hcut : Bytes.cut? 4 (p.toBytes ++ rest) = some (magic, version ::
      (Counted.write p.strings ++ (littleEndian 4 p.code.size ++ p.code.toList) ++ rest)) := by
    have himage := Bytes.cut?_append magic (version ::
      (Counted.write p.strings ++ (littleEndian 4 p.code.size ++ p.code.toList) ++ rest))
    simpa [toBytes, magic] using himage
  simp only [ofBytes, hcut, ne_eq, not_true_eq_false, if_false, if_true, hbody]

/-- Every proper prefix of an accepted image is refused, as no image if it is shorter than the
magic word and as truncated otherwise; and what continues an accepted image is refused with the
number of bytes that are too many. -/
theorem prefix_free (h : ofBytes bs = .ok p) :
    (∀ front, front <+: bs → front ≠ bs →
      ofBytes front = .error (if front.length < 4 then .badMagic else .truncated)) ∧
    ∀ rest, rest ≠ [] → ofBytes (bs ++ rest) = .error (.trailingBytes rest.length) := by
  constructor
  · rintro front ⟨rest, rfl⟩ hproper
    exact ofBytes_of_append h (by simpa using hproper)
  · intro rest hrest
    exact ofBytes_append h hrest

/-- The image of the program that stores a value, cut in the magic word and in its last
instruction, and continued by a byte. -/
theorem prefix_free_storing : ofBytes storing.toBytes = .ok storing ∧
    ofBytes (storing.toBytes.take 3) = .error .badMagic ∧
    ofBytes (storing.toBytes.take 18) = .error .truncated ∧
    ofBytes (storing.toBytes ++ [0]) = .error (.trailingBytes 1) := by
  have haccepted : ofBytes storing.toBytes = .ok storing := by decide +kernel
  obtain ⟨hcut, hlong⟩ := prefix_free haccepted
  refine ⟨haccepted, ?_, ?_, hlong [0] (by decide)⟩
  · exact hcut _ (List.take_prefix 3 _) (by decide +kernel)
  · exact hcut _ (List.take_prefix 18 _) (by decide +kernel)

end Program

end Swarm
