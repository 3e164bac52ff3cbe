import Mathlib.Algebra.Group.Nat.Defs
import Mathlib.Control.Monad.Basic
import Swarm.Proofs.Counted
import Swarm.Proofs.Listing

/-!
# Images and programs

An image determines its program and a program its image: what is read from an image is
written back as the same bytes, so no other bytes are accepted for it. Writing keeps only the
lowest digits of the lengths, and a program is read back exactly if none of them is cut.
-/

namespace Swarm.Program

/-- The lengths in the image of a program fit into the words that are written for them. -/
structure Fits (p : Program) : Prop where
  /-- There are few enough strings, and all of them are short enough. -/
  strings : Counted.Fits p.strings
  /-- The code is short enough. -/
  code : p.code.size < 4294967296

/-- The strings and the code that make a program are those it has. -/
theorem new?_eq_ok_iff {strings : Array Bytes} {code : Code} {p : Program} :
    new? strings code = .ok p ↔ p.strings = strings ∧ p.code = code := by
  constructor
  · intro h
    unfold new? at h
    split at h <;> cases h
    exact ⟨rfl, rfl⟩
  · rintro ⟨rfl, rfl⟩
    unfold new?
    split
    · rfl
    · rename_i error hcheck
      rw [p.checked] at hcheck
      cases hcheck

/-- A code section is read where it was written at the very end of the bytes. -/
theorem readCode_eq_ok_iff {bs : Bytes} {code : Code} :
    readCode bs = .ok code ↔
      code.size < 4294967296 ∧ bs = littleEndian 4 code.size ++ code.toList := by
  constructor
  · intro h
    unfold readCode at h
    split at h
    · cases h
    · rename_i size rest hword
      obtain ⟨hlt, hbs⟩ := Counted.readWord?_eq_some_iff.1 hword
      split at h
      · cases h
      · rename_i front tail hcut
        obtain ⟨hrest, hlength⟩ := Bytes.eq_append_of_cut? hcut
        split at h
        · rename_i hempty
          cases h
          have htail : tail = [] := List.isEmpty_iff.1 hempty
          subst hlength
          rw [htail, List.append_nil] at hrest
          exact ⟨hlt, by rw [hbs, hrest, List.size_toArray]⟩
        · cases h
  · rintro ⟨hlt, rfl⟩
    have hword : Counted.readWord? 4 (littleEndian 4 code.size ++ code.toList) =
        some (code.size, code.toList) := Counted.readWord?_eq_some_iff.2 ⟨hlt, rfl⟩
    have hcut : Bytes.cut? code.size code.toList = some (code.toList, []) := by
      simpa using Bytes.cut?_append code.toList []
    unfold readCode
    rw [hword]
    simp [hcut]

/-- What follows the version byte is read as a program exactly if it is the rest of its
image. -/
theorem readBody_eq_ok_iff {bs : Bytes} {p : Program} :
    readBody bs = .ok p ↔
      p.Fits ∧ bs = Counted.write p.strings ++ (littleEndian 4 p.code.size ++ p.code.toList) := by
  constructor
  · intro h
    unfold readBody at h
    split at h
    · cases h
    · rename_i strings rest hstrings
      obtain ⟨hfits, hbs⟩ := Counted.read_eq_some_iff.1 hstrings
      split at h
      · cases h
      · rename_i code hcode
        obtain ⟨hlt, hrest⟩ := readCode_eq_ok_iff.1 hcode
        obtain ⟨rfl, rfl⟩ := new?_eq_ok_iff.1 h
        exact ⟨⟨hfits, hlt⟩, by rw [hbs, hrest]⟩
  · rintro ⟨hfits, rfl⟩
    unfold readBody
    rw [Counted.read_eq_some_iff.2 ⟨hfits.strings, rfl⟩]
    simp only [readCode_eq_ok_iff.2 ⟨hfits.code, rfl⟩]
    exact new?_eq_ok_iff.2 ⟨rfl, rfl⟩

/-- Bytes are accepted for a program exactly if they are its image and no length in it was
cut. -/
theorem ofBytes_eq_ok_iff {bs : Bytes} {p : Program} :
    ofBytes bs = .ok p ↔ p.Fits ∧ bs = p.toBytes := by
  have himage : p.toBytes = magic ++ version ::
      (Counted.write p.strings ++ (littleEndian 4 p.code.size ++ p.code.toList)) := by
    simp [toBytes]
  rw [himage]
  constructor
  · intro h
    unfold ofBytes at h
    split at h
    · cases h
    · rename_i front rest hcut
      obtain ⟨hbs, -⟩ := Bytes.eq_append_of_cut? hcut
      split at h
      · cases h
      · rename_i hmagic
        have hfront : front = magic := Decidable.not_not.1 hmagic
        split at h
        · cases h
        · rename_i b tail
          split at h
          · rename_i hversion
            obtain ⟨hfits, htail⟩ := readBody_eq_ok_iff.1 h
            exact ⟨hfits, by rw [hbs, hfront, hversion, htail]⟩
          · cases h
  · rintro ⟨hfits, rfl⟩
    have hcut : Bytes.cut? 4 (magic ++ version ::
        (Counted.write p.strings ++ (littleEndian 4 p.code.size ++ p.code.toList))) =
          some (magic, _) := Bytes.cut?_append magic _
    unfold ofBytes
    rw [hcut]
    simp only [ne_eq, not_true_eq_false, if_false, if_true]
    exact readBody_eq_ok_iff.2 ⟨hfits, rfl⟩

/-- A program is read back from its image exactly if it has fewer than 2¹⁶ strings, each
shorter than 2¹⁶ bytes, and its code is shorter than 2³² bytes; and whatever bytes are
accepted for a program, they are its image. -/
theorem ofBytes_toBytes_iff (p : Program) :
    (ofBytes p.toBytes = .ok p ↔
      p.strings.size < 2 ^ 16 ∧ (∀ s ∈ p.strings, s.length < 2 ^ 16) ∧ p.code.size < 2 ^ 32) ∧
    ∀ bs, ofBytes bs = .ok p → p.toBytes = bs := by
  constructor
  · rw [ofBytes_eq_ok_iff]
    constructor
    · rintro ⟨hfits, -⟩
      exact ⟨hfits.strings.count, hfits.strings.each, hfits.code⟩
    · rintro ⟨hcount, heach, hcode⟩
      exact ⟨⟨⟨hcount, heach⟩, hcode⟩, rfl⟩
  · intro bs h
    exact (ofBytes_eq_ok_iff.1 h).2.symm

/-- A program that stores the empty value in the global variable `a`. -/
def storing : Program := ⟨#[[0x61]], #[2, 13, 0, 0, 0], by decide +kernel⟩

/-- The program that stores a value is read back, and nothing but its image is accepted for
it. -/
theorem ofBytes_toBytes_storing : ofBytes storing.toBytes = .ok storing ∧
    storing.toBytes = [72, 73, 86, 69, 1, 1, 0, 1, 0, 97, 5, 0, 0, 0, 2, 13, 0, 0, 0] := by
  obtain ⟨hiff, hunique⟩ := ofBytes_toBytes_iff storing
  exact ⟨hiff.2 (by decide +kernel), hunique _ (by decide +kernel)⟩

end Swarm.Program
