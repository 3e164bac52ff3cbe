import Swarm.Debug.Table

/-!
# Which entry an offset belongs to

Halving finds the place where a test begins to fail, if it holds of all elements before that place
and of none behind it. So an offset belongs to the last of the entries that are not after it, if
these stand before all others.
-/

namespace Swarm.Debug

section PartitionPoint

variable {α : Type} {test : α → Bool} {xs : Array α} {front back : List α}

/-- The test holds of an element if and only if it stands in the front. -/
theorem test_iff_lt_length (hxs : xs.toList = front ++ back)
    (hfront : ∀ x ∈ front, test x = true) (hback : ∀ x ∈ back, test x = false) {place : Nat}
    {x : α} (hx : xs[place]? = some x) : test x = true ↔ place < front.length := by
  rw [← Array.getElem?_toList, hxs] at hx
  by_cases hlt : place < front.length
  · rw [List.getElem?_append_left hlt] at hx
    simp [hlt, hfront x (List.mem_of_getElem? hx)]
  · rw [List.getElem?_append_right (Nat.le_of_not_lt hlt)] at hx
    simp [hlt, hback x (List.mem_of_getElem? hx)]

/-- Halving finds the place where the test begins to fail, because that place never leaves the
range. -/
theorem partitionPoint_eq (hxs : xs.toList = front ++ back)
    (hfront : ∀ x ∈ front, test x = true) (hback : ∀ x ∈ back, test x = false) {low high : Nat}
    (hlow : low ≤ front.length) (hhigh : front.length ≤ high) (hsize : high ≤ xs.size) :
    partitionPoint test xs low high = front.length := by
  fun_induction partitionPoint test xs low high with
  | case1 low high hlt middle hnone =>
    have hmiddle := Array.getElem?_eq_none_iff.1 hnone
    omega
  | case2 low high hlt middle x hx htest ih =>
    have hside := (test_iff_lt_length hxs hfront hback hx).1 htest
    exact ih hside hhigh hsize
  | case3 low high hlt middle x hx htest ih =>
    have hside := mt (test_iff_lt_length hxs hfront hback hx).2 htest
    exact ih hlow (Nat.le_of_not_lt hside) (by omega)
  | case4 low high hge => omega

end PartitionPoint

/-- An offset belongs to the last of the entries that are not after it, if all others stand behind
them. -/
theorem Table.entry?_eq {t : Table} {pc : UInt32} {front back : List Entry}
    (hentries : t.entries.toList = front ++ back) (hfront : ∀ e ∈ front, e.pc ≤ pc)
    (hback : ∀ e ∈ back, pc < e.pc) : t.entry? pc = front.getLast? := by
  have hsize : front.length ≤ t.entries.size := by
    rw [← Array.length_toList, hentries, List.length_append]
    omega
  have hpoint : partitionPoint (fun e => e.pc ≤ pc) t.entries 0 t.entries.size = front.length :=
    partitionPoint_eq hentries (fun e he => decide_eq_true (hfront e he))
      (fun e he => decide_eq_false (UInt32.not_le.2 (hback e he))) (Nat.zero_le _) hsize
      (Nat.le_refl _)
  unfold entry?
  rw [hpoint]
  cases hlength : front.length with
  | zero => simp [List.eq_nil_of_length_eq_zero hlength]
  | succ index =>
    simp only
    rw [← Array.getElem?_toList, hentries, List.getElem?_append_left (by omega),
      List.getLast?_eq_getElem?, hlength, Nat.add_sub_cancel]

end Swarm.Debug
