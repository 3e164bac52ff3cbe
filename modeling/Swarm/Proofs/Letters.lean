import Mathlib.Data.List.Perm.Basic
import Mathlib.Data.List.Nodup
import Swarm.Hub.Basic
import Swarm.Proofs.Reachability

/-!
# Letters

A letter is a message together with its receiver. Mail to which letters are added
one after the other has, for every receiver, the messages of its letters in their
order; its count is the number of letters.
-/

namespace Swarm

/-- The context id of a receiver and a message for it. -/
abbrev Letter := UInt16 × Message

namespace Mail

variable {mail : Mail} {receiver id : UInt16} {message : Message} {letters : List Letter}

/-- Add letters in their order. -/
def addAll (mail : Mail) (letters : List Letter) : Mail :=
  letters.foldl (fun mail letter => mail.add letter.1 letter.2) mail

/-- Adding no letters leaves the mail. -/
@[simp] theorem addAll_nil (mail : Mail) : mail.addAll [] = mail := rfl

/-- The first letter is added first. -/
@[simp] theorem addAll_cons (mail : Mail) (letter : Letter) (letters : List Letter) :
    mail.addAll (letter :: letters) = (mail.add letter.1 letter.2).addAll letters := rfl

/-- Letters are added one batch after the other. -/
theorem addAll_append (mail : Mail) (letters others : List Letter) :
    mail.addAll (letters ++ others) = (mail.addAll letters).addAll others :=
  List.foldl_append

/-- A letter comes after all others for its receiver. -/
theorem getD_add : (mail.add receiver message).getD id [] =
    mail.getD id [] ++ if receiver = id then [message] else [] := by
  unfold add
  rw [Std.TreeMap.getD_insert]
  by_cases h : receiver = id
  · subst h
    simp
  · simp [h]

/-- Every receiver has its letters in the order in which they were added. -/
theorem getD_addAll : (mail.addAll letters).getD id [] =
    mail.getD id [] ++ (letters.filter fun letter => letter.1 = id).map Prod.snd := by
  induction letters generalizing mail with
  | nil => simp
  | cons letter rest ih =>
    rw [addAll_cons, ih, getD_add]
    by_cases h : letter.1 = id <;> simp [h]

/-- There is mail for whom there was some and for whom a letter is added. -/
theorem mem_addAll_iff : id ∈ mail.addAll letters ↔
    id ∈ mail ∨ ∃ letter ∈ letters, letter.1 = id := by
  induction letters generalizing mail with
  | nil => simp
  | cons letter rest ih =>
    rw [addAll_cons, ih, add, Std.TreeMap.mem_insert, Std.compare_eq_iff_eq]
    simp only [List.mem_cons, exists_eq_or_imp]
    rw [← or_assoc, or_comm (a := letter.1 = id)]

/-- The rows of a map are different from each other. -/
theorem nodup_toList (mail : Mail) : mail.toList.Nodup :=
  mail.distinct_keys_toList.imp fun h heq => h (Std.compare_eq_iff_eq.mpr (congrArg Prod.fst heq))

/-- A row can be taken out of a map. -/
theorem toList_perm_cons {messages : List Message} (h : mail[receiver]? = some messages) :
    mail.toList.Perm ((receiver, messages) :: mail.toList.filter (¬receiver == ·.1)) := by
  refine List.Perm.trans ?_ Std.TreeMap.toList_insert_perm
  refine (List.perm_ext_iff_of_nodup mail.nodup_toList (nodup_toList _)).mpr ?_
  rintro ⟨other, others⟩
  rw [Std.TreeMap.mem_toList_iff_getElem?_eq_some, Std.TreeMap.mem_toList_iff_getElem?_eq_some,
    Std.TreeMap.getElem?_insert]
  by_cases heq : receiver = other
  · subst heq
    simp [h]
  · simp [heq]

/-- The count is the number of messages for all receivers together. -/
theorem count_eq (mail : Mail) : mail.count = (mail.toList.flatMap Prod.snd).length := by
  unfold count
  rw [values_eq_map_snd]
  rfl

/-- A letter adds one to the count. -/
theorem count_add : (mail.add receiver message).count = mail.count + 1 := by
  have hinsert := Std.TreeMap.toList_insert_perm (t := mail) (k := receiver)
    (v := mail.getD receiver [] ++ [message])
  rw [count_eq, count_eq]
  have hadded := (hinsert.flatMap_right Prod.snd).length_eq
  unfold add
  rw [hadded]
  cases hmessages : mail[receiver]? with
  | some messages =>
    have hold := ((toList_perm_cons hmessages).flatMap_right Prod.snd).length_eq
    have hgetD : mail.getD receiver [] = messages := by
      rw [Std.TreeMap.getD_eq_getD_getElem?, hmessages]
      rfl
    rw [hold, hgetD]
    simp only [List.flatMap_cons, List.length_append, List.length_singleton]
    omega
  | none =>
    have hfilter : mail.toList.filter (¬receiver == ·.1) = mail.toList := by
      refine List.filter_eq_self.mpr fun row hrow => ?_
      have hrow := Std.TreeMap.mem_toList_iff_getElem?_eq_some.mp hrow
      have hne : receiver ≠ row.1 := by
        intro heq
        rw [← heq, hmessages] at hrow
        cases hrow
      simpa using hne
    have hgetD : mail.getD receiver [] = [] := by
      rw [Std.TreeMap.getD_eq_getD_getElem?, hmessages]
      rfl
    rw [hfilter, hgetD]
    simp only [List.flatMap_cons, List.nil_append, List.length_append, List.length_singleton]
    omega

/-- Every letter counts once. -/
theorem count_addAll : (mail.addAll letters).count = mail.count + letters.length := by
  induction letters generalizing mail with
  | nil => simp
  | cons letter rest ih =>
    rw [addAll_cons, ih, count_add, List.length_cons]
    omega

/-- Mail without receivers counts nothing. -/
theorem count_eq_zero (h : ∀ id, id ∉ mail) : mail.count = 0 := by
  have hempty : mail.toList = [] := by
    refine List.eq_nil_iff_forall_not_mem.mpr fun row hrow => h row.1 ?_
    have hsome := Std.TreeMap.mem_toList_iff_getElem?_eq_some.mp hrow
    exact Std.TreeMap.mem_iff_isSome_getElem?.mpr (by simp [hsome])
  rw [count_eq, hempty]
  rfl

end Mail

end Swarm
