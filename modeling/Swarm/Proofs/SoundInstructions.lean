import Swarm.Proofs.SoundMachine

/-!
# Instructions of sound machines

Every instruction of a program keeps the machine that runs it sound: what it
computes is a number, comes from a trusted place, or is named by an operand that
the program admits. After each instruction the machine stands at a boundary
again, so decoding fails at the end of the code only.
-/

namespace Swarm

/-- A calculation gives a number, or fails because of its operands. -/
def IsNumeric (code : Code) : Except RuntimeError Value → Prop
  | .ok v => (∃ n, v = .int n) ∨ ∃ x, v = .float x
  | .error e => e.Expected code

namespace BinaryOp

variable {code : Code}

/-- What comes of two integers is a number or an expected error. -/
theorem isNumeric_onInts (op : BinaryOp) (a b : Int64) : IsNumeric code (op.onInts a b) := by
  have hint (n : Int64) : IsNumeric code (.ok (.int n)) := .inl ⟨n, rfl⟩
  have hdivision (n : Int64) :
      IsNumeric code (if b = 0 then .error .divisionByZero else .ok (.int n)) := by
    split
    · trivial
    · exact hint n
  cases op with
  | div | mod => exact hdivision _
  | _ => exact hint _

/-- What comes of two floats is a number. -/
theorem isNumeric_onFloats (op : BinaryOp) (a b : Float) :
    IsNumeric code (.ok (op.onFloats a b)) := by
  cases op <;> first | exact .inl ⟨_, rfl⟩ | exact .inr ⟨_, rfl⟩

/-- An operand that is not a number is a type error. -/
theorem number_error {op : BinaryOp} {v : Value} {e : RuntimeError}
    (h : op.number v = .error e) : e.Expected code := by
  cases v <;> cases h <;> trivial

/-- Operators give numbers. -/
theorem isNumeric_apply (op : BinaryOp) (left right : Value) :
    IsNumeric code (op.apply left right) := by
  have hbool (b : Bool) : IsNumeric code (.ok (.ofBool b)) := .inl ⟨_, rfl⟩
  have hfloats : IsNumeric code (do
      let a ← op.number left
      let b ← op.number right
      return op.onFloats a b) := by
    cases hleft : op.number left with
    | error e => exact number_error hleft
    | ok a =>
      cases hright : op.number right with
      | error e => exact number_error hright
      | ok b => exact op.isNumeric_onFloats a b
  cases op with
  | and | or | eq | neq => exact hbool _
  | _ =>
    simp only [apply]
    split
    · exact isNumeric_onInts _ _ _
    · exact hfloats

end BinaryOp

namespace Value

variable {code : Code} {v : Value}

/-- What comes of a negation is a number or an expected error. -/
theorem isNumeric_negate (v : Value) : IsNumeric code v.negate := by
  cases v with
  | int n => exact .inl ⟨_, rfl⟩
  | float x => exact .inr ⟨_, rfl⟩
  | _ => trivial

/-- Only a table is accepted as a table. -/
theorem eq_of_expectTable {operation : String} {id : TableId}
    (h : v.expectTable operation = .ok id) : v = .table id := by
  cases v <;> cases h
  rfl

/-- A value that is no table is an expected error. -/
theorem expectTable_error {operation : String} {e : RuntimeError}
    (h : v.expectTable operation = .error e) : e.Expected code := by
  cases v <;> cases h <;> trivial

/-- Only the value of a key is accepted as a key. -/
theorem eq_of_expectKey {key : TableKey} (h : v.expectKey = .ok key) : v = key.toValue := by
  cases v <;> cases h <;> rfl

/-- A value that is no key is an expected error. -/
theorem expectKey_error {e : RuntimeError} (h : v.expectKey = .error e) : e.Expected code := by
  cases v <;> cases h <;> trivial

end Value

namespace Machine

variable {ν : Type} {m : Machine ν}

/-- Numbers are trusted. -/
theorem trusts_of_isNumeric {result : Except RuntimeError Value} {v : Value}
    (h : IsNumeric m.program.code result) (hv : result = .ok v) : m.Trusts v := by
  subst hv
  rcases h with ⟨n, rfl⟩ | ⟨x, rfl⟩
  · exact Store.trusts_int n
  · exact Store.trusts_float x

/-- The result of a calculation with numbers is trusted. -/
theorem keeps_numeric (hm : m.Sound) {result : Except RuntimeError Value}
    (h : IsNumeric m.program.code result) :
    m.Keeps (require result) (fun v m' => m'.Trusts v) := by
  cases result with
  | ok v => exact ⟨hm.evolves, trusts_of_isNumeric h rfl⟩
  | error e => exact ⟨hm.evolves, h⟩

/-- Local symbols are trusted. -/
theorem keeps_local (hm : m.Sound) (index : Nat) :
    m.Keeps (require (m.local? index)) (fun v m' => m'.Trusts v) := by
  unfold local?
  cases hback : m.frames.back? with
  | none => exact ⟨hm.evolves, trivial⟩
  | some f =>
    have hf : f ∈ m.frames := Array.mem_of_back? hback
    simp only [Option.bind_some]
    cases hlocal : f.locals[index]? with
    | none => exact ⟨hm.evolves, trivial⟩
    | some v => exact ⟨hm.evolves, hm.locals f hf v (Array.mem_of_getElem? hlocal)⟩

/-- The fields of a trusted table are trusted. -/
theorem trusts_get {id : TableId} (hid : m.Trusts (.table id)) (key : TableKey) :
    m.Trusts ((m.store.heap.table id).get key) := by
  unfold Table.get
  cases hrow : (m.store.heap.table id).rows[key]? with
  | none => exact Store.trusts_nil
  | some v => exact Heap.Confines.value hid (Table.mem_toList_iff.mpr hrow)

/-- Global variables are trusted. -/
theorem Sound.trusts_global (hm : m.Sound) (id : StringId) :
    m.Trusts (m.store.globals[id]?.getD .nil) := by
  cases hglobal : m.store.globals[id]? with
  | none => exact Store.trusts_nil
  | some v => exact hm.store.globals id v hglobal

/-- A new table is trusted. -/
theorem keeps_newTable (hm : m.Sound) :
    m.Keeps (modifyGet fun m => let (m, id) := m.withStore Store.newTable; (id, m))
      (fun id m' => m'.Trusts (.table id)) :=
  ⟨hm.withStore hm.store.newTable.1, hm.store.newTable.2⟩

/-- Pushing a value and going on to the next instruction. -/
theorem keeps_push_next (hm : m.Sound) {v : Value} (hv : m.Trusts v) :
    m.Keeps (do push v; return (none : Option ν)) (fun _ _ => True) :=
  (keeps_push hm hv).bind fun _ _ hevolves _ => keeps_pure hevolves.sound trivial

/-- Every instruction that the program admits keeps the machine sound. -/
theorem keeps_execute (hm : m.Sound) {i : Instruction} (hi : m.program.Admits i) :
    m.Keeps (execute i) (fun _ _ => True) := by
  cases i with
  | done => exact (keeps_done hm).bind fun _ _ h _ => keeps_pure h.sound trivial
  | nop => exact keeps_pure hm trivial
  | pushNil => exact keeps_push_next hm Store.trusts_nil
  | pushInt value => exact keeps_push_next hm (Store.trusts_int _)
  | pushFloat bits => exact keeps_push_next hm (Store.trusts_float _)
  | pushString string =>
    have hholds := hm.holds_programString (hi.string string rfl)
    exact keeps_get_bind (keeps_push_next hm (Store.trusts_str hholds))
  | pushClosure address => exact keeps_push_next hm (Store.trusts_closure (hi.address _ rfl))
  | pushTable =>
    exact (keeps_newTable hm).bind fun _ _ h hid => keeps_push_next h.sound hid
  | dup => exact (keeps_top hm).bind fun v _ h hv => keeps_push_next h.sound hv
  | pop => exact (keeps_pop hm).bind fun _ _ h _ => keeps_pure h.sound trivial
  | tablePut =>
    refine (keeps_pop hm).bind fun value m₁ h₁ hvalue => ?_
    refine (keeps_pop h₁.sound).bind fun keyValue m₂ h₂ hkey => ?_
    refine (keeps_pop h₂.sound).bind fun tableValue m₃ h₃ _ => ?_
    refine (keeps_require h₃.sound (P := fun id => tableValue = .table id)
      (fun _ => Value.eq_of_expectTable) fun _ => Value.expectTable_error).bind
      fun id m₄ h₄ _ => ?_
    refine (keeps_require h₄.sound (P := fun key => keyValue = key.toValue)
      (fun _ => Value.eq_of_expectKey) fun _ => Value.expectKey_error).bind
      fun key m₅ h₅ heq => ?_
    subst heq
    have hput := h₅.sound.store.putTable id
      (h₅.grows.trusts (h₄.grows.trusts (h₃.grows.trusts hkey)))
      (h₅.grows.trusts (h₄.grows.trusts (h₃.grows.trusts (h₂.grows.trusts hvalue))))
    exact (keeps_modify (h₅.sound.withStore hput)).bind fun _ _ h _ => keeps_pure h.sound trivial
  | tableGet =>
    refine (keeps_pop hm).bind fun keyValue m₁ h₁ _ => ?_
    refine (keeps_pop h₁.sound).bind fun tableValue m₂ h₂ htable => ?_
    refine (keeps_require h₂.sound (P := fun id => tableValue = .table id)
      (fun _ => Value.eq_of_expectTable) fun _ => Value.expectTable_error).bind
      fun id m₃ h₃ heq => ?_
    subst heq
    refine (keeps_require h₃.sound (P := fun key => keyValue = key.toValue)
      (fun _ => Value.eq_of_expectKey) fun _ => Value.expectKey_error).bind
      fun key m₄ h₄ _ => ?_
    have hfield := trusts_get (h₄.grows.trusts (h₃.grows.trusts htable)) key
    exact keeps_get_bind (keeps_push_next h₄.sound hfield)
  | globalLoad name =>
    exact keeps_get_bind (keeps_push_next hm (hm.trusts_global _))
  | globalStore name =>
    refine (keeps_pop hm).bind fun value m₁ h₁ hvalue => ?_
    have hname : name.toNat < m₁.program.strings.size := by
      rw [h₁.grows.program]
      exact hi.string _ rfl
    have hinsert := h₁.sound.store.insertGlobal (h₁.sound.holds_programString hname) hvalue
    exact (keeps_modify (h₁.sound.withStore hinsert)).bind
      fun _ _ h _ => keeps_pure h.sound trivial
  | localLoad index =>
    apply keeps_get_bind
    exact (keeps_local hm _).bind fun v _ h hv => keeps_push_next h.sound hv
  | localStore index =>
    refine (keeps_pop hm).bind fun value m₁ h₁ hvalue => ?_
    exact (keeps_storeLocal h₁.sound _ hvalue).bind fun _ _ h _ => keeps_pure h.sound trivial
  | call argumentCount => exact keeps_call hm _
  | ret0 => exact (keeps_ret hm Store.trusts_nil).bind fun _ _ h _ => keeps_pure h.sound trivial
  | ret1 =>
    refine (keeps_pop hm).bind fun value m₁ h₁ hvalue => ?_
    exact (keeps_ret h₁.sound hvalue).bind fun _ _ h _ => keeps_pure h.sound trivial
  | jump address =>
    exact (keeps_jump hm (hi.address _ rfl)).bind fun _ _ h _ => keeps_pure h.sound trivial
  | jumpIfZero address =>
    refine (keeps_pop hm).bind fun value m₁ h₁ _ => ?_
    split
    · refine (keeps_jump h₁.sound ?_).bind fun _ _ h _ => keeps_pure h.sound trivial
      rw [h₁.grows.program]
      exact hi.address _ rfl
    · exact keeps_pure h₁.sound trivial
  | jumpIfNotZero address =>
    refine (keeps_pop hm).bind fun value m₁ h₁ _ => ?_
    split
    · refine (keeps_jump h₁.sound ?_).bind fun _ _ h _ => keeps_pure h.sound trivial
      rw [h₁.grows.program]
      exact hi.address _ rfl
    · exact keeps_pure h₁.sound trivial
  | binary op =>
    refine (keeps_pop hm).bind fun right m₁ h₁ _ => ?_
    refine (keeps_pop h₁.sound).bind fun left m₂ h₂ _ => ?_
    exact (keeps_numeric h₂.sound (op.isNumeric_apply left right)).bind
      fun _ _ h hv => keeps_push_next h.sound hv
  | neg =>
    refine (keeps_pop hm).bind fun value m₁ h₁ _ => ?_
    exact (keeps_numeric h₁.sound value.isNumeric_negate).bind
      fun _ _ h hv => keeps_push_next h.sound hv
  | not =>
    refine (keeps_pop hm).bind fun value m₁ h₁ _ => ?_
    exact keeps_push_next h₁.sound (Store.trusts_int _)

/-- At the start of an instruction of a sound machine the operands are valid. -/
theorem Sound.admits (hm : m.Sound) {offset : Nat} {i : Instruction}
    (h : Except.ok (offset, i) ∈ m.program.code.items.toList) : m.program.Admits i where
  string _ hs := m.program.string_lt h hs
  address _ ha := m.program.isStart_address hm.addressable h ha

/-- A machine at a boundary carries out an instruction, or fails to decode at the end of the
code, and is sound afterwards. -/
theorem keeps_executeNext (hm : m.Sound) : m.Keeps executeNext (fun _ _ => True) := by
  apply keeps_get_bind
  rcases hm.pc with ⟨i, hi⟩ | hend
  · have hdecode := m.program.code.tiles_items.decodeAt_of_mem hi
    rw [hdecode]
    refine (keeps_modify (hm.withPc (m.program.isBoundary_next hi))).bind fun _ m₁ h₁ _ => ?_
    apply keeps_execute h₁.sound
    rw [h₁.grows.program]
    exact hm.admits hi
  · rw [Code.decodeAt_eq_outOfBounds (Nat.le_of_eq hend.symm), hend]
    exact ⟨hm.evolves, rfl⟩

end Machine

end Swarm
