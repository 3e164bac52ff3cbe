import Swarm.Proofs.Action
import Swarm.Proofs.SoundStore

/-!
# Sound machines

A sound machine stands at a boundary of its code, returns to boundaries, and can
reach only values that resolve. Every instruction of its program keeps it sound,
whether it succeeds or fails, and fails neither for want of a native function nor
for want of an instruction inside the code.
-/

namespace Swarm

/-- An error that can occur in a sound machine: decoding fails at the end of the code only, and
native functions are never missing. -/
def RuntimeError.Expected (code : Code) : RuntimeError → Prop
  | .decode e => e = .outOfBounds code.size
  | .unknownNative => False
  | _ => True

/-- The operands of an instruction that name strings and addresses are valid in a program. -/
structure Program.Admits (p : Program) (i : Instruction) : Prop where
  string : ∀ s, i.string? = some s → s.toNat < p.strings.size
  address : ∀ a, i.address? = some a → p.code.IsStart a.toNat

namespace Machine

variable {ν : Type} {m m' m'' : Machine ν}

/-- Everything that can be reached from a value exists in the store of the machine. -/
abbrev Trusts (m : Machine ν) (v : Value) : Prop := m.store.Trusts m.program.code v

/-- The position and all return positions are boundaries, everything that can be reached from the
roots exists, and the machine has not failed in an unexpected way. -/
structure Sound (m : Machine ν) : Prop where
  addressable : m.program.code.size ≤ UInt32.size
  size_programStrings : m.programStrings.size = m.program.strings.size
  programStrings : ∀ (k : Nat) (value : Bytes), m.program.strings[k]? = some value →
    ∃ id, m.programStrings[k]? = some id ∧ m.store.strings.Stores id value
  store : m.store.Sound m.program.code
  stack : ∀ v ∈ m.stack, m.Trusts v
  locals : ∀ f ∈ m.frames, ∀ v ∈ f.locals, m.Trusts v
  returnPc : ∀ f ∈ m.frames, m.program.code.IsBoundary f.returnPc
  pc : m.program.code.IsBoundary m.pc
  fault : ∀ f, m.fault = some f → f.error.Expected m.program.code

/-- The later machine runs the same program and trusts all values that the earlier one trusts. -/
structure Grows (m m' : Machine ν) : Prop where
  program : m'.program = m.program
  programStrings : m'.programStrings = m.programStrings
  store : m.store.Grows m.program.code m'.store

/-- A machine grows into itself. -/
theorem Grows.refl : m.Grows m := ⟨rfl, rfl, .refl⟩

/-- Growing twice is growing. -/
theorem Grows.trans (h : m.Grows m') (h' : m'.Grows m'') : m.Grows m'' where
  program := h'.program.trans h.program
  programStrings := h'.programStrings.trans h.programStrings
  store := h.store.trans (h.program ▸ h'.store)

/-- A value stays trusted while the machine grows. -/
theorem Grows.trusts (h : m.Grows m') {v : Value} (hv : m.Trusts v) : m'.Trusts v := by
  unfold Trusts
  rw [h.program]
  exact h.store.trusts v hv

/-- A change that keeps a machine sound and grows its store. -/
structure Evolves (m m' : Machine ν) : Prop where
  sound : m'.Sound
  grows : m.Grows m'

/-- Evolving twice is evolving. -/
theorem Evolves.trans (h : m.Evolves m') (h' : m'.Evolves m'') : m.Evolves m'' :=
  ⟨h'.sound, h.grows.trans h'.grows⟩

/-- A sound machine evolves into itself. -/
theorem Sound.evolves (hm : m.Sound) : m.Evolves m := ⟨hm, .refl⟩

/-- The strings of the program are held by the string table. -/
theorem Sound.holds_programStrings (hm : m.Sound) :
    ∀ id ∈ m.programStrings, m.store.strings.Holds id := by
  intro id hid
  obtain ⟨k, hk, rfl⟩ := Array.mem_iff_getElem.mp hid
  have hlt : k < m.program.strings.size := by rwa [← hm.size_programStrings]
  obtain ⟨id', hid', hstores⟩ := hm.programStrings k _ (Array.getElem?_eq_getElem hlt)
  rw [Array.getElem?_eq_getElem hk] at hid'
  cases hid'
  exact hstores.holds

/-- The string that an admitted instruction names is held by the string table. -/
theorem Sound.holds_programString (hm : m.Sound) {s : UInt16}
    (hs : s.toNat < m.program.strings.size) : m.store.strings.Holds (m.programString s) := by
  have hlt : s.toNat < m.programStrings.size := by rwa [hm.size_programStrings]
  have heq : m.programString s = m.programStrings[s.toNat] := by simp [programString, hlt]
  rw [heq]
  exact hm.holds_programStrings _ (Array.getElem_mem hlt)

/-- A change of the store that keeps the store sound keeps the machine sound. -/
theorem Sound.withStore (hm : m.Sound) {s : Store ν} (hs : m.store.Evolves m.program.code s) :
    m.Evolves { m with store := s } where
  sound :=
    { addressable := hm.addressable
      size_programStrings := hm.size_programStrings
      programStrings := fun k value hk => by
        obtain ⟨id, hid, hstores⟩ := hm.programStrings k value hk
        exact ⟨id, hid, hs.grows.stores id value hstores⟩
      store := hs.sound
      stack := fun v hv => hs.grows.trusts v (hm.stack v hv)
      locals := fun f hf v hv => hs.grows.trusts v (hm.locals f hf v hv)
      returnPc := hm.returnPc
      pc := hm.pc
      fault := hm.fault }
  grows := ⟨rfl, rfl, hs.grows⟩

/-- Values, frames and positions may be exchanged for others that are sound. -/
theorem Sound.withControl (hm : m.Sound) {stack : Array Value} {frames : Array Frame} {pc : Nat}
    (hstack : ∀ v ∈ stack, m.Trusts v) (hlocals : ∀ f ∈ frames, ∀ v ∈ f.locals, m.Trusts v)
    (hreturn : ∀ f ∈ frames, m.program.code.IsBoundary f.returnPc)
    (hpc : m.program.code.IsBoundary pc) : m.Evolves { m with stack, frames, pc } where
  sound :=
    { addressable := hm.addressable
      size_programStrings := hm.size_programStrings
      programStrings := hm.programStrings
      store := hm.store
      stack := hstack
      locals := hlocals
      returnPc := hreturn
      pc := hpc
      fault := hm.fault }
  grows := ⟨rfl, rfl, .refl⟩

/-- A stack of trusted values keeps a machine sound. -/
theorem Sound.withStack (hm : m.Sound) {stack : Array Value} (hstack : ∀ v ∈ stack, m.Trusts v) :
    m.Evolves { m with stack } :=
  hm.withControl hstack hm.locals hm.returnPc hm.pc

/-- The start or the end of an instruction keeps a machine sound. -/
theorem Sound.withPc (hm : m.Sound) {pc : Nat} (hpc : m.program.code.IsBoundary pc) :
    m.Evolves { m with pc } :=
  hm.withControl hm.stack hm.locals hm.returnPc hpc

/-- An expected fault keeps a machine sound. -/
theorem Sound.recordFault (hm : m.Sound) (pc : Nat) {e : RuntimeError}
    (he : e.Expected m.program.code) : m.Evolves (m.recordFault pc e) := by
  unfold Machine.recordFault
  split
  · exact
      { sound := { hm with
          fault := fun f hf => by
            cases hf
            exact he }
        grows := ⟨rfl, rfl, .refl⟩ }
  · exact hm.evolves

/-- What is left of an array that is cut was in it. -/
theorem mem_of_mem_shrink {α : Type} {xs : Array α} {n : Nat} {x : α} (h : x ∈ xs.shrink n) :
    x ∈ xs := by
  rw [← Array.mem_toList_iff, Array.toList_shrink] at h
  exact Array.mem_toList_iff.mp (List.mem_of_mem_take h)

/-- What is in a part of an array is in the array. -/
theorem mem_of_mem_extract {α : Type} {xs : Array α} {i j : Nat} {x : α}
    (h : x ∈ xs.extract i j) : x ∈ xs := by
  obtain ⟨k, hk, rfl⟩ := Array.mem_extract_iff_getElem.mp h
  exact Array.getElem_mem _

/-- Making a frame from the topmost values keeps a machine sound. -/
theorem Sound.enterFrame (hm : m.Sound) (kind : FrameKind) (base : Nat) :
    m.Evolves (m.enterFrame kind base) := by
  refine hm.withControl (fun v hv => hm.stack v (mem_of_mem_shrink hv)) ?_ ?_ hm.pc
  · intro f hf v hv
    rcases Array.mem_push.mp hf with hf | rfl
    · exact hm.locals f hf v hv
    · exact hm.stack v (mem_of_mem_extract hv)
  · intro f hf
    rcases Array.mem_push.mp hf with hf | rfl
    · exact hm.returnPc f hf
    · exact hm.pc

/-- Dropping the innermost frame keeps a machine sound. -/
theorem Sound.dropFrame (hm : m.Sound) {frames : Array Frame} {f : Frame}
    (hframes : m.frames = frames.push f) {stack : Array Value} {pc : Nat}
    (hstack : ∀ v ∈ stack, m.Trusts v) (hpc : m.program.code.IsBoundary pc) :
    m.Evolves { m with frames, stack, pc } := by
  have hmem (g : Frame) (hg : g ∈ frames) : g ∈ m.frames := by
    rw [hframes]
    exact Array.mem_push_of_mem f hg
  exact hm.withControl hstack (fun g hg => hm.locals g (hmem g hg))
    (fun g hg => hm.returnPc g (hmem g hg)) hpc

/-- The action keeps the machine sound and fails in an expected way only. -/
def Keeps {α : Type} (m : Machine ν) (act : Action ν α) (ends : α → Machine ν → Prop) : Prop :=
  Action.Ends act m (fun a m' => m.Evolves m' ∧ ends a m')
    (fun e m' => m.Evolves m' ∧ e.Expected m.program.code)

section Keeps

variable {α β : Type} {act : Action ν α} {next : α → Action ν β}
  {ends : α → Machine ν → Prop} {endsNext : β → Machine ν → Prop}

/-- Actions that keep a machine sound may follow each other. -/
theorem Keeps.bind (h : m.Keeps act ends)
    (hnext : ∀ a m', m.Evolves m' → ends a m' → m'.Keeps (next a) endsNext) :
    m.Keeps (act >>= next) endsNext := by
  refine Action.Ends.bind h fun a m' ⟨hevolves, ha⟩ => (hnext a m' hevolves ha).imp ?_ ?_
  · exact fun b m'' ⟨hevolves', hb⟩ => ⟨hevolves.trans hevolves', hb⟩
  · intro e m'' ⟨hevolves', he⟩
    rw [hevolves.grows.program] at he
    exact ⟨hevolves.trans hevolves', he⟩

/-- Doing nothing keeps a machine sound. -/
theorem keeps_pure (hm : m.Sound) {a : α} (ha : ends a m) : m.Keeps (pure a) ends :=
  ⟨hm.evolves, ha⟩

/-- Looking at the machine changes nothing. -/
theorem keeps_get_bind {next : Machine ν → Action ν β} (h : m.Keeps (next m) endsNext) :
    m.Keeps (get >>= next) endsNext := h

/-- A change into which the machine evolves keeps it sound. -/
theorem keeps_modify {f : Machine ν → Machine ν} (h : m.Evolves (f m)) :
    m.Keeps (modify f) (fun _ _ => True) :=
  ⟨h, trivial⟩

/-- A calculation whose errors are expected. -/
theorem keeps_require (hm : m.Sound) {result : Except RuntimeError α} {P : α → Prop}
    (hok : ∀ a, result = .ok a → P a)
    (herror : ∀ e, result = .error e → e.Expected m.program.code) :
    m.Keeps (require result) (fun a _ => P a) := by
  cases result with
  | ok a => exact ⟨hm.evolves, hok a rfl⟩
  | error e => exact ⟨hm.evolves, herror e rfl⟩

/-- Pushing a trusted value keeps a machine sound. -/
theorem keeps_push (hm : m.Sound) {v : Value} (hv : m.Trusts v) :
    m.Keeps (push v) (fun _ _ => True) := by
  refine ends_push (fun _ => ⟨hm.withStack fun w hw => ?_, trivial⟩) fun _ => ⟨hm.evolves, trivial⟩
  rcases Array.mem_push.mp hw with hw | rfl
  · exact hm.stack w hw
  · exact hv

/-- A value that is popped is trusted. -/
theorem keeps_pop (hm : m.Sound) : m.Keeps pop (fun v m' => m'.Trusts v) := by
  refine ends_pop (fun rest v hstack _ => ?_) fun _ => ⟨hm.evolves, trivial⟩
  have hmem (w : Value) (hw : w ∈ rest.push v) : m.Trusts w := hm.stack w (hstack ▸ hw)
  exact ⟨hm.withStack fun w hw => hmem w (Array.mem_push_of_mem v hw), hmem v Array.mem_push_self⟩

/-- The topmost value is trusted. -/
theorem keeps_top (hm : m.Sound) : m.Keeps top (fun v m' => m'.Trusts v) := by
  refine ends_top (fun rest v hstack => ⟨hm.evolves, hm.stack v ?_⟩) fun _ => ⟨hm.evolves, trivial⟩
  rw [hstack]
  exact Array.mem_push_self

/-- A trusted closure leads to the start of an instruction or to a native function. -/
theorem keeps_call (hm : m.Sound) (n : Nat) : m.Keeps (call n) (fun _ _ => True) := by
  have hcallee {base : Nat} {v : Value} (hv : m.stack[base]? = some v) :
      m.store.Resolves m.program.code v :=
    (hm.stack v (Array.mem_of_getElem? hv)).self
  refine ends_call ?_ ?_ (fun _ => ⟨hm.evolves, trivial⟩) (fun _ => ⟨hm.evolves, trivial⟩) ?_
    fun _ => ⟨hm.evolves, trivial⟩
  · intro base address _ _ hscript
    have hframe := hm.enterFrame .function base
    have hstart : m.program.code.IsStart address.toNat := hcallee hscript
    exact ⟨hframe.trans (hframe.sound.withPc hstart.isBoundary), trivial⟩
  · intro base id entry _ _ _ _
    exact ⟨hm.enterFrame .native base, trivial⟩
  · intro base id _ hnative hmissing
    have hlt : id < m.store.natives.size := hcallee hnative
    rw [Array.getElem?_eq_getElem hlt] at hmissing
    cases hmissing

/-- Returning a trusted value keeps a machine sound. -/
theorem keeps_ret (hm : m.Sound) {v : Value} (hv : m.Trusts v) :
    m.Keeps (ret v) (fun _ _ => True) := by
  refine ends_ret (fun frames f hframes => ?_) fun _ => ⟨hm.evolves, trivial⟩
  have hreturn : m.program.code.IsBoundary f.returnPc := by
    apply hm.returnPc f
    rw [hframes]
    exact Array.mem_push_self
  have hdrop := hm.dropFrame hframes
    (fun w hw => hm.stack w (mem_of_mem_shrink (n := f.stackBase) hw)) hreturn
  exact (keeps_push hdrop.sound hv).imp (fun _ _ ⟨h, _⟩ => ⟨hdrop.trans h, trivial⟩)
    fun _ _ ⟨h, he⟩ => ⟨hdrop.trans h, he⟩

/-- The end of a body or a function keeps a machine sound. -/
theorem keeps_done (hm : m.Sound) : m.Keeps done (fun _ _ => True) := by
  refine ends_done (fun frames f hframes _ => ?_)
    (fun frames f hframes _ => ⟨hm.dropFrame hframes hm.stack hm.pc, trivial⟩)
    fun _ => ⟨hm.evolves, trivial⟩
  exact ⟨hm.dropFrame hframes (fun v hv => hm.stack v (mem_of_mem_shrink hv)) hm.pc, trivial⟩

/-- Missing local symbols are filled with the empty value. -/
theorem mem_locals_setLocal {f : Frame} {index : Nat} {v w : Value}
    (h : w ∈ (f.setLocal index v).locals) : w ∈ f.locals ∨ w = .nil ∨ w = v := by
  rcases Array.mem_or_eq_of_mem_setIfInBounds h with h | rfl
  · rcases Array.mem_append.mp h with h | h
    · exact .inl h
    · exact .inr (.inl (Array.mem_replicate.mp h).2)
  · exact .inr (.inr rfl)

/-- Storing a trusted value in a local symbol keeps a machine sound. -/
theorem keeps_storeLocal (hm : m.Sound) (index : Nat) {v : Value} (hv : m.Trusts v) :
    m.Keeps (storeLocal index v) (fun _ _ => True) := by
  refine ends_storeLocal (fun frames f hframes => ?_) fun _ => ⟨hm.evolves, trivial⟩
  have hlast : f ∈ m.frames := by
    rw [hframes]
    exact Array.mem_push_self
  have hmem (g : Frame) (hg : g ∈ frames) : g ∈ m.frames := by
    rw [hframes]
    exact Array.mem_push_of_mem f hg
  refine ⟨hm.withControl hm.stack ?_ ?_ hm.pc, trivial⟩
  · intro g hg w hw
    rcases Array.mem_push.mp hg with hg | rfl
    · exact hm.locals g (hmem g hg) w hw
    · rcases mem_locals_setLocal hw with hw | rfl | rfl
      · exact hm.locals f hlast w hw
      · exact Store.trusts_nil
      · exact hv
  · intro g hg
    rcases Array.mem_push.mp hg with hg | rfl
    · exact hm.returnPc g (hmem g hg)
    · exact hm.returnPc f hlast

/-- A jump to the start of an instruction keeps a machine sound. -/
theorem keeps_jump (hm : m.Sound) {address : UInt32}
    (ha : m.program.code.IsStart address.toNat) : m.Keeps (jump address) (fun _ _ => True) :=
  keeps_modify (hm.withPc ha.isBoundary)

end Keeps

end Machine

end Swarm
