import Swarm.Proofs.Building
import Swarm.Proofs.Lookup

/-!
# Source positions of emitted instructions

A builder records a source position under the current offset. Offsets never go back, so the
positions that were recorded before an instruction was emitted stand before those recorded after
it, and every byte of the instruction belongs to the last one of the former.
-/

namespace Swarm.Program.Builder

/-- The number of bytes that an event adds to the code. -/
def Event.size : Event → Nat
  | .emitted _ i => i.size
  | _ => 0

/-- The source position that an event records. -/
def Event.position? : Event → Option (UInt32 × UInt32)
  | .marked line column => some (line, column)
  | _ => none

/-- The last source position that was recorded. -/
def lastPosition? (events : List Event) : Option (UInt32 × UInt32) :=
  (events.filterMap Event.position?).getLast?

/-- The number of bytes that events add to the code. -/
def emittedSize : List Event → Nat
  | [] => 0
  | e :: rest => e.size + emittedSize rest

/-- The entries of the events after an offset; all of them name the first file. -/
def entries : Nat → List Event → List Debug.Entry
  | _, [] => []
  | offset, .marked line column :: rest => ⟨.ofNat offset, line, column, 0⟩ :: entries offset rest
  | offset, e :: rest => entries (offset + e.size) rest

/-- Instructions that are emitted after an offset are placed one behind the other. -/
def Placed : Nat → List Event → Prop
  | _, [] => True
  | offset, .emitted place i :: rest => place = offset ∧ Placed (offset + i.size) rest
  | offset, _ :: rest => Placed offset rest

variable {a b c : Builder} {events more : List Event}

/-! ### Events and their entries -/

/-- Events one after the other emit the sum of their sizes. -/
@[simp] theorem emittedSize_append (events more : List Event) :
    emittedSize (events ++ more) = emittedSize events + emittedSize more := by
  induction events with
  | nil => simp [emittedSize]
  | cons e events ih => simp [emittedSize, ih, Nat.add_assoc]

/-- Later events mark the offsets after those of earlier ones. -/
theorem entries_append (offset : Nat) (events more : List Event) :
    entries offset (events ++ more) =
      entries offset events ++ entries (offset + emittedSize events) more := by
  induction events generalizing offset with
  | nil => simp [entries, emittedSize]
  | cons e events ih => cases e <;> simp [entries, emittedSize, ih, Event.size, Nat.add_assoc]

/-- Instructions of later events are placed behind those of earlier ones. -/
theorem placed_append {offset : Nat} :
    Placed offset (events ++ more) ↔
      Placed offset events ∧ Placed (offset + emittedSize events) more := by
  induction events generalizing offset with
  | nil => simp [Placed, emittedSize]
  | cons e events ih =>
    cases e <;> simp [Placed, emittedSize, ih, Event.size, Nat.add_assoc, and_assoc]

/-- The entries tell the positions that were recorded. -/
theorem map_entries (offset : Nat) (events : List Event) :
    (entries offset events).map (fun e => (e.line, e.column)) =
      events.filterMap Event.position? := by
  induction events generalizing offset with
  | nil => rfl
  | cons e events ih => cases e <;> simp [entries, Event.position?, List.filterMap_cons, ih]

/-- The last entry has the position marked last. -/
theorem map_getLast?_entries (offset : Nat) (events : List Event) (file : String) :
    (entries offset events).getLast?.map (fun e => (⟨file, e.line, e.column⟩ : Debug.Location)) =
      (lastPosition? events).map fun position => ⟨file, position.1, position.2⟩ := by
  rw [lastPosition?, ← map_entries offset, List.getLast?_map, Option.map_map]
  rfl

/-- Every entry is that of a recorded position, at the offset that the events before it lead to. -/
theorem exists_of_mem_entries {offset : Nat} {e : Debug.Entry} (he : e ∈ entries offset events) :
    ∃ before line column after, events = before ++ .marked line column :: after ∧
      e = ⟨.ofNat (offset + emittedSize before), line, column, 0⟩ := by
  induction events generalizing offset with
  | nil => cases he
  | cons first events ih =>
    have hlater (h : e ∈ entries (offset + first.size) events) :
        ∃ before line column after, first :: events = before ++ .marked line column :: after ∧
          e = ⟨.ofNat (offset + emittedSize before), line, column, 0⟩ := by
      obtain ⟨before, line, column, after, rfl, rfl⟩ := ih h
      exact ⟨first :: before, line, column, after, rfl, by rw [emittedSize, Nat.add_assoc]⟩
    cases first with
    | marked line column =>
      rcases List.mem_cons.1 he with rfl | he
      · exact ⟨[], line, column, events, rfl, rfl⟩
      · exact hlater he
    | named value index => exact hlater he
    | emitted place i => exact hlater he

/-- The entries of events stand between the offset where these begin and the one where they end,
if it fits into an entry. -/
theorem pc_of_mem_entries {offset : Nat} {e : Debug.Entry} (he : e ∈ entries offset events)
    (hlt : offset + emittedSize events < 4294967296) :
    offset ≤ e.pc.toNat ∧ e.pc.toNat ≤ offset + emittedSize events := by
  obtain ⟨before, line, column, after, rfl, rfl⟩ := exists_of_mem_entries he
  rw [emittedSize_append] at hlt ⊢
  simp only [UInt32.toNat_ofNat']
  omega

/-! ### What the builder has recorded -/

/-- The builder has recorded the events: its code has the bytes that they added, and its table the
entries of the positions. The only file is the builder's, which is named with the first entry. -/
structure Records (file : String) (b : Builder) (events : List Event) : Prop where
  file_eq : b.file = file
  offset_eq : b.assembler.offset = emittedSize events
  placed : Placed 0 events
  entries_eq : b.debug.entries.toList = entries 0 events
  files : b.debug.files = #[file] ∨ b.debug.files = #[] ∧ b.debug.entries = #[]

variable {file : String}

/-- What emits an instruction and leaves the rest alone records that. -/
theorem Records.emitted (h : Records file b events) {i : Instruction} (hfile : c.file = b.file)
    (hdebug : c.debug = b.debug) (hoffset : c.assembler.offset = b.assembler.offset + i.size) :
    Records file c (events ++ [.emitted b.assembler.offset i]) where
  file_eq := hfile.trans h.file_eq
  offset_eq := by simp [hoffset, h.offset_eq, Event.size, emittedSize]
  placed := placed_append.2 ⟨h.placed, by simp [Placed, h.offset_eq]⟩
  entries_eq := by simp [hdebug, h.entries_eq, entries_append, entries]
  files := hdebug ▸ h.files

/-- What emits nothing and records no position leaves all as it was recorded. -/
theorem Records.congr (h : Records file b events) (hfile : c.file = b.file)
    (hdebug : c.debug = b.debug) (hoffset : c.assembler.offset = b.assembler.offset)
    (hsize : emittedSize more = 0) (hplaced : ∀ offset, Placed offset more)
    (hentries : ∀ offset, entries offset more = []) : Records file c (events ++ more) where
  file_eq := hfile.trans h.file_eq
  offset_eq := by simp [hoffset, h.offset_eq, hsize]
  placed := placed_append.2 ⟨h.placed, hplaced _⟩
  entries_eq := by simp [hdebug, h.entries_eq, entries_append, hentries]
  files := hdebug ▸ h.files

/-- A position is recorded under the current offset, as one in the only file. -/
theorem Records.mark (h : Records file b events) (line column : UInt32) :
    Records file (b.mark line column) (events ++ [.marked line column]) := by
  have hrecord : (b.mark line column).debug.files = #[file] ∧
      (b.mark line column).debug.entries =
        b.debug.entries.push ⟨.ofNat b.assembler.offset, line, column, 0⟩ := by
    rcases h.files with hfiles | ⟨hfiles, -⟩
    · simp [Builder.mark, Debug.Table.record, h.file_eq, hfiles]
    · simp [Builder.mark, Debug.Table.record, h.file_eq, hfiles]
  constructor
  · exact h.file_eq
  · simp [Builder.mark, h.offset_eq, Event.size, emittedSize]
  · exact placed_append.2 ⟨h.placed, trivial⟩
  · rw [hrecord.2, Array.toList_push, h.entries_eq, h.offset_eq, entries_append, Nat.zero_add]
    rfl
  · exact .inl hrecord.1

/-- A step keeps the records in order. -/
theorem Records.step (h : Records file b events) (hstep : Step b more c) :
    Records file c (events ++ more) := by
  cases hstep with
  | string value =>
    refine h.congr ?_ ?_ (by simp) rfl (fun _ => trivial) (fun _ => rfl)
    · unfold string
      split <;> rfl
    · unfold string
      split <;> rfl
  | mark line column => exact h.mark line column
  | emit i => exact h.emitted rfl rfl (b.offset_emit i)
  | emitBranch branch => exact h.emitted rfl rfl (b.offset_emitBranch branch)
  | bind label =>
    refine h.congr ?_ ?_ (b.offset_bind label) rfl (fun _ => trivial) (fun _ => rfl)
    · simp only [bind]
    · simp only [bind]

/-- Building from the start keeps the records in order. -/
theorem Steps.records (h : Steps { file } events b) : Records file b events := by
  induction h with
  | refl => exact ⟨rfl, rfl, trivial, rfl, .inr ⟨rfl, rfl⟩⟩
  | tail _ hstep ih => exact ih.step hstep

/-- An instruction that was emitted lies between what was emitted before it and the end. -/
theorem Records.offset_eq_of_append {before after : List Event} {offset : Nat} {i : Instruction}
    (h : Records file b (before ++ .emitted offset i :: after)) :
    offset = emittedSize before ∧ b.assembler.offset = offset + i.size + emittedSize after := by
  obtain ⟨-, hplace, -⟩ := placed_append.1 h.placed
  rw [Nat.zero_add] at hplace
  have hend := h.offset_eq
  rw [emittedSize_append, emittedSize, Event.size, ← hplace, ← Nat.add_assoc] at hend
  exact ⟨hplace, hend⟩

/-- An offset inside an instruction belongs to the last position that was recorded before the
instruction was emitted. -/
theorem Records.entry?_eq {before after : List Event} {offset k : Nat} {i : Instruction}
    (h : Records file b (before ++ .emitted offset i :: after))
    (hsize : b.assembler.offset < 4294967296) (hk : k < i.size) :
    b.debug.entry? (.ofNat (offset + k)) = (entries 0 before).getLast? := by
  obtain ⟨hplace, hend⟩ := h.offset_eq_of_append
  have hoffset : (UInt32.ofNat (offset + k)).toNat = offset + k :=
    UInt32.toNat_ofNat_of_lt' (by rw [UInt32.size]; omega)
  have hentries : b.debug.entries.toList = entries 0 before ++ entries (offset + i.size) after := by
    rw [h.entries_eq, entries_append, Nat.zero_add, ← hplace]
    rfl
  refine Debug.Table.entry?_eq hentries (fun e he => ?_) (fun e he => ?_)
  · have hpc := (pc_of_mem_entries he (by omega)).2
    rw [UInt32.le_iff_toNat_le, hoffset]
    omega
  · have hpc : offset + i.size ≤ e.pc.toNat := (pc_of_mem_entries he (by omega)).1
    rw [UInt32.lt_iff_toNat_lt, hoffset]
    omega

/-- The table finds the file of every entry. -/
theorem Records.lookup_eq (h : Records file b events) {pc : UInt32} {found : Option Debug.Entry}
    (hentry : b.debug.entry? pc = found) (hfound : ∀ e ∈ found, e ∈ b.debug.entries) :
    b.debug.lookup pc = found.map fun e => ⟨file, e.line, e.column⟩ := by
  subst hentry
  cases hentry : b.debug.entry? pc with
  | none => simp [Debug.Table.lookup, hentry]
  | some e =>
    have hmem := hfound e hentry
    rcases h.files with hfiles | ⟨-, hempty⟩
    · have hfile : e.file = 0 := by
        rw [← Array.mem_toList_iff, h.entries_eq] at hmem
        obtain ⟨_, _, _, _, -, rfl⟩ := exists_of_mem_entries hmem
        rfl
      simp [Debug.Table.lookup, hentry, hfile, hfiles]
    · simp [hempty] at hmem

/-- Every byte of an emitted instruction is looked up as the builder's file with the line and the
column that were recorded last before the instruction was emitted, and as nothing if none were.
The instruction lies inside the code. -/
theorem Calls.locates {p : Program} {t : Debug.Table} {before after : List Event} {offset : Nat}
    {i : Instruction} (h : Calls { file } (before ++ .emitted offset i :: after) b)
    (hfinish : b.finish = .ok (p, t)) (hsize : p.code.size < 2 ^ 32) :
    offset + i.size ≤ p.code.size ∧ ∀ k < i.size,
      t.lookup (.ofNat (offset + k)) =
        (lastPosition? before).map fun position => ⟨file, position.1, position.2⟩ := by
  have hrecords := h.steps.records
  obtain ⟨-, hcode, rfl⟩ := finish_eq_ok_iff.1 hfinish
  rw [hcode] at hsize ⊢
  have hend := hrecords.offset_eq_of_append.2
  refine ⟨by rw [← Assembler.offset, hend]; exact Nat.le_add_right _ _, fun k hk => ?_⟩
  rw [hrecords.lookup_eq (hrecords.entry?_eq hsize hk), map_getLast?_entries]
  intro e he
  rw [← Array.mem_toList_iff, hrecords.entries_eq, entries_append]
  exact List.mem_append_left _ (List.mem_of_getLast? he)

/-- A jump over a literal with two positions, to an end with another one. -/
def jumping : Builder :=
  let start : Builder × Label := ({ file := "x" } : Builder).emitBranch .jump
  ((((start.1.mark 2 4).mark 3 5).emit (.pushInt 1)).bind start.2 |>.mark 7 1).emit .done

/-- What such a builder has done. -/
theorem calls_jumping : Calls { file := "x" }
    [.emitted 0 (.jump 0), .marked 2 4, .marked 3 5, .emitted 5 (.pushInt 1), .marked 7 1,
      .emitted 10 .done] jumping := by
  have hjump := (Calls.start { file := "x" }).step (.emitBranch _ .jump)
  have hmarked := (hjump.step (.mark _ 2 4)).step (.mark _ 3 5)
  have hbound := (hmarked.step (.emit _ (.pushInt 1))).step (.bind _ ⟨1⟩)
  obtain ⟨events, rfl, hcalls⟩ : ∃ events, events = [.emitted 0 (.jump 0), .marked 2 4,
      .marked 3 5, .emitted 5 (.pushInt 1), .marked 7 1, .emitted 10 .done] ∧
      Calls { file := "x" } events jumping :=
    ⟨_, by decide +kernel, (hbound.step (.mark _ 7 1)).step (.emit _ .done)⟩
  exact hcalls

/-- The jump has no position, all bytes of the literal have the second one, and the end has its
own. -/
theorem Calls.locates_jumping : ∃ p t, jumping.finish = .ok (p, t) ∧ t.lookup 4 = none ∧
    t.lookup 5 = some ⟨"x", 3, 5⟩ ∧ t.lookup 9 = some ⟨"x", 3, 5⟩ ∧
    t.lookup 10 = some ⟨"x", 7, 1⟩ := by
  let p : Program := ⟨#[], #[19, 10, 0, 0, 0, 3, 1, 0, 0, 0, 0], by decide +kernel⟩
  have hfinish : jumping.finish = .ok (p, jumping.debug) :=
    finish_eq_ok_iff.2 ⟨by decide +kernel, by decide +kernel, rfl⟩
  have hjump : Calls { file := "x" } ([] ++ .emitted 0 (.jump 0) :: _) jumping := calls_jumping
  have hpush : Calls { file := "x" } ([.emitted 0 (.jump 0), .marked 2 4, .marked 3 5] ++
    .emitted 5 (.pushInt 1) :: _) jumping := calls_jumping
  have hdone : Calls { file := "x" } ([.emitted 0 (.jump 0), .marked 2 4, .marked 3 5,
    .emitted 5 (.pushInt 1), .marked 7 1] ++ .emitted 10 .done :: []) jumping := calls_jumping
  have hsize : p.code.size < 2 ^ 32 := by decide
  have hfirst := (hjump.locates hfinish hsize).2 4 (by decide)
  have hliteral := (hpush.locates hfinish hsize).2
  have hlast := (hdone.locates hfinish hsize).2 0 (by decide)
  exact ⟨p, _, hfinish, hfirst, hliteral 0 (by decide), hliteral 4 (by decide), hlast⟩

end Swarm.Program.Builder
