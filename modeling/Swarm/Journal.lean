/-!
# Journal

What a program reports about itself is a list of entries with levels. The world
around the machines holds the journal, the text that scripts have printed, and
whatever state the functions of the host keep.
-/

namespace Swarm

/-- How serious an entry is, the most serious first. -/
inductive Level where
  | error | warn | info | debug
  deriving DecidableEq, Repr

namespace Level

/-- The rank of a level; the most serious has the lowest. -/
def rank : Level → Nat
  | .error => 1
  | .warn => 2
  | .info => 3
  | .debug => 4

/-- The word for a level in front of an entry. -/
def name : Level → String
  | .error => "ERROR"
  | .warn => "WARN"
  | .info => "INFO"
  | .debug => "DEBUG"

end Level

/-- A report. -/
structure LogEntry where
  /-- How serious it is. -/
  level : Level
  /-- What it says. -/
  text : String
  deriving DecidableEq, Repr

/-- An entry as it is shown, after the word for its level. -/
def LogEntry.line (e : LogEntry) : String := s!"{e.level.name} {e.text}"

/-- What lies outside the machines. -/
structure World (σ : Type) where
  /-- Everything reported so far. -/
  journal : Array LogEntry := #[]
  /-- The text that scripts have printed. -/
  output : String := ""
  /-- The state of the functions of the host. -/
  host : σ

namespace World

variable {σ : Type}

/-- Report something. -/
def report (w : World σ) (level : Level) (text : String) : World σ :=
  { w with journal := w.journal.push ⟨level, text⟩ }

/-- Print a line of text. -/
def print (w : World σ) (line : String) : World σ :=
  { w with output := (w.output ++ line).push '\n' }

end World

end Swarm
