/-
  Descent.Callback

  Code that a grammar brings along: tests, conditions and mappings.  A callback answers
  or raises a fault, and says what a call of it leaves in the trace; it keeps no memory,
  so equal arguments get equal answers.
-/
import Descent.Trace

namespace Descent

/-- A function that may raise a fault, with the entries that a call writes before it
    answers. -/
structure Callback (α β : Type) where
  record : α → List Entry
  answer : α → Except Fault β

namespace Callback

variable {α β : Type}

/-- A function that always answers and leaves no trace. -/
def total (f : α → β) : Callback α β := ⟨fun _ => [], fun a => .ok (f a)⟩

/-- A function that raises a fault where it has no answer, and leaves no trace. -/
def orFault (message : String) (f : α → Option β) : Callback α β :=
  ⟨fun _ => [], fun a => match f a with
    | some b => .ok b
    | none => .error (.callback message)⟩

/-- A test of a character, noted in the trace. -/
def test (f : Char → Except Fault Bool) : Callback Char Bool := ⟨fun c => [.tested c], f⟩

/-- A condition on what lies ahead, noted in the trace. -/
def condition (f : Text → Except Fault Bool) : Callback Text Bool :=
  ⟨fun rest => [.checked rest], f⟩

/-- A mapping, noted in the trace under its name. -/
def mapping (name : String) (f : Value → Except Fault Value) : Callback Value Value :=
  ⟨fun v => [.mapped name v], f⟩

/-- A mapping as the conversion of runs of characters. -/
def ofRuns (f : Callback Value Value) : Callback Text Value :=
  ⟨fun run => .converted run :: f.record (.str run), fun run => f.answer (.str run)⟩

end Callback
end Descent
