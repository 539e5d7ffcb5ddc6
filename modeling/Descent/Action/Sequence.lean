/-
  Descent.Action.Sequence

  What parsers do that apply one other, or two in a row.  In a row, the second goes on
  from the state in which the first ended, its value included.  An inner parser gets a
  text of its own, that it reads from the start; where it ends in that text is forgotten.
-/
import Descent.Action.Leaf

namespace Descent.Action

open Run

/-! ## One after the other -/

/-- The value of the second. -/
def seq (p q : Action) : Action := p.andThen q

/-- The value of the first, at the place where the second ended. -/
def thenSkip (p q : Action) : Action :=
  p.andThen fun l => q.andThen (fun r => pure (some (r.withValue l.value))) l

/-- The fields of both. -/
def merge (p q : Action) : Action :=
  p.andThen fun l => q.andThen (fun r => do
    let older ← fieldsOf .left l.value
    let newer ← fieldsOf .right r.value
    pure (some (r.withValue (.fields (older.merge newer))))) l

/-- The value of the last, between two others. -/
def between (opening closing p : Action) : Action := (opening.seq p).thenSkip closing

/-! ## One inside the other -/

/-- The value of the inner parser, at the place where the outer one ended. -/
def seqInside (p q : Action) (key : Option String) : Action :=
  p.andThen fun l => do
    let text ← innerText l.value key
    q.andThen (fun r => pure (some (l.withValue r.value))) (State.start text)

/-- The fields of both, at the place where the outer one ended. -/
def mergeInside (p q : Action) (key : Option String) : Action :=
  p.andThen fun l => do
    let text ← innerText l.value key
    q.andThen (fun r => do
      let older ← fieldsOf .left l.value
      let newer ← fieldsOf .right r.value
      pure (some (l.withValue (.fields (older.merge newer))))) (State.start text)

/-! ## Alternatives -/

/-- The first, or the second from the same state. -/
def orElse (p q : Action) : Action := fun s => do
  match ← p s with
  | some r => pure (some r)
  | none => q s

/-- The parser, or nothing with the given value. -/
def orDefault (p : Action) (value : Value) : Action := p.orElse (constant value)

/-! ## One -/

/-- The value under a key. -/
def field (p : Action) (key : String) : Action :=
  p.andThen fun r => pure (some (r.withValue (.fields [(key, r.value)])))

/-- The value through a mapping. -/
def map (p : Action) (f : Callback Value Value) : Action :=
  p.andThen fun r => do
    let v ← call f r.value
    pure (some (r.withValue v))

/-- The parser between two log records. -/
def traced (p : Action) (label : String) : Action := fun s => do
  write (.logged (.trying label s.pos s.preview))
  match ← p s with
  | none => do
    write (.logged (.failed label s.pos))
    pure none
  | some r => do
    write (.logged (.matched label r.value r.pos))
    pure (some r)

/-- The parser, with an entry for the state in which it is applied. -/
def probe (p : Action) : Action := fun s => do
  write (.probed s.pos s.value)
  p s

end Descent.Action
