/-
  Descent.Session

  A session with named parsers.  It keeps the names that have been bound, the delayed
  parts of all parsers built so far, and a current state.  Each step answers with a
  report: what came of it, and the trace of what happened meanwhile.  A step that ends
  with a fault leaves names and current state as they were, and the session goes on.
-/
import Descent.Parser.Eval

namespace Descent

/-- Names, delayed parts and the current state, over a fixed table of rules. -/
structure Session where
  rules : Names
  names : Names
  cells : Cells
  current : State

/-- Something to do in a session. -/
inductive Step where
  /-- Build an expression and bind it to a name. -/
  | define (name : String) (e : Expr)
  /-- Apply a named parser to the start of a text. -/
  | run (name : String) (text : Text)
  /-- Apply a named parser to the current state. -/
  | apply (name : String)
  /-- Go to a position of a text. -/
  | start (text : Text) (pos : Nat) (value : Value)
  /-- Go forward in the current state, or back, but never before the start of the text. -/
  | advance (n : Int) (value : Value)
  /-- Carry another value in the current state. -/
  | withValue (value : Value)
  /-- Look at the current state. -/
  | view

/-- What came of a step. -/
inductive Answer where
  /-- A name was bound. -/
  | defined
  /-- The parser did not match. -/
  | failed
  /-- The state that was reached. -/
  | reached (s : State)
  /-- The current state. -/
  | viewed (s : State)
  /-- A fault ended the step. -/
  | faulted (f : Fault)
  /-- The step was given up before it came to an end. -/
  | exhausted

/-- What came of a step, and what happened meanwhile. -/
structure Report where
  answer : Answer
  trace : Trace

namespace Session

/-- A session in which nothing has happened. -/
def empty (rules : Names) : Session := ⟨rules, [], #[], State.start []⟩

/-- What a run in the session can look up. -/
def env (σ : Session) : Env := ⟨σ.names, σ.rules⟩

/-- Build an expression. -/
def build (σ : Session) (e : Expr) : Except Fault (Parser Ref × Session) := do
  let (p, cells) ← (e.build σ.names).run σ.cells
  pure (p, { σ with cells })

/-- Build an expression and bind it to a name. -/
def define (σ : Session) (name : String) (e : Expr) : Except Fault Session := do
  let (p, σ) ← σ.build e
  pure { σ with names := (name, p) :: σ.names }

/-- Apply a parser to a state.  The current state stays. -/
def applyTo (σ : Session) (p : Parser Ref) (s : State) : Report × Session :=
  match (p.apply σ.env s).run ⟨σ.cells, []⟩ with
  | .ok none m => (⟨.failed, m.trace.reverse⟩, { σ with cells := m.cells })
  | .ok (some s') m => (⟨.reached s', m.trace.reverse⟩, { σ with cells := m.cells })
  | .error (.fault f) m => (⟨.faulted f, m.trace.reverse⟩, { σ with cells := m.cells })
  | .error .exhausted m => (⟨.exhausted, m.trace.reverse⟩, { σ with cells := m.cells })

/-- Make the state that a report reached the current one. -/
def keep (σ : Session) (r : Report) : Session :=
  match r.answer with
  | .reached s => { σ with current := s }
  | _ => σ

/-- Apply the parser bound to a name and keep the state it reaches. -/
def applyNamed (σ : Session) (name : String) (s : State) : Report × Session :=
  match σ.names.lookup name with
  | none => (⟨.faulted (.undefinedName name), []⟩, σ)
  | some p =>
    let (r, σ) := σ.applyTo p s
    (r, σ.keep r)

/-- Go to a state and report it. -/
def goTo (σ : Session) (s : State) : Report × Session :=
  (⟨.reached s, []⟩, { σ with current := s })

/-- Do a step. -/
def step (σ : Session) : Step → Report × Session
  | .define name e =>
    match σ.define name e with
    | .ok σ => (⟨.defined, []⟩, σ)
    | .error f => (⟨.faulted f, []⟩, σ)
  | .run name text => σ.applyNamed name (State.start text)
  | .apply name => σ.applyNamed name σ.current
  | .start text pos value => σ.goTo (State.make text pos value)
  | .advance n value => σ.goTo (σ.current.moveTo (σ.current.pos + n).toNat value)
  | .withValue value => σ.goTo (σ.current.withValue value)
  | .view => (⟨.viewed σ.current, []⟩, σ)

/-- Do steps one after another. -/
def steps (σ : Session) : List Step → List Report × Session
  | [] => ([], σ)
  | st :: rest =>
    let (r, σ) := σ.step st
    let (rs, σ) := σ.steps rest
    (r :: rs, σ)

/-- Bind names in order.  The first fault ends it. -/
def defineAll (σ : Session) : List (String × Expr) → Except Fault Session
  | [] => pure σ
  | (name, e) :: rest => do
    let σ ← σ.define name e
    σ.defineAll rest

/-- Apply one parser to the start of each text. -/
def applyAll (σ : Session) (p : Parser Ref) : List Text → List Report
  | [] => []
  | text :: rest =>
    let (r, σ) := σ.applyTo p (State.start text)
    r :: σ.applyAll p rest

/-- Bind names, build a parser, and apply it to each text in turn. -/
def batch (σ : Session) (definitions : List (String × Expr)) (e : Expr)
    (texts : List Text) : Except Fault (List Report) := do
  let σ ← σ.defineAll definitions
  let (p, σ) ← σ.build e
  pure (σ.applyAll p texts)

end Session
end Descent
