/-
  Descent.Run

  Runs: steps that change a memory and may end early, because a fault was raised or
  because they were given too little fuel.  The memory survives either way.  The last
  definition is the one by which all sequences of parsers are built: go on from where the
  first one ended, and do not match where it does not match.
-/
import Descent.Expr

namespace Descent

/-- Why a run ended early. -/
inductive Stop where
  | fault (f : Fault)
  /-- The fuel did not suffice for an answer. -/
  | exhausted
  deriving DecidableEq, Repr

/-- A step that may change the memory and may end early. -/
abbrev Run := EStateM Stop Memory

/-- What a parser does: from one state to the next, or to none where it does not match. -/
abbrev Action := State → Run (Option State)

namespace Run

variable {α β : Type}

/-- Add an entry to the trace. -/
def write (entry : Entry) : Run Unit :=
  modify fun m => { m with trace := entry :: m.trace }

/-- Add entries to the trace, in order. -/
def writeAll : List Entry → Run Unit
  | [] => pure ()
  | entry :: rest => do
    write entry
    writeAll rest

/-- End with a fault that something called by the run has raised. -/
def raise (f : Fault) : Run α := do
  write (.raised f)
  throw (.fault f)

/-- End with a complaint about the grammar. -/
def reject (e : GrammarError) : Run α := throw (.fault (.grammar e))

/-- End without an answer. -/
def exhaust : Run α := throw .exhausted

/-- Call a callback. -/
def call (k : Callback α β) (a : α) : Run β := do
  writeAll (k.record a)
  match k.answer a with
  | .ok b => pure b
  | .error f => raise f

/-- The fields of a value, where two results are merged. -/
def fieldsOf (side : Side) (v : Value) : Run Fields :=
  match v.asFields? with
  | some entries => pure entries
  | none => reject (.notFields side v.typeName)

/-- The text of a value that is to be parsed in its turn. -/
def textOf (v : Value) : Run Text :=
  match v.asText? with
  | some text => pure text
  | none => reject (.notText v.typeName)

/-- The text that a value holds, or that it holds under a key. -/
def innerText (v : Value) : Option String → Run Text
  | none => textOf v
  | some key => do
    let entries ← fieldsOf .left v
    match entries.lookup key with
    | some inner => textOf inner
    | none => reject (.missingField key)

/-- The parser in a cell, which is built first if need be.  A thunk that raises a fault
    leaves the cell as it was.  There is no answer for a cell that does not exist. -/
def force (names : Names) (n : Nat) : Run (Parser Ref) := do
  let m ← get
  match m.cells[n]? with
  | none => exhaust
  | some ⟨_, some p⟩ => pure p
  | some ⟨thunk, none⟩ =>
    write (.forced n)
    -- Building applies no parser, so the cells are those of `m` and those it adds.
    match (thunk.build names).run m.cells with
    | .error f => raise f
    | .ok (p, cells) =>
      modify fun m => { m with cells := cells.setIfInBounds n ⟨thunk, some p⟩ }
      pure p

/-- The parser that a link stands for.  There is no answer for a rule that does not
    exist. -/
def resolve (env : Env) : Ref → Run (Parser Ref)
  | .cell n => force env.names n
  | .rule name =>
    match env.rules.lookup name with
    | some p => pure p
    | none => exhaust

end Run

/-- Go on with `next` from where `first` ended. -/
def Action.andThen (first next : Action) : Action := fun s => do
  match ← first s with
  | none => pure none
  | some s' => next s'

end Descent
