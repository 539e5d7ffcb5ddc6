/-
  Descent.Action.Leaf

  What parsers do that contain no others.  Each of them looks at what lies ahead; none
  but `lookAhead` and `checkpoint` hands on the value that the state carries.
-/
import Descent.Run

namespace Descent.Action

open Run

/-- Take one character if it passes the test. -/
def satisfy (test : Callback Char Bool) : Action := fun s =>
  match s.rest with
  | [] => pure none
  | c :: _ => do
    if ← call test c then pure (some (s.advance 1 (.str [c]))) else pure none

/-- Take exactly this text. -/
def literal (text : Text) : Action := fun s =>
  pure (if s.inBounds && text.isPrefixOf s.rest
    then some (s.advance text.length (.str text)) else none)

/-- Take everything before the first occurrence of the delimiter. -/
def upTo (delimiter : Text) : Action := fun s =>
  pure (if s.inBounds
    then (Text.offset? delimiter s.rest).map fun n => s.advance n (.str (s.rest.take n))
    else none)

/-- Take a group between two brackets. -/
def bracketed (left right : Char) : Action := fun s =>
  pure (match s.rest with
    | [] => none
    | c :: inside =>
      if c = left
      then (Text.closing? left right inside).map fun n =>
        s.advance (n + 1) (.str (inside.take (n - 1)))
      else none)

/-- Take all that is left. -/
def remaining : Action := fun s => pure (some (s.toEnd (.str s.rest)))

/-- Take nothing, at the end of the text. -/
def endOfInput : Action := fun s =>
  pure (if s.atEnd then some (s.withValue (.bool true)) else none)

/-- Take nothing. -/
def constant (value : Value) : Action := fun s => pure (some (s.withValue value))

/-- Never match. -/
def fail : Action := fun _ => pure none

/-- Stay in the state if the condition holds. -/
def lookAhead (condition : Callback Text Bool) : Action := fun s => do
  if ← call condition s.rest then pure (some s) else pure none

/-- Stay in the state, with a log record. -/
def checkpoint (label : String) : Action := fun s => do
  write (.logged (.reached label s.pos s.preview))
  pure (some s)

/-- A step of the user's own making. -/
def custom (step : State → Option State) : Action := fun s => pure (step s)

end Descent.Action
