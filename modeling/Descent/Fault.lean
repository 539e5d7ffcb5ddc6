/-
  Descent.Fault

  What can end a run without a result.  A grammar error is the library's own complaint
  that parsers were put together in a way that cannot work; the other faults are raised
  by the code of whoever uses it and pass through unchanged.  Not matching the text is
  none of these: it is an ordinary result.
-/
import Descent.Value.Render

namespace Descent

/-- The operand of a two-part combinator. -/
inductive Side where
  | left
  | right
  deriving DecidableEq, Repr

/-- How messages call an operand. -/
def Side.name : Side → String
  | left => "Left"
  | right => "Right"

/-- Parsers that cannot work together. -/
inductive GrammarError where
  /-- Two results were to be merged, and this one has no fields. -/
  | notFields (side : Side) (got : String)
  /-- The result has fields, but not the one whose text was to be parsed. -/
  | missingField (key : String)
  /-- What was to be parsed in its turn is not a text. -/
  | notText (got : String)
  /-- A bracket that is not a single character. -/
  | bracketLength (left right : Text)
  /-- One character for both brackets. -/
  | sameBrackets (bracket : Text)
  /-- An unlimited repetition of a parser that consumed nothing. -/
  | manyStalled
  /-- A scan for a parser that consumed nothing. -/
  | interleaveStalled
  deriving DecidableEq, Repr

/-- The text of a grammar error. -/
def GrammarError.message : GrammarError → String
  | notFields side got =>
    side.name ++ " parser of a key-merging combinator must produce a mapping, got " ++ got
  | missingField key => "Left parser result has no field " ++ Text.quote key.toList
  | notText got => "Inversed combinators re-parse text, got " ++ got
  | bracketLength left right =>
    "Brackets must be single characters, got " ++ Text.quote left ++ " and " ++ Text.quote right
  | sameBrackets bracket =>
    "Left and right brackets must differ, got " ++ Text.quote bracket ++ " twice"
  | manyStalled => "many: applied parser succeeded without consuming input"
  | interleaveStalled => "interleave: element parser succeeded without consuming input"

/-- Why a run ended without a result. -/
inductive Fault where
  | grammar (e : GrammarError)
  /-- A test, condition or mapping refused to answer. -/
  | callback (message : String)
  /-- No parser is bound to the name. -/
  | undefinedName (name : String)
  deriving DecidableEq, Repr

/-- The text of a fault. -/
def Fault.message : Fault → String
  | grammar e => e.message
  | callback message => message
  | undefinedName name => name

end Descent
