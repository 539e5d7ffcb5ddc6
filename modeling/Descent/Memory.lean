/-
  Descent.Memory

  Links and what they stand for.  An expression refers to other parsers by name, at once
  or at first use, or delays an expression of its own.  A built parser refers to cells,
  one for each delayed part, and to the rules of a fixed grammar.  A cell starts with a
  thunk; the first use that builds it puts the parser beside the thunk, and from then on
  the cell stands for that parser.
-/
import Descent.Parser.Basic

namespace Descent

/-- A link of a built parser. -/
inductive Ref where
  /-- A delayed part, by the number of its cell. -/
  | cell (n : Nat)
  /-- A rule of the grammar, by its name. -/
  | rule (name : String)
  deriving DecidableEq, Repr

/-- A link of an expression. -/
inductive Link where
  /-- The parser that is bound to the name when the expression is built. -/
  | named (name : String)
  /-- The parser that is bound to the name at first use. -/
  | lazyNamed (name : String)
  /-- The expression, built at first use. -/
  | lazyExpr (e : Parser Link)
  /-- A group between two brackets, which are looked at when the expression is built. -/
  | brackets (left right : Text)
  /-- A parser that has been built already. -/
  | ready (p : Parser Ref)

/-- A parser as it is written down. -/
abbrev Expr := Parser Link

/-- What is left to do in a delayed part. -/
inductive Thunk where
  | named (name : String)
  | expr (e : Expr)

/-- A delayed part, and the parser it stands for once it has been built. -/
structure Cell where
  thunk : Thunk
  built : Option (Parser Ref)

/-- The delayed parts, numbered as they came. -/
abbrev Cells := Array Cell

/-- Parsers by name; of two with one name the first counts. -/
abbrev Names := List (String × Parser Ref)

/-- What a run can look up: the names that are bound, and the rules of the grammar. -/
structure Env where
  names : Names
  rules : Names

/-- What a run changes: the delayed parts, and the trace with its last entry first. -/
structure Memory where
  cells : Cells
  trace : Trace

end Descent
