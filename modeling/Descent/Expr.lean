/-
  Descent.Expr

  From expressions to parsers that can be applied.  Building binds names, checks
  brackets, and gives each delayed part a cell of its own; it goes through an expression
  from left to right and stops at the first fault.
-/
import Descent.Memory

namespace Descent

/-- A step of building, which may add cells. -/
abbrev Build := StateT Cells (Except Fault)

namespace Build

/-- The parser bound to a name. -/
def named (names : Names) (name : String) : Build (Parser Ref) :=
  match names.lookup name with
  | some p => pure p
  | none => throw (.undefinedName name)

/-- A new cell for a delayed part. -/
def delay (thunk : Thunk) : Build (Parser Ref) := do
  let cells ← get
  set (cells.push ⟨thunk, none⟩)
  pure (.link (.cell cells.size))

/-- A group between two brackets, which must be single and different characters. -/
def brackets (left right : Text) : Build (Parser Ref) :=
  match left, right with
  | [l], [r] =>
    if l = r then throw (.grammar (.sameBrackets left)) else pure (.bracketed l r)
  | _, _ => throw (.grammar (.bracketLength left right))

end Build

/-- The parser that a link of an expression stands for. -/
def Link.build (names : Names) : Link → Build (Parser Ref)
  | named name => Build.named names name
  | lazyNamed name => Build.delay (.named name)
  | lazyExpr e => Build.delay (.expr e)
  | brackets left right => Build.brackets left right
  | ready p => pure p

/-- The parser that an expression describes. -/
def Expr.build (names : Names) (e : Expr) : Build (Parser Ref) :=
  e.bindLinks (Link.build names)

/-- The parser that a delayed part stands for. -/
def Thunk.build (names : Names) : Thunk → Build (Parser Ref)
  | named name => Build.named names name
  | expr e => Expr.build names e

end Descent
