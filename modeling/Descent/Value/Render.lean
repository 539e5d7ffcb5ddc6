/-
  Descent.Value.Render

  Values as messages and listings show them: texts quoted, lists between square
  brackets, fields between braces, and nodes as their tag with named fields.
-/
import Descent.Value.Basic
import Descent.Text.Quoted

namespace Descent.Value

mutual

/-- The shown form of a value. -/
def render : Value → String
  | .none => "None"
  | .bool true => "True"
  | .bool false => "False"
  | .int n => toString n
  | .float written => written
  | .str text => Text.quote text
  | .list items => "[" ++ renderItems items ++ "]"
  | .fields entries => "\x7b" ++ renderEntries entries ++ "\x7d"
  | .node tag entries => tag ++ "(" ++ renderNamed entries ++ ")"

/-- Items parted by commas. -/
def renderItems : List Value → String
  | [] => ""
  | [v] => render v
  | v :: rest => render v ++ ", " ++ renderItems rest

/-- Fields with quoted keys, parted by commas. -/
def renderEntries : List (String × Value) → String
  | [] => ""
  | [(key, v)] => Text.quote key.toList ++ ": " ++ render v
  | (key, v) :: rest =>
    Text.quote key.toList ++ ": " ++ render v ++ ", " ++ renderEntries rest

/-- Fields with bare names, parted by commas. -/
def renderNamed : List (String × Value) → String
  | [] => ""
  | [(key, v)] => key ++ "=" ++ render v
  | (key, v) :: rest => key ++ "=" ++ render v ++ ", " ++ renderNamed rest

end

end Descent.Value
