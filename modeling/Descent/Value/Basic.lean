/-
  Descent.Value.Basic

  What parsers produce: plain data, lists, fields under keys, and the nodes of a
  document tree.  Fields keep the order in which their keys first came; writing to a
  key that is present changes its value and not its place.
-/
import Descent.Text.Basic

namespace Descent

/-- A result of a parser.  Numbers with a fraction are carried as they were written,
    since nothing is computed with them. -/
inductive Value where
  | none
  | bool (b : Bool)
  | int (n : Int)
  | float (written : String)
  | str (text : Text)
  | list (items : List Value)
  | fields (entries : List (String × Value))
  | node (tag : String) (entries : List (String × Value))
  deriving Inhabited, BEq

/-- Values under keys, in order. -/
abbrev Fields := List (String × Value)

namespace Fields

/-- Write a value to a key: in place if the key is present, else after all others. -/
def insert (key : String) (value : Value) : Fields → Fields
  | [] => [(key, value)]
  | (k, v) :: rest => if k = key then (k, value) :: rest else (k, v) :: insert key value rest

/-- Write all of `newer` to `older`, in order. -/
def merge (older newer : Fields) : Fields :=
  newer.foldl (fun entries entry => entries.insert entry.1 entry.2) older

/-- Fields from entries in which a key may come twice; the last value counts. -/
def ofEntries (entries : List (String × Value)) : Fields := merge [] entries

@[simp] theorem insert_nil (key : String) (value : Value) :
    insert key value [] = [(key, value)] := rfl

@[simp] theorem merge_nil (older : Fields) : older.merge [] = older := rfl

@[simp] theorem merge_cons (older : Fields) (entry : String × Value) (newer : Fields) :
    older.merge (entry :: newer) = (older.insert entry.1 entry.2).merge newer := rfl

end Fields

namespace Value

/-- The name of the kind of value, as messages give it. -/
def typeName : Value → String
  | none => "NoneType"
  | bool _ => "bool"
  | int _ => "int"
  | float _ => "float"
  | str _ => "str"
  | list _ => "list"
  | fields _ => "dict"
  | node tag _ => tag

/-- The fields of a value that is nothing but fields. -/
def asFields? : Value → Option Fields
  | fields entries => some entries
  | _ => Option.none

/-- The text of a value that is a text. -/
def asText? : Value → Option Text
  | str text => some text
  | _ => Option.none

/-- The items of a value that is a list. -/
def asList? : Value → Option (List Value)
  | list items => some items
  | _ => Option.none

/-- The number of a value that is an integer. -/
def asInt? : Value → Option Int
  | int n => some n
  | _ => Option.none

/-- The items of a list of texts, joined. -/
def joined? (v : Value) : Option Text := do
  let items ← v.asList?
  let texts ← items.mapM asText?
  pure texts.flatten

/-- The number of characters, items or fields. -/
def length? : Value → Option Nat
  | str text => some text.length
  | list items => some items.length
  | fields entries => some entries.length
  | _ => Option.none

/-- The value under a key of a value that is nothing but fields. -/
def field? (v : Value) (key : String) : Option Value := do (← v.asFields?).lookup key

end Value
end Descent
