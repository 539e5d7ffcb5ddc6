/-
  Descent.Text.Basic

  Texts as lists of characters, and the two searches that parsers make in them: for the
  first occurrence of a delimiter, and for the bracket that closes an open group.  Both
  walk the text once and answer with a count of characters.
-/

namespace Descent

/-- A text is its characters, one per code point. -/
abbrev Text := List Char

namespace Text

/-! ## First occurrence -/

/-- Add to `skipped` the number of characters before the first occurrence of `delimiter`. -/
def offsetFrom (delimiter : Text) (skipped : Nat) : Text → Option Nat
  | [] => if delimiter.isEmpty then some skipped else none
  | c :: rest =>
    if delimiter.isPrefixOf (c :: rest) then some skipped
    else offsetFrom delimiter (skipped + 1) rest

/-- The number of characters before the first occurrence of `delimiter`.  The empty
    delimiter occurs at the start of every text. -/
def offset? (delimiter text : Text) : Option Nat := offsetFrom delimiter 0 text

theorem offsetFrom_eq (delimiter : Text) (skipped : Nat) (text : Text) :
    offsetFrom delimiter skipped text = (offset? delimiter text).map (skipped + ·) := by
  unfold offset?
  suffices h : ∀ a b, offsetFrom delimiter (a + b) text
      = (offsetFrom delimiter b text).map (a + ·) from h skipped 0
  induction text with
  | nil => intro a b; unfold offsetFrom; split <;> rfl
  | cons c rest ih =>
    intro a b
    unfold offsetFrom
    split
    · rfl
    · exact ih a (b + 1)

/-! ## Closing bracket -/

/-- Read on from inside `depth` open groups, having read `taken` characters.  The answer
    is the number of characters read when the last group is closed. -/
def closingFrom (left right : Char) : Nat → Nat → Text → Option Nat
  -- All groups are closed, and whatever follows is left alone.
  | 0, taken, _ => some taken
  | _ + 1, _, [] => none
  | depth + 1, taken, c :: rest =>
    if c = left then closingFrom left right (depth + 2) (taken + 1) rest
    else if c = right then closingFrom left right depth (taken + 1) rest
    else closingFrom left right (depth + 1) (taken + 1) rest

/-- How many characters the group takes whose opening bracket stands before `text`, its
    closing bracket included. -/
def closing? (left right : Char) (text : Text) : Option Nat :=
  closingFrom left right 1 0 text

end Text
end Descent
