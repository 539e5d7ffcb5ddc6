/-
  Descent.State

  Where a parser stands: the whole text, a position in it, and the value carried along.
  What lies ahead is kept beside the position, so that no step has to walk the text from
  its start; it is determined by the text and the position (`rest_eq`), and two states
  are equal when text, position and value are (`State.ext`).

  A position may lie beyond the end of the text.  Nothing lies ahead there, but unlike at
  the end itself not even the empty text occurs there (`inBounds`).
-/
import Descent.Value.Basic

namespace Descent

/-- A text, a position in it counted in characters, and a carried value. -/
structure State where
  text : Text
  pos : Nat
  value : Value
  rest : Text
  rest_eq : rest = text.drop pos

namespace State

/-! ## Making states -/

/-- The state at a position of a text. -/
def make (text : Text) (pos : Nat) (value : Value) : State :=
  ⟨text, pos, value, text.drop pos, rfl⟩

/-- The start of a text, with nothing carried. -/
def start (text : Text) : State := ⟨text, 0, .none, text, rfl⟩

/-- Carry another value. -/
def withValue (s : State) (value : Value) : State := { s with value }

/-- Go forward by a number of characters and carry a value. -/
def advance (s : State) (n : Nat) (value : Value) : State where
  text := s.text
  pos := s.pos + n
  value := value
  rest := s.rest.drop n
  rest_eq := by rw [s.rest_eq, List.drop_drop]

/-- Go to a position, forward or back, and carry a value. -/
def moveTo (s : State) (pos : Nat) (value : Value) : State :=
  if s.pos ≤ pos then s.advance (pos - s.pos) value else make s.text pos value

/-- Go to the end of the text and carry a value. -/
def toEnd (s : State) (value : Value) : State where
  text := s.text
  pos := s.text.length
  value := value
  rest := []
  rest_eq := by rw [List.drop_length]

/-! ## Questions -/

/-- Whether no character lies ahead. -/
def atEnd (s : State) : Bool := s.rest.isEmpty

/-- Whether the position lies in the text or at its end. -/
def inBounds (s : State) : Bool := !s.rest.isEmpty || decide (s.pos ≤ s.text.length)

/-- How many characters a preview shows. -/
def previewLength : Nat := 30

/-- The first characters ahead, with dots if there are more. -/
def preview (s : State) : Text :=
  -- Only what lies beyond the shown part is looked at, never the length of the text.
  s.rest.take previewLength ++ if (s.rest.drop previewLength).isEmpty then [] else "...".toList

/-! ## Laws -/

theorem ext_iff {s t : State} :
    s = t ↔ s.text = t.text ∧ s.pos = t.pos ∧ s.value = t.value := by
  constructor
  · rintro rfl
    exact ⟨rfl, rfl, rfl⟩
  · rintro ⟨text, pos, value⟩
    obtain ⟨_, _, _, _, hs⟩ := s
    obtain ⟨_, _, _, _, ht⟩ := t
    subst text pos value hs ht
    rfl

@[ext] theorem ext {s t : State} (text : s.text = t.text) (pos : s.pos = t.pos)
    (value : s.value = t.value) : s = t :=
  ext_iff.2 ⟨text, pos, value⟩

@[simp] theorem make_text (t : Text) (n : Nat) (v : Value) : (make t n v).text = t := rfl
@[simp] theorem make_pos (t : Text) (n : Nat) (v : Value) : (make t n v).pos = n := rfl
@[simp] theorem make_value (t : Text) (n : Nat) (v : Value) : (make t n v).value = v := rfl
@[simp] theorem make_rest (t : Text) (n : Nat) (v : Value) :
    (make t n v).rest = t.drop n := rfl

@[simp] theorem start_text (t : Text) : (start t).text = t := rfl
@[simp] theorem start_pos (t : Text) : (start t).pos = 0 := rfl
@[simp] theorem start_value (t : Text) : (start t).value = .none := rfl
@[simp] theorem start_rest (t : Text) : (start t).rest = t := rfl

@[simp] theorem withValue_text (s : State) (v : Value) : (s.withValue v).text = s.text := rfl
@[simp] theorem withValue_pos (s : State) (v : Value) : (s.withValue v).pos = s.pos := rfl
@[simp] theorem withValue_value (s : State) (v : Value) : (s.withValue v).value = v := rfl
@[simp] theorem withValue_rest (s : State) (v : Value) : (s.withValue v).rest = s.rest := rfl

@[simp] theorem withValue_withValue (s : State) (v w : Value) :
    (s.withValue v).withValue w = s.withValue w := rfl

@[simp] theorem withValue_self (s : State) : s.withValue s.value = s := rfl

@[simp] theorem advance_text (s : State) (n : Nat) (v : Value) :
    (s.advance n v).text = s.text := rfl
@[simp] theorem advance_pos (s : State) (n : Nat) (v : Value) :
    (s.advance n v).pos = s.pos + n := rfl
@[simp] theorem advance_value (s : State) (n : Nat) (v : Value) :
    (s.advance n v).value = v := rfl
@[simp] theorem advance_rest (s : State) (n : Nat) (v : Value) :
    (s.advance n v).rest = s.rest.drop n := rfl

@[simp] theorem moveTo_text (s : State) (n : Nat) (v : Value) :
    (s.moveTo n v).text = s.text := by
  unfold moveTo; split <;> rfl

@[simp] theorem moveTo_pos (s : State) (n : Nat) (v : Value) : (s.moveTo n v).pos = n := by
  unfold moveTo
  split
  · next forward => exact Nat.add_sub_cancel' forward
  · rfl

@[simp] theorem moveTo_value (s : State) (n : Nat) (v : Value) :
    (s.moveTo n v).value = v := by
  unfold moveTo; split <;> rfl

/-- Going to a position is the same as starting there. -/
theorem moveTo_eq_make (s : State) (n : Nat) (v : Value) :
    s.moveTo n v = make s.text n v := by
  ext <;> simp

/-- At its own place, a state differs in the value alone. -/
theorem make_place (s : State) (v : Value) : make s.text s.pos v = s.withValue v := by
  ext <;> rfl

@[simp] theorem toEnd_text (s : State) (v : Value) : (s.toEnd v).text = s.text := rfl
@[simp] theorem toEnd_pos (s : State) (v : Value) : (s.toEnd v).pos = s.text.length := rfl
@[simp] theorem toEnd_value (s : State) (v : Value) : (s.toEnd v).value = v := rfl
@[simp] theorem toEnd_rest (s : State) (v : Value) : (s.toEnd v).rest = [] := rfl

theorem atEnd_iff (s : State) : s.atEnd = true ↔ s.text.length ≤ s.pos := by
  rw [atEnd, s.rest_eq, List.isEmpty_iff, List.drop_eq_nil_iff]

theorem pos_lt_of_rest {s : State} {c : Char} {rest : Text} (h : s.rest = c :: rest) :
    s.pos < s.text.length := by
  rw [← Nat.not_le, ← atEnd_iff, atEnd, h]
  exact Bool.false_ne_true

theorem inBounds_iff (s : State) : s.inBounds = true ↔ s.pos ≤ s.text.length := by
  rw [inBounds, s.rest_eq, Bool.or_eq_true, Bool.not_eq_true', decide_eq_true_iff,
    List.isEmpty_eq_false_iff, ne_eq, List.drop_eq_nil_iff]
  omega

end State
end Descent
