/-
  Descent.Action.Repeat

  Repetition.  Before each attempt three questions are asked, in this order: is the text
  at its end, are there enough results, does the condition fail?  Each attempt starts with
  the value that was carried into the repetition, never with the last result.  Without an
  upper bound an attempt that consumes nothing is a fault of the grammar, since it would
  be repeated for ever.
-/
import Descent.Run

namespace Descent.Action

open Run

/-- Whether a repetition wants one more attempt in this state. -/
def wantsMore (condition : Option (Callback Text Bool)) (s : State) : Run Bool :=
  match condition with
  | none => pure true
  | some k => call k s.rest

/-- The end of a repetition with `count` results, the last of them first. -/
def collected (bounds : Bounds) (s : State) (count : Nat) (values : List Value) :
    Option State :=
  if bounds.lacking count then none else some (s.withValue (.list values.reverse))

/-- Go on with a repetition that has `count` results. -/
def repeatFrom (p : Action) (bounds : Bounds) (condition : Option (Callback Text Bool))
    (carried : Value) : Nat → State → Nat → List Value → Run (Option State)
  | 0, _, _, _ => exhaust
  | fuel + 1, s, count, values => do
    if s.atEnd || bounds.reached count then
      pure (collected bounds s count values)
    else if ← wantsMore condition s then
      match ← p (s.withValue carried) with
      | none => pure (collected bounds s count values)
      | some next =>
        -- With an upper bound an attempt may consume nothing, since the turns are counted.
        if bounds.unlimited && next.pos == s.pos then reject .manyStalled
        else repeatFrom p bounds condition carried fuel next (count + 1) (next.value :: values)
    else pure (collected bounds s count values)

/-- Repeat a parser within bounds, as long as a condition holds. -/
def many (p : Action) (bounds : Bounds) (condition : Option (Callback Text Bool))
    (fuel : Nat) : Action := fun s =>
  repeatFrom p bounds condition s.value fuel s 0 []

end Descent.Action
