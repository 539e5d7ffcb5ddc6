/-
  Descent.Action.Scan

  Scanning a text for what a parser matches.  The scan goes on as long as characters lie
  ahead and the condition holds.  Where the parser matches, the run of characters before
  that place is converted first, if there is one; then the value of the parser is taken
  and the scan goes on behind it.  Where it does not match, one character joins the run.
  A parser that matches without consuming anything is a fault of the grammar.
-/
import Descent.Run

namespace Descent.Action

open Run

/-- Convert the run of characters that lies behind, its last character first, if there is
    one.  Items come last first. -/
def flush (ofRun : Callback Text Value) (run : Text) (items : List Value) :
    Run (List Value) :=
  if run.isEmpty then pure items else do
    let v ← call ofRun run.reverse
    pure (v :: items)

/-- The end of a scan, which does not match if nothing was found. -/
def scanned (ofRun : Callback Text Value) (s : State) (run : Text) (items : List Value) :
    Run (Option State) := do
  let items ← flush ofRun run items
  pure (if items.isEmpty then none else some (s.withValue (.list items.reverse)))

/-- Go on with a scan that has a run of characters and some items behind it. -/
def scanFrom (p : Action) (ofRun : Callback Text Value) (condition : Callback Text Bool) :
    Nat → State → Text → List Value → Run (Option State)
  | 0, _, _, _ => exhaust
  | fuel + 1, s, run, items =>
    match s.rest with
    | [] => scanned ofRun s run items
    | c :: _ => do
      if ← call condition s.rest then
        match ← p (s.withValue .none) with
        | none => scanFrom p ofRun condition fuel (s.advance 1 .none) (c :: run) items
        | some next =>
          if next.pos == s.pos then reject .interleaveStalled
          else do
            -- The run ends here: it is converted before the value that follows it is taken.
            let items ← flush ofRun run items
            -- Only the position is taken from `next`; the scan keeps to its own text.
            scanFrom p ofRun condition fuel (s.moveTo next.pos .none) [] (next.value :: items)
      else scanned ofRun s run items

/-- Scan a text for what a parser matches. -/
def interleave (p : Action) (ofRun : Callback Text Value) (condition : Callback Text Bool)
    (fuel : Nat) : Action := fun s =>
  scanFrom p ofRun condition fuel s [] []

end Descent.Action
