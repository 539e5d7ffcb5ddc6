/-
  Descent.Trace

  What a run leaves behind besides its outcome: an entry for each call of a test,
  condition or mapping, for each link that is followed for the first time, and for each
  log record, in the order in which they happen.
-/
import Descent.Fault

namespace Descent

/-- A record of the log.  The first three belong to a traced parser, which writes one
    when it begins and one when it ends; the last stands for itself. -/
inductive LogRecord where
  | trying (label : String) (pos : Nat) (preview : Text)
  | failed (label : String) (pos : Nat)
  | matched (label : String) (value : Value) (pos : Nat)
  | reached (label : String) (pos : Nat) (preview : Text)

/-- The text of a log record. -/
def LogRecord.message : LogRecord → String
  | trying label pos preview =>
    label ++ ": trying at " ++ toString pos ++ ": " ++ Text.quote preview
  | failed label pos => label ++ ": failed at " ++ toString pos
  | matched label value pos =>
    label ++ ": matched " ++ value.render ++ ", now at " ++ toString pos
  | reached label pos preview => label ++ ": " ++ Text.quote preview ++ " at " ++ toString pos

/-- One thing that happens in a run. -/
inductive Entry where
  /-- A test of a character is called. -/
  | tested (c : Char)
  /-- A condition on what lies ahead is called. -/
  | checked (rest : Text)
  /-- The conversion of a run of characters is called. -/
  | converted (run : Text)
  /-- A mapping is called. -/
  | mapped (name : String) (value : Value)
  /-- A link is followed that has not been built yet. -/
  | forced (cell : Nat)
  /-- A probe is passed. -/
  | probed (pos : Nat) (value : Value)
  | logged (record : LogRecord)
  /-- What was called last raised a fault. -/
  | raised (fault : Fault)

/-- The log record that an entry holds. -/
def Entry.record? : Entry → Option LogRecord
  | logged record => some record
  | _ => none

/-- Entries in the order in which they happened. -/
abbrev Trace := List Entry

end Descent
