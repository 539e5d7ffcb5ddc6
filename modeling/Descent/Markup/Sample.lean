/-
  Descent.Markup.Sample

  A short document, and the listing of its nodes that shows the grammar at work.
-/
import Descent.Markup.Grammar
import Descent.Session

namespace Descent.Markup.Sample

/-- A heading, a paragraph and two list items. -/
def source : Text :=
  ("# Parsers *for* [markup](https://example.org \"Example\")\n" ++
   "\n" ++
   "Plain text with **bold and *nested* words**.\n" ++
   "* an item\n" ++
   "* another [item](#here)\n").toList

/-- The document parser, traced. -/
def parser : Parser Ref := .traced document "document"

/-- The result of parsing the sample. -/
def report : Report := ((Session.empty rules).applyTo parser (State.start source)).1

/-- One line for each node of a document. -/
def listing (r : Report) : List String :=
  match r.answer with
  | .reached s => (s.value.asList?.getD []).map Value.render
  | _ => ["Parse failed"]

/-- The log records of a report. -/
def records (r : Report) : List LogRecord := r.trace.filterMap Entry.record?

end Descent.Markup.Sample
