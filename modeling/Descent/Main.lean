/-
  Descent.Main

  The command line: parse the sample document, list its nodes on standard output and the
  log on standard error.
-/
import Descent.Markup.Sample

open Descent.Markup

def main : IO Unit := do
  let report := Sample.report
  for record in Sample.records report do
    IO.eprintln ("DEBUG: " ++ record.message)
  for line in Sample.listing report do
    IO.println line
