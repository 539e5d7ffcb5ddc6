/-
  Descent.Markup.Grammar

  A grammar for a small markup language.  Text is cut into blocks, one per line: headings
  (`# …` to `###### …`), list items (`* …`) and paragraphs.  Inside a block stand plain
  text, links (`[text](target "hint")`), and spans between single or double stars.  What
  stands between stars is read by the same inline rule, on a text of its own.
-/
import Descent.Parser.Basic
import Descent.Memory

namespace Descent.Markup

open Descent.Parser

/-! ## Nodes -/

/-- Plain text. -/
def textNode (content : Text) : Value := .node "Text" [("content", .str content)]

/-- A node whose only field is what it holds. -/
def branch (tag : String) (children : Value) : Value := .node tag [("children", children)]

/-- A link from the fields that its parser collects. -/
def linkNode? (v : Value) : Option Value := do
  let text ← v.field? "text"
  let href ← v.field? "href"
  let hint ← v.field? "hint"
  pure (.node "Link" [("text", text), ("href", href), ("hint", hint)])

/-- A heading from the fields that its parser collects. -/
def headerNode? (v : Value) : Option Value := do
  let level ← v.field? "level"
  let children ← v.field? "children"
  pure (.node "Header" [("level", level), ("children", children)])

/-- The number of items as a value. -/
def count? (v : Value) : Option Value := v.length?.map fun n => .int n

/-- Texts joined to one, as a value. -/
def join? (v : Value) : Option Value := v.joined?.map .str

/-! ## Inline -/

/-- Whether what stands between stars can begin like this: with anything but a star. -/
def opensSpan : Text → Bool
  | [] => false
  | c :: _ => c != '*'

/-- Whether a block goes on: up to the next line break. -/
def insideLine : Text → Bool
  | '\n' :: _ => false
  | _ => true

/-- A span between `n` stars on either side.  Its value is what stands between them. -/
def starSpan (n : Nat) : Parser Ref :=
  seqInside (quoted (List.replicate n '*'))
    (seq (lookAhead (.total opensSpan)) remaining) none

/-- Everything up to white space, at least one character. -/
def word : Parser Ref :=
  map (many (charIn fun c => !Text.isBlank c) ⟨1, 0⟩ none) (.orFault "word of no texts" join?)

/-- A quoted text after spaces. -/
def hint : Parser Ref := seq (exactChar [' ']).star (quoted ['"'])

/-- What the parentheses of a link hold: a target and perhaps a hint. -/
def target : Parser Ref :=
  merge (field word "href") (field (orDefault hint .none) "hint")

/-- A link. -/
def link : Parser Ref :=
  map
    (mergeInside
      (merge (field (bracketed '[' ']') "text") (field (bracketed '(' ')') "target"))
      target (some "target"))
    (.orFault "link without its fields" linkNode?)

/-- The content of a block or span, by its rule. -/
def inline : Parser Ref := .link (.rule "inline")

/-- Text between double stars. -/
def bold : Parser Ref := map (seqInside (starSpan 2) inline none) (.total (branch "Bold"))

/-- Text between single stars. -/
def italic : Parser Ref := map (seqInside (starSpan 1) inline none) (.total (branch "Italic"))

/-- The content of a block or span: links and spans with plain text between them. -/
def inlineContent : Parser Ref :=
  interleave (orElse (orElse link bold) italic) (.total textNode) (.total insideLine)

/-! ## Blocks -/

/-- Line breaks, or none. -/
def lineEnd : Parser Ref := (exactChar ['\n']).star

/-- A heading of one of six levels. -/
def header : Parser Ref :=
  map
    (merge
      (thenSkip (field (map (many (exactChar ['#']) ⟨1, 6⟩ none) (.orFault "level of no list" count?))
          "level")
        (many (exactChar [' ']) ⟨1, 0⟩ none))
      (field inline "children"))
    (.orFault "heading without its fields" headerNode?)

/-- A list item. -/
def listItem : Parser Ref := map (seq (literal ['*', ' ']) inline) (.total (branch "ListItem"))

/-- A paragraph of one line. -/
def paragraph : Parser Ref := map inline (.total (branch "Paragraph"))

/-- A block with the line breaks behind it. -/
def block : Parser Ref := thenSkip (orElse (orElse header listItem) paragraph) lineEnd

/-- A whole document. -/
def document : Parser Ref := seq lineEnd block.star

/-- The rules of the grammar that refer to each other. -/
def rules : Names := [("inline", inlineContent)]

end Descent.Markup
