/-
  Descent.Parser.Basic

  Grammars as data.  A parser is a tree of combinators over a few leaves; where it refers
  to another parser it holds a link, and what a link is stays open.  In an expression
  that a user writes, links are names and delayed expressions; in a parser that has been
  built they are cells of a memory and rules of a grammar.  What a parser does with a
  text is said in `Descent.Parser.Eval`.
-/
import Descent.Callback
import Descent.State
import Descent.Text.Blank
import Descent.Text.Letter

namespace Descent

/-- How often a repetition repeats.  Zero sets no bound on either side. -/
structure Bounds where
  atLeast : Int := 0
  atMost : Int := 0
  deriving DecidableEq, Repr

namespace Bounds

/-- Whether nothing stops the repetition from above. -/
def unlimited (b : Bounds) : Bool := b.atMost == 0

/-- Whether after `n` results no further one is wanted. -/
def reached (b : Bounds) (n : Nat) : Bool := b.atMost != 0 && decide (b.atMost ≤ n)

/-- Whether `n` results are too few. -/
def lacking (b : Bounds) (n : Nat) : Bool := b.atLeast != 0 && decide ((n : Int) < b.atLeast)

end Bounds

/-- A parser whose links are of type `σ`. -/
inductive Parser (σ : Type) : Type where
  /-- One character that passes a test; its value is that character. -/
  | satisfy (test : Callback Char Bool)
  /-- Exactly this text. -/
  | literal (text : Text)
  /-- Everything up to the first occurrence of a delimiter, which is not consumed. -/
  | upTo (delimiter : Text)
  /-- A group between two brackets, groups of the same brackets inside it included; its
      value is the text between the outer two. -/
  | bracketed (left right : Char)
  /-- All that is left of the text. -/
  | remaining
  /-- The end of the text; its value is true. -/
  | endOfInput
  /-- Nothing, with this value. -/
  | constant (value : Value)
  /-- Never matches. -/
  | fail
  /-- Nothing, if what lies ahead meets a condition; the state stays as it is. -/
  | lookAhead (condition : Callback Text Bool)
  /-- Nothing, but writes a log record. -/
  | checkpoint (label : String)
  /-- The parser that the link stands for. -/
  | link (target : σ)
  /-- The result of `p` under a key. -/
  | field (p : Parser σ) (key : String)
  /-- First `p`, then `q`; the fields of both. -/
  | merge (p q : Parser σ)
  /-- First `p`, then `q` on the text that `p` found, or that it found under the key;
      the fields of both. -/
  | mergeInside (p q : Parser σ) (key : Option String)
  /-- First `p`, then `q`; the value of `q`. -/
  | seq (p q : Parser σ)
  /-- First `p`, then `q` on the text that `p` found, or that it found under the key; the
      value of `q`. -/
  | seqInside (p q : Parser σ) (key : Option String)
  /-- First `p`, then `q`; the value of `p`. -/
  | thenSkip (p q : Parser σ)
  /-- `p`, or where that does not match, `q`. -/
  | orElse (p q : Parser σ)
  /-- `p` between two others; the value of `p`. -/
  | between (opening closing p : Parser σ)
  /-- `p` again and again, as long as the condition holds; the list of the values. -/
  | many (p : Parser σ) (bounds : Bounds) (condition : Option (Callback Text Bool))
  /-- The value of `p` through a mapping. -/
  | map (p : Parser σ) (f : Callback Value Value)
  /-- `p`, or where that does not match, nothing with this value. -/
  | orDefault (p : Parser σ) (value : Value)
  /-- `p`, with a log record of its beginning and one of its end. -/
  | traced (p : Parser σ) (label : String)
  /-- A scan of the text for `p`, as long as the condition holds.  The runs of characters
      at which `p` does not match are converted and stand among the values of `p`. -/
  | interleave (p : Parser σ) (ofRun : Callback Text Value) (condition : Callback Text Bool)
  /-- A step of the user's own making. -/
  | custom (step : State → Option State)
  /-- `p`, with an entry in the trace for the state in which it is applied. -/
  | probe (p : Parser σ)

namespace Parser

variable {σ : Type}

/-! ## Characters -/

/-- Any character. -/
def anyChar : Parser σ := satisfy (.total fun _ => true)

/-- A character from a set. -/
def charIn (allowed : Char → Bool) : Parser σ := satisfy (.total allowed)

/-- The character that the text consists of.  A text of several characters, or of none,
    is no character. -/
def exactChar (text : Text) : Parser σ := charIn fun c => [c] == text

/-- A character that is one of the texts. -/
def oneOf (texts : List Text) : Parser σ := charIn fun c => texts.contains [c]

/-- A character that is none of the texts. -/
def noneOf (texts : List Text) : Parser σ := charIn fun c => !texts.contains [c]

/-- A decimal digit. -/
def digit : Parser σ := charIn fun c => '0' ≤ c && c ≤ '9'

/-- A letter of any script. -/
def letter : Parser σ := charIn Text.isLetter

/-- A white-space character. -/
def blank : Parser σ := charIn Text.isBlank

/-! ## Combinations -/

/-- `p` again and again, without bounds or condition. -/
def star (p : Parser σ) : Parser σ := many p {} none

/-- White space, or none. -/
def blanks : Parser σ := blank.star

/-- The first of the parsers that matches. -/
def choice : List (Parser σ) → Parser σ
  | [] => fail
  | p :: rest => rest.foldl orElse p

/-- The text between a delimiter and its next occurrence. -/
def quoted (delimiter : Text) : Parser σ :=
  thenSkip (seq (literal delimiter) (upTo delimiter)) (literal delimiter)

/-! ## Links -/

/-- Bind the links of a parser, from left to right.  What `resolve` gives for a link takes
    its place. -/
def bindLinks {τ : Type} {m : Type → Type} [Monad m] (resolve : σ → m (Parser τ)) :
    Parser σ → m (Parser τ)
  | satisfy test => pure (satisfy test)
  | literal text => pure (literal text)
  | upTo delimiter => pure (upTo delimiter)
  | bracketed left right => pure (bracketed left right)
  | remaining => pure remaining
  | endOfInput => pure endOfInput
  | constant value => pure (constant value)
  | fail => pure fail
  | lookAhead condition => pure (lookAhead condition)
  | checkpoint label => pure (checkpoint label)
  | link target => resolve target
  | field p key => do
    let p ← bindLinks resolve p
    pure (field p key)
  | merge p q => do
    let p ← bindLinks resolve p
    let q ← bindLinks resolve q
    pure (merge p q)
  | mergeInside p q key => do
    let p ← bindLinks resolve p
    let q ← bindLinks resolve q
    pure (mergeInside p q key)
  | seq p q => do
    let p ← bindLinks resolve p
    let q ← bindLinks resolve q
    pure (seq p q)
  | seqInside p q key => do
    let p ← bindLinks resolve p
    let q ← bindLinks resolve q
    pure (seqInside p q key)
  | thenSkip p q => do
    let p ← bindLinks resolve p
    let q ← bindLinks resolve q
    pure (thenSkip p q)
  | orElse p q => do
    let p ← bindLinks resolve p
    let q ← bindLinks resolve q
    pure (orElse p q)
  | between opening closing p => do
    let opening ← bindLinks resolve opening
    let closing ← bindLinks resolve closing
    let p ← bindLinks resolve p
    pure (between opening closing p)
  | many p bounds condition => do
    let p ← bindLinks resolve p
    pure (many p bounds condition)
  | map p f => do
    let p ← bindLinks resolve p
    pure (map p f)
  | orDefault p value => do
    let p ← bindLinks resolve p
    pure (orDefault p value)
  | traced p label => do
    let p ← bindLinks resolve p
    pure (traced p label)
  | interleave p ofRun condition => do
    let p ← bindLinks resolve p
    pure (interleave p ofRun condition)
  | custom step => pure (custom step)
  | probe p => do
    let p ← bindLinks resolve p
    pure (probe p)

end Parser
end Descent
