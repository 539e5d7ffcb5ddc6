/-
  Descent.Text.Quoted

  Texts as they are shown in messages: between quotation marks, with everything escaped
  that would not be seen.  Apostrophes are the marks unless the text holds an apostrophe
  and no double quote.
-/
import Descent.Text.Basic
import Descent.Text.Printable

namespace Descent.Text

/-- The lower-case hexadecimal digit of a number below sixteen. -/
def hexDigit (n : Nat) : Char := Char.ofNat (if n < 10 then 48 + n else 87 + n)

/-- The last `width` hexadecimal digits of a number, leading zeros included. -/
def hex : Nat → Nat → Text
  | 0, _ => []
  | width + 1, n => hex width (n / 16) ++ [hexDigit (n % 16)]

/-- One character between quotation marks of the given kind. -/
def escape (mark c : Char) : Text :=
  if c = mark ∨ c = '\\' then ['\\', c]
  else if c = '\n' then ['\\', 'n']
  else if c = '\r' then ['\\', 'r']
  else if c = '\t' then ['\\', 't']
  else if isPrintable c then [c]
  else if c.toNat < 0x100 then '\\' :: 'x' :: hex 2 c.toNat
  else if c.toNat < 0x10000 then '\\' :: 'u' :: hex 4 c.toNat
  else '\\' :: 'U' :: hex 8 c.toNat

/-- The quotation mark used for a text. -/
def quoteMark (text : Text) : Char :=
  if text.contains '\x27' && !text.contains '\x22' then '\x22' else '\x27'

/-- The text between quotation marks. -/
def quote (text : Text) : String :=
  let mark := quoteMark text
  String.ofList (mark :: (text.flatMap (escape mark) ++ [mark]))

end Descent.Text
