import Polyglot.Text.Unprintable

/-!
# Quoted text in messages

A message that quotes a piece of input shows every character of it: a quote and a backslash are
escaped, the common controls have short names, and a character that could not be seen, or that would
attach to its neighbour, is given by its code point.
-/

namespace Polyglot.Text

/-- One character inside quotes. -/
def quoteChar (c : Char) : String :=
  if c = '"' then "\\\""
  else if c = '\\' then "\\\\"
  else if c = '\x00' then "\\0"
  else if c = '\t' then "\\t"
  else if c = '\r' then "\\r"
  else if c = '\n' then "\\n"
  else if isExtendingMark c || isUnprintable c then
    "\\u\x7b" ++ String.ofList (Nat.toDigits 16 c.toNat) ++ "\x7d"
  else c.toString

/-- A text between quotes. -/
def quote (text : String) : String :=
  "\"" ++ String.join (text.toList.map quoteChar) ++ "\""

end Polyglot.Text
