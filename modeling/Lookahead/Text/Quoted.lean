import Lookahead.Text.Printable

/-!
Text in double quotes, with everything that would not show written as an escape.
-/

namespace Lookahead.Text

/-- How a character stands between quotes. -/
def quoteChar (c : Char) : String :=
  if c = '"' then "\\\""
  else if c = '\\' then "\\\\"
  else if c = '\n' then "\\n"
  else if c = '\r' then "\\r"
  else if c = '\t' then "\\t"
  else if c = '\x00' then "\\0"
  else if isPrintable c then c.toString
  else "\\u\x7b" ++ String.ofList (Nat.toDigits 16 c.toNat) ++ "\x7d"

def quote (s : String) : String := "\"" ++ String.join (s.toList.map quoteChar) ++ "\""

/-- A list of quoted texts in brackets. -/
def quoteAll (l : List String) : String := "[" ++ ", ".intercalate (l.map quote) ++ "]"

end Lookahead.Text
