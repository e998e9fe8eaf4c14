/-!
JSON values with ordered fields, and their compact text.
-/

namespace Lookahead

inductive Json where
  | null
  | bool (b : Bool)
  | num (n : Nat)
  | str (s : String)
  | arr (items : List Json)
  | obj (fields : List (String × Json))

namespace Json

def strs (l : List String) : Json := .arr (l.map .str)

/-- A hexadecimal digit, in lower case. -/
def hexDigit (n : Nat) : Char := (Nat.toDigits 16 n).headD '0'

/-- A character as it stands in a string. Of the control characters, some have a short form. -/
def escapeChar (c : Char) : List Char :=
  if c = '"' then ['\\', '"']
  else if c = '\\' then ['\\', '\\']
  else if c = '\n' then ['\\', 'n']
  else if c = '\r' then ['\\', 'r']
  else if c = '\t' then ['\\', 't']
  else if c = '\x08' then ['\\', 'b']
  else if c = '\x0c' then ['\\', 'f']
  else if c.toNat < 0x20 then
    ['\\', 'u', '0', '0', hexDigit (c.toNat / 16), hexDigit (c.toNat % 16)]
  else [c]

def quote (s : String) : String := "\"" ++ String.ofList (s.toList.flatMap escapeChar) ++ "\""

mutual

/-- The text of a value, without blanks. -/
def render : Json → String
  | null => "null"
  | bool b => if b then "true" else "false"
  | num n => toString n
  | str s => quote s
  | arr items => "[" ++ ",".intercalate (renderAll items) ++ "]"
  | obj fields => "\x7b" ++ ",".intercalate (renderFields fields) ++ "\x7d"

def renderAll : List Json → List String
  | [] => []
  | item :: items => item.render :: renderAll items

def renderFields : List (String × Json) → List String
  | [] => []
  | (name, value) :: fields => (quote name ++ ":" ++ value.render) :: renderFields fields

end

mutual

/-- The value with the fields of every object in the order of their names. -/
def sortFields : Json → Json
  | arr items => arr (sortAll items)
  | obj fields => obj ((sortEach fields).mergeSort fun a b => a.1 ≤ b.1)
  | value => value

def sortAll : List Json → List Json
  | [] => []
  | item :: items => item.sortFields :: sortAll items

def sortEach : List (String × Json) → List (String × Json)
  | [] => []
  | (name, value) :: fields => (name, value.sortFields) :: sortEach fields

end

end Json
end Lookahead
