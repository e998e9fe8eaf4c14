/-!
Pieces of LaTeX.
-/

namespace Lookahead.Latex

/-- A group in braces. -/
def braced (s : String) : String := "\x7b" ++ s ++ "\x7d"

/-- A command with one argument. -/
def command (name argument : String) : String := "\\" ++ name ++ braced argument

def begin (environment : String) : String := command "begin" environment

def finish (environment : String) : String := command "end" environment

/-- How a character of plain text is written. A hyphen is set apart from one that comes right after
it, so that the two are not joined to a dash. -/
def escapeChar (c : Char) (next : Option Char) : String :=
  match c with
  | '&' | '%' | '$' | '#' | '_' => "\\" ++ c.toString
  | '\x7b' => "\\\x7b"
  | '\x7d' => "\\\x7d"
  | '[' => braced "["
  | ']' => braced "]"
  | '~' => command "textasciitilde" ""
  | '^' => command "textasciicircum" ""
  | '<' => command "textless" ""
  | '>' => command "textgreater" ""
  | '!' => "!" ++ braced ""
  | '\\' => command "textbackslash" ""
  | '-' => if next = some '-' then "-" ++ braced "" else "-"
  | c => c.toString

def escapeChars : List Char → List String
  | [] => []
  | c :: cs => escapeChar c cs.head? :: escapeChars cs

/-- Plain text as LaTeX shows it. -/
def escape (s : String) : String := String.join (escapeChars s.toList)

/-- The text with `spelling` for every sign of the empty string. -/
def spellEpsilon (spelling s : String) : String :=
  String.join (s.toList.map fun c => if c = 'ϵ' then spelling else c.toString)

def lineBreak : String := "\\\\"

end Lookahead.Latex
