/-
Blanks, line ends and comments of TOML.
-/

namespace SymbolAtlas
namespace Toml

def isSpace (c : Char) : Bool := c == ' ' || c == '\t'

def skipSpace (s : List Char) : List Char := s.dropWhile isSpace

/-- A character above ASCII, of which all are allowed. -/
def isWide (c : Char) : Bool := decide (0x80 ≤ c.toNat)

/-- A printable character of ASCII, the space included. -/
def isPrintable (c : Char) : Bool := decide (0x20 ≤ c.toNat) && decide (c.toNat ≤ 0x7E)

def isCommentChar (c : Char) : Bool := c == '\t' || isPrintable c || isWide c

/-- The text behind a line feed, with or without a carriage return before it. -/
def newline? : List Char → Option (List Char)
  | '\n' :: rest => some rest
  | '\r' :: '\n' :: rest => some rest
  | _ => none

/-- The text behind the end of a line; the end of the text is one. -/
def lineEnd? : List Char → Option (List Char)
  | [] => some []
  | s => newline? s

def skipComment : List Char → List Char
  | '#' :: rest => rest.dropWhile isCommentChar
  | s => s

/-- The next line, if nothing but blanks and a comment is left on this one. -/
def endLine? (s : List Char) : Option (List Char) := lineEnd? (skipComment (skipSpace s))

/-- The text behind blanks, line ends and comments.  Each comment must end in a
line end. -/
def skipBlank? (inComment : Bool) : List Char → Option (List Char)
  | [] => if inComment then none else some []
  | '\n' :: rest => skipBlank? false rest
  | '\r' :: '\n' :: rest => skipBlank? false rest
  | c :: rest =>
    if inComment then (if isCommentChar c then skipBlank? true rest else none)
    else if isSpace c then skipBlank? false rest
    else if c = '#' then skipBlank? true rest
    else some (c :: rest)

end Toml
end SymbolAtlas
