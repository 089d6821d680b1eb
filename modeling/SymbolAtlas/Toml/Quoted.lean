/-
TOML strings: reading and writing.

There are four forms: in double or single quotes, each on one line or, tripled,
on several.  Double quotes know escapes, single quotes do not.  The writer takes
the first form that shows the text best.
-/
import SymbolAtlas.Toml.Blank

namespace SymbolAtlas
namespace Toml
namespace Quoted

/-! ## Reading -/

/-- A character that stands for itself between double quotes. -/
def isBasicChar (c : Char) : Bool := isCommentChar c && c != '"' && c != '\\'

/-- A character that stands for itself between single quotes. -/
def isLiteralChar (c : Char) : Bool := isCommentChar c && c != '\''

def hexDigit? (c : Char) : Option Nat :=
  if '0' ≤ c ∧ c ≤ '9' then some (c.toNat - '0'.toNat)
  else if 'a' ≤ c ∧ c ≤ 'f' then some (c.toNat - 'a'.toNat + 10)
  else if 'A' ≤ c ∧ c ≤ 'F' then some (c.toNat - 'A'.toNat + 10)
  else none

def hexNumber? (digits : List Char) : Option Nat :=
  digits.foldl (fun n d => n.bind fun n => (hexDigit? d).map fun k => 16 * n + k) (some 0)

/-- The character with that code point in hexadecimal digits. -/
def codePoint? (digits : List Char) : Option Char :=
  (hexNumber? digits).bind fun n =>
    if n.isValidChar then some (Char.ofNat n) else none

/-- The character that a letter behind a backslash stands for. -/
def shortEscape? : Char → Option Char
  | 'b' => some '\x08'
  | 't' => some '\t'
  | 'n' => some '\n'
  | 'f' => some '\x0c'
  | 'r' => some '\r'
  | '"' => some '"'
  | '\\' => some '\\'
  | _ => none

def putFront (c : Option Char) (r : Option (List Char × List Char)) :
    Option (List Char × List Char) :=
  match c, r with
  | some c, some (cs, rest) => some (c :: cs, rest)
  | _, _ => none

/-- The text up to the closing double quote. -/
def basicBody : List Char → Option (List Char × List Char)
  | [] => none
  | '"' :: rest => some ([], rest)
  | '\\' :: 'u' :: a :: b :: c :: d :: rest => putFront (codePoint? [a, b, c, d]) (basicBody rest)
  | '\\' :: 'U' :: a :: b :: c :: d :: e :: f :: g :: h :: rest =>
    putFront (codePoint? [a, b, c, d, e, f, g, h]) (basicBody rest)
  | '\\' :: c :: rest => putFront (shortEscape? c) (basicBody rest)
  | c :: rest => if isBasicChar c then putFront (some c) (basicBody rest) else none

/-- The text up to the closing single quote. -/
def literalBody : List Char → Option (List Char × List Char)
  | [] => none
  | '\'' :: rest => some ([], rest)
  | c :: rest => if isLiteralChar c then putFront (some c) (literalBody rest) else none

/-- Where the reader of a string on several lines is: in its text, between a
backslash and the line end it hides, or in the blanks behind such a line end. -/
inductive Phase where
  | text
  | hiding
  | skipping
deriving DecidableEq

/-- The text up to the closing triple of double quotes.  Up to two more quotes in
front of the triple belong to the text. -/
def longBasicBody : Phase → List Char → Option (List Char × List Char)
  | _, [] => none
  | .hiding, '\n' :: rest => longBasicBody .skipping rest
  | .hiding, '\r' :: '\n' :: rest => longBasicBody .skipping rest
  | .hiding, c :: rest => if isSpace c then longBasicBody .hiding rest else none
  | .skipping, ' ' :: rest => longBasicBody .skipping rest
  | .skipping, '\t' :: rest => longBasicBody .skipping rest
  | .skipping, '\n' :: rest => longBasicBody .skipping rest
  | .skipping, '\r' :: '\n' :: rest => longBasicBody .skipping rest
  | _, '"' :: '"' :: '"' :: '"' :: '"' :: rest => some (['"', '"'], rest)
  | _, '"' :: '"' :: '"' :: '"' :: rest => some (['"'], rest)
  | _, '"' :: '"' :: '"' :: rest => some ([], rest)
  | _, '"' :: rest => putFront (some '"') (longBasicBody .text rest)
  | _, '\n' :: rest => putFront (some '\n') (longBasicBody .text rest)
  | _, '\r' :: '\n' :: rest => putFront (some '\n') (longBasicBody .text rest)
  | _, '\\' :: '\n' :: rest => longBasicBody .skipping rest
  | _, '\\' :: '\r' :: '\n' :: rest => longBasicBody .skipping rest
  | _, '\\' :: ' ' :: rest => longBasicBody .hiding rest
  | _, '\\' :: '\t' :: rest => longBasicBody .hiding rest
  | _, '\\' :: 'u' :: a :: b :: c :: d :: rest =>
    putFront (codePoint? [a, b, c, d]) (longBasicBody .text rest)
  | _, '\\' :: 'U' :: a :: b :: c :: d :: e :: f :: g :: h :: rest =>
    putFront (codePoint? [a, b, c, d, e, f, g, h]) (longBasicBody .text rest)
  | _, '\\' :: c :: rest => putFront (shortEscape? c) (longBasicBody .text rest)
  | _, c :: rest => if isBasicChar c then putFront (some c) (longBasicBody .text rest) else none

/-- The text up to the closing triple of single quotes. -/
def longLiteralBody : List Char → Option (List Char × List Char)
  | [] => none
  | '\'' :: '\'' :: '\'' :: '\'' :: '\'' :: rest => some (['\'', '\''], rest)
  | '\'' :: '\'' :: '\'' :: '\'' :: rest => some (['\''], rest)
  | '\'' :: '\'' :: '\'' :: rest => some ([], rest)
  | '\'' :: rest => putFront (some '\'') (longLiteralBody rest)
  | '\n' :: rest => putFront (some '\n') (longLiteralBody rest)
  | '\r' :: '\n' :: rest => putFront (some '\n') (longLiteralBody rest)
  | c :: rest => if isLiteralChar c then putFront (some c) (longLiteralBody rest) else none

/-- The text without a line end at its start. -/
def dropNewline (s : List Char) : List Char := (newline? s).getD s

/-- A string in any form. -/
def read? : List Char → Option (List Char × List Char)
  | '"' :: '"' :: '"' :: rest => longBasicBody .text (dropNewline rest)
  | '"' :: rest => basicBody rest
  | '\'' :: '\'' :: '\'' :: rest => longLiteralBody (dropNewline rest)
  | '\'' :: rest => literalBody rest
  | _ => none

/-- A string on one line. -/
def readShort? : List Char → Option (List Char × List Char)
  | '"' :: rest => basicBody rest
  | '\'' :: rest => literalBody rest
  | _ => none

/-! ## Writing -/

/-- A control character that only an escape can show. -/
def isControl (c : Char) : Bool :=
  (decide (c.toNat < 0x20) && c != '\t' && c != '\n') || c.toNat == 0x7F

/-- The length of the longest run of `q` in the text behind a run of `n`. -/
def longestRun (q : Char) (n : Nat) : List Char → Nat
  | [] => n
  | c :: cs => if c = q then longestRun q (n + 1) cs else max n (longestRun q 0 cs)

inductive Form where
  | basic
  | literal
  | longBasic
  | longLiteral
deriving DecidableEq

/-- The form in which a text is written. -/
def formOf (s : List Char) : Form :=
  let plain := !s.any isControl
  let oneLine := !s.contains '\n'
  if plain && oneLine && !s.contains '\\' && !s.contains '"' then .basic
  else if plain && oneLine && !s.contains '\'' then .literal
  else if plain && !s.contains '\\' && longestRun '"' 0 s ≤ 2 then .longBasic
  else if plain && longestRun '\'' 0 s ≤ 2 then .longLiteral
  else if oneLine then .basic
  else .longBasic

def upperHex (n : Nat) : Char :=
  if n < 10 then Char.ofNat ('0'.toNat + n) else Char.ofNat ('A'.toNat + (n - 10))

/-- A character between double quotes; line feeds and quotes are the caller's. -/
def escape : Char → List Char
  | '\x08' => ['\\', 'b']
  | '\t' => ['\\', 't']
  | '\n' => ['\\', 'n']
  | '\x0c' => ['\\', 'f']
  | '\r' => ['\\', 'r']
  | '"' => ['\\', '"']
  | '\\' => ['\\', '\\']
  | c =>
    if isControl c then ['\\', 'u', '0', '0', upperHex (c.toNat / 16), upperHex (c.toNat % 16)]
    else [c]

/-- The inside of a long form, where line feeds stay and only a quote behind two
others is escaped. -/
def escapeLong (quotes : Nat) : List Char → List Char
  | [] => []
  | '\n' :: cs => '\n' :: escapeLong 0 cs
  | '"' :: cs =>
    if quotes < 2 then '"' :: escapeLong (quotes + 1) cs else '\\' :: '"' :: escapeLong 0 cs
  | c :: cs => escape c ++ escapeLong 0 cs

/-- Long forms that hold a line feed start on a line of their own. -/
def opening (s : List Char) : List Char := if s.contains '\n' then ['\n'] else []

def write (s : List Char) : List Char :=
  match formOf s with
  | .basic => ['"'] ++ s.flatMap escape ++ ['"']
  | .literal => ['\''] ++ s ++ ['\'']
  | .longBasic => ['"', '"', '"'] ++ opening s ++ escapeLong 0 s ++ ['"', '"', '"']
  | .longLiteral => ['\'', '\'', '\''] ++ opening s ++ s ++ ['\'', '\'', '\'']

end Quoted
end Toml
end SymbolAtlas
