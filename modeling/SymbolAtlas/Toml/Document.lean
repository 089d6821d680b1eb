/-
TOML documents.

A document is a list of lines, each of them blank, a header or a key with its
value.  The reader gives the table of all keys, or nothing if the text breaks a
rule of the format.
-/
import SymbolAtlas.Toml.Moment
import SymbolAtlas.Toml.Number
import SymbolAtlas.Toml.Quoted
import SymbolAtlas.Toml.Value

namespace SymbolAtlas
namespace Toml

/-! ## Keys -/

def isBareKeyChar (c : Char) : Bool := c.isAlphanum || c == '_' || c == '-'

/-- One part of a key, bare or in quotes. -/
def keyPart? (s : List Char) : Option (String × List Char) :=
  match s with
  | '"' :: _ | '\'' :: _ => (Quoted.readShort? s).map fun r => (String.ofList r.1, r.2)
  | _ =>
    let bare := s.takeWhile isBareKeyChar
    if bare = [] then none else some (String.ofList bare, s.dropWhile isBareKeyChar)

/-- A key of at most `n` parts with points between them, and the blanks around. -/
def key? : (n : Nat) → List Char → Option (List String × List Char)
  | 0, _ => none
  | n + 1, s =>
    (keyPart? (skipSpace s)).bind fun part =>
      match skipSpace part.2 with
      | '.' :: rest => (key? n rest).map fun more => (part.1 :: more.1, more.2)
      | rest => some ([part.1], rest)

/-- The greatest number of parts that a key may have, and of arrays and inline
tables that may stand inside each other. -/
def nestingLimit : Nat := 79

/-- The keys on the way and the last key. -/
def splitKey (keys : List String) : List String × String := (keys.dropLast, keys.getLastD "")

/-! ## Values -/

/-- The part of `s` in front of `rest`, which is an end of it. -/
def consumed (s rest : List Char) : String := String.ofList (s.take (s.length - rest.length))

/-- A date, a time or a number. -/
def quantity? (s : List Char) : Option (Value × List Char) :=
  ((Moment.read? s).map fun rest => (Value.moment (consumed s rest), rest)).or
    (((Number.float? s).map fun rest => (Value.float (consumed s rest), rest)).or
      ((Number.integer? s).map fun r => (Value.integer r.1, r.2)))

/-- A value that holds no other. -/
def scalar? (s : List Char) : Option (Value × List Char) :=
  match s with
  | 't' :: 'r' :: 'u' :: 'e' :: rest => some (.boolean true, rest)
  | 'f' :: 'a' :: 'l' :: 's' :: 'e' :: rest => some (.boolean false, rest)
  | '"' :: _ | '\'' :: _ => (Quoted.read? s).map fun r => (.string (String.ofList r.1), r.2)
  | _ => quantity? s

/-- The items of an array up to its closing bracket.  There are fewer of them
than characters, which is what `n` counts. -/
def arrayItems? (item : List Char → Option (Value × List Char)) :
    (n : Nat) → List Char → Option (List Value × List Char)
  | 0, _ => none
  | n + 1, s =>
    (skipBlank? false s).bind fun s =>
      match s with
      | ']' :: rest => some ([], rest)
      | _ =>
        (item s).bind fun first =>
          (skipBlank? false first.2).bind fun s =>
            match s with
            | ']' :: rest => some ([first.1], rest)
            | ',' :: rest => (arrayItems? item n rest).map fun more => (first.1 :: more.1, more.2)
            | _ => none

/-- A key, its value and the blanks behind them. -/
def pair? (item : List Char → Option (Value × List Char)) (s : List Char) :
    Option ((List String × Value) × List Char) :=
  (key? nestingLimit s).bind fun keys =>
    match keys.2 with
    | '=' :: rest => (item (skipSpace rest)).map fun v => ((keys.1, v.1), skipSpace v.2)
    | _ => none

/-- The pairs of an inline table up to its closing brace, added to `es`. -/
def inlinePairs? (item : List Char → Option (Value × List Char)) :
    (n : Nat) → Entries → List Char → Option (Entries × List Char)
  | 0, _, _ => none
  | n + 1, es, s =>
    (pair? item s).bind fun p =>
      let (path, key) := splitKey p.1.1
      (es.put? path key p.1.2).bind fun es =>
        match p.2 with
        | ',' :: rest => inlinePairs? item n es rest
        | '\x7d' :: rest => some (es, rest)
        | _ => none

def inlineTable? (item : List Char → Option (Value × List Char)) (s : List Char) :
    Option (Entries × List Char) :=
  match skipSpace s with
  | '\x7d' :: rest => some ([], rest)
  | _ => inlinePairs? item (s.length + 1) [] s

/-- A value in which arrays and inline tables stand at most `depth` deep. -/
def value? : (depth : Nat) → List Char → Option (Value × List Char)
  | 0, s => scalar? s
  | depth + 1, s =>
    match s with
    | '[' :: rest =>
      (arrayItems? (value? depth) (rest.length + 1) rest).map fun r => (.array r.1, r.2)
    | '\x7b' :: rest =>
      (inlineTable? (value? depth) rest).map fun r => (.table .inline r.1, r.2)
    | _ => scalar? s

/-! ## Lines -/

/-- A document so far: its table and the keys of the header at hand. -/
structure Reading where
  root : Entries := []
  header : List String := []

/-- The keys of a header up to its closing brackets, and the next line. -/
def headerKeys? (closing : List Char) (s : List Char) : Option (List String × List Char) :=
  (key? nestingLimit s).bind fun keys =>
    if closing.isPrefixOf keys.2 then
      (endLine? (keys.2.drop closing.length)).map fun rest => (keys.1, rest)
    else none

def Reading.openWith (d : Reading) (keys : List String)
    (f : Entries → String → Option Entries) : Option Reading :=
  let (path, key) := splitKey keys
  (d.root.within? path fun es => f es key).map fun root => { root := root, header := keys }

def Reading.put (d : Reading) (keys : List String) (v : Value) : Option Reading :=
  let (path, key) := splitKey keys
  (d.root.within? d.header fun es => es.put? path key v).map fun root => { d with root := root }

/-- Read one line that is not blank. -/
def line? (d : Reading) (s : List Char) : Option (Reading × List Char) :=
  match s with
  | '#' :: _ => (lineEnd? (skipComment s)).map fun rest => (d, rest)
  | '[' :: '[' :: rest =>
    (headerKeys? [']', ']'] rest).bind fun h =>
      (d.openWith h.1 Entries.openElement?).map fun d => (d, h.2)
  | '[' :: rest =>
    (headerKeys? [']'] rest).bind fun h =>
      (d.openWith h.1 Entries.openTable?).map fun d => (d, h.2)
  | _ =>
    (pair? (value? nestingLimit) s).bind fun p =>
      (endLine? p.2).bind fun rest => (d.put p.1.1 p.1.2).map fun d => (d, rest)

/-- Read the lines of a text that has fewer than `n` of them. -/
def lines? : (n : Nat) → Reading → List Char → Option Reading
  | 0, _, _ => none
  | n + 1, d, s =>
    match skipSpace s with
    | [] => some d
    | s =>
      match newline? s with
      | some rest => lines? n d rest
      | none => (line? d s).bind fun r => lines? n r.1 r.2

/-- A byte order mark in front of the text is no part of it. -/
def dropMark : List Char → List Char
  | '\uFEFF' :: rest => rest
  | s => s

/-- The table of a document. -/
def parse? (text : List Char) : Option Entries :=
  (lines? (text.length + 1) {} (dropMark text)).map Reading.root

end Toml
end SymbolAtlas
