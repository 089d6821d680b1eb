/-
TOML values and the rules by which tables grow.

A table remembers how it came about, because that decides who may add to it.  A
table under its own header takes keys below that header only; one that a longer
header or a dotted key called for in passing may still get its own header or
further dotted keys; an inline table takes nothing more.
-/

namespace SymbolAtlas
namespace Toml

inductive TableKind where
  /-- Written out in braces. -/
  | inline
  /-- Opened by its own header. -/
  | header
  /-- Passed through by the header of a table inside it. -/
  | implied
  /-- Passed through by a dotted key. -/
  | dotted
deriving DecidableEq

/-- A value.  Floats, dates and times are kept as written. -/
inductive Value where
  | string (s : String)
  | integer (n : Int)
  | float (text : String)
  | boolean (b : Bool)
  | moment (text : String)
  | array (items : List Value)
  | table (kind : TableKind) (entries : List (String × Value))
  /-- The tables under repeated headers in double brackets. -/
  | tables (elements : List (List (String × Value)))

abbrev Entries := List (String × Value)

namespace Entries

def find? (es : Entries) (key : String) : Option Value :=
  match es with
  | [] => none
  | e :: rest => if e.1 = key then some e.2 else find? rest key

/-- Change the value of a key that is there. -/
def replace (es : Entries) (key : String) (v : Value) : Entries :=
  match es with
  | [] => []
  | e :: rest => if e.1 = key then (e.1, v) :: rest else e :: replace rest key v

/-- Add a key that is not there. -/
def add? (es : Entries) (key : String) (v : Value) : Option Entries :=
  match es.find? key with
  | none => some (es ++ [(key, v)])
  | some _ => none

/-- Change the last element of a list of tables. -/
def changeLast? (f : Entries → Option Entries) (ts : List Entries) : Option (List Entries) :=
  match ts with
  | [] => none
  | [t] => (f t).map fun t => [t]
  | t :: rest => (changeLast? f rest).map (t :: ·)

/-- Add a value under a dotted key, given as the keys on the way and the last one.
The table that takes the value must be one that dotted keys have made. -/
def put? (es : Entries) (path : List String) (key : String) (v : Value) : Option Entries :=
  match path with
  | [] => es.add? key v
  | k :: ks =>
    match es.find? k with
    | none => (put? [] ks key v).map fun sub => es ++ [(k, .table .dotted sub)]
    | some (.table kind sub) =>
      if kind = .dotted ∨ (kind = .implied ∧ ks ≠ []) then
        (put? sub ks key v).map fun sub => es.replace k (.table kind sub)
      else none
    | some (.tables ts) =>
      if ks = [] then none
      else (changeLast? (fun t => put? t ks key v) ts).map fun ts => es.replace k (.tables ts)
    | some _ => none

/-- Apply a change to the table that a header's keys lead to.  Tables on the way
are made if they are missing, and a list of tables stands for its last one. -/
def within? (es : Entries) (path : List String) (f : Entries → Option Entries) :
    Option Entries :=
  match path with
  | [] => f es
  | k :: ks =>
    match es.find? k with
    | none => (within? [] ks f).map fun sub => es ++ [(k, .table .implied sub)]
    | some (.table .inline _) => none
    | some (.table kind sub) =>
      (within? sub ks f).map fun sub => es.replace k (.table kind sub)
    | some (.tables ts) =>
      (changeLast? (fun t => within? t ks f) ts).map fun ts => es.replace k (.tables ts)
    | some _ => none

/-- Open a table by its header.  Only a table that headers passed through may be
there already. -/
def openTable? (es : Entries) (key : String) : Option Entries :=
  match es.find? key with
  | none => some (es ++ [(key, .table .header [])])
  | some (.table .implied sub) => some (es.replace key (.table .header sub))
  | some _ => none

/-- Open one more table of a list of tables. -/
def openElement? (es : Entries) (key : String) : Option Entries :=
  match es.find? key with
  | none => some (es ++ [(key, .tables [[]])])
  | some (.tables ts) => some (es.replace key (.tables (ts ++ [[]])))
  | some _ => none

end Entries
end Toml
end SymbolAtlas
