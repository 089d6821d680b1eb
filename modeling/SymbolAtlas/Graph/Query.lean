/-
Trace queries: two symbol keys joined by an arrow.
-/
import SymbolAtlas.Fault
import SymbolAtlas.Text.Blank
import SymbolAtlas.Text.Cut

namespace SymbolAtlas

structure TraceQuery where
  source : String
  target : String
deriving DecidableEq

namespace TraceQuery

/-- Why a text is no query. -/
inductive Flaw where
  | noArrow
  | emptyKey
  | anotherArrow
deriving DecidableEq

def Flaw.text : Flaw → String
  | .noArrow => "expected '<from> -> <to>'"
  | .emptyKey => "both symbol keys must be non-empty"
  | .anotherArrow => "expected exactly two symbol keys"

def thinArrow : List Char := ['-', '>']

def thickArrow : List Char := ['=', '>']

/-- The two sides of the arrow.  A thin arrow anywhere goes before a thick one. -/
def cut? (s : List Char) : Option (List Char × List Char) :=
  (Text.cutFirst? thinArrow s).or (Text.cutFirst? thickArrow s)

def hasArrow (s : List Char) : Bool := Text.holds thinArrow s || Text.holds thickArrow s

/-- The keys around the arrow without the blanks at their ends. -/
def keys (s : List Char) : Except Flaw (List Char × List Char) :=
  match cut? s with
  | none => .error .noArrow
  | some (a, b) =>
    let source := Text.trim a
    let target := Text.trim b
    if source = [] ∨ target = [] then .error .emptyKey
    else if hasArrow target then .error .anotherArrow
    else .ok (source, target)

def parse (query : String) : Except SearchError TraceQuery :=
  match keys query.toList with
  | .error flaw => .error (.malformedQuery query flaw.text)
  | .ok (source, target) =>
    .ok { source := String.ofList source, target := String.ofList target }

end TraceQuery
end SymbolAtlas
