/-
Positions in a file and locations across files.

Lines and columns count from one; zero stands for a place nobody computed.  Both
are 32-bit numbers, and sums of them wrap.
-/

namespace SymbolAtlas

/-- The least number that is not a line or column. -/
def placeLimit : Nat := 0x100000000

def wrapPlace (n : Nat) : Nat := n % placeLimit

structure Position where
  line : Nat
  column : Nat
deriving DecidableEq

structure Location where
  file : String
  line : Nat
  column : Nat
deriving DecidableEq

namespace Position

def unknown : Position := { line := 0, column := 0 }

/-- By line, then by column. -/
def le (a b : Position) : Bool :=
  decide (a.line < b.line) || (decide (a.line = b.line) && decide (a.column ≤ b.column))

def inFile (p : Position) (file : String) : Location :=
  { file := file, line := p.line, column := p.column }

def sort (ps : List Position) : List Position := ps.mergeSort le

end Position

namespace Location

def unknown (file : String) : Location := Position.unknown.inFile file

def position (l : Location) : Position := { line := l.line, column := l.column }

def isUnknown (l : Location) : Bool := decide (l.line = 0) && decide (l.column = 0)

/-- The written form `file:line:column`. -/
def text (l : Location) : String :=
  l.file ++ ":" ++ toString l.line ++ ":" ++ toString l.column

/-- By file, where names compare by code points, then by position. -/
def le (a b : Location) : Bool :=
  decide (a.file < b.file) || (decide (a.file = b.file) && a.position.le b.position)

def sort (ls : List Location) : List Location := ls.mergeSort le

end Location
end SymbolAtlas
