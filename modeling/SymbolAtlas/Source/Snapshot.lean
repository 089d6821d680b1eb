/-
What the analyses may ask about a program.

A snapshot is a bundle of answers.  Workspaces and literal tables both provide
one, and an analysis that takes a snapshot cannot tell them apart.
-/
import SymbolAtlas.Source.Shape

namespace SymbolAtlas

structure Snapshot where
  /-- All files, in the order in which results list them. -/
  files : List SourceFile
  declarations : (path : String) → List Declaration
  occurrences : (path name : String) → List NameOccurrence
  /-- What encloses a syntax node, outermost first. -/
  frames : Handle → List Frame
  typeText : Handle → Option String
  /-- The declaration that a default export of a name refers to. -/
  exportTarget : Declaration → Option Declaration

namespace Snapshot

def hasFile (s : Snapshot) (path : String) : Bool := s.files.any fun f => f.path = path

/-- The context of an occurrence outside classes, functions and markup. -/
def moduleScope : String := "module scope"

/-- The enclosing frames of a syntax node as text. -/
def contextOf (s : Snapshot) (h : Handle) : String :=
  match s.frames h with
  | [] => moduleScope
  | frames => " > ".intercalate (frames.map Frame.text)

end Snapshot
end SymbolAtlas
