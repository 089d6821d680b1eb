/-
Workspaces: everything known about the files of a program.

One list of declarations and one list of mentions hold the entries of all files
in the order in which they were recorded; the part of a file is found by its path.
-/
import SymbolAtlas.Source.Snapshot

namespace SymbolAtlas

/-- An occurrence of a name in a file. -/
structure Mention where
  file : String
  name : String
  occurrence : NameOccurrence
deriving DecidableEq

structure Workspace where
  files : List SourceFile := []
  declarations : List Declaration := []
  mentions : List Mention := []
  frames : List (Handle × List Frame) := []
  typeTexts : List (Handle × String) := []
  /-- The handle that the next syntax node gets. -/
  nextHandle : Handle := 0

namespace Workspace

def declarationsIn (w : Workspace) (path : String) : List Declaration :=
  w.declarations.filter fun d => d.file = path

def mentionsIn (w : Workspace) (path : String) : List Mention :=
  w.mentions.filter fun m => m.file = path

def occurrencesOf (w : Workspace) (path name : String) : List NameOccurrence :=
  (w.mentions.filter fun m => m.file = path ∧ m.name = name).map Mention.occurrence

def framesOf (w : Workspace) (h : Handle) : List Frame := (w.frames.lookup h).getD []

/-- The first declaration at the top of a file that a default export of `name`
can refer to. -/
def exportable? (w : Workspace) (path name : String) : Option Declaration :=
  (w.declarationsIn path).find? fun d => d.name = name && d.isModuleScope && !d.isDefaultExport

/-- The target of a default export: a declaration of its own file, or else of the
first file whose declaration of that name is exported. -/
def exportTarget (w : Workspace) (d : Declaration) : Option Declaration :=
  match d.shape with
  | .defaultExport (.identifier name _) =>
    (w.exportable? d.file name).or
      ((w.files.filterMap fun f => w.exportable? f.path name).find? Declaration.exported)
  | _ => none

def snapshot (w : Workspace) : Snapshot :=
  { files := w.files
    declarations := w.declarationsIn
    occurrences := w.occurrencesOf
    frames := w.framesOf
    typeText := fun h => w.typeTexts.lookup h
    exportTarget := w.exportTarget }

/-- The file list with a path in it.  A path that is there keeps its mark. -/
def addFile (w : Workspace) (path : String) (generated : Bool) : Workspace :=
  if w.files.any fun f => f.path = path then w
  else { w with files := w.files ++ [{ path := path, generated := generated }] }

/-- The last line of a file that anything is mentioned on. -/
def lastLine (w : Workspace) (path : String) : Nat :=
  ((w.mentionsIn path).map fun m => m.occurrence.position.line).foldl max 0

end Workspace
end SymbolAtlas
