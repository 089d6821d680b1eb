/-
Programs given as literal tables.

Where a path or a handle has several rows the last one counts; occurrences are
rows of their own and all count.
-/
import SymbolAtlas.Source.Snapshot

namespace SymbolAtlas

structure Tables where
  files : List SourceFile
  declarations : List (String × List Declaration)
  occurrences : List (String × String × NameOccurrence)
  frames : List (Handle × List Frame)
  typeTexts : List (Handle × String)
  /-- For a handle, the path and the index of the declaration it exports. -/
  exportTargets : List (Handle × String × Nat)

namespace Tables

/-- The value of the last row under a key. -/
def last? {κ ν : Type} [DecidableEq κ] (k : κ) (rows : List (κ × ν)) : Option ν :=
  rows.reverse.lookup k

def declarationsIn (t : Tables) (path : String) : List Declaration :=
  (last? path t.declarations).getD []

def occurrencesOf (t : Tables) (path name : String) : List NameOccurrence :=
  (t.occurrences.filter fun r => r.1 = path ∧ r.2.1 = name).map fun r => r.2.2

def exportTarget (t : Tables) (d : Declaration) : Option Declaration :=
  (last? d.handle t.exportTargets).bind fun r => (t.declarationsIn r.1)[r.2]?

def snapshot (t : Tables) : Snapshot :=
  { files := t.files
    declarations := t.declarationsIn
    occurrences := t.occurrencesOf
    frames := fun h => (last? h t.frames).getD []
    typeText := fun h => last? h t.typeTexts
    exportTarget := t.exportTarget }

end Tables
end SymbolAtlas
