/-
From a definition to its references.

Every occurrence of the name is judged by the part it plays.  The definition
itself, a local export and the name of an exported variable are sites of the
declaration and no references; an import is one only if what it imports is a
class, an interface or a component.
-/
import SymbolAtlas.Lookup.Definition
import SymbolAtlas.Distinct

namespace SymbolAtlas

/-- How an occurrence refers to a symbol. -/
inductive ReferenceKind where
  | definition
  | importName
  | reExport
  | defaultExport
  | heritage
  | markup
  | call
  | construct
  | typeReference
  | property
  | decorator
  | other
deriving DecidableEq

def ReferenceKind.name : ReferenceKind → String
  | .definition => "definition"
  | .importName => "import"
  | .reExport => "re-export"
  | .defaultExport => "default-export"
  | .heritage => "heritage"
  | .markup => "markup"
  | .call => "call"
  | .construct => "construct"
  | .typeReference => "type-reference"
  | .property => "property"
  | .decorator => "decorator"
  | .other => "other"

structure Occurrence where
  location : Location
  context : String
  kind : ReferenceKind
  valid : Bool
deriving DecidableEq

/-- A definition with all references to it. -/
structure ReferenceReport where
  symbol : String
  kind : SymbolKind
  definition : Occurrence
  references : List Occurrence
  isReferenced : Bool

/-- How an occurrence in that role refers, and whether it counts. -/
def Role.judge (importsCount : Bool) : Role → ReferenceKind × Bool
  | .importSpecifier _ => (.importName, importsCount)
  | .exportSpecifier => (.other, false)
  | .variableName exported => (.other, !exported)
  | .reExportSpecifier _ => (.reExport, true)
  | .defaultExport _ => (.defaultExport, true)
  | .heritage => (.heritage, true)
  | .markupTag => (.markup, true)
  | .callTarget => (.call, true)
  | .newTarget => (.construct, true)
  | .typeReference => (.typeReference, true)
  | .propertyName => (.property, true)
  | .decoratorArgument => (.decorator, true)
  | .declarationName => (.other, true)
  | .identifier => (.other, true)

def NameOccurrence.judge (o : NameOccurrence) (definition : Handle) (importsCount : Bool) :
    ReferenceKind × Bool :=
  if o.handle = definition then (.definition, false) else o.role.judge importsCount

/-- The name whose occurrences refer to the definition: behind the last dot for a
member. -/
def Definition.lookupName (name : String) : Definition → String
  | .declaration _ => name
  | .member .. =>
    match Text.cutLast? '.' name.toList with
    | some (_, last) => String.ofList last
    | none => name

namespace Atlas

variable (a : Atlas)

/-- Whether importing the symbol is a use of it. -/
def importsCount (d : Definition) : Bool :=
  match a.symbolKind d with
  | .plainClass | .interface => true
  | kind => kind.isComponent

def occurrencesIn (name : String) (d : Definition) (path : String) : List Occurrence :=
  (a.source.occurrences path (d.lookupName name)).map fun o =>
    let verdict := o.judge d.handle (a.importsCount d)
    { location := o.position.inFile path
      context := a.source.contextOf o.handle
      kind := verdict.1
      valid := verdict.2 }

/-- Every occurrence of the name, in the defining file only if `internal`. -/
def allOccurrences (name : String) (d : Definition) (internal : Bool) : List Occurrence :=
  (a.files.filter fun f => internal || f.path ≠ d.file).flatMap fun f =>
    a.occurrencesIn name d f.path

/-- The occurrences that count, one for each place. -/
def collectReferences (name : String) (d : Definition) (internal : Bool) : List Occurrence :=
  distinctBy Occurrence.location
    ((a.allOccurrences name d internal).filter Occurrence.valid)

def findReferences (name : String) (internal : Bool) : Except LookupError ReferenceReport := do
  let d ← a.findDefinition name
  let references := a.collectReferences name d internal
  return {
    symbol := name
    kind := a.symbolKind d
    definition := { location := d.location, context := a.source.contextOf d.handle,
                    kind := .definition, valid := true }
    references := references
    isReferenced := !references.isEmpty }

end Atlas
end SymbolAtlas
