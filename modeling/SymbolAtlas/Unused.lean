/-
Symbols that no other file refers to.
-/
import SymbolAtlas.Lookup.Reference

namespace SymbolAtlas

/-- A symbol that is reported, with its class or the module around it. -/
structure UnusedSymbol where
  kind : SymbolKind
  name : String
  context : String
deriving DecidableEq

/-- What a definition stands in. -/
def Definition.scope : Definition → String
  | .declaration _ => Snapshot.moduleScope
  | .member owner _ => "within class " ++ owner.name

namespace Atlas

variable (a : Atlas)

def isUnreferenced (name : String) (d : Definition) : Bool :=
  (a.collectReferences name d false).isEmpty

/-- The members that are checked: those of instances. -/
def checkedMembers (d : Declaration) : List Definition :=
  (d.members.filter fun m => !m.isStatic && m.kind ≠ .constructor).map (.member d)

/-- A declaration, if it has a name, and then its members. -/
def symbolsOf (d : Declaration) : List Definition :=
  (if d.isNameless then [] else [.declaration d])
    ++ (if a.checkMembers then checkedMembers d else [])

/-- What is checked in a file: for each name, the first symbol that has it. -/
def checkedSymbols (path : String) : List Definition :=
  distinctBy Definition.name ((a.moduleDeclarations path).flatMap a.symbolsOf)

def report (d : Definition) : UnusedSymbol :=
  { kind := a.symbolKind d, name := d.name, context := d.scope }

def unusedIn (path : String) : Except UnusedError (List UnusedSymbol) :=
  if a.source.hasFile path then
    .ok (((a.checkedSymbols path).filter fun d => a.isUnreferenced d.name d).map a.report)
  else .error (.fileNotFound path)

/-- Whether no other file refers to what the name stands for. -/
def isUnused (name : String) : Except UnusedError Bool :=
  match a.findDefinition name with
  | .ok d => .ok (a.isUnreferenced name d)
  | .error e => .error (.lookup e)

end Atlas
end SymbolAtlas
