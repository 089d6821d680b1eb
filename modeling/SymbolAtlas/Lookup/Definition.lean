/-
From a name to its definition.

A plain name is looked up file by file at the top of the modules and then among
the members of all classes.  A dotted name stands for a member of a class.
-/
import SymbolAtlas.Atlas
import SymbolAtlas.Fault

namespace SymbolAtlas

inductive Definition where
  | declaration (d : Declaration)
  | member (owner : Declaration) (m : Member)
deriving DecidableEq

namespace Definition

def name : Definition → String
  | .declaration d => d.name
  | .member _ m => m.name

def file : Definition → String
  | .declaration d => d.file
  | .member owner _ => owner.file

def handle : Definition → Handle
  | .declaration d => d.handle
  | .member _ m => m.handle

def location? : Definition → Option Location
  | .declaration d => d.location?
  | .member owner m => m.location? owner.file

def location (d : Definition) : Location := d.location?.getD (.unknown d.file)

def owner? : Definition → Option String
  | .declaration _ => none
  | .member owner _ => some owner.name

end Definition

/-- The order in which shapes answer to a name. -/
inductive ShapeRank where
  | classDecl
  | interface
  | function
  | enum
  | variable
deriving DecidableEq

def Shape.rank? : Shape → Option ShapeRank
  | .classDecl _ => some .classDecl
  | .interface => some .interface
  | .function _ => some .function
  | .defaultExport (.callable _) => some .function
  | .enum => some .enum
  | .variable _ => some .variable
  | .defaultExport (.identifier ..) => none

def ShapeRank.inOrder : List ShapeRank := [.classDecl, .interface, .function, .enum, .variable]

namespace Atlas

variable (a : Atlas)

def symbolKind : Definition → SymbolKind
  | .declaration d => a.kindOf d
  | .member _ m => m.symbolKind

/-- The declarations at the top of a file. -/
def moduleDeclarations (path : String) : List Declaration :=
  (a.source.declarations path).filter Declaration.isModuleScope

/-- The first declaration of the best shape with that name. -/
def declared? (name : String) (ds : List Declaration) : Option Declaration :=
  ShapeRank.inOrder.findSome? fun rank =>
    ds.find? fun d => d.name = name && !d.isNameless && d.shape.rank? = some rank

/-- The target of the first default export of that name that has one. -/
def exported? (name : String) (ds : List Declaration) : Option Declaration :=
  ds.findSome? fun d =>
    match d.shape with
    | .defaultExport (.identifier target _) =>
      if target = name then a.source.exportTarget d else none
    | _ => none

def definedIn? (name : String) (path : String) : Option Declaration :=
  let ds := a.moduleDeclarations path
  (declared? name ds).or (a.exported? name ds)

def findModuleDefinition? (name : String) : Option Definition :=
  (a.files.findSome? fun f => a.definedIn? name f.path).map .declaration

def memberNamed? (name : String) (d : Declaration) : Option Definition :=
  (d.members.find? fun m => m.name = name).map (.member d)

/-- The first member of that name, in a class called `owner` if one is given. -/
def findMember? (owner : Option String) (name : String) : Option Definition :=
  (a.declarations.filter fun d => owner.all fun o => d.name = o).findSome? (memberNamed? name)

def findDefinition? (name : String) : Option Definition :=
  match Text.cutFirst? ['.'] name.toList with
  | some (owner, member) => a.findMember? (some (String.ofList owner)) (String.ofList member)
  | none => (a.findModuleDefinition? name).or (a.findMember? none name)

def findDefinition (name : String) : Except LookupError Definition :=
  match a.findDefinition? name with
  | some d => .ok d
  | none => .error (.missing name)

end Atlas
end SymbolAtlas
