/-
The parts of an already parsed program.

Nothing here is source text: a declaration carries the shape that a parser found
for it, and an occurrence carries the place and the part a name plays there.
-/
import SymbolAtlas.Place

namespace SymbolAtlas

/-- The number of a syntax node.  Handles are 32-bit numbers, but nothing here stops the count
at `2 ^ 32`.  So what rests on different nodes having different handles is about source models
with at most `2 ^ 32` of them. -/
abbrev Handle := Nat

structure SourceFile where
  path : String
  generated : Bool
deriving DecidableEq

/-! ## Callables -/

inductive CallTarget where
  | name (name : String)
  | member (object property : String)
deriving DecidableEq

namespace CallTarget

/-- The name that is called: the last one of a member call. -/
def callee : CallTarget → String
  | .name n => n
  | .member _ p => p

def text : CallTarget → String
  | .name n => n
  | .member o p => o ++ "." ++ p

end CallTarget

structure CallSite where
  target : CallTarget
  position : Position
  isNew : Bool
deriving DecidableEq

structure Element where
  tag : String
  position : Position
deriving DecidableEq

structure Parameter where
  name : String
  writtenType : Option String
  handle : Handle
deriving DecidableEq

/-- The calls and markup elements of a body, each in source order. -/
structure Body where
  calls : List CallSite := []
  markup : List Element := []
deriving DecidableEq

structure Callable where
  params : List Parameter := []
  body : Body := {}
deriving DecidableEq

/-! ## Declarations -/

inductive MemberKind where
  | method
  | property
  | constructor
  | getter
  | setter
deriving DecidableEq

inductive Visibility where
  | pub
  | prot
  | priv
deriving DecidableEq

structure Member where
  name : String
  kind : MemberKind
  visibility : Visibility
  isStatic : Bool
  /-- The call that gives a property its first value. -/
  initializerCall : Option String
  callable : Option Callable
  position : Option Position
  handle : Handle
deriving DecidableEq

structure ClassShape where
  heritage : List String := []
  members : List Member := []
deriving DecidableEq

/-- What a default export exports: a function written in place, or a name with
at most one call around it. -/
inductive ExportTarget where
  | callable (callable : Callable)
  | identifier (name : String) (wrapper : Option String)
deriving DecidableEq

inductive Shape where
  | classDecl (shape : ClassShape)
  | function (callable : Callable)
  | variable (initializer : Option Callable)
  | defaultExport (target : ExportTarget)
  | interface
  | enum
deriving DecidableEq

/-- What a declaration stands in. -/
inductive Container where
  | module
  | inClass (name : String)
  | none
deriving DecidableEq

structure Declaration where
  name : String
  shape : Shape
  container : Container
  file : String
  position : Option Position
  exported : Bool
  handle : Handle
deriving DecidableEq

/-- The name of a default export that introduces no name. -/
def defaultExportName : String := "default"

namespace Declaration

def location? (d : Declaration) : Option Location := d.position.map (·.inFile d.file)

def location (d : Declaration) : Location := d.location?.getD (.unknown d.file)

def isModuleScope (d : Declaration) : Bool := decide (d.container = .module)

/-- Whether other code has no name for it: a default export of a name or of a
function without one. -/
def isNameless (d : Declaration) : Bool :=
  match d.shape with
  | .defaultExport (.identifier ..) => true
  | .defaultExport (.callable _) => decide (d.name = defaultExportName)
  | _ => false

def members (d : Declaration) : List Member :=
  match d.shape with
  | .classDecl c => c.members
  | _ => []

def isDefaultExport (d : Declaration) : Bool :=
  match d.shape with
  | .defaultExport _ => true
  | _ => false

end Declaration

def Member.location? (m : Member) (file : String) : Option Location :=
  m.position.map (·.inFile file)

/-! ## Occurrences -/

/-- Which of the two names of a re-export it is: the one that the module exports,
or the one that the thing has where it comes from. -/
inductive ExportSlot where
  | exported
  | source
deriving DecidableEq

/-- The part that a name plays where it occurs. -/
inductive Role where
  | declarationName
  | variableName (exported : Bool)
  | importSpecifier (default : Bool)
  | exportSpecifier
  | reExportSpecifier (slot : ExportSlot)
  | defaultExport (wrapper : Option String)
  | heritage
  | typeReference
  | propertyName
  | callTarget
  | newTarget
  | decoratorArgument
  | markupTag
  | identifier
deriving DecidableEq

structure NameOccurrence where
  position : Position
  role : Role
  handle : Handle
deriving DecidableEq

/-- Something that encloses an occurrence. -/
inductive Frame where
  | classBody (name : String)
  | function (name : String)
  | method (name : String)
  | markup (tag : String)
deriving DecidableEq

def Frame.text : Frame → String
  | .classBody n => "class " ++ n
  | .function n => "function " ++ n
  | .method n => "method " ++ n
  | .markup t => "<" ++ t ++ ">"

end SymbolAtlas
