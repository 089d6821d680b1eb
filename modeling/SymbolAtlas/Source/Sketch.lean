/-
Sketches of source files.

A sketch says what a file declares and mentions, in order, without places or
handles; `Workspace.add` assigns those.
-/
import SymbolAtlas.Source.Shape

namespace SymbolAtlas

/-- One item of a callable's body. -/
inductive BodyItem where
  | param (name : String) (writtenType : Option String)
  | paramInferred (name type : String)
  | call (name : String)
  | callMember (object property : String)
  | callThis (method : String)
  | construct (name : String)
  | render (tag : String)
  | renderWith (tag : String) (children : List BodyItem)
  | typeRef (name : String)
  | reference (name : String)
  | occurrence (name : String) (role : Role)

/-- One item of a class. -/
inductive ClassItem where
  | base (name : String)
  | member (name : String) (kind : MemberKind) (visibility : Visibility) (isStatic : Bool)
      (body : List BodyItem)
  | property (name : String) (visibility : Visibility) (isStatic : Bool)
      (initializerCall : Option String)

namespace ClassItem

def method (name : String) (body : List BodyItem) : ClassItem :=
  .member name .method .pub false body

def privateMethod (name : String) (body : List BodyItem) : ClassItem :=
  .member name .method .priv false body

def staticMethod (name : String) (body : List BodyItem) : ClassItem :=
  .member name .method .pub true body

def constructor (body : List BodyItem) : ClassItem :=
  .member "constructor" .constructor .pub false body

def plainProperty (name : String) : ClassItem := .property name .pub false none

def propertyInit (name call : String) : ClassItem := .property name .pub false (some call)

end ClassItem

/-- One item of a file. -/
inductive FileItem where
  /-- The next declaration is exported. -/
  | exportNext
  /-- The next declaration has no position. -/
  | withoutPosition
  | importName (name : String)
  | defaultImport (name : String)
  | exportSpecifier (name : String)
  | reExport (name : String) (newName : Option String)
  | interface (name : String)
  | enumeration (name : String)
  | variable (name : String)
  | function (name : String) (body : List BodyItem)
  | arrow (name : String) (body : List BodyItem)
  | classDecl (name : String) (items : List ClassItem)
  | defaultExport (name : String) (wrapper : Option String)
  | defaultExportFunction (name : Option String) (body : List BodyItem)
  | reference (name : String) (role : Role)
  | occurrenceAt (name : String) (role : Role) (position : Position)

/-- One opening of a file.  A path may be opened again, which extends the file. -/
structure FileSketch where
  path : String
  generated : Bool
  items : List FileItem

end SymbolAtlas
