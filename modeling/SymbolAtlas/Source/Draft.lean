/-
Writing sketches into a workspace.

A draft is a workspace with one file open.  Each item takes the next line of the
file, and each name, parameter and nameless function takes the next handle, so
places and handles follow the order of the items.
-/
import SymbolAtlas.Source.Sketch
import SymbolAtlas.Source.Workspace
import SymbolAtlas.Text.Cut

namespace SymbolAtlas

structure Draft where
  workspace : Workspace
  path : String
  line : Nat
  exportNext : Bool := false
  hidePosition : Bool := false

namespace Draft

/-! ## Single entries -/

def newLine (d : Draft) : Draft := { d with line := wrapPlace (d.line + 1) }

/-- The start of the line that was taken last. -/
def here (d : Draft) : Position := { line := d.line, column := 1 }

/-- The place on the same line behind `width` more bytes. -/
def after (p : Position) (width : Nat) : Position :=
  { p with column := wrapPlace (p.column + width) }

def nextHandle (d : Draft) : Handle := d.workspace.nextHandle

/-- Count a node that has no occurrence of its own.  The counter does not wrap around, unlike
lines and columns: it is meant for source models with at most `2 ^ 32` handles. -/
def skipHandle (d : Draft) : Draft :=
  { d with workspace := { d.workspace with nextHandle := d.workspace.nextHandle + 1 } }

/-- Record an occurrence under the next handle.  There are at most `2 ^ 32` of them, as in
`skipHandle`, which is not checked. -/
def record (d : Draft) (name : String) (role : Role) (position : Position)
    (frames : List Frame) : Draft :=
  let w := d.workspace
  let occurrence := { position := position, role := role, handle := w.nextHandle }
  { d with workspace := { w with
      mentions := w.mentions ++ [{ file := d.path, name := name, occurrence := occurrence }]
      frames := if frames = [] then w.frames else w.frames ++ [(w.nextHandle, frames)]
      nextHandle := w.nextHandle + 1 } }

/-- Add a declaration, without its position if that was asked for. -/
def declare (d : Draft) (name : String) (shape : Shape) (position : Position)
    (exported : Bool) (handle : Handle) : Draft :=
  let declaration :=
    { name := name, shape := shape, container := .module, file := d.path,
      position := if d.hidePosition then none else some position,
      exported := exported, handle := handle }
  { d with
    workspace := { d.workspace with
      declarations := d.workspace.declarations ++ [declaration] }
    hidePosition := false }

def inferType (d : Draft) (h : Handle) (type : String) : Draft :=
  { d with workspace := { d.workspace with typeTexts := d.workspace.typeTexts ++ [(h, type)] } }

/-- Record an occurrence at the start of a new line. -/
def mention (d : Draft) (name : String) (role : Role) (frames : List Frame) : Draft :=
  d.newLine.record name role d.newLine.here frames

/-! ## Bodies -/

/-- A draft together with the callable whose body is being written. -/
structure InBody where
  draft : Draft
  callable : Callable := {}

namespace InBody

def addParam (s : InBody) (p : Parameter) : InBody :=
  { s with callable := { s.callable with params := s.callable.params ++ [p] } }

def addCall (s : InBody) (c : CallSite) : InBody :=
  { s with callable := { s.callable with
      body := { s.callable.body with calls := s.callable.body.calls ++ [c] } } }

def addElement (s : InBody) (e : Element) : InBody :=
  { s with callable := { s.callable with
      body := { s.callable.body with markup := s.callable.body.markup ++ [e] } } }

def mention (s : InBody) (name : String) (role : Role) (frames : List Frame) : InBody :=
  { s with draft := s.draft.mention name role frames }

def param (s : InBody) (frames : List Frame) (name : String) (writtenType : Option String) :
    InBody :=
  let handle := s.draft.nextHandle
  let s := { s with draft := s.draft.skipHandle }
  let s := match writtenType with
    | some type => s.mention type .typeReference frames
    | none => s
  s.addParam { name := name, writtenType := writtenType, handle := handle }

def paramInferred (s : InBody) (name type : String) : InBody :=
  let handle := s.draft.nextHandle
  { s with draft := s.draft.skipHandle.inferType handle type }.addParam
    { name := name, writtenType := none, handle := handle }

def call (s : InBody) (frames : List Frame) (name : String) (isNew : Bool) : InBody :=
  let position := s.draft.newLine.here
  (s.mention name (if isNew then .newTarget else .callTarget) frames).addCall
    { target := .name name, position := position, isNew := isNew }

/-- The first name of a dotted receiver. -/
def receiver (object : String) : String :=
  match Text.cutFirst? ['.'] object.toList with
  | some (first, _) => String.ofList first
  | none => object

/-- A member call mentions its receiver, unless that is the enclosing instance,
and then the member. -/
def callMember (s : InBody) (frames : List Frame) (object property : String) : InBody :=
  let d := s.draft.newLine
  let position := d.here
  let root := receiver object
  let d := if root = "this" then d else d.record root .identifier position frames
  let d := d.record property .propertyName (after position (object.utf8ByteSize + 1)) frames
  { s with draft := d }.addCall
    { target := .member object property, position := position, isNew := false }

def render (s : InBody) (frames : List Frame) (tag : String) : InBody :=
  let position := s.draft.newLine.here
  (s.mention tag .markupTag frames).addElement { tag := tag, position := position }

mutual

/-- Write one item that stands inside `frames`. -/
def item (frames : List Frame) (s : InBody) : BodyItem → InBody
  | .param name writtenType => s.param frames name writtenType
  | .paramInferred name type => s.paramInferred name type
  | .call name => s.call frames name false
  | .callMember object property => s.callMember frames object property
  | .callThis method => s.callMember frames "this" method
  | .construct name => s.call frames name true
  | .render tag => s.render frames tag
  | .renderWith tag children => items (frames ++ [.markup tag]) (s.render frames tag) children
  | .typeRef name => s.mention name .typeReference frames
  | .reference name => s.mention name .identifier frames
  | .occurrence name role => s.mention name role frames

def items (frames : List Frame) (s : InBody) : List BodyItem → InBody
  | [] => s
  | i :: is => items frames (item frames s i) is

end

end InBody

/-- Write a body inside `frames`. -/
def body (d : Draft) (frames : List Frame) (is : List BodyItem) : InBody :=
  InBody.items frames { draft := d } is

/-! ## Classes -/

/-- A draft together with the class that is being written. -/
structure InClass where
  draft : Draft
  shape : ClassShape := {}

namespace InClass

def addMember (s : InClass) (m : Member) : InClass :=
  { s with shape := { s.shape with members := s.shape.members ++ [m] } }

/-- A dotted base mentions its namespace and then its last name. -/
def heritage (s : InClass) (className base : String) : InClass :=
  let frames := [Frame.classBody className]
  let d := s.draft.newLine
  let position := d.here
  let d := match Text.cutLast? '.' base.toList with
    | some (space, last) =>
      let space := String.ofList space
      (d.record space .identifier position frames).record (String.ofList last) .heritage
        (after position (space.utf8ByteSize + 1)) frames
    | none => d.record base .heritage position frames
  { draft := d, shape := { s.shape with heritage := s.shape.heritage ++ [base] } }

def member (s : InClass) (className name : String) (kind : MemberKind) (visibility : Visibility)
    (isStatic : Bool) (is : List BodyItem) : InClass :=
  let position := s.draft.newLine.here
  let handle := s.draft.nextHandle
  let named := s.draft.mention name .declarationName [.classBody className]
  let written := named.body [.classBody className, .method name] is
  { s with draft := written.draft }.addMember
    { name := name, kind := kind, visibility := visibility, isStatic := isStatic,
      initializerCall := none, callable := some written.callable, position := some position,
      handle := handle }

def property (s : InClass) (className name : String) (visibility : Visibility) (isStatic : Bool)
    (initializerCall : Option String) : InClass :=
  let position := s.draft.newLine.here
  let handle := s.draft.nextHandle
  let named := s.draft.mention name .declarationName [.classBody className]
  { s with draft := named }.addMember
    { name := name, kind := .property, visibility := visibility, isStatic := isStatic,
      initializerCall := initializerCall, callable := none, position := some position,
      handle := handle }

def item (className : String) (s : InClass) : ClassItem → InClass
  | .base base => s.heritage className base
  | .member name kind visibility isStatic is =>
    s.member className name kind visibility isStatic is
  | .property name visibility isStatic initializerCall =>
    s.property className name visibility isStatic initializerCall

end InClass

/-! ## Files -/

/-- A declaration that has a name and nothing inside. -/
def simple (d : Draft) (name : String) (role : Role) (shape : Shape) : Draft :=
  let position := d.newLine.here
  let handle := d.nextHandle
  let exported := d.exportNext
  ({ d with exportNext := false }.mention name role []).declare name shape position exported handle

/-- A declaration whose value is a callable. -/
def callable (d : Draft) (name : String) (role : Role) (shape : Callable → Shape)
    (is : List BodyItem) : Draft :=
  let position := d.newLine.here
  let handle := d.nextHandle
  let exported := d.exportNext
  let named := { d with exportNext := false }.mention name role []
  let written := named.body [.function name] is
  written.draft.declare name (shape written.callable) position exported handle

def classDeclaration (d : Draft) (name : String) (is : List ClassItem) : Draft :=
  let position := d.newLine.here
  let handle := d.nextHandle
  let exported := d.exportNext
  let named := { d with exportNext := false }.mention name .declarationName []
  let written := is.foldl (InClass.item name) { draft := named }
  written.draft.declare name (.classDecl written.shape) position exported handle

/-- The second name of a renamed export stands behind the first and ` as `. -/
def reExport (d : Draft) (name : String) (newName : Option String) : Draft :=
  let d := d.newLine
  let position := d.here
  match newName with
  | some newName =>
    (d.record name (.reExportSpecifier .source) position []).record newName
      (.reExportSpecifier .exported) (after position (name.utf8ByteSize + 4)) []
  | none => d.record name (.reExportSpecifier .exported) position []

def defaultExport (d : Draft) (name : String) (wrapper : Option String) : Draft :=
  let d := d.newLine
  let position := d.here
  let wrapped := match wrapper with
    | some w => d.record w .callTarget position []
    | none => d
  let place := match wrapper with
    | some w => after position (w.utf8ByteSize + 1)
    | none => position
  let handle := wrapped.nextHandle
  (wrapped.record name (.defaultExport wrapper) place []).declare defaultExportName
    (.defaultExport (.identifier name wrapper)) position true handle

/-- A function without a name takes a handle and a line but mentions nothing. -/
def defaultExportFunction (d : Draft) (name : Option String) (is : List BodyItem) : Draft :=
  let handle := d.nextHandle
  let d := d.newLine
  let position := d.here
  let named := match name with
    | some n => d.record n .declarationName position []
    | none => d.skipHandle
  let name := name.getD defaultExportName
  let written := named.body [.function name] is
  written.draft.declare name (.defaultExport (.callable written.callable)) position true handle

def item (d : Draft) : FileItem → Draft
  | .exportNext => { d with exportNext := true }
  | .withoutPosition => { d with hidePosition := true }
  | .importName name => d.mention name (.importSpecifier false) []
  | .defaultImport name => d.mention name (.importSpecifier true) []
  | .exportSpecifier name => d.mention name .exportSpecifier []
  | .reExport name newName => d.reExport name newName
  | .interface name => d.simple name .declarationName .interface
  | .enumeration name => d.simple name .declarationName .enum
  | .variable name => d.simple name (.variableName d.exportNext) (.variable none)
  | .function name is => d.callable name .declarationName .function is
  | .arrow name is =>
    d.callable name (.variableName d.exportNext) (fun c => .variable (some c)) is
  | .classDecl name is => d.classDeclaration name is
  | .defaultExport name wrapper => d.defaultExport name wrapper
  | .defaultExportFunction name is => d.defaultExportFunction name is
  | .reference name role => d.mention name role []
  | .occurrenceAt name role position =>
    { d with line := max d.line position.line }.record name role position []

end Draft

namespace Workspace

/-- Open a file.  A file that is opened again goes on below the last line that
anything is mentioned on. -/
def openFile (w : Workspace) (path : String) (generated : Bool) : Draft :=
  { workspace := w.addFile path generated, path := path, line := w.lastLine path }

def add (w : Workspace) (s : FileSketch) : Workspace :=
  (s.items.foldl Draft.item (w.openFile s.path s.generated)).workspace

def ofSketches (sketches : List FileSketch) : Workspace := sketches.foldl add {}

end Workspace
end SymbolAtlas
