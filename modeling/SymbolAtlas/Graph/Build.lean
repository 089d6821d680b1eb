/-
The call graph of a program.

First every callable declaration and member becomes a node.  Then the bodies are
scanned in the same order for calls and markup, and at the end the nodes about
which nothing is known but that are named like components are taken for such.
-/
import SymbolAtlas.Atlas
import SymbolAtlas.Graph.Basic

namespace SymbolAtlas

/-- A symbol that is entered before any body is scanned. -/
structure Registration where
  key : String
  kind : SymbolKind
  location : Option Location

/-- A body to be scanned. -/
structure ScanUnit where
  caller : String
  file : String
  body : Body
  /-- The class around the body. -/
  owner : Option String
  /-- The class that renders what the body renders. -/
  renderOwner : Option String

def Declaration.memberKey (d : Declaration) (m : Member) : String := d.name ++ "." ++ m.name

namespace Atlas

variable (a : Atlas)

/-! ## Registration -/

/-- The declarations that the graph is built from. -/
def graphDeclarations : List Declaration :=
  a.declarations.filter fun d => d.isModuleScope && !d.isNameless

/-- The callable that a declaration brings into the graph under its own name.  A
variable does so only if it looks like a component or a hook. -/
def registeredCallable? (d : Declaration) : Option Callable :=
  match d.shape with
  | .function c => some c
  | .defaultExport (.callable c) => some c
  | .variable (some c) =>
    let kind := a.kindOf d
    if kind.isComponent || kind.isHook then some c else none
  | _ => none

def memberRegistrations (d : Declaration) : List Registration :=
  d.members.filterMap fun m => m.callable.map fun _ =>
    { key := d.memberKey m, kind := m.symbolKind, location := m.location? d.file }

def registrations (d : Declaration) : List Registration :=
  let own := { key := d.name, kind := a.kindOf d, location := d.location? }
  match d.shape with
  | .classDecl _ => own :: memberRegistrations d
  | _ => (a.registeredCallable? d).toList.map fun _ => own

def memberUnits (d : Declaration) : List ScanUnit :=
  let renderOwner := if a.kindOf d = .classComponent then some d.name else none
  d.members.filterMap fun m => m.callable.map fun c =>
    { caller := d.memberKey m, file := d.file, body := c.body, owner := some d.name,
      renderOwner := renderOwner }

def units (d : Declaration) : List ScanUnit :=
  match d.shape with
  | .classDecl _ => a.memberUnits d
  | _ => (a.registeredCallable? d).toList.map fun c =>
    { caller := d.name, file := d.file, body := c.body, owner := none, renderOwner := none }

def register (g : Graph) (r : Registration) : Graph :=
  g.ensureNode r.key (some r.kind) r.location

/-! ## Scanning -/

def addHookEdge (g : Graph) (caller hook : String) (site : Location) : Graph :=
  (g.ensureNode hook (some .hook) none).addEdge caller hook site .hook

/-- A call on the enclosing instance goes to a member of its class; a hook is
known by its name wherever it is called from. -/
def scanCall (u : ScanUnit) (g : Graph) (c : CallSite) : Graph :=
  let site := c.position.inFile u.file
  if c.isNew then g
  else
    match c.target with
    | .name name =>
      if Naming.isHookName name then addHookEdge g u.caller name site
      else g.addEdge u.caller name site .call
    | .member object property =>
      match u.owner, decide (object = "this") with
      | some owner, true => g.addEdge u.caller (owner ++ "." ++ property) site .methodCall
      | _, _ =>
        if Naming.isHookName property then addHookEdge g u.caller property site
        else g.addEdge u.caller c.target.text site .methodCall

def isTagTarget (d : Declaration) : Bool :=
  match d.shape with
  | .function _ | .classDecl _ | .variable _ => true
  | _ => false

/-- The declaration that a tag may stand for, in whatever scope. -/
def tagDeclaration? (tag : String) : Option Declaration :=
  a.declarations.find? fun d => d.name = tag && isTagTarget d

/-- The kind and place of a tag: those of its node if its kind is known, else
those of a declaration with that name, else a guess. -/
def resolveTag (g : Graph) (tag : String) : Option SymbolKind × Option Location :=
  match (g.node? tag).filter fun n => n.kind.isSome with
  | some n => (n.kind, n.location)
  | none =>
    match a.tagDeclaration? tag with
    | some d => (some (a.kindOf d), d.location?)
    | none => if Naming.isPascalCase tag then (some .potentialComponent, none) else (none, none)

def scanElement (u : ScanUnit) (g : Graph) (e : Element) : Graph :=
  if Naming.startsUpper e.tag then
    let site := e.position.inFile u.file
    let known := a.resolveTag g e.tag
    let g := (g.ensureNode e.tag known.1 known.2).addEdge u.caller e.tag site .render
    match u.renderOwner with
    | some owner => if owner = u.caller then g else g.addEdge owner e.tag site .render
    | none => g
  else g

def scan (g : Graph) (u : ScanUnit) : Graph :=
  u.body.markup.foldl (a.scanElement u) (u.body.calls.foldl (scanCall u) g)

/-! ## The graph -/

/-- A node of unknown kind that is named like a component. -/
def guessKind (n : Node) : Node :=
  if n.kind = none ∧ Naming.isPascalCase n.key then { n with kind := some .potentialComponent }
  else n

def guessKinds (g : Graph) : Graph := { g with nodes := g.nodes.mapValues guessKind }

def callGraph : Graph :=
  let ds := a.graphDeclarations
  let registered := (ds.flatMap a.registrations).foldl register Graph.empty
  guessKinds ((ds.flatMap a.units).foldl a.scan registered)

end Atlas
end SymbolAtlas
