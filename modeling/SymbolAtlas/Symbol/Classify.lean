/-
The kind of a declaration.

A class is a component by its base, by a member that components have, or by a
property that holds a reference to an element.  A callable is a hook by its name
and a component by its markup, its calls or its parameters.  Both questions take
the type of a parameter from a function, so that a shape alone and a shape within
a program are judged by the same rules.
-/
import SymbolAtlas.Source.Snapshot
import SymbolAtlas.Symbol.Kind
import SymbolAtlas.Symbol.Naming

namespace SymbolAtlas
namespace Naming
namespace Rules

variable (r : Rules)

def marksComponent (m : Member) : Bool :=
  (decide (m.kind = .method) && r.isLifecycleMethod m.name) || decide (m.name = "state") ||
    m.initializerCall.any r.isRefCreation

def isClassComponent (c : ClassShape) : Bool :=
  c.heritage.any r.isUiBase || c.members.any r.marksComponent

def isPropsParam (typeOf : Parameter → Option String) (p : Parameter) : Bool :=
  decide (p.name = "props") || (typeOf p).any r.isPropsType

/-- Whether a callable looks like a component. -/
def hasComponentSignal (typeOf : Parameter → Option String) (c : Callable) : Bool :=
  !c.body.markup.isEmpty || c.body.calls.any (fun s => isHookName s.target.callee) ||
    c.params.any (r.isPropsParam typeOf)

def classifyCallable (typeOf : Parameter → Option String) (name : String) (c : Callable)
    (plain : SymbolKind) : SymbolKind :=
  if isHookName name then .hook
  else if r.hasComponentSignal typeOf c then .functionComponent
  else plain

def classifyWith (typeOf : Parameter → Option String) (d : Declaration) : SymbolKind :=
  match d.shape with
  | .classDecl c => if r.isClassComponent c then .classComponent else .plainClass
  | .function c => r.classifyCallable typeOf d.name c .function
  | .defaultExport (.callable c) => r.classifyCallable typeOf d.name c .function
  | .variable (some c) => r.classifyCallable typeOf d.name c .variable
  | .interface => .interface
  | .enum => .enum
  | .variable none => .variable
  | .defaultExport (.identifier ..) => .variable

/-- The kind by the shape alone: only written types of parameters count. -/
def classify (d : Declaration) : SymbolKind := r.classifyWith Parameter.writtenType d

/-- A missing declaration counts as a variable. -/
def classifyOrDefault (d : Option Declaration) : SymbolKind :=
  match d with
  | some d => r.classify d
  | none => .variable

/-- The type of a parameter as written, or else as the program gives it. -/
def paramType (s : Snapshot) (p : Parameter) : Option String :=
  p.writtenType.or (s.typeText p.handle)

/-- The kind within a program: a default export of a name has the kind of what it
names. -/
def classifyIn (s : Snapshot) (d : Declaration) : SymbolKind :=
  match d.shape with
  | .defaultExport (.identifier ..) =>
    match s.exportTarget d with
    | some target => r.classifyWith (paramType s) target
    | none => .variable
  | _ => r.classifyWith (paramType s) d

end Rules
end Naming

def Member.symbolKind (m : Member) : SymbolKind :=
  match m.kind with
  | .property => .property
  | _ => .method

end SymbolAtlas
