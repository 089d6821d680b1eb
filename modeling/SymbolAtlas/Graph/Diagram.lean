/-
Class diagrams of the symbols on a list of paths.

A diagram has a block for each component, hook and class, a style line for each
component and hook, and a line for each call on the paths.  Methods have no block
of their own: they are listed in the block of their class.
-/
import SymbolAtlas.Graph.Basic
import SymbolAtlas.Text.Cut

namespace SymbolAtlas

/-- A drawn symbol: its identifier, the tag under it and the methods it lists. -/
structure Diagram.Block where
  id : String
  tag : Option String
  methods : List String
deriving DecidableEq

structure Diagram.Style where
  id : String
  paint : String
deriving DecidableEq

structure Diagram where
  blocks : List Diagram.Block
  styles : List Diagram.Style
  relations : List String

namespace Diagram

def componentPaint : String := "fill:#e1f5fe,stroke:#0288d1"

def hookPaint : String := "fill:#fff3e0,stroke:#f57c00"

def isPlain (c : Char) : Bool := c.isAlphanum || c == '_'

/-- An identifier that the diagram language accepts. -/
def sanitize (key : List Char) : String :=
  String.ofList (key.map fun c => if isPlain c then c else '_')

/-- How a symbol is drawn. -/
inductive Role where
  | component
  | hook
  | classBlock
  | method (owner name : List Char)
  | other
deriving DecidableEq

def roleOfKind (key : String) : SymbolKind → Role
  | .functionComponent | .classComponent | .potentialComponent => .component
  | .hook => .hook
  | .plainClass => .classBlock
  | .method =>
    match Text.cutFirst? ['.'] key.toList with
    | some (owner, name) => .method owner name
    | none => .other
  | _ => .other

def role (g : Graph) (key : String) : Role :=
  match (g.node? key).bind Node.kind with
  | some kind => roleOfKind key kind
  | none => .other

/-- The identifier under which a symbol is drawn: a method stands for its class. -/
def idOf (g : Graph) (key : String) : String :=
  match role g key with
  | .method owner _ => sanitize owner
  | _ => sanitize key.toList

/-! ## The parts of a diagram -/

/-- The consecutive pairs of a list. -/
def pairs : List String → List (String × String)
  | a :: b :: rest => (a, b) :: pairs (b :: rest)
  | _ => []

variable (g : Graph)

def componentIds (keys : List String) : List String :=
  distinct ((keys.filter fun k => role g k = .component).map (idOf g))

def hookIds (keys : List String) : List String :=
  distinct ((keys.filter fun k => role g k = .hook).map (idOf g))

def isClassLike : Role → Bool
  | .classBlock | .method .. => true
  | _ => false

/-- The classes on the paths and the owners of the methods on them. -/
def classIds (keys : List String) : List String :=
  distinct ((keys.filter fun k => isClassLike (role g k)).map (idOf g))

def methodOf? (id key : String) : Option String :=
  match role g key with
  | .method owner name => if sanitize owner = id then some (String.ofList name) else none
  | _ => none

def methodsOf (keys : List String) (id : String) : List String :=
  distinct (keys.filterMap (methodOf? g id))

def blocksOf (keys : List String) : List Block :=
  let components := componentIds g keys
  let hooks := hookIds g keys
  let classes := (classIds g keys).filter fun id => id ∉ components ∧ id ∉ hooks
  components.map (fun id => { id := id, tag := some "component", methods := methodsOf g keys id })
    ++ hooks.map (fun id => { id := id, tag := some "hook", methods := [] })
    ++ classes.map (fun id => { id := id, tag := none, methods := methodsOf g keys id })

def stylesOf (keys : List String) : List Style :=
  (componentIds g keys).map (fun id => { id := id, paint := componentPaint })
    ++ (hookIds g keys).map (fun id => { id := id, paint := hookPaint })

/-- The three groups of call lines, in the order in which they are drawn. -/
inductive Group where
  | renders
  | uses
  | calls
deriving DecidableEq

def groupOf (call : String × String) : Group :=
  match role g call.1, role g call.2 with
  | .component, .component => .renders
  | .component, .hook => .uses
  | _, _ => .calls

def relation (call : String × String) : String :=
  let source := idOf g call.1
  let target := idOf g call.2
  match groupOf g call, role g call.2 with
  | .uses, _ => "    " ++ source ++ " ..> " ++ target ++ " : uses"
  | .calls, .method _ name => "    " ++ source ++ " --> " ++ target ++ " : " ++ String.ofList name
  | _, _ => "    " ++ source ++ " --> " ++ target

def relationsIn (calls : List (String × String)) (group : Group) : List String :=
  (calls.filter fun c => groupOf g c = group).map (relation g)

/-- One line for each call, and no line twice. -/
def relationsOf (calls : List (String × String)) : List String :=
  distinct (relationsIn g calls .renders ++ relationsIn g calls .uses
    ++ relationsIn g calls .calls)

/-- The diagram of the nodes and calls on the paths. -/
def ofPaths (paths : List (List String)) : Diagram :=
  let keys := distinct paths.flatten
  let calls := distinct (paths.flatMap pairs)
  { blocks := blocksOf g keys, styles := stylesOf g keys, relations := relationsOf g calls }

/-! ## Text -/

def Block.lines (b : Block) : List String :=
  if b.tag = none ∧ b.methods = [] then ["    class " ++ b.id]
  else
    ["    class " ++ b.id ++ " \x7b"]
      ++ (b.tag.map fun t => "        <<" ++ t ++ ">>").toList
      ++ b.methods.map (fun m => "        +" ++ m ++ "()")
      ++ ["    \x7d"]

def Style.line (s : Style) : String := "    style " ++ s.id ++ " " ++ s.paint

def lines (d : Diagram) : List String :=
  ["```mermaid", "classDiagram"] ++ d.blocks.flatMap Block.lines ++ d.styles.map Style.line
    ++ d.relations ++ ["```"]

def render (d : Diagram) : String := String.join (d.lines.map fun l => l ++ "\n")

end Diagram
end SymbolAtlas
