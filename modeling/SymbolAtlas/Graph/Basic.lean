/-
Call graphs.

A graph lists its nodes and its edges in the order in which they were first
mentioned.  Each node also lists its callers and callees, so that a search does
not scan the edges; `Change` says how a graph grows, and every change keeps the
lists and the edges in step.
-/
import SymbolAtlas.Distinct
import SymbolAtlas.Place
import SymbolAtlas.Symbol.Kind
import SymbolAtlas.Table

namespace SymbolAtlas

/-- How a caller reaches a callee. -/
inductive EdgeKind where
  | call
  | methodCall
  | hook
  | render
deriving DecidableEq

namespace EdgeKind

def all : List EdgeKind := [.call, .methodCall, .hook, .render]

def name : EdgeKind → String
  | .call => "call"
  | .methodCall => "method-call"
  | .hook => "hook"
  | .render => "render"

def ofName? (s : String) : Option EdgeKind := all.find? fun k => k.name = s

end EdgeKind

/-- A symbol of the graph.  Its key is `Class.member` for members and the plain
name otherwise. -/
structure Node where
  key : String
  kind : Option SymbolKind := none
  location : Option Location := none
  callers : List String := []
  callees : List String := []
deriving DecidableEq

namespace Node

def isRoot (n : Node) : Bool := n.callers.isEmpty

def isComponent (n : Node) : Bool := n.kind.any SymbolKind.isComponent

def isHook (n : Node) : Bool := n.kind.any SymbolKind.isHook

/-- Fill in what is not known yet. -/
def learn (n : Node) (kind : Option SymbolKind) (location : Option Location) : Node :=
  { n with kind := n.kind.or kind, location := n.location.or location }

def addCaller (n : Node) (key : String) : Node := { n with callers := addLast n.callers key }

def addCallee (n : Node) (key : String) : Node := { n with callees := addLast n.callees key }

end Node

/-- A call, at the first place where it was seen. -/
structure Edge where
  caller : String
  callee : String
  location : Location
  kind : EdgeKind
deriving DecidableEq

structure Graph where
  nodes : Table String Node := {}
  edges : Table (String × String) Edge := {}

namespace Graph

def empty : Graph := {}

def node? (g : Graph) (key : String) : Option Node := g.nodes.get? key

def edge? (g : Graph) (caller callee : String) : Option Edge := g.edges.get? (caller, callee)

def contains (g : Graph) (key : String) : Bool := (g.node? key).isSome

def nodeList (g : Graph) : List Node := g.nodes.values

def edgeList (g : Graph) : List Edge := g.edges.values

/-- The nodes that nothing calls. -/
def roots (g : Graph) : List Node := g.nodeList.filter Node.isRoot

def nodeCount (g : Graph) : Nat := g.nodes.size

def edgeCount (g : Graph) : Nat := g.edges.size

/-! ## Growth -/

/-- Change the node under `key`, which is created first if it is missing. -/
def touch (g : Graph) (key : String) (f : Node → Node) : Graph :=
  { g with nodes := (g.nodes.addNew key { key := key }).modify key f }

def ensureNode (g : Graph) (key : String) (kind : Option SymbolKind)
    (location : Option Location) : Graph :=
  g.touch key fun n => n.learn kind location

/-- Record a call in the lists of both nodes and, if it is new, as an edge. -/
def addEdge (g : Graph) (caller callee : String) (location : Location) (kind : EdgeKind) :
    Graph :=
  let linked := (g.touch caller (·.addCallee callee)).touch callee (·.addCaller caller)
  { linked with
    edges := linked.edges.addNew (caller, callee)
      { caller := caller, callee := callee, location := location, kind := kind } }

inductive Change where
  | ensureNode (key : String) (kind : Option SymbolKind) (location : Option Location)
  | addEdge (caller callee : String) (location : Location) (kind : EdgeKind)
  | clear

def apply (g : Graph) : Change → Graph
  | .ensureNode key kind location => g.ensureNode key kind location
  | .addEdge caller callee location kind => g.addEdge caller callee location kind
  | .clear => empty

/-- The graph that the changes make of the empty one. -/
def replay (changes : List Change) : Graph := changes.foldl apply empty

/-! ## Sizes that bound a search -/

/-- The nodes that are not in `seen`. -/
def fresh (g : Graph) (seen : List String) : Nat :=
  (g.nodes.keys.filter fun k => k ∉ seen).length

/-- The length of the longest of the lists that `f` gives the nodes. -/
def widest (g : Graph) (f : Node → List String) : Nat :=
  (g.nodeList.map fun n => (f n).length).foldr max 0

theorem length_le_foldr_max {n : Nat} {ns : List Nat} (h : n ∈ ns) : n ≤ ns.foldr max 0 := by
  induction ns with
  | nil => simp at h
  | cons m ms ih =>
    rw [List.foldr_cons]
    rcases List.mem_cons.mp h with rfl | h
    · exact Nat.le_max_left _ _
    · exact Nat.le_trans (ih h) (Nat.le_max_right _ _)

theorem length_le_widest {g : Graph} {key : String} {n : Node} (f : Node → List String)
    (h : g.node? key = some n) : (f n).length ≤ g.widest f :=
  length_le_foldr_max (List.mem_map.mpr ⟨n, Table.mem_values_of_get? h, rfl⟩)

theorem fresh_cons_le (g : Graph) (key : String) (seen : List String) :
    g.fresh (key :: seen) ≤ g.fresh seen := by
  unfold fresh
  rw [← List.countP_eq_length_filter, ← List.countP_eq_length_filter]
  apply List.countP_mono_left
  intro k _ hk
  simp only [decide_eq_true_eq, List.mem_cons, not_or] at hk ⊢
  exact hk.2

/-- Seeing a node for the first time leaves fewer to see. -/
theorem fresh_cons_lt {g : Graph} {key : String} {seen : List String}
    (hg : (g.node? key).isSome) (hs : key ∉ seen) : g.fresh (key :: seen) < g.fresh seen := by
  have hk : key ∈ g.nodes.keys := Table.mem_keys_iff.mpr hg
  unfold fresh
  generalize g.nodes.keys = ks at hk
  have mono (l : List String) :
      (l.filter fun k => k ∉ key :: seen).length ≤ (l.filter fun k => k ∉ seen).length := by
    rw [← List.countP_eq_length_filter, ← List.countP_eq_length_filter]
    apply List.countP_mono_left
    intro k _ hk
    simp only [decide_eq_true_eq, List.mem_cons, not_or] at hk ⊢
    exact hk.2
  induction ks with
  | nil => simp at hk
  | cons k ks ih =>
    by_cases hkey : k = key
    · subst hkey
      have := mono ks
      rw [List.filter_cons_of_neg (by simp), List.filter_cons_of_pos (by simpa using hs),
        List.length_cons]
      omega
    · have hks : key ∈ ks := by
        rcases List.mem_cons.mp hk with h | h
        · exact absurd h.symm hkey
        · exact h
      have := ih hks
      by_cases hseen : k ∈ seen
      · rw [List.filter_cons_of_neg (by simp [hseen]), List.filter_cons_of_neg (by simp [hseen])]
        exact this
      · rw [List.filter_cons_of_pos (by simp [hseen, hkey]),
          List.filter_cons_of_pos (by simp [hseen]), List.length_cons, List.length_cons]
        omega

end Graph
end SymbolAtlas
