/-
The calls that a body asks for.

Scanning a body changes the graph step by step, and what a step does to the
nodes depends on what the graph already knows.  Which calls it records does not:
`ScanUnit.sites` lists them from the body alone.  `scanCall_eq` and
`scanElement_eq` say once what a step of the scan does; `edges_callGraph` follows
from them and gives the edges of the whole graph as a fold over the sites of all
bodies.
-/
import SymbolAtlas.Graph.Build

namespace SymbolAtlas

namespace ScanUnit

variable (u : ScanUnit)

/-- Whom a call goes to, and how. -/
def reach : CallTarget → String × EdgeKind
  | .name name => (name, if Naming.isHookName name then .hook else .call)
  | .member object property =>
    match u.owner, decide (object = "this") with
    | some owner, true => (owner ++ "." ++ property, .methodCall)
    | _, _ =>
      if Naming.isHookName property then (property, .hook)
      else (object ++ "." ++ property, .methodCall)

/-- The site of a call; making an instance is none. -/
def callSite? (c : CallSite) : Option Edge :=
  if c.isNew then none
  else some { caller := u.caller, callee := (u.reach c.target).1,
              location := c.position.inFile u.file, kind := (u.reach c.target).2 }

/-- The symbols that render what the body renders. -/
def renderers : List String :=
  match u.renderOwner with
  | some owner => if owner = u.caller then [u.caller] else [u.caller, owner]
  | none => [u.caller]

/-- The sites of a markup element; only capitalised tags stand for symbols. -/
def renderSites (e : Element) : List Edge :=
  if Naming.startsUpper e.tag then
    u.renderers.map fun caller =>
      { caller := caller, callee := e.tag, location := e.position.inFile u.file, kind := .render }
  else []

/-- The sites of a body, the calls before the markup. -/
def sites : List Edge :=
  (u.body.calls.flatMap fun c => (u.callSite? c).toList) ++ u.body.markup.flatMap u.renderSites

end ScanUnit

/-! ## One step of the scan -/

namespace Graph

def addSite (g : Graph) (e : Edge) : Graph := g.addEdge e.caller e.callee e.location e.kind

/-- What a site adds to the edges: the first of each pair stays. -/
def keepFirst (edges : Table (String × String) Edge) (e : Edge) : Table (String × String) Edge :=
  edges.addNew (e.caller, e.callee) e

theorem edges_addSite (g : Graph) (e : Edge) : (g.addSite e).edges = keepFirst g.edges e := rfl

theorem edges_ensureNode (g : Graph) (key : String) (kind : Option SymbolKind)
    (location : Option Location) : (g.ensureNode key kind location).edges = g.edges := rfl

theorem edges_foldl_addSite (g : Graph) (es : List Edge) :
    (es.foldl addSite g).edges = es.foldl keepFirst g.edges := by
  induction es generalizing g with
  | nil => rfl
  | cons e es ih => rw [List.foldl_cons, List.foldl_cons, ih, edges_addSite]

end Graph

namespace Atlas

variable (a : Atlas)

/-- What a site makes known of its callee before the call is recorded. -/
def announce (g : Graph) (e : Edge) : Graph :=
  if e.kind = .hook then g.ensureNode e.callee (some .hook) none else g

theorem scanCall_eq (u : ScanUnit) (g : Graph) (c : CallSite) :
    scanCall u g c =
      match u.callSite? c with
      | none => g
      | some e => (announce g e).addSite e := by
  unfold scanCall ScanUnit.callSite?
  by_cases hnew : c.isNew = true
  · rw [if_pos hnew, if_pos hnew]
  · rw [if_neg hnew, if_neg hnew]
    cases c.target with
    | name name =>
      by_cases hook : Naming.isHookName name = true
      · simp [ScanUnit.reach, hook, announce, addHookEdge, Graph.addSite]
      · simp [ScanUnit.reach, hook, announce, Graph.addSite]
    | member object property =>
      simp only [ScanUnit.reach]
      generalize u.owner = owner, decide (object = "this") = isThis
      by_cases hook : Naming.isHookName property = true
      · cases owner <;> cases isThis <;> simp [hook, announce, addHookEdge, Graph.addSite]
      · cases owner <;> cases isThis <;>
          simp [hook, announce, Graph.addSite, CallTarget.text]

theorem scanElement_eq (u : ScanUnit) (g : Graph) (e : Element) :
    a.scanElement u g e =
      if Naming.startsUpper e.tag then
        (u.renderSites e).foldl Graph.addSite
          (g.ensureNode e.tag (a.resolveTag g e.tag).1 (a.resolveTag g e.tag).2)
      else g := by
  unfold scanElement ScanUnit.renderSites ScanUnit.renderers
  by_cases hup : Naming.startsUpper e.tag = true
  · rw [if_pos hup, if_pos hup, if_pos hup]
    cases u.renderOwner with
    | none => rfl
    | some owner =>
      by_cases hsame : owner = u.caller
      · simp [hsame, Graph.addSite]
      · simp [hsame, Graph.addSite]
  · rw [if_neg hup, if_neg hup]

/-! ## The edges of the graph -/

theorem edges_scanCall (u : ScanUnit) (g : Graph) (c : CallSite) :
    (scanCall u g c).edges = (u.callSite? c).toList.foldl Graph.keepFirst g.edges := by
  rw [scanCall_eq]
  cases u.callSite? c with
  | none => rfl
  | some e =>
    have hsame : (announce g e).edges = g.edges := by
      unfold announce
      split <;> rfl
    show Graph.keepFirst (announce g e).edges e = Graph.keepFirst g.edges e
    rw [hsame]

theorem edges_scanElement (u : ScanUnit) (g : Graph) (e : Element) :
    (a.scanElement u g e).edges = (u.renderSites e).foldl Graph.keepFirst g.edges := by
  rw [scanElement_eq]
  by_cases hup : Naming.startsUpper e.tag = true
  · rw [if_pos hup, Graph.edges_foldl_addSite, Graph.edges_ensureNode]
  · rw [if_neg hup, ScanUnit.renderSites, if_neg hup, List.foldl_nil]

/-- A fold whose steps add the sites of their items adds the sites of them all. -/
theorem edges_foldl {α : Type} (f : Graph → α → Graph) (sites : α → List Edge)
    (hf : ∀ g x, (f g x).edges = (sites x).foldl Graph.keepFirst g.edges) (xs : List α)
    (g : Graph) :
    (xs.foldl f g).edges = (xs.flatMap sites).foldl Graph.keepFirst g.edges := by
  induction xs generalizing g with
  | nil => rfl
  | cons x xs ih => rw [List.foldl_cons, ih, hf, List.flatMap_cons, List.foldl_append]

theorem edges_scan (g : Graph) (u : ScanUnit) :
    (a.scan g u).edges = u.sites.foldl Graph.keepFirst g.edges := by
  unfold scan ScanUnit.sites
  rw [edges_foldl _ _ (a.edges_scanElement u), edges_foldl _ _ (edges_scanCall u),
    List.foldl_append]

/-- The bodies that are scanned, in order. -/
def scanUnits : List ScanUnit := a.graphDeclarations.flatMap a.units

theorem edges_callGraph :
    a.callGraph.edges = (a.scanUnits.flatMap ScanUnit.sites).foldl Graph.keepFirst {} := by
  have hregister (rs : List Registration) (g : Graph) :
      (rs.foldl register g).edges = g.edges := by
    induction rs generalizing g with
    | nil => rfl
    | cons r rs ih => rw [List.foldl_cons, ih, register, Graph.edges_ensureNode]
  show (a.scanUnits.foldl a.scan _).edges = _
  rw [edges_foldl _ _ a.edges_scan, hregister]
  rfl

end Atlas

/-! ## Where an edge comes from -/

theorem Graph.mem_values_foldl_keepFirst {es : List Edge}
    {edges : Table (String × String) Edge} {e : Edge}
    (h : e ∈ (es.foldl keepFirst edges).values) : e ∈ edges.values ∨ e ∈ es := by
  induction es generalizing edges with
  | nil => exact Or.inl h
  | cons s es ih =>
    rcases ih h with hkept | hlater
    · unfold keepFirst Table.addNew at hkept
      split at hkept
      · exact Or.inl hkept
      · rw [Table.values, List.map_append] at hkept
        rcases List.mem_append.mp hkept with hold | hnew
        · exact Or.inl hold
        · exact Or.inr (List.mem_cons.mpr (Or.inl (List.mem_singleton.mp hnew)))
    · exact Or.inr (List.mem_cons_of_mem s hlater)

/-- Every edge is the site of some body. -/
theorem Atlas.exists_site_of_mem_edgeList {a : Atlas} {e : Edge}
    (h : e ∈ a.callGraph.edgeList) : ∃ u ∈ a.scanUnits, e ∈ u.sites := by
  rw [Graph.edgeList, a.edges_callGraph] at h
  rcases Graph.mem_values_foldl_keepFirst h with hnone | hsite
  · cases hnone
  · exact List.mem_flatMap.mp hsite

end SymbolAtlas
