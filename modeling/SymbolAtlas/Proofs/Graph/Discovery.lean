/-
What the graph of a program lists, and in which order.

Scanning makes nodes on the way: a call makes its callee, a hook and a tag are made
before the call that goes to them, and a caller is never new.  `ScanStep` takes the
scan apart into single calls and elements; `nodeKeys_take` says what one of them
adds to the nodes and `nodeKeys_foldl_take` what a run of them adds, in whatever
order they are taken.  With the edges of `edges_callGraph` this gives both lists of
the graph as those of `siteList`, each thing where it comes first.
-/
import SymbolAtlas.Proofs.Graph.Adjacency
import SymbolAtlas.Proofs.Graph.Bodies
import SymbolAtlas.Source.Draft

namespace SymbolAtlas

/-! ## Lists that keep the first of each key -/

section

variable {α β : Type} [DecidableEq β]

def addLastBy (key : α → β) (xs : List α) (x : α) : List α :=
  if key x ∈ xs.map key then xs else xs ++ [x]

theorem addLast_eq_addLastBy [DecidableEq α] (xs : List α) (x : α) :
    addLast xs x = addLastBy id xs x := by
  rw [addLast, addLastBy, List.map_id, id]

theorem foldl_addLastBy (key : α → β) (xs ys : List α) :
    ys.foldl (addLastBy key) xs =
      xs ++ (distinctBy key ys).filter fun y => key y ∉ xs.map key := by
  induction ys generalizing xs with
  | nil => simp [distinctBy]
  | cons y ys ih =>
    rw [List.foldl_cons, ih, distinctBy]
    by_cases hy : key y ∈ xs.map key
    · have hsame : (distinctBy key ys).filter (fun z => key z ∉ xs.map key) =
          ((distinctBy key ys).filter fun z => key z ≠ key y).filter
            fun z => key z ∉ xs.map key := by
        rw [List.filter_filter]
        refine List.filter_congr fun z _ => ?_
        by_cases hz : key z = key y
        · simp [hz, hy]
        · simp [hz]
      rw [addLastBy, if_pos hy, List.filter_cons_of_neg (by simpa using hy), hsame]
    · have hsame : (distinctBy key ys).filter (fun z => key z ∉ (xs ++ [y]).map key) =
          ((distinctBy key ys).filter fun z => key z ≠ key y).filter
            fun z => key z ∉ xs.map key := by
        rw [List.filter_filter]
        refine List.filter_congr fun z _ => ?_
        simp [not_or]
      rw [addLastBy, if_neg hy, List.filter_cons_of_pos (by simpa using hy), hsame]
      simp

theorem foldl_addLast [DecidableEq α] (xs : List α) : xs.foldl addLast [] = distinct xs := by
  have hstep : (addLast : List α → α → List α) = addLastBy id :=
    funext fun xs => funext fun x => addLast_eq_addLastBy xs x
  rw [hstep, foldl_addLastBy]
  simp [distinct]

theorem mem_foldl_addLast [DecidableEq α] {xs ys : List α} {x : α} :
    x ∈ ys.foldl addLast xs ↔ x ∈ xs ∨ x ∈ ys := by
  induction ys generalizing xs with
  | nil => simp
  | cons y ys ih => rw [List.foldl_cons, ih, mem_addLast, List.mem_cons, or_assoc]

theorem addLast_of_mem [DecidableEq α] {xs : List α} {x : α} (h : x ∈ xs) :
    addLast xs x = xs := if_pos h

end

/-! ## The scan, step by step -/

/-- A call or an element of a body, to be scanned. -/
inductive ScanStep where
  | call (u : ScanUnit) (c : CallSite)
  | element (u : ScanUnit) (e : Element)

def ScanStep.sites : ScanStep → List Edge
  | .call u c => (u.callSite? c).toList
  | .element u e => u.renderSites e

def ScanUnit.steps (u : ScanUnit) : List ScanStep :=
  u.body.calls.map (.call u) ++ u.body.markup.map (.element u)

theorem ScanUnit.head?_renderers (u : ScanUnit) : u.renderers.head? = some u.caller := by
  unfold renderers
  split
  · split <;> rfl
  · rfl

theorem ScanUnit.sites_eq_steps (u : ScanUnit) : u.sites = u.steps.flatMap ScanStep.sites := by
  rw [steps, List.flatMap_append, List.flatMap_map, List.flatMap_map]
  rfl

namespace Atlas

variable (a : Atlas)

def take (g : Graph) : ScanStep → Graph
  | .call u c => scanCall u g c
  | .element u e => a.scanElement u g e

/-- The steps of a program in the order of its sites. -/
def scanSteps : List ScanStep := a.scanUnits.flatMap ScanUnit.steps

theorem sites_scanSteps : a.scanSteps.flatMap ScanStep.sites = a.siteList := by
  rw [← siteList_eq, scanSteps, List.flatMap_assoc]
  exact List.flatMap_congr fun u _ => u.sites_eq_steps.symm

def registered : Graph := (a.graphDeclarations.flatMap a.registrations).foldl register .empty

/-- The graph that results if the steps are taken in some order. -/
def callGraphBy (order : List ScanStep) : Graph := guessKinds (order.foldl a.take a.registered)

theorem callGraphBy_scanSteps : a.callGraphBy a.scanSteps = a.callGraph := by
  have hscan (g : Graph) (u : ScanUnit) : u.steps.foldl a.take g = a.scan g u := by
    rw [ScanUnit.steps, List.foldl_append, List.foldl_map, List.foldl_map]
    rfl
  rw [callGraphBy, scanSteps, List.foldl_flatMap]
  simp only [hscan]
  rfl

end Atlas

/-! ## Discovery of nodes -/

namespace Graph

theorem nodeKeys_ensureNode (g : Graph) (key : String) (kind : Option SymbolKind)
    (location : Option Location) :
    (g.ensureNode key kind location).nodes.keys = addLast g.nodes.keys key :=
  nodeKeys_touch g key _

/-- The caller of a site is there before the site is added, so the site can only add its
callee. -/
theorem nodeKeys_addSite {g : Graph} {e : Edge} (h : e.caller ∈ g.nodes.keys) :
    (g.addSite e).nodes.keys = addLast g.nodes.keys e.callee := by
  show ((g.touch e.caller _).touch e.callee _).nodes.keys = _
  rw [nodeKeys_touch, nodeKeys_touch, addLast_of_mem h]

theorem nodeKeys_foldl_addSite {g : Graph} {es : List Edge}
    (h : ∀ e ∈ es, e.caller ∈ g.nodes.keys) :
    (es.foldl addSite g).nodes.keys = (es.map Edge.callee).foldl addLast g.nodes.keys := by
  induction es generalizing g with
  | nil => rfl
  | cons e es ih =>
    have he := nodeKeys_addSite (h e List.mem_cons_self)
    rw [List.foldl_cons, ih, he, List.map_cons, List.foldl_cons]
    intro x hx
    rw [he]
    exact mem_addLast.mpr (Or.inl (h x (List.mem_cons_of_mem e hx)))

theorem nodeKeys_ensureNode_addSites {g : Graph} {es : List Edge} {key : String}
    {kind : Option SymbolKind} {location : Option Location}
    (h : ∀ e ∈ es, e.caller ∈ g.nodes.keys) (hkey : es.head?.map Edge.callee = some key) :
    (es.foldl addSite (g.ensureNode key kind location)).nodes.keys =
      (es.map Edge.callee).foldl addLast g.nodes.keys := by
  rw [nodeKeys_foldl_addSite, nodeKeys_ensureNode]
  · cases es with
    | nil => cases hkey
    | cons e es =>
      -- The node is made just before the call that would have made it.
      obtain rfl : e.callee = key := Option.some.inj hkey
      rw [List.map_cons, List.foldl_cons, List.foldl_cons,
        addLast_of_mem (mem_addLast.mpr (Or.inr rfl))]
  · intro e he
    rw [nodeKeys_ensureNode]
    exact mem_addLast.mpr (Or.inl (h e he))

end Graph

namespace Atlas

variable (a : Atlas)

theorem nodeKeys_take {g : Graph} {s : ScanStep} (h : ∀ e ∈ s.sites, e.caller ∈ g.nodes.keys) :
    (a.take g s).nodes.keys = (s.sites.map Edge.callee).foldl addLast g.nodes.keys := by
  cases s with
  | call u c =>
    rw [take, scanCall_eq]
    simp only [ScanStep.sites] at h ⊢
    cases hsite : u.callSite? c with
    | none => rfl
    | some e =>
      have hcaller : ∀ x ∈ [e], x.caller ∈ g.nodes.keys := fun x hx => h x (by rwa [hsite])
      show ([e].foldl Graph.addSite (announce g e)).nodes.keys = _
      unfold announce
      split
      · exact Graph.nodeKeys_ensureNode_addSites hcaller rfl
      · exact Graph.nodeKeys_foldl_addSite hcaller
  | element u e =>
    rw [take, scanElement_eq]
    simp only [ScanStep.sites] at h ⊢
    by_cases hup : Naming.startsUpper e.tag = true
    · rw [if_pos hup]
      refine Graph.nodeKeys_ensureNode_addSites h ?_
      rw [ScanUnit.renderSites, if_pos hup, List.head?_map, ScanUnit.head?_renderers]
      rfl
    · rw [if_neg hup, ScanUnit.renderSites, if_neg hup]
      rfl

theorem nodeKeys_foldl_take {g : Graph} {order : List ScanStep}
    (h : ∀ s ∈ order, ∀ e ∈ s.sites, e.caller ∈ g.nodes.keys) :
    (order.foldl a.take g).nodes.keys =
      ((order.flatMap ScanStep.sites).map Edge.callee).foldl addLast g.nodes.keys := by
  induction order generalizing g with
  | nil => rfl
  | cons s order ih =>
    have hs := a.nodeKeys_take (h s List.mem_cons_self)
    rw [List.foldl_cons, ih, hs, List.flatMap_cons, List.map_append, List.foldl_append]
    intro t ht e he
    rw [hs]
    exact mem_foldl_addLast.mpr (Or.inl (h t (List.mem_cons_of_mem s ht) e he))

theorem nodeKeys_registered : a.registered.nodes.keys = distinct a.registeredKeys := by
  have hfold (rs : List Registration) (g : Graph) : (rs.foldl register g).nodes.keys =
      (rs.map Registration.key).foldl addLast g.nodes.keys := by
    induction rs generalizing g with
    | nil => rfl
    | cons r rs ih =>
      rw [List.foldl_cons, ih, register, Graph.nodeKeys_ensureNode, List.map_cons,
        List.foldl_cons]
  rw [registered, hfold, List.map_flatMap]
  simp only [keys_registrations]
  exact foldl_addLast _

theorem nodeKeys_callGraphBy {order : List ScanStep} (h : order.Perm a.scanSteps) :
    (a.callGraphBy order).nodes.keys =
      distinct (a.registeredKeys ++ (order.flatMap ScanStep.sites).map Edge.callee) := by
  have hcallers : ∀ s ∈ order, ∀ e ∈ s.sites, e.caller ∈ a.registered.nodes.keys := by
    intro s hs e he
    have hsite : e ∈ a.siteList := by
      rw [← sites_scanSteps]
      exact List.mem_flatMap.mpr ⟨s, h.mem_iff.mp hs, he⟩
    rw [nodeKeys_registered, mem_distinct]
    exact a.caller_mem_registeredKeys hsite
  show ((order.foldl a.take a.registered).nodes.mapValues guessKind).keys = _
  rw [Table.keys_mapValues, a.nodeKeys_foldl_take hcallers, nodeKeys_registered, ← foldl_addLast,
    ← foldl_addLast, List.foldl_append]

end Atlas

/-! ## The first site of each pair -/

theorem Graph.values_keepFirst {edges : Table (String × String) Edge} {e : Edge}
    (h : edges.keys = edges.values.map fun e => (e.caller, e.callee)) :
    (keepFirst edges e).values =
      addLastBy (fun e => (e.caller, e.callee)) edges.values e := by
  unfold keepFirst addLastBy Table.addNew
  rw [← h]
  split
  · next old hold => rw [if_pos (Table.mem_keys_iff.mpr (by rw [hold]; rfl))]
  · next hnone =>
    have hnew : (e.caller, e.callee) ∉ edges.keys := fun hk => by
      simp [Table.mem_keys_iff, hnone] at hk
    rw [if_neg hnew]
    exact List.map_append

theorem Graph.values_foldl_keepFirst {edges : Table (String × String) Edge} {es : List Edge}
    (h : edges.keys = edges.values.map fun e => (e.caller, e.callee)) :
    (es.foldl keepFirst edges).values =
      es.foldl (addLastBy fun e => (e.caller, e.callee)) edges.values := by
  induction es generalizing edges with
  | nil => rfl
  | cons e es ih =>
    have hkeys : (keepFirst edges e).keys =
        (keepFirst edges e).values.map fun e => (e.caller, e.callee) := by
      rw [values_keepFirst h, keepFirst, Table.keys_addNew, addLast, addLastBy, ← h]
      split
      · exact h
      · rw [List.map_append, ← h]
        rfl
    rw [List.foldl_cons, ih hkeys, values_keepFirst h, List.foldl_cons]

/-- The graph of a program lists its sites, only the first of each caller and callee,
and its nodes as they are met: first what is registered, each class before its
members, and then whom the sites go to. -/
theorem Atlas.callGraph_lists_first_sites (a : Atlas) :
    a.callGraph.edgeList = distinctBy (fun e => (e.caller, e.callee)) a.siteList ∧
      a.callGraph.nodeList.map Node.key =
        distinct (a.registeredKeys ++ a.siteList.map Edge.callee) := by
  constructor
  · have hempty : ({} : Table (String × String) Edge).keys =
        ({} : Table (String × String) Edge).values.map fun e => (e.caller, e.callee) := rfl
    rw [Graph.edgeList, edges_callGraph, siteList_eq, Graph.values_foldl_keepFirst hempty,
      foldl_addLastBy]
    simp [Table.values]
  · rw [← (Graph.inStep_callGraph a).nodeKeys_eq, ← callGraphBy_scanSteps,
      nodeKeys_callGraphBy a (.refl _), sites_scanSteps]

/-- A function that calls a hook on `this`. -/
def thisAtlas : Atlas :=
  .ofSettings (Workspace.ofSketches
    [{ path := "app.ts", generated := false
       items := [.function "label" [.callThis "useTitle"]] }]).snapshot {}

/-- Outside a class `this` does not keep a hook from being known by its name: the call
is not listed as a method call of `this.useTitle`. -/
theorem edgeList_of_hook_on_this :
    thisAtlas.callGraph.edgeList =
        [{ caller := "label", callee := "useTitle"
           location := { file := "app.ts", line := 2, column := 1 }, kind := .hook }] ∧
      thisAtlas.callGraph.edgeList ≠
        [{ caller := "label", callee := "this.useTitle"
           location := { file := "app.ts", line := 2, column := 1 }, kind := .methodCall }] := by
  decide +kernel

end SymbolAtlas
