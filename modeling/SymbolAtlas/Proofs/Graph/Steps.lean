/-
The paths of a report and their recorded calls.

A path that is reported carries the recorded calls along its nodes, and a pair of
nodes without a recorded call would be passed over, so that every later call stood
one step too early.  `map_some_edgesAlong` says that this does not happen on a list
of nodes that follows the callee lists: in a graph whose three records of the calls
are in step, each pair of the list has its edge.  Both searches return such lists
only, and `reports_wellFormed` puts this together for every graph that changes make
and for the graph of every program.
-/
import SymbolAtlas.Proofs.Graph.Callers

namespace SymbolAtlas

/-- A path from its start to its end symbol with the recorded call of each step. -/
structure CallPath.WellFormed (g : Graph) (p : CallPath) : Prop where
  nodes_ne : p.nodes ≠ []
  start : p.nodes.head? = some p.startSymbol
  finish : p.nodes.getLast? = some p.endSymbol
  length_edges : p.edges.length + 1 = p.nodes.length
  edge_at : ∀ (i : Nat) (a b : String), p.nodes[i]? = some a → p.nodes[i + 1]? = some b →
    ∃ e, p.edges[i]? = some e ∧ g.edge? a b = some e ∧ e.caller = a ∧ e.callee = b

structure SearchReport.WellFormed (g : Graph) (r : SearchReport) : Prop where
  total : r.totalPaths = r.paths.length
  paths : ∀ p ∈ r.paths, p.WellFormed g

/-! ## Consecutive nodes -/

theorem Diagram.pairs_eq_zip (nodes : List String) :
    Diagram.pairs nodes = nodes.zip nodes.tail := by
  induction nodes with
  | nil => rfl
  | cons a rest ih =>
    cases rest with
    | nil => rfl
    | cons b rest => rw [pairs, ih]; rfl

theorem Diagram.pairs_at {nodes : List String} {i : Nat} {a b : String}
    (ha : nodes[i]? = some a) (hb : nodes[i + 1]? = some b) :
    (Diagram.pairs nodes)[i]? = some (a, b) := by
  rw [pairs_eq_zip, List.getElem?_zip_eq_some, List.getElem?_tail]
  exact ⟨ha, hb⟩

theorem Diagram.length_pairs {nodes : List String} (hne : nodes ≠ []) :
    (Diagram.pairs nodes).length + 1 = nodes.length := by
  have hpos : 0 < nodes.length := List.length_pos_iff.mpr hne
  rw [pairs_eq_zip, List.length_zip, List.length_tail]
  omega

namespace Graph

variable {g : Graph} {nodes : List String}

theorem calls_of_mem_pairs (hcalls : nodes.IsChain g.Calls) {p : String × String}
    (hp : p ∈ Diagram.pairs nodes) : g.Calls p.1 p.2 := by
  induction nodes with
  | nil => cases hp
  | cons a rest ih =>
    cases rest with
    | nil => cases hp
    | cons b rest =>
      obtain ⟨hab, hrest⟩ := List.isChain_cons_cons.mp hcalls
      rcases List.mem_cons.mp hp with rfl | hp
      · exact hab
      · exact ih hrest hp

/-- On a chain of calls no pair is passed over. -/
theorem map_some_edgesAlong (h : g.InStep) (hcalls : nodes.IsChain g.Calls) :
    (g.edgesAlong nodes).map some = (Diagram.pairs nodes).map fun p => g.edge? p.1 p.2 := by
  rw [edgesAlong, List.map_filterMap, List.filterMap_eq_map_iff_forall_eq_some]
  intro p hp
  have hedge : (g.edge? p.1 p.2).isSome = true :=
    (h.coherent.mem_callees_iff p.1 p.2).mp (calls_of_mem_pairs hcalls hp)
  obtain ⟨e, he⟩ := Option.isSome_iff_exists.mp hedge
  rw [he, Option.map_some]

theorem edgesAlong_at (h : g.InStep) (hcalls : nodes.IsChain g.Calls) {i : Nat} {a b : String}
    (ha : nodes[i]? = some a) (hb : nodes[i + 1]? = some b) :
    ∃ e, (g.edgesAlong nodes)[i]? = some e ∧ g.edge? a b = some e := by
  have hsome : ((g.edgesAlong nodes).map some)[i]? = some (g.edge? a b) := by
    rw [map_some_edgesAlong h hcalls, List.getElem?_map, Diagram.pairs_at ha hb, Option.map_some]
  rw [List.getElem?_map] at hsome
  obtain ⟨e, he, heq⟩ := Option.map_eq_some_iff.mp hsome
  exact ⟨e, he, heq.symm⟩

theorem wellFormed_of_isChain (h : g.InStep) (hcalls : nodes.IsChain g.Calls)
    {source target : String} (hstart : nodes.head? = some source)
    (hfinish : nodes.getLast? = some target) :
    CallPath.WellFormed g { nodes := nodes, edges := g.edgesAlong nodes,
                            startSymbol := source, endSymbol := target } where
  nodes_ne := List.ne_nil_of_mem (List.mem_of_mem_head? hstart)
  start := hstart
  finish := hfinish
  length_edges := by
    have hne : nodes ≠ [] := List.ne_nil_of_mem (List.mem_of_mem_head? hstart)
    have hlen := congrArg List.length (map_some_edgesAlong h hcalls)
    rw [List.length_map, List.length_map] at hlen
    rw [← Diagram.length_pairs hne, ← hlen]
  edge_at i a b ha hb := by
    obtain ⟨e, hat, hedge⟩ := edgesAlong_at h hcalls ha hb
    obtain ⟨hcaller, hcallee⟩ := Prod.mk.inj (h.edge_key hedge)
    exact ⟨e, hat, hedge, hcaller, hcallee⟩

/-! ## The searches -/

theorem require_eq_ok_iff {key : String} {n : Node} :
    g.require key = .ok n ↔ g.node? key = some n := by
  unfold require
  cases g.node? key with
  | none => simp
  | some m => simp

theorem wellFormed_reportOf {paths : List CallPath} (hpaths : ∀ p ∈ paths, p.WellFormed g)
    (dir fileName : String) : (g.reportOf dir paths fileName).WellFormed g :=
  ⟨rfl, hpaths⟩

theorem wellFormed_findPaths (h : g.InStep) {dir source target : String} {report : SearchReport}
    (hreport : g.findPaths dir source target = .ok report) : report.WellFormed g := by
  unfold findPaths at hreport
  cases hs : g.require source with
  | error e => rw [hs] at hreport; cases hreport
  | ok first =>
    cases ht : g.require target with
    | error e => rw [hs, ht] at hreport; cases hreport
    | ok last =>
      rw [hs, ht] at hreport
      cases hreport
      have hfirst := require_eq_ok_iff.mp hs
      have hlast := h.node_key (require_eq_ok_iff.mp ht)
      refine wellFormed_reportOf ?_ _ _
      intro p hp
      obtain ⟨nodes, hnodes, rfl⟩ := List.mem_map.mp hp
      rw [hlast] at hnodes
      have hpath := (mem_simplePaths_iff hfirst (h.node_key hfirst)).mp hnodes
      exact wellFormed_of_isChain h hpath.calls hpath.head hpath.last

theorem wellFormed_findCallers (h : g.InStep) {dir target : String} {report : SearchReport}
    (hreport : g.findCallers dir target = .ok report) : report.WellFormed g := by
  unfold findCallers at hreport
  cases ht : g.require target with
  | error e => rw [ht] at hreport; cases hreport
  | ok last =>
    rw [ht] at hreport
    cases hreport
    have hlast := require_eq_ok_iff.mp ht
    refine wellFormed_reportOf ?_ _ _
    intro p hp
    obtain ⟨nodes, hnodes, rfl⟩ := List.mem_map.mp hp
    have hchain := (mem_callerChains_iff h hlast).mp hnodes
    obtain ⟨root, hroot, -⟩ := hchain.root
    have hstart : nodes.head? = some (nodes.headD last.key) := by
      rw [List.headD_eq_head?_getD, hroot, Option.getD_some]
    have hfinish : nodes.getLast? = some last.key := by
      rw [h.node_key hlast]
      exact hchain.last
    exact wellFormed_of_isChain h hchain.calls hstart hfinish

/-- In a graph that changes have made, and in the graph of a program, a search that
succeeds counts its paths, and each of them runs from its start to its end symbol
with the recorded call from each node to the next, in order and without a gap. -/
theorem reports_wellFormed (g : Graph)
    (hg : (∃ changes, g = replay changes) ∨ ∃ a : Atlas, g = a.callGraph) (dir : String) :
    (∀ source target report, g.findPaths dir source target = .ok report →
      report.WellFormed g) ∧
    (∀ target report, g.findCallers dir target = .ok report → report.WellFormed g) ∧
    ∀ query report, g.trace dir query = .ok report → report.WellFormed g := by
  have h : g.InStep := by
    rcases hg with ⟨changes, rfl⟩ | ⟨a, rfl⟩
    · exact inStep_replay changes
    · exact inStep_callGraph a
  exact ⟨fun _ _ _ => wellFormed_findPaths h, fun _ _ => wellFormed_findCallers h,
    fun _ _ => wellFormed_findPaths h⟩

/-- The path around a cycle and a self-call is reported with its three calls. -/
theorem reports_wellFormed_looped :
    ∃ report, (replay loopedChanges).findPaths "out" "main" "c" = .ok report ∧
      report.WellFormed (replay loopedChanges) ∧
      ∃ p ∈ report.paths, p.nodes = ["main", "a", "b", "c"] ∧ p.edges.length = 3 := by
  have hmain : (replay loopedChanges).contains "main" = true := by decide
  have hc : (replay loopedChanges).contains "c" = true := by decide
  obtain ⟨first, hfirst⟩ := Option.isSome_iff_exists.mp hmain
  obtain ⟨last, hlast⟩ := Option.isSome_iff_exists.mp hc
  have h := inStep_replay loopedChanges
  obtain ⟨report, hreport, hnodes⟩ := nodes_findPaths "out" hfirst hlast (h.node_key hlast)
  have hwell := (reports_wellFormed _ (Or.inl ⟨loopedChanges, rfl⟩) "out").1 _ _ _ hreport
  have hpath : ["main", "a", "b", "c"] ∈ report.paths.map CallPath.nodes := by
    rw [hnodes, mem_simplePaths_iff hfirst (h.node_key hfirst)]
    exact ⟨rfl, rfl, by decide, by decide⟩
  obtain ⟨p, hp, heq⟩ := List.mem_map.mp hpath
  have hlen := (hwell.paths p hp).length_edges
  rw [heq] at hlen
  exact ⟨report, hreport, hwell, p, hp, heq, Nat.succ.inj hlen⟩

end Graph
end SymbolAtlas
