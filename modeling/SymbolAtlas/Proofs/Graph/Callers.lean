/-
The backward search lists the chains of callers.

A climb keeps a list of open chains and takes the first of them, so its order is
not visible in one step.  `Climb.chainsOf` says what a single open chain will give,
by `trails` over the caller lists; `run_eq_flatMap` says that the search gives
just that, one open chain after the other.
-/
import SymbolAtlas.Proofs.Graph.Paths
import Mathlib.Logic.Relation

namespace SymbolAtlas

namespace Graph

/-- Whether a key is a node that nothing calls. -/
def isRootKey (g : Graph) (key : String) : Bool := (g.node? key).any Node.isRoot

theorem isRootKey_of_node? {g : Graph} {key : String} {n : Node} (h : g.node? key = some n) :
    g.isRootKey key = n.isRoot := by
  rw [isRootKey, h, Option.any_some]

theorem isRootKey_of_mem_callersOf {g : Graph} {key caller : String}
    (h : caller ∈ g.callersOf key) : g.isRootKey key = false := by
  obtain ⟨n, hn, hmem⟩ := exists_node_of_mem_listOf h
  rw [isRootKey_of_node? hn, Node.isRoot, List.isEmpty_eq_false_iff]
  exact List.ne_nil_of_mem hmem

end Graph

namespace Climb

variable {g : Graph}

/-- The trails from the callers in `pending` up to a root. -/
def upward (g : Graph) (visited pending : List String) : List (List String) :=
  g.trails Node.callers g.isRootKey visited pending

/-- The finished chains that an open chain leads to. -/
def chainsOf (g : Graph) (c : Climb) : List (List String) :=
  match c.top? g with
  | none => []
  | some node =>
    if node.isRoot then [c.chain]
    else (upward g c.visited node.callers).map fun t => t.reverse ++ c.chain

/-- The extensions of a chain lead to the trails through the callers that it has
not met. -/
theorem flatMap_chainsOf_extensions (c : Climb) (callers : List String) :
    (c.extensions callers).flatMap (chainsOf g) =
      (upward g c.visited callers).map fun t => t.reverse ++ c.chain := by
  induction callers with
  | nil => rw [upward, Graph.trails_nil]; rfl
  | cons k ks ih =>
    unfold extensions at ih ⊢
    by_cases hk : k ∈ c.visited
    · rw [List.filter_cons_of_neg (by simpa using hk), ih, upward, upward,
        Graph.trails_of_mem ks hk]
    · rw [List.filter_cons_of_pos (by simpa using hk), List.map_cons, List.flatMap_cons, ih]
      cases hn : g.node? k with
      | none =>
        have htop : (c.extend k).top? g = none := hn
        have hroot : g.isRootKey k = false := by rw [Graph.isRootKey, hn]; rfl
        have hlist : g.listOf Node.callers k = [] := by rw [Graph.listOf, hn]; rfl
        rw [upward, upward, Graph.trails_of_go_on ks hk hroot, hlist, Graph.trails_nil,
          chainsOf, htop]
        rfl
      | some node =>
        have htop : (c.extend k).top? g = some node := hn
        cases hroot : node.isRoot with
        | true =>
          have hstop : g.isRootKey k = true := by rw [Graph.isRootKey_of_node? hn, hroot]
          rw [upward, upward, Graph.trails_of_stop ks hk hstop, chainsOf, htop]
          simp [hroot, extend]
        | false =>
          have hstop : g.isRootKey k = false := by rw [Graph.isRootKey_of_node? hn, hroot]
          rw [upward, upward, Graph.trails_of_go_on ks hk hstop,
            Graph.listOf_of_node? Node.callers hn, chainsOf, htop]
          simp [hroot, extend, upward, Function.comp_def]

/-- What a step finds and what the chains open after it lead to is what the chains
open before it lead to. -/
theorem flatMap_chainsOf_step (c : Climb) (rest : List Climb) :
    (c.step g rest).1.toList ++ (c.step g rest).2.flatMap (chainsOf g) =
      (c :: rest).flatMap (chainsOf g) := by
  rw [List.flatMap_cons, step, chainsOf]
  cases c.top? g with
  | none => rfl
  | some node =>
    by_cases hroot : node.isRoot = true
    · simp [hroot]
    · simp [hroot, List.flatMap_append, flatMap_chainsOf_extensions]

theorem run_eq_flatMap (chains : List Climb) : run g chains = chains.flatMap (chainsOf g) := by
  fun_induction run g chains with
  | case1 => rfl
  | case2 c rest hnone ih =>
    rw [ih, ← flatMap_chainsOf_step, hnone]
    rfl
  | case3 c rest chain hsome ih =>
    rw [ih, ← flatMap_chainsOf_step, hsome]
    rfl

end Climb

namespace Graph

variable {g : Graph} {target : String}

/-- The search begins as if it had just met the target. -/
theorem callerChains_eq {n : Node} (hn : g.node? target = some n) (hkey : n.key = target) :
    g.callerChains n =
      (Climb.upward g [target] (g.callersOf target)).map fun t => t.reverse ++ [target] := by
  have hstart : Climb.start n =
      Climb.extensions { chain := [target], visited := [target] } (g.callersOf target) := by
    rw [Climb.start, Climb.extensions, callersOf, listOf_of_node? Node.callers hn, hkey]
    simp only [List.mem_singleton]
    rfl
  rw [callerChains, Climb.run_eq_flatMap, hstart, Climb.flatMap_chainsOf_extensions]

/-! ## Chains of callers -/

/-- A chain of at least two nodes that follows the callee lists from a root to
`target` and meets no node twice. -/
structure IsCallerChain (g : Graph) (target : String) (p : List String) : Prop where
  two_le : 2 ≤ p.length
  root : ∃ r, p.head? = some r ∧ g.isRootKey r = true
  last : p.getLast? = some target
  nodup : p.Nodup
  calls : p.IsChain g.Calls

theorem isCallerChain_reverse_iff (h : g.InStep) {t : List String} :
    g.IsCallerChain target (target :: t).reverse ↔
      t ≠ [] ∧ (∃ r, (target :: t).getLast? = some r ∧ g.isRootKey r = true) ∧
        (target :: t).Nodup ∧ (target :: t).IsChain fun a b => b ∈ g.callersOf a := by
  have hcalls : (target :: t).reverse.IsChain g.Calls ↔
      (target :: t).IsChain fun a b => b ∈ g.callersOf a := by
    rw [List.isChain_reverse]
    exact List.IsChain.iff fun a b => h.mem_callersOf_iff_calls.symm
  have hlength : 2 ≤ (target :: t).reverse.length ↔ t ≠ [] := by
    rw [List.length_reverse, List.length_cons, ← List.length_pos_iff]
    omega
  constructor
  · intro hp
    exact ⟨hlength.mp hp.two_le, List.head?_reverse ▸ hp.root, List.nodup_reverse.mp hp.nodup,
      hcalls.mp hp.calls⟩
  · intro hp
    obtain ⟨hne, hroot, hnodup, hchain⟩ := hp
    exact ⟨hlength.mpr hne, List.head?_reverse ▸ hroot, by rw [List.getLast?_reverse]; rfl,
      List.nodup_reverse.mpr hnodup, hcalls.mpr hchain⟩

theorem exists_caller_of_mem_dropLast {t : List String} {x : String}
    (h : t.IsChain fun a b => b ∈ g.callersOf a) (hx : x ∈ t.dropLast) :
    ∃ y, y ∈ g.callersOf x := by
  induction t with
  | nil => cases hx
  | cons a t ih =>
    cases t with
    | nil => cases hx
    | cons b t =>
      obtain ⟨hb, ht⟩ := List.isChain_cons_cons.mp h
      rw [List.dropLast_cons_cons] at hx
      rcases List.mem_cons.mp hx with rfl | hx
      · exact ⟨b, hb⟩
      · exact ih ht hx

theorem mem_upward_iff (h : g.InStep) {t : List String} :
    t ∈ Climb.upward g [target] (g.callersOf target) ↔
      g.IsCallerChain target (target :: t).reverse := by
  rw [Climb.upward, mem_trails_iff, isCallerChain_reverse_iff h]
  constructor
  · intro hp
    obtain ⟨c, u, rfl, hcall, ht⟩ := hp
    obtain ⟨hchain, hnodup, hunseen, hroot, -⟩ := isTrail_iff.mp ht
    refine ⟨List.cons_ne_nil c u, ⟨_, ?_, hroot⟩, List.nodup_cons.mpr ⟨?_, hnodup⟩,
      List.isChain_cons_cons.mpr ⟨hcall, hchain⟩⟩
    · rw [List.getLast?_cons_cons, List.getLast?_eq_some_getLast (List.cons_ne_nil c u)]
    · exact fun hm => hunseen target hm List.mem_cons_self
  · intro hp
    obtain ⟨hne, ⟨r, hlast, hroot⟩, hnodup, hchain⟩ := hp
    obtain ⟨c, u, rfl⟩ := List.exists_cons_of_ne_nil hne
    obtain ⟨hcall, hup⟩ := List.isChain_cons_cons.mp hchain
    obtain ⟨htarget, hrest⟩ := List.nodup_cons.mp hnodup
    rw [List.getLast?_cons_cons, List.getLast?_eq_some_getLast (List.cons_ne_nil c u),
      Option.some.injEq] at hlast
    refine ⟨c, u, rfl, hcall, isTrail_iff.mpr ⟨hup, hrest, ?_, hlast ▸ hroot, ?_⟩⟩
    · intro x hx hm
      exact htarget (List.mem_singleton.mp hm ▸ hx)
    · -- Before the end of the chain every node has the next one among its callers.
      intro x hx
      obtain ⟨y, hy⟩ := exists_caller_of_mem_dropLast hup hx
      exact isRootKey_of_mem_callersOf hy

theorem mem_callerChains_iff (h : g.InStep) {n : Node} (hn : g.node? target = some n)
    {p : List String} : p ∈ g.callerChains n ↔ g.IsCallerChain target p := by
  rw [callerChains_eq hn (h.node_key hn), List.mem_map]
  constructor
  · intro hp
    obtain ⟨t, ht, rfl⟩ := hp
    rw [← List.reverse_cons]
    exact (mem_upward_iff h).mp ht
  · intro hp
    obtain ⟨q, rfl⟩ := List.getLast?_eq_some_iff.mp hp.last
    refine ⟨q.reverse, (mem_upward_iff h).mpr ?_, by rw [List.reverse_reverse]⟩
    rw [List.reverse_cons, List.reverse_reverse]
    exact hp

theorem pairwise_callerChains (h : g.InStep) {n : Node} (hn : g.node? target = some n) :
    (g.callerChains n).Pairwise fun p q =>
      g.ranks Node.callers p.reverse < g.ranks Node.callers q.reverse := by
  rw [callerChains_eq hn (h.node_key hn)]
  refine List.pairwise_map.mpr ?_
  simp only [List.reverse_append, List.reverse_reverse]
  exact pairwise_trails h.nodup_callersOf (List.nil_append _)

/-- Every node of a chain is reached from the root that the chain begins with. -/
theorem IsCallerChain.reached {p : List String} (hp : g.IsCallerChain target p) {k : String}
    (hk : k ∈ p) : ∃ r, g.isRootKey r = true ∧ Relation.ReflTransGen g.Calls r k := by
  obtain ⟨r, hhead, hroot⟩ := hp.root
  obtain ⟨t, rfl⟩ := List.head?_eq_some_iff.mp hhead
  refine ⟨r, hroot, List.IsChain.induction _ _ hp.calls ?_ ?_ k hk⟩
  · intro a b hab hra
    exact hra.tail hab
  · intro _
    exact Relation.ReflTransGen.refl

theorem nodes_findCallers (dir : String) {last : Node} (ht : g.node? target = some last) :
    ∃ report, g.findCallers dir target = .ok report ∧
      report.paths.map CallPath.nodes = g.callerChains last := by
  rw [findCallers, require, ht]
  refine ⟨_, rfl, ?_⟩
  rw [reportOf, List.map_map]
  exact List.map_id _

/-- The backward search from a node returns the chains of callers that lead to it
from a root, each of them once, by the place of each step among the callers of
the node it reaches.  A node above which there is no root is on none of them. -/
theorem findCallers_enumerates_caller_chains (changes : List Change) (dir target : String)
    (ht : (replay changes).contains target = true) :
    ∃ report found, (replay changes).findCallers dir target = .ok report ∧
      report.paths.map CallPath.nodes = found ∧
      (∀ p, p ∈ found ↔ (replay changes).IsCallerChain target p) ∧
      found.Nodup ∧
      (found.Pairwise fun p q => (replay changes).ranks Node.callers p.reverse <
        (replay changes).ranks Node.callers q.reverse) ∧
      ∀ k, (∀ r, (replay changes).isRootKey r = true →
          ¬ Relation.ReflTransGen (replay changes).Calls r k) →
        ∀ p ∈ found, k ∉ p := by
  have h := inStep_replay changes
  obtain ⟨last, hlast⟩ := Option.isSome_iff_exists.mp ht
  obtain ⟨report, hreport, hnodes⟩ := nodes_findCallers dir hlast
  have horder := pairwise_callerChains h hlast
  refine ⟨report, _, hreport, hnodes, ?_, nodup_of_pairwise_lt horder, horder, ?_⟩
  · intro p
    exact mem_callerChains_iff h hlast
  · intro k hnone p hp hk
    obtain ⟨r, hroot, hreach⟩ := ((mem_callerChains_iff h hlast).mp hp).reached hk
    exact hnone r hroot hreach

theorem findCallers_enumerates_looped :
    (replay loopedChanges).contains "c" = true ∧
      ∃ report, (replay loopedChanges).findCallers "out" "c" = .ok report ∧
        ["main", "a", "b", "c"] ∈ report.paths.map CallPath.nodes ∧
        ["d", "a", "b", "c"] ∉ report.paths.map CallPath.nodes := by
  have hc : (replay loopedChanges).contains "c" = true := by decide
  obtain ⟨report, found, hreport, rfl, hmem, -⟩ :=
    findCallers_enumerates_caller_chains loopedChanges "out" "c" hc
  refine ⟨hc, report, hreport, (hmem _).mpr ?_, ?_⟩
  · exact ⟨by decide, ⟨"main", rfl, by decide⟩, rfl, by decide, by decide⟩
  · intro h
    obtain ⟨r, hhead, hroot⟩ := ((hmem _).mp h).root
    cases hhead
    exact absurd hroot (by decide)

end Graph
end SymbolAtlas
