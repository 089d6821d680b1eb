/-
The forward search lists the simple paths.

A walk carries its branch, the callees still to try and the nodes not to be met
again, and takes one node off all three when it goes back.  `Walk.outcome` is
what the walk has found together with the trails that its stops still lead to.
No step changes it, so the search ends with the outcome it began with.
-/
import SymbolAtlas.Graph.Search
import SymbolAtlas.Proofs.Graph.Trail

namespace SymbolAtlas
namespace Walk

variable (g : Graph) (target : String)

/-- The trails from the callees in `pending` to the target. -/
def onward (branch pending : List String) : List (List String) :=
  g.trails Node.callees (fun k => decide (k = target)) branch pending

/-- The paths that the stops still lead to, those of the innermost one first. -/
def remaining : List Stop → List (List String)
  | [] => []
  | s :: outer =>
    (onward g target (s.key :: outer.map Stop.key) s.pending).map
        ((s.key :: outer.map Stop.key).reverse ++ ·)
      ++ remaining outer

def outcome (w : Walk) : List (List String) := w.found.reverse ++ remaining g target w.stops

variable {g target}

theorem outcome_back {w : Walk} {key : String} {outer : List Stop}
    (hs : w.stops = { key := key, pending := [] } :: outer) :
    outcome g target (w.back outer) = outcome g target w := by
  have hfound : (w.back outer).found = w.found := by
    unfold back
    split <;> rfl
  have hstops : (w.back outer).stops = outer := by
    unfold back
    split <;> rfl
  rw [outcome, outcome, hfound, hstops, hs, remaining, onward, Graph.trails_nil]
  rfl

/-- What one step does to the outcome: nothing.  The three cases in which a callee
is tried are the three cases of `trails`. -/
theorem outcome_step {w w' : Walk} (h : w.Aligned) (e : w.step? g target = some w') :
    outcome g target w' = outcome g target w := by
  unfold step? at e
  split at e
  · cases e
  · next hs => cases e; exact outcome_back hs
  · next key callee rest outer hs =>
    have hvis : w.visited = key :: outer.map Stop.key := by
      rw [h.visited_eq, h.branch_eq, hs]; rfl
    have hbranch : w.branch = key :: outer.map Stop.key := by rw [h.branch_eq, hs]; rfl
    have hbefore : outcome g target w = w.found.reverse ++
        ((onward g target (key :: outer.map Stop.key) (callee :: rest)).map
          ((key :: outer.map Stop.key).reverse ++ ·) ++ remaining g target outer) := by
      rw [outcome, hs, remaining]
    rw [hbefore]
    rw [hvis] at e
    split at e
    · next hseen =>
      cases e
      rw [onward, Graph.trails_of_mem rest hseen]
      rfl
    · next hunseen =>
      split at e
      · next htarget =>
        cases e
        rw [onward, Graph.trails_of_stop rest hunseen (decide_eq_true htarget)]
        simp [outcome, report, remaining, onward, hbranch, htarget]
      · next hother =>
        rw [onward, Graph.trails_of_go_on rest hunseen (decide_eq_false hother)]
        split at e
        · next hmissing =>
          cases e
          have hnone : g.listOf Node.callees callee = [] := by
            rw [Graph.listOf, hmissing]; rfl
          rw [hnone, Graph.trails_nil]
          rfl
        · next child hchild =>
          cases e
          rw [Graph.listOf_of_node? Node.callees hchild]
          simp [outcome, enter, remaining, onward]

theorem run_eq_outcome (w : Walk) (h : w.Aligned) : run g target w h = outcome g target w := by
  fun_induction run g target w h with
  | case1 w h e =>
    have hstops : w.stops = [] := by
      unfold step? at e
      split at e
      · assumption
      · cases e
      · split at e <;> try cases e
        split at e <;> try cases e
        split at e <;> cases e
    rw [outcome, hstops, remaining, List.append_nil]
  | case2 w h w' e ih => rw [ih, outcome_step h e]

theorem outcome_start (key : String) (callees : List String) :
    outcome g target (start key callees) = (onward g target [key] callees).map (key :: ·) := by
  simp [outcome, start, remaining]

end Walk

namespace Graph

/-! ## Simple paths -/

/-- A path that follows the callee lists from `source` to `target` and meets no
node twice. -/
structure IsSimplePath (g : Graph) (source target : String) (p : List String) : Prop where
  head : p.head? = some source
  last : p.getLast? = some target
  nodup : p.Nodup
  calls : p.IsChain g.Calls

theorem ne_last_of_mem_dropLast {p : List String} {x z : String} (hnodup : p.Nodup)
    (hz : p.getLast? = some z) (hx : x ∈ p.dropLast) : x ≠ z := by
  obtain ⟨q, rfl⟩ := List.getLast?_eq_some_iff.mp hz
  rw [List.dropLast_concat] at hx
  intro hxz
  exact (List.nodup_append.mp hnodup).2.2 x hx z List.mem_cons_self hxz

section

variable {g : Graph} {source target : String}

/-- A node has one simple path to itself, whether or not it calls itself. -/
theorem isSimplePath_self_iff {p : List String} :
    g.IsSimplePath source source p ↔ p = [source] := by
  constructor
  · intro h
    match p, h with
    | [a], h =>
      have ha : a = source := by simpa using h.head
      rw [ha]
    | a :: b :: t, h =>
      have ha : a = source := by simpa using h.head
      have hmem : a ∈ (a :: b :: t).dropLast := by simp
      exact absurd ha (ne_last_of_mem_dropLast h.nodup h.last hmem)
  · intro hp
    subst hp
    exact ⟨rfl, rfl, List.nodup_singleton source, List.isChain_singleton source⟩

theorem isSimplePath_cons_iff {t : List String} (hne : source ≠ target) :
    g.IsSimplePath source target (source :: t) ↔
      t ∈ Walk.onward g target [source] (g.calleesOf source) := by
  rw [Walk.onward, mem_trails_iff]
  constructor
  · intro h
    match t, h with
    | [], h => exact absurd (Option.some.inj h.last) hne
    | c :: u, h =>
      have hlast : (c :: u).getLast? = some target := by
        rw [← h.last, List.getLast?_cons_cons]
      obtain ⟨hcall, hchain⟩ := List.isChain_cons_cons.mp h.calls
      obtain ⟨hsource, hnodup⟩ := List.nodup_cons.mp h.nodup
      refine ⟨c, u, rfl, hcall, isTrail_iff.mpr ⟨hchain, hnodup, ?_, ?_, ?_⟩⟩
      · intro x hx hm
        exact hsource (List.mem_singleton.mp hm ▸ hx)
      · rw [List.getLast?_eq_some_getLast (List.cons_ne_nil c u), Option.some.injEq] at hlast
        rw [hlast, decide_eq_true rfl]
      · intro x hx
        exact decide_eq_false (ne_last_of_mem_dropLast hnodup hlast hx)
  · intro hp
    obtain ⟨c, u, rfl, hcall, ht⟩ := hp
    obtain ⟨hchain, hnodup, hunseen, hlast, -⟩ := isTrail_iff.mp ht
    refine ⟨rfl, ?_, List.nodup_cons.mpr ⟨?_, hnodup⟩, List.isChain_cons_cons.mpr ⟨hcall, hchain⟩⟩
    · rw [List.getLast?_cons_cons, List.getLast?_eq_some_getLast (List.cons_ne_nil c u),
        of_decide_eq_true hlast]
    · intro hm
      exact hunseen source hm List.mem_cons_self

/-! ## The search -/

theorem simplePaths_of_ne {n : Node} (hn : g.node? source = some n) (hkey : n.key = source)
    (hne : source ≠ target) :
    g.simplePaths n target =
      (Walk.onward g target [source] (g.calleesOf source)).map (source :: ·) := by
  have hcallees : n.callees = g.calleesOf source := (listOf_of_node? Node.callees hn).symm
  subst hkey
  rw [simplePaths, if_neg hne, Walk.run_eq_outcome, Walk.outcome_start, hcallees]

theorem mem_simplePaths_iff {n : Node} (hn : g.node? source = some n) (hkey : n.key = source)
    {p : List String} : p ∈ g.simplePaths n target ↔ g.IsSimplePath source target p := by
  by_cases hne : source = target
  · subst hne
    rw [simplePaths, if_pos hkey, List.mem_singleton, isSimplePath_self_iff]
  · rw [simplePaths_of_ne hn hkey hne, List.mem_map]
    constructor
    · intro hp
      obtain ⟨t, ht, rfl⟩ := hp
      exact (isSimplePath_cons_iff hne).mpr ht
    · intro h
      obtain ⟨t, rfl⟩ := List.head?_eq_some_iff.mp h.head
      exact ⟨t, (isSimplePath_cons_iff hne).mp h, rfl⟩

theorem pairwise_simplePaths (target : String) (h : g.InStep) {n : Node}
    (hn : g.node? source = some n) :
    (g.simplePaths n target).Pairwise fun p q =>
      g.ranks Node.callees p < g.ranks Node.callees q := by
  by_cases hne : source = target
  · rw [simplePaths, if_pos ((h.node_key hn).trans hne)]
    exact List.pairwise_singleton _ _
  · rw [simplePaths_of_ne hn (h.node_key hn) hne]
    exact List.pairwise_map.mpr (pairwise_trails h.nodup_calleesOf (List.nil_append _))

theorem nodup_of_pairwise_lt {ps : List (List String)} {rank : List String → List Nat}
    (h : ps.Pairwise fun p q => rank p < rank q) : ps.Nodup := by
  refine h.imp ?_
  intro p q hlt heq
  rw [heq] at hlt
  exact List.lt_irrefl _ hlt

theorem nodes_findPaths (dir : String) {first last : Node} (hs : g.node? source = some first)
    (ht : g.node? target = some last) (hkey : last.key = target) :
    ∃ report, g.findPaths dir source target = .ok report ∧
      report.paths.map CallPath.nodes = g.simplePaths first target := by
  rw [findPaths, require, require, hs, ht]
  refine ⟨_, rfl, ?_⟩
  rw [reportOf, List.map_map, hkey]
  exact List.map_id _

end

/-- The forward search between two nodes returns the simple paths between them,
each of them once, in depth-first order: by the place of each step among the
callees of the node it leaves. -/
theorem findPaths_enumerates_simple_paths (changes : List Change) (dir source target : String)
    (hs : (replay changes).contains source = true)
    (ht : (replay changes).contains target = true) :
    ∃ report found, (replay changes).findPaths dir source target = .ok report ∧
      report.paths.map CallPath.nodes = found ∧
      (∀ p, p ∈ found ↔ (replay changes).IsSimplePath source target p) ∧
      found.Nodup ∧
      (found.Pairwise fun p q =>
        (replay changes).ranks Node.callees p < (replay changes).ranks Node.callees q) ∧
      (source = target → found = [[source]]) := by
  have h := inStep_replay changes
  obtain ⟨first, hfirst⟩ := Option.isSome_iff_exists.mp hs
  obtain ⟨last, hlast⟩ := Option.isSome_iff_exists.mp ht
  obtain ⟨report, hreport, hnodes⟩ :=
    nodes_findPaths dir hfirst hlast (h.node_key hlast)
  have horder := pairwise_simplePaths target h hfirst
  refine ⟨report, _, hreport, hnodes, ?_, nodup_of_pairwise_lt horder, horder, ?_⟩
  · intro p
    exact mem_simplePaths_iff hfirst (h.node_key hfirst)
  · intro heq
    rw [simplePaths, if_pos ((h.node_key hfirst).trans heq), heq]

/-- A chain of calls with a cycle and a self-call beside it. -/
def loopedChanges : List Change :=
  let call (caller callee : String) (line : Nat) : Change :=
    .addEdge caller callee { file := "app.ts", line := line, column := 1 } .call
  [call "old" "old" 1, .clear, call "main" "a" 1, call "a" "b" 2, call "b" "c" 3,
   call "b" "d" 4, call "d" "a" 5, call "b" "b" 6, call "a" "c" 7]

theorem findPaths_enumerates_looped :
    (replay loopedChanges).contains "main" = true ∧ (replay loopedChanges).contains "c" = true ∧
      ∃ report, (replay loopedChanges).findPaths "out" "main" "c" = .ok report ∧
        ["main", "a", "b", "c"] ∈ report.paths.map CallPath.nodes ∧
        ["main", "a", "b", "d", "a", "c"] ∉ report.paths.map CallPath.nodes := by
  have hmain : (replay loopedChanges).contains "main" = true := by decide
  have hc : (replay loopedChanges).contains "c" = true := by decide
  obtain ⟨report, found, hreport, rfl, hmem, -⟩ :=
    findPaths_enumerates_simple_paths loopedChanges "out" "main" "c" hmain hc
  refine ⟨hmain, hc, report, hreport, (hmem _).mpr ?_, ?_⟩
  · exact ⟨rfl, rfl, by decide, by decide⟩
  · intro h
    exact absurd ((hmem _).mp h).nodup (by decide)

end Graph
end SymbolAtlas
