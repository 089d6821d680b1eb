/-
The forward and the backward search agree.

The forward search takes a node off its visited ones when it goes back, and the
backward search gives each chain a growing copy of them.  Both list simple chains
of calls, so they can differ only in where a chain begins and ends.
`callerChains_perm` says that the chains of callers of a node are its simple paths
from the roots.  `exists_root_above` finds a root above a node that no cycle leads
to, by growing a chain upwards until nothing calls its head.
-/
import SymbolAtlas.Proofs.Graph.Callers

namespace SymbolAtlas
namespace Graph

variable {g : Graph} {source target : String}

/-! ## Chains from the roots -/

theorem mem_roots_iff (h : g.InStep) {n : Node} :
    n ∈ g.roots ↔ g.node? n.key = some n ∧ g.isRootKey n.key = true := by
  rw [roots, List.mem_filter]
  constructor
  · intro hn
    have hnode := h.node?_of_mem hn.1
    exact ⟨hnode, by rw [isRootKey_of_node? hnode, hn.2]⟩
  · intro hn
    obtain ⟨hnode, hroot⟩ := hn
    rw [isRootKey_of_node? hnode] at hroot
    exact ⟨Table.mem_values_of_get? hnode, hroot⟩

theorem IsCallerChain.head_ne {p : List String} (hp : g.IsCallerChain target p) :
    p.head? ≠ some target := by
  match p, hp with
  | [], hp => exact absurd hp.two_le (by simp)
  | [a], hp => exact absurd hp.two_le (by simp)
  | a :: b :: t, hp =>
    intro ha
    have hmem : a ∈ (a :: b :: t).dropLast := by simp
    exact ne_last_of_mem_dropLast hp.nodup hp.last hmem (Option.some.inj ha)

theorem IsSimplePath.two_le {p : List String} (hp : g.IsSimplePath source target p)
    (hne : source ≠ target) : 2 ≤ p.length := by
  match p, hp with
  | [], hp => exact absurd hp.head (by simp)
  | [a], hp => exact absurd ((Option.some.inj hp.head).symm.trans (Option.some.inj hp.last)) hne
  | _ :: _ :: _, _ => simp

/-- A chain of callers is a simple path from a root other than its end. -/
theorem isCallerChain_iff (h : g.InStep) {p : List String} :
    g.IsCallerChain target p ↔
      ∃ r ∈ g.roots, r.key ≠ target ∧ g.IsSimplePath r.key target p := by
  constructor
  · intro hp
    obtain ⟨key, hhead, hroot⟩ := hp.root
    obtain ⟨r, hr, -⟩ := (Option.any_eq_true _ _).mp hroot
    obtain rfl : r.key = key := h.node_key hr
    refine ⟨r, (mem_roots_iff h).mpr ⟨hr, hroot⟩, ?_, hhead, hp.last, hp.nodup, hp.calls⟩
    intro hkey
    exact hp.head_ne (hkey ▸ hhead)
  · intro hp
    obtain ⟨r, hr, hne, hpath⟩ := hp
    exact ⟨hpath.two_le hne, ⟨r.key, hpath.head, ((mem_roots_iff h).mp hr).2⟩, hpath.last,
      hpath.nodup, hpath.calls⟩

theorem nodup_flatMap_simplePaths (h : g.InStep) {rs : List Node} (hrs : rs.Sublist g.nodeList)
    (target : String) : (rs.flatMap fun r => g.simplePaths r target).Nodup := by
  have hnode : ∀ r ∈ rs, g.node? r.key = some r := fun r hr => h.node?_of_mem (hrs.subset hr)
  have hkeys : rs.Pairwise fun r s => r.key ≠ s.key := by
    have hall : g.nodeList.Pairwise fun r s => r.key ≠ s.key :=
      List.pairwise_map.mp (h.nodeKeys_eq ▸ h.nodes_nodup)
    exact hall.sublist hrs
  refine List.nodup_flatMap.mpr ⟨?_, hkeys.imp_of_mem ?_⟩
  · intro r hr
    exact nodup_of_pairwise_lt (pairwise_simplePaths target h (hnode r hr))
  · -- Paths from different nodes differ in their first node.
    intro r s hr hs hne p hp hq
    have hr' := ((mem_simplePaths_iff (hnode r hr) rfl).mp hp).head
    have hs' := ((mem_simplePaths_iff (hnode s hs) rfl).mp hq).head
    exact hne (Option.some.inj (hr'.symm.trans hs'))

theorem callerChains_perm (h : g.InStep) {n : Node} (hn : g.node? target = some n) :
    (g.callerChains n).Perm
      ((g.roots.filter fun r => r.key ≠ target).flatMap fun r => g.simplePaths r target) := by
  have hsub : (g.roots.filter fun r => r.key ≠ target).Sublist g.nodeList :=
    List.filter_sublist.trans List.filter_sublist
  have hleft := nodup_of_pairwise_lt (pairwise_callerChains h hn)
  refine (List.perm_ext_iff_of_nodup hleft (nodup_flatMap_simplePaths h hsub target)).mpr ?_
  intro p
  rw [mem_callerChains_iff h hn, isCallerChain_iff h, List.mem_flatMap]
  constructor
  · intro hp
    obtain ⟨r, hr, hne, hpath⟩ := hp
    have hnode := ((mem_roots_iff h).mp hr).1
    exact ⟨r, List.mem_filter.mpr ⟨hr, decide_eq_true hne⟩,
      (mem_simplePaths_iff hnode rfl).mpr hpath⟩
  · intro hp
    obtain ⟨r, hr, hpath⟩ := hp
    obtain ⟨hroot, hne⟩ := List.mem_filter.mp hr
    have hnode := ((mem_roots_iff h).mp hroot).1
    exact ⟨r, hroot, of_decide_eq_true hne, (mem_simplePaths_iff hnode rfl).mp hpath⟩

/-- The backward search from a node finds what the forward searches from all other
roots to it find, each path as often. -/
theorem findCallers_perm_findPaths_from_roots (changes : List Change) (dir target : String)
    (ht : (replay changes).contains target = true) :
    ∃ (up : SearchReport) (down : Node → SearchReport),
      (replay changes).findCallers dir target = .ok up ∧
      (∀ r ∈ (replay changes).roots,
        (replay changes).findPaths dir r.key target = .ok (down r)) ∧
      (up.paths.map CallPath.nodes).Perm
        (((replay changes).roots.filter fun r => r.key ≠ target).flatMap fun r =>
          (down r).paths.map CallPath.nodes) := by
  have h := inStep_replay changes
  obtain ⟨last, hlast⟩ := Option.isSome_iff_exists.mp ht
  obtain ⟨up, hup, hchains⟩ := nodes_findCallers dir hlast
  have hdown : ∀ r : Node, ∃ report, r ∈ (replay changes).roots →
      (replay changes).findPaths dir r.key target = .ok report ∧
        report.paths.map CallPath.nodes = (replay changes).simplePaths r target := by
    intro r
    by_cases hr : r ∈ (replay changes).roots
    · obtain ⟨report, hreport⟩ :=
        nodes_findPaths dir ((mem_roots_iff h).mp hr).1 hlast (h.node_key hlast)
      exact ⟨report, fun _ => hreport⟩
    · exact ⟨up, fun hmem => absurd hmem hr⟩
  choose down hdown using hdown
  refine ⟨up, down, hup, fun r hr => (hdown r hr).1, ?_⟩
  have hpaths : ((replay changes).roots.filter fun r => r.key ≠ target).flatMap
        (fun r => (down r).paths.map CallPath.nodes) =
      ((replay changes).roots.filter fun r => r.key ≠ target).flatMap fun r =>
        (replay changes).simplePaths r target :=
    List.flatMap_congr fun r hr => (hdown r (List.mem_filter.mp hr).1).2
  rw [hchains, hpaths]
  exact callerChains_perm h hlast

theorem findCallers_perm_looped :
    (replay loopedChanges).contains "c" = true ∧
      ∃ (up : SearchReport) (down : Node → SearchReport),
        (replay loopedChanges).findCallers "out" "c" = .ok up ∧
        (∀ r ∈ (replay loopedChanges).roots,
          (replay loopedChanges).findPaths "out" r.key "c" = .ok (down r)) ∧
        (up.paths.map CallPath.nodes).Perm
          (((replay loopedChanges).roots.filter fun r => r.key ≠ "c").flatMap fun r =>
            (down r).paths.map CallPath.nodes) := by
  have hc : (replay loopedChanges).contains "c" = true := by decide
  exact ⟨hc, findCallers_perm_findPaths_from_roots loopedChanges "out" "c" hc⟩

/-! ## Reachability -/

/-- Whether a node calls itself, at once or through others. -/
def OnCycle (g : Graph) (key : String) : Prop := Relation.TransGen g.Calls key key

theorem IsCallerChain.exists_path_from {p : List String} (hp : g.IsCallerChain target p)
    (hmem : source ∈ p) : ∃ q, g.IsSimplePath source target q := by
  obtain ⟨before, after, rfl⟩ := List.append_of_mem hmem
  refine ⟨source :: after, rfl, ?_, (List.nodup_append.mp hp.nodup).2.1,
    hp.calls.right_of_append⟩
  rw [← hp.last, List.getLast?_append_cons]

theorem reaches_of_isChain {t : List String} {x y : String} (h : (x :: t).IsChain g.Calls)
    (hy : y ∈ x :: t) : Relation.ReflTransGen g.Calls x y := by
  refine List.IsChain.induction _ _ h ?_ ?_ y hy
  · intro a b hab hxa
    exact hxa.tail hab
  · intro _
    exact Relation.ReflTransGen.refl

theorem exists_caller_of_not_root (h : g.InStep) {key : String} (hkey : g.contains key = true)
    (hroot : g.isRootKey key = false) :
    ∃ caller, g.contains caller = true ∧ g.Calls caller key := by
  obtain ⟨n, hn⟩ := Option.isSome_iff_exists.mp hkey
  rw [isRootKey_of_node? hn, Node.isRoot, List.isEmpty_eq_false_iff] at hroot
  obtain ⟨caller, hcaller⟩ := List.exists_mem_of_ne_nil _ hroot
  have hmem : caller ∈ g.callersOf key := by
    rw [callersOf, listOf_of_node? Node.callers hn]
    exact hcaller
  have hedge := (h.mem_callersOf_iff caller key).mp hmem
  exact ⟨caller, (h.endpoints _ hedge).1, h.mem_callersOf_iff_calls.mp hmem⟩

/-- A simple chain grows upwards to a root if no node from which its head can be
reached is on a cycle. -/
theorem exists_root_above (h : g.InStep) {x : String} {t : List String}
    (hx : g.contains x = true)
    (hfree : ∀ k, Relation.ReflTransGen g.Calls k x → ¬ g.OnCycle k)
    (hnodup : (x :: t).Nodup) (hcalls : (x :: t).IsChain g.Calls) :
    ∃ r u, g.isRootKey r = true ∧ x :: t <:+ r :: u ∧ (r :: u).Nodup ∧
      (r :: u).IsChain g.Calls := by
  -- Each caller that is put in front leaves fewer nodes that are not on the chain.
  induction hsize : g.fresh (x :: t) using Nat.strongRecOn generalizing x t with
  | ind size ih =>
    cases hroot : g.isRootKey x with
    | true => exact ⟨x, t, hroot, List.suffix_refl _, hnodup, hcalls⟩
    | false =>
      obtain ⟨y, hy, hcall⟩ := exists_caller_of_not_root h hx hroot
      -- A caller that is on the chain already is reached from the head that it calls.
      have hnew : y ∉ x :: t := by
        intro hmem
        have hcycle : g.OnCycle x :=
          Relation.TransGen.tail' (reaches_of_isChain hcalls hmem) hcall
        exact hfree x Relation.ReflTransGen.refl hcycle
      have hless : g.fresh (y :: x :: t) < size := hsize ▸ fresh_cons_lt hy hnew
      obtain ⟨r, u, hr, hsuffix, hsimple, hchain⟩ :=
        ih _ hless hy (fun k hk => hfree k (hk.tail hcall)) (List.nodup_cons.mpr ⟨hnew, hnodup⟩)
          (List.isChain_cons_cons.mpr ⟨hcall, hcalls⟩) rfl
      exact ⟨r, u, hr, (List.suffix_cons y _).trans hsuffix, hsimple, hchain⟩

theorem IsSimplePath.exists_callerChain (h : g.InStep) {p : List String}
    (hp : g.IsSimplePath source target p) (hne : source ≠ target)
    (hs : g.contains source = true)
    (hfree : ∀ k, Relation.ReflTransGen g.Calls k source → ¬ g.OnCycle k) :
    ∃ q, g.IsCallerChain target q ∧ source ∈ q := by
  have hlength := hp.two_le hne
  obtain ⟨t, rfl⟩ := List.head?_eq_some_iff.mp hp.head
  obtain ⟨r, u, hroot, hsuffix, hnodup, hcalls⟩ := exists_root_above h hs hfree hp.nodup hp.calls
  refine ⟨r :: u, ⟨?_, ⟨r, rfl, hroot⟩, ?_, hnodup, hcalls⟩, hsuffix.subset List.mem_cons_self⟩
  · exact Nat.le_trans hlength hsuffix.length_le
  · obtain ⟨before, heq⟩ := hsuffix
    rw [← heq, List.getLast?_append_cons, hp.last]

/-- What a chain of callers passes through has a path to its end; and a node that no
cycle leads to is on a chain of callers of whatever it has a path to. -/
theorem findPaths_and_findCallers_agree_on_reachability (changes : List Change)
    (dir source target : String) (hs : (replay changes).contains source = true)
    (ht : (replay changes).contains target = true) (hne : source ≠ target) :
    ∃ down up : SearchReport,
      (replay changes).findPaths dir source target = .ok down ∧
      (replay changes).findCallers dir target = .ok up ∧
      ((∃ p ∈ up.paths, p.contains source = true) → down.paths ≠ []) ∧
      ((∀ k, Relation.ReflTransGen (replay changes).Calls k source →
          ¬ (replay changes).OnCycle k) →
        down.paths ≠ [] → ∃ p ∈ up.paths, p.contains source = true) := by
  have h := inStep_replay changes
  obtain ⟨first, hfirst⟩ := Option.isSome_iff_exists.mp hs
  obtain ⟨last, hlast⟩ := Option.isSome_iff_exists.mp ht
  obtain ⟨down, hdown, hpaths⟩ := nodes_findPaths dir hfirst hlast (h.node_key hlast)
  obtain ⟨up, hup, hchains⟩ := nodes_findCallers dir hlast
  have hpath (p : List String) :
      p ∈ down.paths.map CallPath.nodes ↔ (replay changes).IsSimplePath source target p := by
    rw [hpaths]
    exact mem_simplePaths_iff hfirst (h.node_key hfirst)
  have hchain (p : List String) :
      p ∈ up.paths.map CallPath.nodes ↔ (replay changes).IsCallerChain target p := by
    rw [hchains]
    exact mem_callerChains_iff h hlast
  refine ⟨down, up, hdown, hup, ?_, ?_⟩
  · intro hthrough
    obtain ⟨p, hp, hmem⟩ := hthrough
    have hp' := (hchain p.nodes).mp (List.mem_map_of_mem hp)
    obtain ⟨q, hq⟩ := hp'.exists_path_from (of_decide_eq_true hmem)
    obtain ⟨r, hr, -⟩ := List.mem_map.mp ((hpath q).mpr hq)
    exact List.ne_nil_of_mem hr
  · intro hfree hfound
    obtain ⟨p, hp⟩ := List.exists_mem_of_ne_nil _ hfound
    have hp' := (hpath p.nodes).mp (List.mem_map_of_mem hp)
    obtain ⟨q, hq, hmem⟩ := hp'.exists_callerChain h hne hs hfree
    obtain ⟨r, hr, rfl⟩ := List.mem_map.mp ((hchain q).mpr hq)
    exact ⟨r, hr, decide_eq_true hmem⟩

/-- A set of keys that holds the callers of its members holds all that reach them. -/
theorem mem_of_reaches (h : g.InStep) {ks : List String}
    (hclosed : ∀ k ∈ ks, ∀ c ∈ g.callersOf k, c ∈ ks) {k x : String} (hx : x ∈ ks)
    (hk : Relation.ReflTransGen g.Calls k x) : k ∈ ks := by
  induction hk using Relation.ReflTransGen.head_induction_on with
  | refl => exact hx
  | head hcall _ ih => exact hclosed _ ih _ (h.mem_callersOf_iff_calls.mpr hcall)

/-- A chain of calls into a cycle. -/
def cycleBelowChanges : List Change :=
  let call (caller callee : String) (line : Nat) : Change :=
    .addEdge caller callee { file := "app.ts", line := line, column := 1 } .call
  [call "main" "a" 1, call "a" "b" 2, call "b" "c" 3, call "c" "b" 4]

theorem searches_agree_above_cycle :
    (replay cycleBelowChanges).contains "a" = true ∧
      (replay cycleBelowChanges).contains "b" = true ∧
      (∀ k, Relation.ReflTransGen (replay cycleBelowChanges).Calls k "a" →
        ¬ (replay cycleBelowChanges).OnCycle k) ∧
      ∃ down up : SearchReport,
        (replay cycleBelowChanges).findPaths "out" "a" "b" = .ok down ∧
        (replay cycleBelowChanges).findCallers "out" "b" = .ok up ∧
        ((∃ p ∈ up.paths, p.contains "a" = true) ↔ down.paths ≠ []) := by
  have h := inStep_replay cycleBelowChanges
  have ha : (replay cycleBelowChanges).contains "a" = true := by decide
  have hb : (replay cycleBelowChanges).contains "b" = true := by decide
  have hfree : ∀ k, Relation.ReflTransGen (replay cycleBelowChanges).Calls k "a" →
      ¬ (replay cycleBelowChanges).OnCycle k := by
    intro k hk hcycle
    have habove : k ∈ ["a", "main"] := mem_of_reaches h (by decide) List.mem_cons_self hk
    obtain ⟨x, hkx, hcall⟩ := Relation.TransGen.tail'_iff.mp hcycle
    have hx := h.mem_callersOf_iff_calls.mpr hcall
    rcases List.mem_cons.mp habove with rfl | hmain
    · -- Only `main` calls `a`, and nothing but `main` reaches `main`.
      have hcallers : (replay cycleBelowChanges).callersOf "a" = ["main"] := by decide
      have hmem : "a" ∈ ["main"] := mem_of_reaches h (by decide) (hcallers ▸ hx) hkx
      exact absurd hmem (by decide)
    · have hcallers : (replay cycleBelowChanges).callersOf "main" = [] := by decide
      rw [List.mem_singleton.mp hmain, hcallers] at hx
      cases hx
  obtain ⟨down, up, hdown, hup, hthrough, hback⟩ :=
    findPaths_and_findCallers_agree_on_reachability cycleBelowChanges "out" "a" "b" ha hb
      (by decide)
  exact ⟨ha, hb, hfree, down, up, hdown, hup, hthrough, hback hfree⟩

end Graph
end SymbolAtlas
