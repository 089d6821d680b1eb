/-
The rounds of the two searches.

`Walk.run` and `Climb.run` only give what a search has found in the end.  Here the states on the
way are looked at.  `Walk.after` and `Climb.after` are the states after a number of rounds; both
searches stop, and `Walk.work` and `Climb.work` bound the number of rounds.

Going back takes a node off a walk that later rounds may enter again, so the nodes that a walk has
seen say nothing about it.  What every round keeps is a fact about the stops alone, `Walk.Leads`:
they are a simple chain of calls from the source, without the target, and each has callees of its
own node still to try.  A climb keeps `Climb.Leads` for each of its open chains.
-/
import SymbolAtlas.Proofs.Graph.Callers
import Mathlib.Data.List.Infix
import Mathlib.Data.List.Perm.Subperm

namespace SymbolAtlas

/-! ## Walks -/

namespace Walk

section Rounds

variable (g : Graph) (target : String)

/-- The state after `n` rounds, if the search takes as many. -/
def after : (n : Nat) → Walk → Option Walk
  | 0, w => some w
  | n + 1, w => (w.step? g target).bind (after n)

/-- A search stops, and with it stops the growth of what it found. -/
theorem exists_after_run (w : Walk) (h : w.Aligned) :
    ∃ n final, n ≤ work g w.stops ∧ after g target n w = some final ∧
      final.step? g target = none ∧ run g target w h = final.found.reverse := by
  fun_induction run g target w h with
  | case1 w h e => exact ⟨0, w, Nat.zero_le _, rfl, e, rfl⟩
  | case2 w h w' e ih =>
    obtain ⟨n, final, hn, hafter, hstop, hrun⟩ := ih
    have hlt := work_step_lt g target h e
    refine ⟨n + 1, final, by omega, ?_, hstop, hrun⟩
    rw [after, e]
    exact hafter

variable {g target}

/-- What every step keeps holds after every number of rounds. -/
theorem invariant_after {P : Walk → Prop}
    (hstep : ∀ {w w'}, P w → w.step? g target = some w' → P w') {n : Nat} {w w' : Walk} (h : P w)
    (hafter : after g target n w = some w') : P w' := by
  induction n generalizing w with
  | zero =>
    cases hafter
    exact h
  | succ n ih =>
    obtain ⟨next, hnext, hrest⟩ := Option.bind_eq_some_iff.mp hafter
    exact ih (hstep h hnext) hrest

end Rounds

theorem stops_back (w : Walk) (outer : List Stop) : (w.back outer).stops = outer := by
  unfold back
  split
  · rfl
  · rfl

/-- What a step can do to the stops: it takes the innermost one off when that has nothing left to
try, or it tries a callee, which is passed over, reported or entered. -/
theorem stops_of_step {g : Graph} {target : String} {w w' : Walk}
    (e : w.step? g target = some w') :
    (∃ key, w.stops = { key := key, pending := [] } :: w'.stops) ∨
    ∃ key callee rest outer, w.stops = { key := key, pending := callee :: rest } :: outer ∧
      (w'.stops = { key := key, pending := rest } :: outer ∨
        (callee ∉ w.visited ∧ callee ≠ target ∧ ∃ child, g.node? callee = some child ∧
          w'.stops = { key := callee, pending := child.callees } ::
            { key := key, pending := rest } :: outer)) := by
  unfold step? at e
  split at e
  · cases e
  · next key outer hs =>
    cases e
    exact Or.inl ⟨key, by rw [hs, stops_back]⟩
  · next key callee rest outer hs =>
    refine Or.inr ⟨key, callee, rest, outer, hs, ?_⟩
    split at e
    · cases e; exact Or.inl rfl
    · next hunseen =>
      split at e
      · cases e; exact Or.inl rfl
      · next hother =>
        split at e
        · cases e; exact Or.inl rfl
        · next child hchild =>
          cases e
          exact Or.inr ⟨hunseen, hother, child, hchild, rfl⟩

/-- The stops of a walk, innermost first, lead from `source` along calls and have not met the
target. -/
structure Leads (g : Graph) (source target : String) (stops : List Stop) : Prop where
  nodes : ∀ s ∈ stops, ∃ n, g.node? s.key = some n ∧ s.pending <:+ n.callees
  nodup : (stops.map Stop.key).Nodup
  calls : (stops.map Stop.key).IsChain fun a b => g.Calls b a
  avoids : target ∉ stops.map Stop.key
  first : ∀ key ∈ (stops.map Stop.key).getLast?, key = source

namespace Leads

variable {g : Graph} {source target : String} {s : Stop} {outer : List Stop}

theorem start {n : Node} (hn : g.node? source = some n) (hne : source ≠ target) :
    Leads g source target [{ key := source, pending := n.callees }] where
  nodes s hs := by
    rw [List.mem_singleton.mp hs]
    exact ⟨n, hn, List.suffix_rfl⟩
  nodup := List.nodup_singleton source
  calls := List.isChain_singleton source
  avoids h := hne (List.mem_singleton.mp h).symm
  first key h := (Option.some.inj h).symm

theorem back (h : Leads g source target (s :: outer)) : Leads g source target outer where
  nodes t ht := h.nodes t (List.mem_cons_of_mem s ht)
  nodup := (List.nodup_cons.mp h.nodup).2
  calls := h.calls.tail
  avoids ht := h.avoids (List.mem_cons_of_mem s.key ht)
  first key hkey := by
    apply h.first
    rw [List.map_cons, List.getLast?_cons, hkey]
    rfl

/-- A callee that was tried is no longer pending. -/
theorem tried {key callee : String} {rest : List String}
    (h : Leads g source target ({ key := key, pending := callee :: rest } :: outer)) :
    Leads g source target ({ key := key, pending := rest } :: outer) where
  nodes t ht := by
    rcases List.mem_cons.mp ht with rfl | ht
    · obtain ⟨n, hn, hpending⟩ := h.nodes _ List.mem_cons_self
      exact ⟨n, hn, (List.suffix_cons callee rest).trans hpending⟩
    · exact h.nodes t (List.mem_cons_of_mem _ ht)
  nodup := h.nodup
  calls := h.calls
  avoids := h.avoids
  first := h.first

theorem calls_pending (h : Leads g source target (s :: outer)) {callee : String}
    (hcallee : callee ∈ s.pending) : g.Calls s.key callee := by
  obtain ⟨n, hn, hpending⟩ := h.nodes s List.mem_cons_self
  show callee ∈ g.listOf Node.callees s.key
  rw [Graph.listOf_of_node? Node.callees hn]
  exact hpending.subset hcallee

theorem enter (h : Leads g source target (s :: outer)) {callee : String} {child : Node}
    (hcall : g.Calls s.key callee) (hchild : g.node? callee = some child)
    (hunseen : callee ∉ (s :: outer).map Stop.key) (hne : callee ≠ target) :
    Leads g source target ({ key := callee, pending := child.callees } :: s :: outer) where
  nodes t ht := by
    rcases List.mem_cons.mp ht with rfl | ht
    · exact ⟨child, hchild, List.suffix_rfl⟩
    · exact h.nodes t ht
  nodup := List.nodup_cons.mpr ⟨hunseen, h.nodup⟩
  calls := List.isChain_cons_cons.mpr ⟨hcall, h.calls⟩
  avoids ht := by
    rcases List.mem_cons.mp ht with heq | ht
    · exact hne heq.symm
    · exact h.avoids ht
  first key hkey := by
    apply h.first
    rwa [List.map_cons, List.map_cons, List.getLast?_cons_cons] at hkey

/-- One round of a walk whose visited nodes are those of its stops. -/
theorem step {w w' : Walk} (haligned : w.Aligned) (h : Leads g source target w.stops)
    (e : w.step? g target = some w') : Leads g source target w'.stops := by
  have hvisited : w.visited = w.stops.map Stop.key := by
    rw [haligned.visited_eq, haligned.branch_eq]
  rcases stops_of_step e with ⟨key, hs⟩ | ⟨key, callee, rest, outer, hs, htried⟩
  · rw [hs] at h
    exact h.back
  · rw [hs] at h hvisited
    rcases htried with htried | ⟨hunseen, hne, child, hchild, henter⟩
    · rw [htried]
      exact h.tried
    · rw [henter]
      rw [hvisited] at hunseen
      exact h.tried.enter (h.calls_pending List.mem_cons_self) hchild hunseen hne

end Leads

/-- A walk from `source` to `target` with nodes left on its branch, which is listed innermost
first. -/
structure OnTrack (g : Graph) (source target : String) (w : Walk) : Prop where
  length_eq : w.branch.length = w.stops.length
  key_at : ∀ i : Nat, w.branch[i]? = (w.stops[i]?).map Stop.key
  pending : ∀ s ∈ w.stops, ∃ n, g.node? s.key = some n ∧ s.pending <:+ n.callees
  visited_iff : ∀ key, key ∈ w.visited ↔ key ∈ w.branch
  first : w.branch.getLast? = some source
  calls : w.branch.reverse.IsChain g.Calls
  nodup : w.branch.Nodup
  avoids : target ∉ w.branch
  length_le : w.branch.length ≤ g.nodeCount

theorem onTrack_of_leads {g : Graph} {source target : String} {w : Walk} (haligned : w.Aligned)
    (h : Leads g source target w.stops) (hne : w.stops ≠ []) : w.OnTrack g source target := by
  have hbranch : w.branch ≠ [] := by
    rw [haligned.branch_eq]
    exact fun hnil => hne (List.map_eq_nil_iff.mp hnil)
  have hkeys : w.branch ⊆ g.nodes.keys := by
    intro key hkey
    rw [haligned.branch_eq] at hkey
    obtain ⟨s, hs, rfl⟩ := List.mem_map.mp hkey
    obtain ⟨n, hn, -⟩ := h.nodes s hs
    rw [Table.mem_keys_iff]
    exact Option.isSome_of_eq_some hn
  have hnodup : w.branch.Nodup := haligned.branch_eq ▸ h.nodup
  refine ⟨?_, ?_, h.nodes, ?_, ?_, ?_, hnodup, haligned.branch_eq ▸ h.avoids, ?_⟩
  · rw [haligned.branch_eq, List.length_map]
  · intro i
    rw [haligned.branch_eq, List.getElem?_map]
  · intro key
    rw [haligned.visited_eq]
  · have hlast := List.getLast?_eq_some_getLast hbranch
    rw [hlast]
    exact congrArg some (h.first _ (haligned.branch_eq ▸ hlast))
  · rw [List.isChain_reverse, haligned.branch_eq]
    exact h.calls
  · have hle := (List.subperm_of_subset hnodup hkeys).length_le
    rwa [Table.keys, List.length_map] at hle

theorem onTrack_after {g : Graph} {source target : String} {n : Node}
    (hn : g.node? source = some n) (hne : source ≠ target) {k : Nat} {w w' : Walk}
    (hafter : after g target k (start source n.callees) = some w)
    (hnext : w.step? g target = some w') : w.OnTrack g source target := by
  have hinv : w.Aligned ∧ Leads g source target w.stops := by
    refine invariant_after (P := fun w => w.Aligned ∧ Leads g source target w.stops) ?_
      ⟨aligned_start source n.callees, .start hn hne⟩ hafter
    intro w w' hw e
    exact ⟨hw.1.step g target e, hw.2.step hw.1 e⟩
  refine onTrack_of_leads hinv.1 hinv.2 fun hnil => ?_
  rw [step?, hnil] at hnext
  cases hnext

end Walk

/-! ## Climbs -/

namespace Climb

variable {g : Graph} {target : String}

/-- What is found in `n` rounds and the chains open after them, if there are as many. -/
def after (g : Graph) : (n : Nat) → List Climb → Option (List (List String) × List Climb)
  | 0, cs => some ([], cs)
  | _ + 1, [] => none
  | n + 1, c :: rest =>
    (after g n (c.step g rest).2).map fun r => ((c.step g rest).1.toList ++ r.1, r.2)

theorem exists_after_run (cs : List Climb) :
    ∃ n ≤ work g cs, after g n cs = some (run g cs, []) := by
  fun_induction run g cs with
  | case1 => exact ⟨0, Nat.zero_le _, rfl⟩
  | case2 c rest hnone ih =>
    obtain ⟨n, hn, hafter⟩ := ih
    have hlt := work_step_lt g c rest
    refine ⟨n + 1, by omega, ?_⟩
    rw [after, hafter, hnone]
    rfl
  | case3 c rest chain hsome ih =>
    obtain ⟨n, hn, hafter⟩ := ih
    have hlt := work_step_lt g c rest
    refine ⟨n + 1, by omega, ?_⟩
    rw [after, hafter, hsome]
    rfl

/-- An open chain leads along callers to the target and has met its own nodes only. -/
structure Leads (g : Graph) (target : String) (c : Climb) : Prop where
  visited_eq : c.visited = c.chain
  last : c.chain.getLast? = some target
  callers : c.chain.IsChain fun a b => a ∈ g.callersOf b
  nodup : c.chain.Nodup

theorem Leads.extend {c : Climb} (h : c.Leads g target) {node : Node} (htop : c.top? g = some node)
    {caller : String} (hcaller : caller ∈ node.callers) (hunseen : caller ∉ c.visited) :
    (c.extend caller).Leads g target := by
  obtain ⟨chain, visited⟩ := c
  cases chain with
  | nil => cases htop
  | cons key chain =>
    have hcalls : caller ∈ g.callersOf key := by
      show caller ∈ g.listOf Node.callers key
      rwa [Graph.listOf_of_node? Node.callers htop]
    constructor
    · exact congrArg (caller :: ·) h.visited_eq
    · rw [Climb.extend, List.getLast?_cons_cons]
      exact h.last
    · exact List.isChain_cons_cons.mpr ⟨hcalls, h.callers⟩
    · rw [h.visited_eq] at hunseen
      exact List.nodup_cons.mpr ⟨hunseen, h.nodup⟩

theorem leads_start {n : Node} (hn : g.node? target = some n) (hkey : n.key = target) :
    ∀ c ∈ start n, c.Leads g target := by
  intro c hc
  obtain ⟨caller, hcaller, rfl⟩ := List.mem_map.mp hc
  obtain ⟨hmem, hne⟩ := List.mem_filter.mp hcaller
  have hcalls : caller ∈ g.callersOf n.key := by
    show caller ∈ g.listOf Node.callers n.key
    rwa [hkey, Graph.listOf_of_node? Node.callers hn]
  constructor
  · rfl
  · exact congrArg some hkey
  · exact List.isChain_cons_cons.mpr ⟨hcalls, List.isChain_singleton n.key⟩
  · have hnot : caller ∉ [n.key] := fun h => of_decide_eq_true hne (List.mem_singleton.mp h)
    exact List.nodup_cons.mpr ⟨hnot, List.nodup_singleton n.key⟩

/-- The chains open after a round are open before it or extend the chain that was taken. -/
theorem leads_step {c : Climb} {rest : List Climb} (h : ∀ d ∈ c :: rest, d.Leads g target) :
    ∀ d ∈ (c.step g rest).2, d.Leads g target := by
  have hrest : ∀ d ∈ rest, d.Leads g target := fun d hd => h d (List.mem_cons_of_mem c hd)
  unfold step
  cases htop : c.top? g with
  | none => exact hrest
  | some node =>
    by_cases hroot : node.isRoot = true
    · simp only [if_pos hroot]
      exact hrest
    · simp only [if_neg hroot]
      intro d hd
      rcases List.mem_append.mp hd with hnew | hold
      · obtain ⟨caller, hcaller, rfl⟩ := List.mem_map.mp hnew
        obtain ⟨hmem, hunseen⟩ := List.mem_filter.mp hcaller
        exact (h c List.mem_cons_self).extend htop hmem (of_decide_eq_true hunseen)
      · exact hrest d hold

theorem leads_after {n : Nat} {cs cs' : List Climb} {found : List (List String)}
    (h : ∀ c ∈ cs, c.Leads g target) (hafter : after g n cs = some (found, cs')) :
    ∀ c ∈ cs', c.Leads g target := by
  induction n generalizing cs found with
  | zero =>
    cases hafter
    exact h
  | succ n ih =>
    cases cs with
    | nil => cases hafter
    | cons c rest =>
      obtain ⟨⟨found', open'⟩, hrest, heq⟩ := Option.map_eq_some_iff.mp hafter
      cases heq
      exact ih (leads_step h) hrest

end Climb

/-! ## Searches -/

namespace Graph

/-- In a graph that changes have made, and in the graph of a program, both searches stop after a
bounded number of rounds, with what they have found until then.  In front of each round the branch
of a walk, its stops and the nodes it must not meet are the same nodes; they are a simple chain of
calls from the source on which the target is not, and no longer than the graph has nodes.  From a
node to itself there is nothing to walk.  In each round of a climb every open chain has met its own
nodes only and is a simple chain of callers that ends at the target. -/
theorem searches_stop_and_keep_to_simple_chains (g : Graph)
    (hg : (∃ changes, g = replay changes) ∨ ∃ a : Atlas, g = a.callGraph) (dir : String) :
    (∀ source target first, g.node? source = some first → g.contains target = true →
      (source = target → ∃ report, g.findPaths dir source target = .ok report ∧
        report.paths.map CallPath.nodes = [[target]]) ∧
      (source ≠ target →
        (∃ rounds final report,
          rounds ≤ Walk.work g (Walk.start source first.callees).stops ∧
          Walk.after g target rounds (Walk.start source first.callees) = some final ∧
          final.step? g target = none ∧
          g.findPaths dir source target = .ok report ∧
          report.paths.map CallPath.nodes = final.found.reverse) ∧
        ∀ rounds w w',
          Walk.after g target rounds (Walk.start source first.callees) = some w →
          w.step? g target = some w' → w.OnTrack g source target)) ∧
    ∀ target last, g.node? target = some last →
      (∃ rounds found report,
        rounds ≤ Climb.work g (Climb.start last) ∧
        Climb.after g rounds (Climb.start last) = some (found, []) ∧
        g.findCallers dir target = .ok report ∧
        report.paths.map CallPath.nodes = found) ∧
      ∀ rounds found chains, Climb.after g rounds (Climb.start last) = some (found, chains) →
        ∀ c ∈ chains, (∀ key, key ∈ c.visited ↔ key ∈ c.chain) ∧ c.chain.Nodup ∧
          (c.chain.IsChain fun a b => a ∈ g.callersOf b) ∧ c.chain.getLast? = some target := by
  have h : g.InStep := by
    rcases hg with ⟨changes, rfl⟩ | ⟨a, rfl⟩
    · exact inStep_replay changes
    · exact inStep_callGraph a
  constructor
  · intro source target first hfirst htarget
    obtain ⟨last, hlast⟩ := Option.isSome_iff_exists.mp htarget
    obtain ⟨report, hreport, hnodes⟩ := nodes_findPaths dir hfirst hlast (h.node_key hlast)
    have hkey : first.key = source := h.node_key hfirst
    constructor
    · intro heq
      refine ⟨report, hreport, ?_⟩
      rw [hnodes, simplePaths, if_pos (hkey.trans heq)]
    · intro hne
      refine ⟨?_, fun rounds w w' hafter hnext => Walk.onTrack_after hfirst hne hafter hnext⟩
      obtain ⟨rounds, final, hrounds, hafter, hstop, hrun⟩ :=
        Walk.exists_after_run g target _ (Walk.aligned_start source first.callees)
      refine ⟨rounds, final, report, hrounds, hafter, hstop, hreport, ?_⟩
      subst hkey
      rw [hnodes, simplePaths, if_neg hne, hrun]
  · intro target last hlast
    constructor
    · obtain ⟨rounds, hrounds, hafter⟩ := Climb.exists_after_run (g := g) (Climb.start last)
      obtain ⟨report, hreport, hnodes⟩ := nodes_findCallers dir hlast
      exact ⟨rounds, _, report, hrounds, hafter, hreport, hnodes⟩
    · intro rounds found chains hafter c hc
      have hc := Climb.leads_after (Climb.leads_start hlast (h.node_key hlast)) hafter c hc
      exact ⟨fun key => by rw [hc.visited_eq], hc.nodup, hc.callers, hc.last⟩

/-- At `d` a walk from `main` to `c` has come through `a` and `b`, and a climb from `c` that has
taken its first chain goes on with the two others. -/
theorem searches_keep_to_simple_chains_looped :
    (∃ w w', Walk.after (replay loopedChanges) "c" 5 (Walk.start "main" ["a"]) = some w ∧
      w.step? (replay loopedChanges) "c" = some w' ∧ w.branch = ["d", "b", "a", "main"] ∧
      w.OnTrack (replay loopedChanges) "main" "c") ∧
    ∃ last found chains, (replay loopedChanges).node? "c" = some last ∧
      Climb.after (replay loopedChanges) 1 (Climb.start last) = some (found, chains) ∧
      chains.map Climb.chain = [["a", "b", "c"], ["a", "c"]] ∧
      ∀ c ∈ chains, c.chain.Nodup := by
  have hmain : (replay loopedChanges).node? "main" = some { key := "main", callees := ["a"] } := by
    decide
  have hc : (replay loopedChanges).node? "c" = some { key := "c", callers := ["b", "a"] } := by
    decide
  obtain ⟨forward, backward⟩ :=
    searches_stop_and_keep_to_simple_chains (replay loopedChanges) (Or.inl ⟨_, rfl⟩) "out"
  have hwalk := ((forward "main" "c" _ hmain (by decide)).2 (by decide)).2
  have hclimb := (backward "c" _ hc).2
  refine ⟨⟨_, _, rfl, rfl, rfl, hwalk 5 _ _ rfl rfl⟩, _, _, _, hc, rfl, rfl, ?_⟩
  intro c hmem
  exact (hclimb 1 _ _ rfl c hmem).2.1

end Graph
end SymbolAtlas
