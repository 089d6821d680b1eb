/-
Simple trails through a graph, in depth-first order.

Both searches follow the lists that nodes keep, one of them the callees and the
other the callers, and end a trail at the first node of a certain kind.  `trails`
lists what such a search finds by recursion alone: no stack, no state to restore.
`mem_trails_iff` says which trails these are and `pairwise_trails` in which order
they come; that none comes twice is a consequence of the order.  What is left to
say of a search is that it lists `trails`.
-/
import SymbolAtlas.Proofs.Graph.Adjacency
import Mathlib.Data.List.Chain

namespace SymbolAtlas
namespace Graph

variable (g : Graph) (l : Node → List String) (stop : String → Bool)

/-! ## Enumeration -/

theorem visit_decreases {seen : List String} {c : String} (cs : List String) (hc : c ∉ seen) :
    Prod.Lex (· < ·) (· < ·) (g.fresh (c :: seen), (g.listOf l c).length)
      (g.fresh seen, (c :: cs).length) := by
  cases hn : g.node? c with
  | none =>
    -- A key that is no node leaves as many nodes to see, but lists nothing.
    have hnil : g.listOf l c = [] := by rw [listOf, hn]; rfl
    rw [hnil, Prod.lex_def]
    have hle := g.fresh_cons_le c seen
    simp only [List.length_nil, List.length_cons]
    omega
  | some n => exact Prod.Lex.left _ _ (fresh_cons_lt (by rw [hn]; rfl) hc)

/-- The trails that begin with one of the given keys, meet no key of `seen` and
none twice, and end where `stop` first holds. -/
def trails (seen : List String) : List String → List (List String)
  | [] => []
  | c :: cs =>
    if c ∈ seen then trails seen cs
    else if stop c then [c] :: trails seen cs
    else (trails (c :: seen) (g.listOf l c)).map (c :: ·) ++ trails seen cs
termination_by cs => (g.fresh seen, cs.length)
decreasing_by
  · exact Prod.Lex.right _ (Nat.lt_succ_self cs.length)
  · exact Prod.Lex.right _ (Nat.lt_succ_self cs.length)
  · next hc _ => exact g.visit_decreases l cs hc
  · exact Prod.Lex.right _ (Nat.lt_succ_self cs.length)

section Cases

variable {g l stop} {seen : List String} {c : String} (cs : List String)

theorem trails_nil : g.trails l stop seen [] = [] := by rw [trails]

theorem trails_of_mem (hc : c ∈ seen) :
    g.trails l stop seen (c :: cs) = g.trails l stop seen cs := by
  rw [trails, if_pos hc]

theorem trails_of_stop (hc : c ∉ seen) (hs : stop c = true) :
    g.trails l stop seen (c :: cs) = [c] :: g.trails l stop seen cs := by
  rw [trails, if_neg hc, if_pos hs]

theorem trails_of_go_on (hc : c ∉ seen) (hs : stop c = false) :
    g.trails l stop seen (c :: cs) =
      (g.trails l stop (c :: seen) (g.listOf l c)).map (c :: ·) ++ g.trails l stop seen cs := by
  rw [trails, if_neg hc, if_neg (Bool.eq_false_iff.mp hs)]

end Cases

/-! ## Membership -/

/-- A trail that may begin anywhere, by the same steps. -/
inductive IsTrail : List String → List String → Prop where
  | stop {seen : List String} {c : String} :
      c ∉ seen → stop c = true → IsTrail seen [c]
  | step {seen : List String} {c d : String} {t : List String} :
      c ∉ seen → stop c = false → d ∈ g.listOf l c → IsTrail (c :: seen) (d :: t) →
      IsTrail seen (c :: d :: t)

variable {g l stop}

theorem isTrail_iff_of_stop {seen t : List String} {c : String} (hc : c ∉ seen)
    (hs : stop c = true) : g.IsTrail l stop seen (c :: t) ↔ t = [] := by
  constructor
  · intro ht
    cases ht with
    | stop _ _ => rfl
    | step _ hgo _ _ => exact absurd hs (Bool.eq_false_iff.mp hgo)
  · intro ht
    subst ht
    exact .stop hc hs

theorem isTrail_iff_of_go_on {seen t : List String} {c : String} (hc : c ∉ seen)
    (hs : stop c = false) :
    g.IsTrail l stop seen (c :: t) ↔
      ∃ d u, t = d :: u ∧ d ∈ g.listOf l c ∧ g.IsTrail l stop (c :: seen) (d :: u) := by
  constructor
  · intro ht
    cases ht with
    | stop _ hstop => exact absurd hstop (Bool.eq_false_iff.mp hs)
    | step _ _ hd ht => exact ⟨_, _, rfl, hd, ht⟩
  · intro ht
    obtain ⟨d, u, rfl, hd, hu⟩ := ht
    exact .step hc hs hd hu

/-- A trail begins with the first of the given keys or with one of the others. -/
theorem begins_cons_iff {p : List String → Prop} {c : String} {cs t : List String} :
    (∃ d u, t = d :: u ∧ d ∈ c :: cs ∧ p (d :: u)) ↔
      (∃ u, t = c :: u ∧ p (c :: u)) ∨ ∃ d u, t = d :: u ∧ d ∈ cs ∧ p (d :: u) := by
  constructor
  · intro h
    obtain ⟨d, u, rfl, hd, hp⟩ := h
    rcases List.mem_cons.mp hd with rfl | hd
    · exact Or.inl ⟨u, rfl, hp⟩
    · exact Or.inr ⟨d, u, rfl, hd, hp⟩
  · intro h
    rcases h with ⟨u, rfl, hp⟩ | ⟨d, u, rfl, hd, hp⟩
    · exact ⟨c, u, rfl, List.mem_cons_self, hp⟩
    · exact ⟨d, u, rfl, List.mem_cons_of_mem c hd, hp⟩

theorem mem_trails_iff {seen cs t : List String} :
    t ∈ g.trails l stop seen cs ↔
      ∃ c u, t = c :: u ∧ c ∈ cs ∧ g.IsTrail l stop seen (c :: u) := by
  fun_induction trails g l stop seen cs generalizing t with
  | case1 seen => simp
  | case2 seen c cs hseen ih =>
    have hnone (u : List String) : ¬ g.IsTrail l stop seen (c :: u) := by
      intro hu
      cases hu <;> contradiction
    rw [ih, begins_cons_iff]
    simp [hnone]
  | case3 seen c cs hseen hstop ih =>
    rw [List.mem_cons, ih, begins_cons_iff]
    simp [isTrail_iff_of_stop hseen hstop]
  | case4 seen c cs hseen hstop ihDown ih =>
    have hgo (u : List String) :
        g.IsTrail l stop seen (c :: u) ↔ u ∈ g.trails l stop (c :: seen) (g.listOf l c) := by
      rw [isTrail_iff_of_go_on hseen (Bool.eq_false_iff.mpr hstop), ihDown]
    rw [List.mem_append, List.mem_map, ih, begins_cons_iff]
    simp only [hgo, and_comm, eq_comm]

/-- A trail told without the steps of a search. -/
theorem isTrail_iff {seen : List String} {c : String} {t : List String} :
    g.IsTrail l stop seen (c :: t) ↔
      (c :: t).IsChain (fun a b => b ∈ g.listOf l a) ∧ (c :: t).Nodup ∧
        (∀ x ∈ c :: t, x ∉ seen) ∧ stop ((c :: t).getLast (List.cons_ne_nil c t)) = true ∧
        ∀ x ∈ (c :: t).dropLast, stop x = false := by
  induction t generalizing seen c with
  | nil =>
    constructor
    · intro h
      cases h with
      | stop hc hs => simp [hc, hs]
    · intro hmem
      obtain ⟨-, -, hseen, hs, -⟩ := hmem
      exact .stop (hseen c List.mem_cons_self) hs
  | cons d t ih =>
    constructor
    · intro h
      cases h with
      | step hc hns hd ht =>
        obtain ⟨hchain, hnodup, hseen, hlast, hfirst⟩ := ih.mp ht
        refine ⟨List.isChain_cons_cons.mpr ⟨hd, hchain⟩, List.nodup_cons.mpr ⟨?_, hnodup⟩,
          ?_, ?_, ?_⟩
        · intro hm
          exact hseen c hm List.mem_cons_self
        · intro x hx
          rcases List.mem_cons.mp hx with rfl | hx
          · exact hc
          · exact fun hm => hseen x hx (List.mem_cons_of_mem c hm)
        · rw [List.getLast_cons (List.cons_ne_nil d t)]
          exact hlast
        · intro x hx
          rw [List.dropLast_cons_cons] at hx
          rcases List.mem_cons.mp hx with rfl | hx
          · exact hns
          · exact hfirst x hx
    · intro hmem
      obtain ⟨hchain, hnodup, hseen, hlast, hfirst⟩ := hmem
      rw [List.isChain_cons_cons] at hchain
      rw [List.nodup_cons] at hnodup
      rw [List.getLast_cons (List.cons_ne_nil d t)] at hlast
      rw [List.dropLast_cons_cons] at hfirst
      refine .step (hseen c List.mem_cons_self) (hfirst c List.mem_cons_self) hchain.1
        (ih.mpr ⟨hchain.2, hnodup.2, ?_, hlast, ?_⟩)
      · intro x hx hm
        rcases List.mem_cons.mp hm with rfl | hm
        · exact hnodup.1 hx
        · exact hseen x (List.mem_cons_of_mem c hx) hm
      · exact fun x hx => hfirst x (List.mem_cons_of_mem c hx)

/-! ## Order -/

variable (g l)

/-- The place of each key of a trail in the list of the key before it. -/
def ranks : List String → List Nat
  | a :: b :: t => (g.listOf l a).idxOf b :: ranks (b :: t)
  | _ => []

variable {g l}

theorem idxOf_lt_of_mem {a c d : String} {before after : List String}
    (hlist : before ++ c :: after = g.listOf l a) (hnodup : (g.listOf l a).Nodup)
    (hd : d ∈ after) : (g.listOf l a).idxOf c < (g.listOf l a).idxOf d := by
  rw [← hlist] at hnodup ⊢
  have hcb : c ∉ before := fun h =>
    (List.nodup_append.mp hnodup).2.2 c h c List.mem_cons_self rfl
  have hdb : d ∉ before := fun h =>
    (List.nodup_append.mp hnodup).2.2 d h d (List.mem_cons_of_mem c hd) rfl
  have hcd : c ≠ d := fun h =>
    (List.nodup_cons.mp (List.nodup_append.mp hnodup).2.1).1 (h ▸ hd)
  rw [List.idxOf_append_of_notMem hcb, List.idxOf_append_of_notMem hdb,
    List.idxOf_cons_self, List.idxOf_cons_ne after hcd]
  omega

/-- The trails that leave `a` come in the order of their ranks.  The keys already
tried are a part of the list that every rank is taken in, so the recursion
carries them as `before`. -/
theorem pairwise_trails (hnodup : ∀ key, (g.listOf l key).Nodup) {a : String}
    {before seen cs : List String} (hlist : before ++ cs = g.listOf l a) :
    (g.trails l stop seen cs).Pairwise fun t u =>
      g.ranks l (a :: t) < g.ranks l (a :: u) := by
  fun_induction trails g l stop seen cs generalizing a before with
  | case1 seen => exact List.Pairwise.nil
  | case2 seen c cs hseen ih =>
    exact ih (List.append_cons before c cs ▸ hlist)
  | case3 seen c cs hseen hstop ih =>
    refine List.pairwise_cons.mpr ⟨?_, ih (List.append_cons before c cs ▸ hlist)⟩
    intro u hu
    obtain ⟨d, v, rfl, hd, -⟩ := mem_trails_iff.mp hu
    exact List.cons_lt_cons_iff.mpr (Or.inl (idxOf_lt_of_mem hlist (hnodup a) hd))
  | case4 seen c cs hseen hstop ihDown ih =>
    refine List.pairwise_append.mpr ⟨?_, ih (List.append_cons before c cs ▸ hlist), ?_⟩
    · refine List.pairwise_map.mpr ((ihDown (List.nil_append _)).imp ?_)
      intro t u htu
      exact List.cons_lt_cons_iff.mpr (Or.inr ⟨rfl, htu⟩)
    · intro t ht u hu
      obtain ⟨v, -, rfl⟩ := List.mem_map.mp ht
      obtain ⟨d, w, rfl, hd, -⟩ := mem_trails_iff.mp hu
      exact List.cons_lt_cons_iff.mpr (Or.inl (idxOf_lt_of_mem hlist (hnodup a) hd))

end Graph
end SymbolAtlas
