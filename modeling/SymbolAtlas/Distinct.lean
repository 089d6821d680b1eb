/-
Lists in which only the first of several equal things counts.

`distinct` keeps the first element of each value and `distinctBy` the first of
each key.  Both recurse on the list and filter the tail, so membership, order and
the absence of repetitions are one induction each.
-/

namespace SymbolAtlas

variable {α β : Type}

/-- The elements whose key no earlier element has. -/
def distinctBy [DecidableEq β] (key : α → β) : List α → List α
  | [] => []
  | x :: xs => x :: (distinctBy key xs).filter fun y => key y ≠ key x

/-- The elements that are not earlier in the list. -/
def distinct [DecidableEq α] (xs : List α) : List α := distinctBy id xs

/-- The list with `x` at its end, unless `x` is already there. -/
def addLast [DecidableEq α] (xs : List α) (x : α) : List α :=
  if x ∈ xs then xs else xs ++ [x]

theorem mem_addLast [DecidableEq α] {xs : List α} {x y : α} :
    y ∈ addLast xs x ↔ y ∈ xs ∨ y = x := by
  unfold addLast
  split
  · next h => exact ⟨Or.inl, fun h' => h'.elim id (fun e => e ▸ h)⟩
  · simp

theorem nodup_addLast [DecidableEq α] {xs : List α} {x : α} (h : xs.Nodup) :
    (addLast xs x).Nodup := by
  unfold addLast
  split
  · exact h
  · next hx => exact List.nodup_append.mpr ⟨h, by simp, fun a ha b hb => by
      rintro rfl
      simp only [List.mem_singleton] at hb
      exact hx (hb ▸ ha)⟩

theorem distinctBy_sublist [DecidableEq β] (key : α → β) (xs : List α) :
    (distinctBy key xs).Sublist xs := by
  induction xs with
  | nil => exact .slnil
  | cons x xs ih => exact ((List.filter_sublist).trans ih).cons_cons x

theorem pairwise_distinctBy [DecidableEq β] (key : α → β) (xs : List α) :
    (distinctBy key xs).Pairwise fun a b => key a ≠ key b := by
  induction xs with
  | nil => exact .nil
  | cons x xs ih =>
    refine .cons ?_ (ih.sublist List.filter_sublist)
    intro y hy
    have := (List.mem_filter.mp hy).2
    simp only [decide_not, Bool.not_eq_eq_eq_not, Bool.not_true, decide_eq_false_iff_not] at this
    exact fun h => this h.symm

/-- Nothing is dropped where all keys differ. -/
theorem distinctBy_eq_self [DecidableEq β] (key : α → β) {xs : List α}
    (h : xs.Pairwise fun a b => key a ≠ key b) : distinctBy key xs = xs := by
  induction h with
  | nil => rfl
  | @cons x xs hx _ ih =>
    rw [distinctBy, ih, List.filter_eq_self.mpr]
    intro y hy
    exact decide_eq_true (hx y hy).symm

theorem mem_distinct [DecidableEq α] {xs : List α} {x : α} : x ∈ distinct xs ↔ x ∈ xs := by
  unfold distinct
  induction xs with
  | nil => simp [distinctBy]
  | cons y ys ih =>
    by_cases h : x = y
    · simp [distinctBy, h]
    · simp [distinctBy, h, ih]

theorem nodup_distinct [DecidableEq α] (xs : List α) : (distinct xs).Nodup :=
  pairwise_distinctBy id xs

theorem exists_mem_distinctBy [DecidableEq β] (key : α → β) {xs : List α} {x : α} (h : x ∈ xs) :
    ∃ y ∈ distinctBy key xs, key y = key x := by
  induction xs with
  | nil => cases h
  | cons z zs ih =>
    by_cases hz : key z = key x
    · exact ⟨z, List.mem_cons_self, hz⟩
    · have hx : x ∈ zs := (List.mem_cons.mp h).resolve_left fun e => hz (congrArg key e.symm)
      obtain ⟨y, hy, hyx⟩ := ih hx
      refine ⟨y, List.mem_cons_of_mem _ (List.mem_filter.mpr ⟨hy, ?_⟩), hyx⟩
      exact decide_eq_true fun e => hz (e.symm.trans hyx)

/-- In a list that ascends, an element stays if none below it has its key. -/
theorem mem_distinctBy_iff [DecidableEq β] (key : α → β) {r : α → α → Prop}
    (hr : ∀ x y, r x y → ¬ r y x) {xs : List α} (hxs : xs.Pairwise r) {x : α} :
    x ∈ distinctBy key xs ↔ x ∈ xs ∧ ∀ y ∈ xs, r y x → key y ≠ key x := by
  induction hxs with
  | nil => simp [distinctBy]
  | @cons z zs hz _ ih =>
    rw [distinctBy, List.mem_cons, List.mem_cons, List.mem_filter, ih, decide_eq_true_eq]
    constructor
    · rintro (rfl | ⟨⟨hx, hfirst⟩, hne⟩)
      · refine ⟨Or.inl rfl, fun y hy hyx => ?_⟩
        rcases List.mem_cons.mp hy with rfl | hy
        · exact absurd hyx (hr _ _ hyx)
        · exact absurd hyx (hr _ _ (hz y hy))
      · refine ⟨Or.inr hx, fun y hy hyx => ?_⟩
        rcases List.mem_cons.mp hy with rfl | hy
        · exact hne.symm
        · exact hfirst y hy hyx
    · rintro ⟨rfl | hx, hfirst⟩
      · exact Or.inl rfl
      · refine Or.inr ⟨⟨hx, fun y hy => hfirst y (List.mem_cons_of_mem z hy)⟩, ?_⟩
        exact (hfirst z List.mem_cons_self (hz x hx)).symm

theorem map_distinctBy [DecidableEq β] {γ : Type} (f : γ → α) (key : α → β) (xs : List γ) :
    (distinctBy (fun x => key (f x)) xs).map f = distinctBy key (xs.map f) := by
  induction xs with
  | nil => rfl
  | cons x xs ih =>
    rw [distinctBy, List.map_cons, List.map_cons, distinctBy, ← ih, List.filter_map]
    rfl

/-- What depends on the key alone may be asked before or after. -/
theorem filter_distinctBy [DecidableEq β] (key : α → β) {p : α → Bool}
    (hp : ∀ x y, key x = key y → p x = p y) (xs : List α) :
    (distinctBy key xs).filter p = distinctBy key (xs.filter p) := by
  induction xs with
  | nil => rfl
  | cons x xs ih =>
    rw [distinctBy]
    by_cases hx : p x
    · rw [List.filter_cons_of_pos hx, List.filter_cons_of_pos hx, distinctBy, ← ih,
        List.filter_filter, List.filter_filter]
      exact congrArg (x :: ·) (List.filter_congr fun y _ => Bool.and_comm _ _)
    · rw [List.filter_cons_of_neg hx, List.filter_cons_of_neg hx, ← ih, List.filter_filter]
      refine List.filter_congr fun y _ => ?_
      by_cases hy : key y = key x
      · simp [hp y x hy, hx]
      · simp [hy]

theorem filter_distinct [DecidableEq α] (p : α → Bool) (xs : List α) :
    (distinct xs).filter p = distinct (xs.filter p) :=
  filter_distinctBy id (fun _ _ h => congrArg p h) xs

theorem distinct_append [DecidableEq α] (xs ys : List α) :
    distinct (xs ++ ys) = distinct xs ++ (distinct ys).filter fun y => y ∉ xs := by
  unfold distinct
  induction xs with
  | nil => exact (List.filter_eq_self.mpr fun y _ => by simp).symm
  | cons x xs ih =>
    rw [List.cons_append, distinctBy, distinctBy, ih, List.filter_append, List.filter_filter,
      List.cons_append]
    refine congrArg (fun zs => x :: (_ ++ zs)) (List.filter_congr fun y _ => ?_)
    simp [not_or]

theorem distinct_append_congr [DecidableEq α] {xs xs' ys ys' : List α}
    (hx : distinct xs = distinct xs') (hy : distinct ys = distinct ys') :
    distinct (xs ++ ys) = distinct (xs' ++ ys') := by
  have hmem (y : α) : y ∈ xs ↔ y ∈ xs' := by
    rw [← mem_distinct, hx, mem_distinct]
  rw [distinct_append, distinct_append, hx, hy]
  simp only [hmem]

/-- What comes again behind a list is dropped. -/
theorem distinct_append_of_subset [DecidableEq α] {xs ys : List α} (h : ys ⊆ xs) :
    distinct (xs ++ ys) = distinct xs := by
  have hnone : (distinct ys).filter (fun y => y ∉ xs) = [] := by
    rw [List.filter_eq_nil_iff]
    intro y hy
    simpa using h (mem_distinct.mp hy)
  rw [distinct_append, hnone, List.append_nil]

/-- What is dropped before a map would have been dropped after it. -/
theorem distinct_map_distinct [DecidableEq α] [DecidableEq β] (f : α → β) (xs : List α) :
    distinct ((distinct xs).map f) = distinct (xs.map f) := by
  induction xs with
  | nil => rfl
  | cons x xs ih =>
    show f x :: (distinct (((distinct xs).filter fun y => y ≠ x).map f)).filter
        (fun z => z ≠ f x) = f x :: (distinct (xs.map f)).filter fun z => z ≠ f x
    rw [← ih, filter_distinct (fun z => z ≠ f x), filter_distinct (fun z => z ≠ f x),
      List.filter_map, List.filter_map, List.filter_filter]
    refine congrArg (fun zs => f x :: distinct (List.map f zs)) (List.filter_congr fun y _ => ?_)
    by_cases hy : y = x
    · simp [hy]
    · simp [hy]

/-- Where the elements of `f x` are left out, `x` may be left out before. -/
theorem filter_flatMap_ne [DecidableEq α] [DecidableEq β] (f : α → List β) (x : α)
    (ys : List α) : ((ys.filter fun y => y ≠ x).flatMap f).filter (fun z => z ∉ f x) =
      (ys.flatMap f).filter fun z => z ∉ f x := by
  induction ys with
  | nil => rfl
  | cons y ys ih =>
    by_cases hy : y = x
    · have hnone : (f y).filter (fun z => z ∉ f x) = [] := by
        rw [hy, List.filter_eq_nil_iff]
        simp
      rw [List.filter_cons_of_neg (by simpa using hy), List.flatMap_cons, List.filter_append,
        hnone, List.nil_append, ih]
    · rw [List.filter_cons_of_pos (by simpa using hy), List.flatMap_cons, List.flatMap_cons,
        List.filter_append, List.filter_append, ih]

/-- A list that comes again brings nothing new. -/
theorem distinct_flatMap_distinct [DecidableEq α] [DecidableEq β] (f : α → List β)
    (xs : List α) : distinct ((distinct xs).flatMap f) = distinct (xs.flatMap f) := by
  induction xs with
  | nil => rfl
  | cons x xs ih =>
    show distinct (f x ++ ((distinct xs).filter fun y => y ≠ x).flatMap f) =
      distinct (f x ++ xs.flatMap f)
    rw [distinct_append, distinct_append, ← ih, filter_distinct (fun z => z ∉ f x),
      filter_distinct (fun z => z ∉ f x), filter_flatMap_ne]

end SymbolAtlas
