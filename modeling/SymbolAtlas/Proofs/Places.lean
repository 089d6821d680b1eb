/-
Lists that are read off by places.

What a walk through files or declarations lists is said here without the walk:
`Listed At xs` means that `xs` holds, in the order of the places, exactly what the
relation `At` has at some place.  The order of a result, its completeness and what
it leaves out are then one statement about `At`, and `Listed.unique` says that such
a statement leaves no choice.  There is one lemma for each way in which a result is
made: from the items of a list, by `filterMap`, by `flatMap` over a filtered list, by
putting one list behind another, and by keeping the first of each key.
-/
import SymbolAtlas.Distinct
import Mathlib.Data.List.Basic
import Mathlib.Data.List.Nodup
import Mathlib.Data.List.Perm.Basic

namespace SymbolAtlas

/-- A place in a list of lists: which of them, and where in it. -/
structure Slot where
  outer : Nat
  inner : Nat
deriving DecidableEq

instance : LT Slot where
  lt p q := p.outer < q.outer ∨ (p.outer = q.outer ∧ p.inner < q.inner)

theorem Slot.lt_iff {p q : Slot} :
    p < q ↔ p.outer < q.outer ∨ (p.outer = q.outer ∧ p.inner < q.inner) := Iff.rfl

instance : Std.Asymm (fun p q : Slot => p < q) where
  asymm p q hpq hqp := by
    rw [Slot.lt_iff] at hpq hqp
    omega

section

variable {ι α β : Type} [LT ι]

/-- `xs` is what `At` has, in the order of the places. -/
def Listed (At : ι → α → Prop) (xs : List α) : Prop :=
  ∃ rows : List (ι × α), rows.map Prod.snd = xs ∧ rows.Pairwise (fun r s => r.1 < s.1) ∧
    ∀ p x, (p, x) ∈ rows ↔ At p x

namespace Listed

variable {At At' : ι → α → Prop} {xs ys : List α}

theorem mem_iff (h : Listed At xs) {x : α} : x ∈ xs ↔ ∃ p, At p x := by
  obtain ⟨rows, rfl, -, hrows⟩ := h
  rw [List.mem_map]
  constructor
  · rintro ⟨⟨p, y⟩, hr, rfl⟩
    exact ⟨p, (hrows p y).mp hr⟩
  · rintro ⟨p, hp⟩
    exact ⟨(p, x), (hrows p x).mpr hp, rfl⟩

theorem congr (h : Listed At xs) (hAt : ∀ p x, At p x ↔ At' p x) : Listed At' xs := by
  obtain ⟨rows, hmap, hlt, hrows⟩ := h
  exact ⟨rows, hmap, hlt, fun p x => (hrows p x).trans (hAt p x)⟩

/-- Two lists of the same things in the same order are equal. -/
theorem unique [Std.Asymm (fun p q : ι => p < q)] (h : Listed At xs) (h' : Listed At ys) :
    xs = ys := by
  obtain ⟨rows, rfl, hlt, hrows⟩ := h
  obtain ⟨rows', rfl, hlt', hrows'⟩ := h'
  have hasymm (r s : ι × α) (hrs : r.1 < s.1) : ¬ s.1 < r.1 := Std.Asymm.asymm r.1 s.1 hrs
  have hnodup {l : List (ι × α)} (hl : l.Pairwise fun r s => r.1 < s.1) : l.Nodup := by
    refine hl.imp ?_
    rintro r s hrs rfl
    exact hasymm r r hrs hrs
  have hperm : rows.Perm rows' :=
    (List.perm_ext_iff_of_nodup (hnodup hlt) (hnodup hlt')).mpr fun r =>
      (hrows r.1 r.2).trans (hrows' r.1 r.2).symm
  have heq : rows = rows' := hperm.eq_of_pairwise
    (fun r s _ _ hrs hsr => absurd hsr (hasymm r s hrs)) hlt hlt'
  rw [heq]

theorem filterMap (h : Listed At xs) (g : α → Option β) :
    Listed (fun p y => ∃ x, At p x ∧ g x = some y) (xs.filterMap g) := by
  obtain ⟨rows, rfl, hlt, hrows⟩ := h
  refine ⟨rows.filterMap fun r => (g r.2).map (Prod.mk r.1), ?_, ?_, ?_⟩
  · rw [List.map_filterMap, List.filterMap_map]
    refine List.filterMap_congr fun r _ => ?_
    simp [Function.comp_def]
  · refine List.Pairwise.filterMap _ ?_ hlt
    intro r s hrs r' hr' s' hs'
    obtain ⟨y, -, rfl⟩ := Option.map_eq_some_iff.mp hr'
    obtain ⟨z, -, rfl⟩ := Option.map_eq_some_iff.mp hs'
    exact hrs
  · intro p y
    rw [List.mem_filterMap]
    constructor
    · rintro ⟨⟨q, x⟩, hr, hg⟩
      obtain ⟨z, hz, heq⟩ := Option.map_eq_some_iff.mp hg
      cases heq
      exact ⟨x, (hrows q x).mp hr, hz⟩
    · rintro ⟨x, hx, hg⟩
      exact ⟨(p, x), (hrows p x).mpr hx, Option.map_eq_some_iff.mpr ⟨y, hg, rfl⟩⟩

theorem map (h : Listed At xs) (g : α → β) :
    Listed (fun p y => ∃ x, At p x ∧ g x = y) (xs.map g) := by
  rw [← List.filterMap_eq_map]
  exact (h.filterMap (some ∘ g)).congr fun p y => by simp

theorem filter (h : Listed At xs) (q : α → Bool) :
    Listed (fun p x => At p x ∧ q x = true) (xs.filter q) := by
  rw [← List.filterMap_eq_filter]
  exact (h.filterMap (Option.guard q)).congr fun p y => by
    simp [Option.guard_eq_some_iff]

theorem distinctBy [DecidableEq β] [Std.Asymm (fun p q : ι => p < q)] (h : Listed At xs)
    (key : α → β) :
    Listed (fun p x => At p x ∧ ∀ q y, q < p → At q y → key y ≠ key x)
      (distinctBy key xs) := by
  obtain ⟨rows, rfl, hlt, hrows⟩ := h
  refine ⟨SymbolAtlas.distinctBy (fun r => key r.2) rows, map_distinctBy Prod.snd key rows,
    hlt.sublist (distinctBy_sublist _ rows), ?_⟩
  intro p x
  rw [mem_distinctBy_iff _ (fun r s hrs => Std.Asymm.asymm r.1 s.1 hrs) hlt, hrows]
  refine and_congr_right fun _ => ⟨fun hfirst q y hq hy => ?_, fun hfirst r hr hlt => ?_⟩
  · exact hfirst (q, y) ((hrows q y).mpr hy) hq
  · exact hfirst r.1 r.2 hlt ((hrows r.1 r.2).mp hr)

/-- Two lists one after the other, if the places of the first come before those of the
second. -/
theorem append {At' : ι → α → Prop} (h : Listed At xs) (h' : Listed At' ys)
    (hlt : ∀ p x q y, At p x → At' q y → p < q) :
    Listed (fun p x => At p x ∨ At' p x) (xs ++ ys) := by
  obtain ⟨rows, rfl, hasc, hrows⟩ := h
  obtain ⟨rows', rfl, hasc', hrows'⟩ := h'
  refine ⟨rows ++ rows', List.map_append, List.pairwise_append.mpr ⟨hasc, hasc', ?_⟩, ?_⟩
  · intro r hr s hs
    exact hlt r.1 r.2 s.1 s.2 ((hrows _ _).mp hr) ((hrows' _ _).mp hs)
  · intro p x
    rw [List.mem_append, hrows, hrows']

/-- The same list by other places in the same order. -/
theorem relocate {κ : Type} [LT κ] (h : Listed At xs) (f : ι → κ)
    (hf : ∀ p q, p < q → f p < f q) : Listed (fun k x => ∃ p, f p = k ∧ At p x) xs := by
  obtain ⟨rows, rfl, hasc, hrows⟩ := h
  refine ⟨rows.map fun r => (f r.1, r.2), ?_, ?_, ?_⟩
  · rw [List.map_map]
    rfl
  · rw [List.pairwise_map]
    exact hasc.imp fun hrs => hf _ _ hrs
  · intro k x
    rw [List.mem_map]
    constructor
    · rintro ⟨⟨p, y⟩, hr, heq⟩
      cases heq
      exact ⟨p, rfl, (hrows p y).mp hr⟩
    · rintro ⟨p, rfl, hp⟩
      exact ⟨(p, x), (hrows p x).mpr hp, rfl⟩

end Listed
end

variable {α β : Type}

theorem pairwise_zipIdx (xs : List α) (n : Nat) :
    (xs.zipIdx n).Pairwise fun r s => r.2 < s.2 := by
  induction xs generalizing n with
  | nil => exact .nil
  | cons x xs ih =>
    rw [List.zipIdx_cons]
    exact .cons (fun s hs => List.le_snd_of_mem_zipIdx hs) (ih (n + 1))

/-- A list itself, by its indices. -/
theorem listed_getElem? (xs : List α) : Listed (fun (i : Nat) x => xs[i]? = some x) xs := by
  refine ⟨xs.zipIdx.map Prod.swap, ?_, ?_, ?_⟩
  · rw [List.map_map]
    exact List.zipIdx_map_fst 0 xs
  · rw [List.pairwise_map]
    exact pairwise_zipIdx xs 0
  · intro i x
    rw [List.mem_map]
    constructor
    · rintro ⟨⟨y, j⟩, hr, heq⟩
      cases heq
      exact List.mem_zipIdx_iff_getElem?.mp hr
    · intro hx
      exact ⟨(x, i), List.mem_zipIdx_iff_getElem?.mpr hx, rfl⟩

/-- The lists of some items one after the other, where the place of an item counts
all items and not only those that are taken. -/
theorem Listed.filter_flatMap {At : α → Nat → β → Prop} {g : α → List β}
    (h : ∀ x, Listed (At x) (g x)) (q : α → Bool) (xs : List α) :
    Listed (fun (p : Slot) y => ∃ x, xs[p.outer]? = some x ∧ q x = true ∧ At x p.inner y)
      ((xs.filter q).flatMap g) := by
  choose rows hmap hlt hrows using h
  -- Items are numbered before they are filtered, so a place names its item among all.
  refine ⟨(xs.zipIdx.filter fun r => q r.1).flatMap fun r =>
    (rows r.1).map fun s => (⟨r.2, s.1⟩, s.2), ?_, ?_, ?_⟩
  · have hitems : (xs.zipIdx.filter fun r => q r.1).map Prod.fst = xs.filter q := by
      conv_rhs => rw [← List.zipIdx_map_fst 0 xs]
      exact List.filter_map.symm
    rw [List.map_flatMap, ← hitems, List.flatMap_map]
    refine List.flatMap_congr fun r _ => ?_
    rw [List.map_map, ← hmap]
    rfl
  · rw [List.pairwise_flatMap]
    refine ⟨fun r _ => ?_, ?_⟩
    · rw [List.pairwise_map]
      exact (hlt r.1).imp fun hs => Or.inr ⟨rfl, hs⟩
    · refine ((pairwise_zipIdx xs 0).sublist List.filter_sublist).imp fun hrs y hy z hz => ?_
      obtain ⟨s, -, rfl⟩ := List.mem_map.mp hy
      obtain ⟨t, -, rfl⟩ := List.mem_map.mp hz
      exact Or.inl hrs
  · intro p y
    rw [List.mem_flatMap]
    constructor
    · rintro ⟨⟨x, i⟩, hr, hy⟩
      obtain ⟨⟨j, z⟩, hs, heq⟩ := List.mem_map.mp hy
      obtain ⟨hx, hq⟩ := List.mem_filter.mp hr
      cases heq
      exact ⟨x, List.mem_zipIdx_iff_getElem?.mp hx, hq, (hrows x j z).mp hs⟩
    · rintro ⟨x, hx, hq, hy⟩
      refine ⟨(x, p.outer), List.mem_filter.mpr ⟨List.mem_zipIdx_iff_getElem?.mpr hx, hq⟩, ?_⟩
      exact List.mem_map.mpr ⟨(p.inner, y), (hrows x p.inner y).mpr hy, rfl⟩

end SymbolAtlas
