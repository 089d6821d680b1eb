/-
Queries that name two keys.

A query is cut at its first thin arrow, or without one at its first thick arrow, and only
what stands behind the cut is searched for further arrows.  `NamesTwo` says what a query
should be: two keys, neither with an arrow in it, around one arrow.  Every such query is
read as its two keys, also where an arrow touches characters like its own; `arrow_cases` is
why: two arrows in a text are the same one or do not overlap.

The other direction fails.  A thick arrow before the cut is not looked for, so a query of
three keys may pass with two of them taken for one.  `Swallows` says which queries these
are, and `parse_eq_ok_iff` that there are no others.
-/
import SymbolAtlas.Graph.Query
import SymbolAtlas.Proofs.Text.Trim

namespace SymbolAtlas
namespace TraceQuery

open Text

/-! ## What a query should be -/

def arrows : List (List Char) := [thinArrow, thickArrow]

def ArrowFree (s : List Char) : Prop := ∀ arrow ∈ arrows, ¬ arrow <:+: s

instance (s : List Char) : Decidable (ArrowFree s) :=
  inferInstanceAs (Decidable (∀ arrow ∈ arrows, ¬ arrow <:+: s))

/-- A text that can be one side of a query. -/
structure IsKey (key : String) : Prop where
  trimmed : Trimmed key.toList
  arrowFree : ArrowFree key.toList

/-- The text of the query is `a` and `b` around the arrow, with blanks around both. -/
def Joins (arrow : List Char) (query a b : String) : Prop :=
  ∃ w₁ w₂ w₃ w₄, Blank w₁ ∧ Blank w₂ ∧ Blank w₃ ∧ Blank w₄ ∧
    query.toList = w₁ ++ a.toList ++ w₂ ++ arrow ++ (w₃ ++ b.toList ++ w₄)

structure NamesTwo (query : String) (t : TraceQuery) : Prop where
  source : IsKey t.source
  target : IsKey t.target
  joined : ∃ arrow ∈ arrows, Joins arrow query t.source t.target

/-- The query has a thick arrow before its only thin arrow, and what stands before the thin
one is taken for a key. -/
structure Swallows (query : String) (t : TraceQuery) : Prop where
  source_trimmed : Trimmed t.source.toList
  source_no_thin : ¬ thinArrow <:+: t.source.toList
  source_thick : thickArrow <:+: t.source.toList
  target : IsKey t.target
  joined : Joins thinArrow query t.source t.target

/-- Three or more keys have two arrows between them. -/
def HasTwoArrows (query : String) : Prop :=
  ∃ s ∈ arrows, ∃ t ∈ arrows, ∃ x y z, query.toList = x ++ s ++ (y ++ t ++ z)

/-! ## Arrows in a text -/

theorem thin_mem_arrows : thinArrow ∈ arrows := by simp [arrows]

theorem thick_mem_arrows : thickArrow ∈ arrows := by simp [arrows]

theorem mem_arrows_iff {s : List Char} : s ∈ arrows ↔ s = thinArrow ∨ s = thickArrow := by
  simp [arrows]

theorem shape_of_mem_arrows {s : List Char} (h : s ∈ arrows) : ∃ d, d ≠ '>' ∧ s = [d, '>'] := by
  rcases mem_arrows_iff.mp h with rfl | rfl
  · exact ⟨'-', by decide, rfl⟩
  · exact ⟨'=', by decide, rfl⟩

theorem not_blank_of_mem_arrows {s : List Char} (h : s ∈ arrows) :
    s ≠ [] ∧ ∀ c ∈ s, isBlank c = false := by
  have hchars : s ≠ [] ∧ s.all (fun c => !isBlank c) = true := by
    rcases mem_arrows_iff.mp h with rfl | rfl <;> decide
  refine ⟨hchars.1, fun c hc => ?_⟩
  have hnot := List.all_eq_true.mp hchars.2 c hc
  rwa [Bool.not_eq_true'] at hnot

theorem infix_pad_iff_of_mem_arrows {s w k w' : List Char} (h : s ∈ arrows) (hw : Blank w)
    (hw' : Blank w') : s <:+: w ++ k ++ w' ↔ s <:+: k :=
  infix_pad_iff (not_blank_of_mem_arrows h).2 (not_blank_of_mem_arrows h).1 hw hw'

theorem arrowFree_iff {s : List Char} :
    ArrowFree s ↔ ¬ thinArrow <:+: s ∧ ¬ thickArrow <:+: s := by
  simp [ArrowFree, arrows]

theorem arrowFree_pad_iff {w k w' : List Char} (hw : Blank w) (hw' : Blank w') :
    ArrowFree (w ++ k ++ w') ↔ ArrowFree k :=
  forall₂_congr fun _ h => not_congr (infix_pad_iff_of_mem_arrows h hw hw')

/-- An arrow at the start of a text and another one somewhere in it: the second is the
first, or it stands behind it. -/
theorem arrow_at_start {s t v c y : List Char} (hs : s ∈ arrows) (ht : t ∈ arrows)
    (h : s ++ v = c ++ (t ++ y)) : (c = [] ∧ s = t ∧ v = y) ∨ (s <:+: c ∧ t <:+: v) := by
  obtain ⟨d, -, rfl⟩ := shape_of_mem_arrows hs
  obtain ⟨e, he, rfl⟩ := shape_of_mem_arrows ht
  match c with
  | [] =>
    rw [List.nil_append] at h
    obtain ⟨hst, hvy⟩ := List.append_inj h rfl
    exact Or.inl ⟨rfl, hst, hvy⟩
  | [p] =>
    -- The second arrow would begin with the head of the first.
    simp only [List.cons_append, List.nil_append, List.cons.injEq] at h
    exact absurd h.2.1.symm he
  | p :: r :: c' =>
    simp only [List.cons_append, List.nil_append, List.cons.injEq] at h
    obtain ⟨rfl, rfl, rfl⟩ := h
    exact Or.inr ⟨⟨[], c', rfl⟩, List.infix_append' c' _ y⟩

/-- Two arrows in a text are one and the same, or one stands before the other. -/
theorem arrow_cases {s t u v x y : List Char} (hs : s ∈ arrows) (ht : t ∈ arrows)
    (h : u ++ s ++ v = x ++ t ++ y) :
    (u = x ∧ s = t ∧ v = y) ∨ (t <:+: u ∧ s <:+: y) ∨ (s <:+: x ∧ t <:+: v) := by
  rw [List.append_assoc, List.append_assoc, List.append_eq_append_iff] at h
  rcases h with ⟨c, rfl, hc⟩ | ⟨c, rfl, hc⟩
  · rcases arrow_at_start hs ht hc with ⟨rfl, hst, hvy⟩ | ⟨hsc, htv⟩
    · exact Or.inl ⟨(List.append_nil u).symm, hst, hvy⟩
    · exact Or.inr (Or.inr ⟨hsc.trans (List.suffix_append u c).isInfix, htv⟩)
  · rcases arrow_at_start ht hs hc with ⟨rfl, hts, hyv⟩ | ⟨htc, hsy⟩
    · exact Or.inl ⟨List.append_nil x, hts.symm, hyv.symm⟩
    · exact Or.inr (Or.inl ⟨htc.trans (List.suffix_append x c).isInfix, hsy⟩)

/-- The arrow between two texts without arrows is the only one. -/
theorem arrow_unique {s t u v x y : List Char} (hs : s ∈ arrows) (ht : t ∈ arrows)
    (hu : ArrowFree u) (hv : ArrowFree v) (h : u ++ s ++ v = x ++ t ++ y) :
    u = x ∧ s = t ∧ v = y := by
  rcases arrow_cases hs ht h with hsame | ⟨htu, -⟩ | ⟨-, htv⟩
  · exact hsame
  · exact absurd htu (hu t ht)
  · exact absurd htv (hv t ht)

theorem cutFirst?_arrow_iff {s q u v : List Char} (hs : s ∈ arrows) :
    cutFirst? s q = some (u, v) ↔ q = u ++ s ++ v ∧ ¬ s <:+: u := by
  have hne := (not_blank_of_mem_arrows hs).1
  refine ⟨fun h => ⟨append_of_cutFirst? h, not_infix_of_cutFirst? hne h⟩, ?_⟩
  rintro ⟨rfl, hu⟩
  cases hcut : cutFirst? s (u ++ s ++ v) with
  | none => exact absurd (List.infix_append u s v) (cutFirst?_eq_none_iff.mp hcut)
  | some halves =>
    obtain ⟨x, y⟩ := halves
    have hx := not_infix_of_cutFirst? hne hcut
    rcases arrow_cases hs hs (append_of_cutFirst? hcut) with ⟨rfl, -, rfl⟩ | ⟨hsu, -⟩ | ⟨hsx, -⟩
    · rfl
    · exact absurd hsu hu
    · exact absurd hsx hx

theorem cut?_eq_some_iff {q u v : List Char} :
    cut? q = some (u, v) ↔
      (q = u ++ thinArrow ++ v ∧ ¬ thinArrow <:+: u) ∨
        (¬ thinArrow <:+: q ∧ q = u ++ thickArrow ++ v ∧ ¬ thickArrow <:+: u) := by
  rw [cut?, Option.or_eq_some_iff, cutFirst?_arrow_iff thin_mem_arrows,
    cutFirst?_eq_none_iff, cutFirst?_arrow_iff thick_mem_arrows]

theorem cut?_of_arrowFree {arrow u v : List Char} (harrow : arrow ∈ arrows) (hu : ArrowFree u)
    (hv : ArrowFree v) : cut? (u ++ arrow ++ v) = some (u, v) := by
  rw [cut?_eq_some_iff]
  rcases mem_arrows_iff.mp harrow with rfl | rfl
  · exact Or.inl ⟨rfl, hu _ harrow⟩
  · refine Or.inr ⟨?_, rfl, hu _ harrow⟩
    rintro ⟨x, y, hthin⟩
    obtain ⟨-, hsame, -⟩ := arrow_unique harrow thin_mem_arrows hu hv hthin.symm
    cases hsame

/-! ## What is read -/

theorem hasArrow_eq_false_iff {s : List Char} : hasArrow s = false ↔ ArrowFree s := by
  rw [hasArrow, Bool.or_eq_false_iff, ← Bool.not_eq_true, ← Bool.not_eq_true, holds_iff,
    holds_iff, arrowFree_iff]

theorem keys_eq_ok_iff {s a b : List Char} :
    keys s = .ok (a, b) ↔ ∃ u v, cut? s = some (u, v) ∧ trim u = a ∧ trim v = b ∧
      a ≠ [] ∧ b ≠ [] ∧ hasArrow b = false := by
  unfold keys
  cases cut? s with
  | none => simp
  | some halves =>
    obtain ⟨u, v⟩ := halves
    simp only [Option.some.injEq, Prod.mk.injEq]
    constructor
    · intro h
      split at h
      · cases h
      · next hne =>
        split at h
        · cases h
        · next harrow =>
          cases h
          rw [not_or] at hne
          exact ⟨u, v, ⟨rfl, rfl⟩, rfl, rfl, hne.1, hne.2, Bool.not_eq_true _ ▸ harrow⟩
    · rintro ⟨u', v', ⟨rfl, rfl⟩, rfl, rfl, hu, hv, harrow⟩
      rw [if_neg (not_or.mpr ⟨hu, hv⟩), if_neg (by rw [harrow]; simp)]

theorem parse_eq_ok_iff_keys {query : String} {t : TraceQuery} :
    parse query = .ok t ↔ keys query.toList = .ok (t.source.toList, t.target.toList) := by
  obtain ⟨source, target⟩ := t
  unfold parse
  cases keys query.toList with
  | error flaw => simp
  | ok sides =>
    obtain ⟨a, b⟩ := sides
    simp [← String.toList_inj]

theorem cases_of_parse {query : String} {t : TraceQuery} (h : parse query = .ok t) :
    NamesTwo query t ∨ Swallows query t := by
  obtain ⟨u, v, hcut, hu, hv, hsource, htarget, hfree⟩ :=
    keys_eq_ok_iff.mp (parse_eq_ok_iff_keys.mp h)
  obtain ⟨w₁, w₂, hw₁, hw₂, hpadu⟩ := exists_pad u
  obtain ⟨w₃, w₄, hw₃, hw₄, hpadv⟩ := exists_pad v
  rw [hu] at hpadu
  rw [hv] at hpadv
  have hjoins {arrow : List Char} (hq : query.toList = u ++ arrow ++ v) :
      Joins arrow query t.source t.target :=
    ⟨w₁, w₂, w₃, w₄, hw₁, hw₂, hw₃, hw₄, by rw [hq, hpadu, hpadv]⟩
  -- A side has the arrows that its key has.
  have hside {arrow : List Char} (harrow : arrow ∈ arrows) (hno : ¬ arrow <:+: u) :
      ¬ arrow <:+: t.source.toList := by
    rwa [hpadu, infix_pad_iff_of_mem_arrows harrow hw₁ hw₂] at hno
  have hsource' : Trimmed t.source.toList := hu ▸ trimmed_trim (hu ▸ hsource)
  have htarget' : IsKey t.target :=
    ⟨hv ▸ trimmed_trim (hv ▸ htarget), hasArrow_eq_false_iff.mp hfree⟩
  rcases cut?_eq_some_iff.mp hcut with ⟨hq, hthin⟩ | ⟨hnothin, hq, hthick⟩
  · have hnothin := hside thin_mem_arrows hthin
    by_cases hthick : thickArrow <:+: t.source.toList
    · exact Or.inr ⟨hsource', hnothin, hthick, htarget', hjoins hq⟩
    · exact Or.inl ⟨⟨hsource', arrowFree_iff.mpr ⟨hnothin, hthick⟩⟩, htarget', _,
        thin_mem_arrows, hjoins hq⟩
  · have hthin : ¬ thinArrow <:+: u := by
      intro hin
      rw [hq, List.append_assoc] at hnothin
      exact hnothin (hin.trans (List.prefix_append u _).isInfix)
    exact Or.inl ⟨⟨hsource', arrowFree_iff.mpr
      ⟨hside thin_mem_arrows hthin, hside thick_mem_arrows hthick⟩⟩, htarget', _,
      thick_mem_arrows, hjoins hq⟩

section Joined

variable {query : String} {t : TraceQuery}

theorem parse_of_cut {w₁ w₂ w₃ w₄ : List Char} (hw₁ : Blank w₁) (hw₂ : Blank w₂) (hw₃ : Blank w₃)
    (hw₄ : Blank w₄) (hsource : Trimmed t.source.toList) (htarget : IsKey t.target)
    (hcut : cut? query.toList =
      some (w₁ ++ t.source.toList ++ w₂, w₃ ++ t.target.toList ++ w₄)) :
    parse query = .ok t := by
  rw [parse_eq_ok_iff_keys, keys_eq_ok_iff]
  exact ⟨_, _, hcut, trim_pad hw₁ hsource hw₂, trim_pad hw₃ htarget.trimmed hw₄, hsource.ne_nil,
    htarget.trimmed.ne_nil, hasArrow_eq_false_iff.mpr htarget.arrowFree⟩

theorem parse_of_namesTwo (h : NamesTwo query t) : parse query = .ok t := by
  obtain ⟨arrow, harrow, w₁, w₂, w₃, w₄, hw₁, hw₂, hw₃, hw₄, hq⟩ := h.joined
  refine parse_of_cut hw₁ hw₂ hw₃ hw₄ h.source.trimmed h.target ?_
  rw [hq]
  exact cut?_of_arrowFree harrow ((arrowFree_pad_iff hw₁ hw₂).mpr h.source.arrowFree)
    ((arrowFree_pad_iff hw₃ hw₄).mpr h.target.arrowFree)

theorem parse_of_swallows (h : Swallows query t) : parse query = .ok t := by
  obtain ⟨w₁, w₂, w₃, w₄, hw₁, hw₂, hw₃, hw₄, hq⟩ := h.joined
  refine parse_of_cut hw₁ hw₂ hw₃ hw₄ h.source_trimmed h.target ?_
  refine cut?_eq_some_iff.mpr (Or.inl ⟨hq, ?_⟩)
  rw [infix_pad_iff_of_mem_arrows thin_mem_arrows hw₁ hw₂]
  exact h.source_no_thin

/-- Two keys have one arrow between them and no other. -/
theorem NamesTwo.not_hasTwoArrows (h : NamesTwo query t) : ¬ HasTwoArrows query := by
  obtain ⟨arrow, harrow, w₁, w₂, w₃, w₄, hw₁, hw₂, hw₃, hw₄, hq⟩ := h.joined
  rintro ⟨s, hs, r, hr, x, y, z, htwo⟩
  have hfree := (arrowFree_pad_iff hw₃ hw₄).mpr h.target.arrowFree
  obtain ⟨-, -, hbehind⟩ := arrow_unique harrow hs
    ((arrowFree_pad_iff hw₁ hw₂).mpr h.source.arrowFree) hfree (hq.symm.trans htwo)
  exact hfree r hr (hbehind ▸ List.infix_append y r z)

end Joined

/-- A query is read as a source and a target if it names them, or if it swallows a thick
arrow into the source. -/
theorem parse_eq_ok_iff {query : String} {t : TraceQuery} :
    parse query = .ok t ↔ NamesTwo query t ∨ Swallows query t :=
  ⟨cases_of_parse, fun h => h.elim parse_of_namesTwo parse_of_swallows⟩

theorem parse_cases (query : String) :
    (∃ t, parse query = .ok t) ∨
      ∃ flaw : Flaw, parse query = .error (.malformedQuery query flaw.text) := by
  unfold parse
  cases keys query.toList with
  | error flaw => exact Or.inr ⟨flaw, rfl⟩
  | ok sides => exact Or.inl ⟨_, rfl⟩

/-- Two keys around an arrow are read as these keys, whatever blanks stand around them, and
also where the ends of the keys look like a part of the arrow. -/
theorem parse_joined (a b w₁ w₂ w₃ w₄ arrow : String) (ha : IsKey a) (hb : IsKey b)
    (harrow : arrow = "->" ∨ arrow = "=>")
    (hw : ∀ w ∈ [w₁, w₂, w₃, w₄], Blank w.toList) :
    parse (w₁ ++ a ++ w₂ ++ arrow ++ w₃ ++ b ++ w₄) = .ok { source := a, target := b } := by
  have hmem : arrow.toList ∈ arrows := by
    rcases harrow with rfl | rfl
    · exact thin_mem_arrows
    · exact thick_mem_arrows
  refine parse_of_namesTwo ⟨ha, hb, arrow.toList, hmem, w₁.toList, w₂.toList, w₃.toList, w₄.toList,
    hw w₁ (by simp), hw w₂ (by simp), hw w₃ (by simp), hw w₄ (by simp), ?_⟩
  simp only [String.toList_append, List.append_assoc]

theorem parse_joined_lookalikes :
    parse "\t a- -> >b=\n" = .ok { source := "a-", target := ">b=" } ∧
      parse "a-->>b=" = .ok { source := "a-", target := ">b=" } ∧
      parse "a-=>>b=" = .ok { source := "a-", target := ">b=" } := by
  have ha : IsKey "a-" := ⟨⟨by decide, by decide, by decide⟩, by decide⟩
  have hb : IsKey ">b=" := ⟨⟨by decide, by decide, by decide⟩, by decide⟩
  have hblank : ∀ w ∈ ["\t ", " ", " ", "\n"], Blank w.toList := by decide
  have hnone : ∀ w ∈ ["", "", "", ""], Blank w.toList := by decide
  exact ⟨parse_joined "a-" ">b=" "\t " " " " " "\n" "->" ha hb (Or.inl rfl) hblank,
    parse_joined "a-" ">b=" "" "" "" "" "->" ha hb (Or.inl rfl) hnone,
    parse_joined "a-" ">b=" "" "" "" "" "=>" ha hb (Or.inr rfl) hnone⟩

/-- A query is read as a source and a target just if it names them or swallows a thick
arrow into the source, so what is read is what it names unless it swallows one.  A query
with two arrows or more is refused as malformed unless it does. -/
theorem parse_names_two_iff (query : String) :
    (∀ t, parse query = .ok t ↔ NamesTwo query t ∨ Swallows query t) ∧
    ((∀ t, parse query = .ok t → NamesTwo query t) ↔ ∀ t, ¬ Swallows query t) ∧
    (HasTwoArrows query →
      ((∃ flaw : Flaw, parse query = .error (.malformedQuery query flaw.text)) ↔
        ∀ t, ¬ Swallows query t)) := by
  refine ⟨fun t => parse_eq_ok_iff, ⟨fun hall t ht => ?_, fun hnone t ht => ?_⟩,
    fun htwo => ⟨?_, fun hnone => ?_⟩⟩
  · exact (hall t (parse_of_swallows ht)).source.arrowFree _ thick_mem_arrows ht.source_thick
  · exact (cases_of_parse ht).resolve_right (hnone t)
  · rintro ⟨flaw, herror⟩ t ht
    rw [parse_of_swallows ht] at herror
    cases herror
  · refine (parse_cases query).resolve_left ?_
    rintro ⟨t, ht⟩
    exact ((cases_of_parse ht).resolve_right (hnone t)).not_hasTwoArrows htwo

/-- Three keys are read as two, because the thick arrow stands before the thin one. -/
theorem parse_swallows_thick_arrow :
    parse "a => b -> c" = .ok { source := "a => b", target := "c" } ∧
      HasTwoArrows "a => b -> c" ∧
      ¬ NamesTwo "a => b -> c" { source := "a => b", target := "c" } := by
  refine ⟨by decide, ⟨thickArrow, thick_mem_arrows, thinArrow, thin_mem_arrows,
    "a ".toList, " b ".toList, " c".toList, by decide⟩, fun h => ?_⟩
  exact h.source.arrowFree thickArrow thick_mem_arrows (by decide)

end TraceQuery
end SymbolAtlas
