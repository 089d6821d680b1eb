/-
Texts with blanks around them.

`exists_pad` and `trim_pad` say what trimming does: it takes the blanks at both ends away
and nothing else.  `infix_pad_iff` is for those who search a text before it is trimmed: a
part without blanks is found there just if it is found in the trimmed text.
-/
import SymbolAtlas.Text.Blank
import Mathlib.Data.List.DropRight
import Mathlib.Data.List.Infix

namespace SymbolAtlas
namespace Text

def Blank (s : List Char) : Prop := ∀ c ∈ s, isBlank c = true

instance (s : List Char) : Decidable (Blank s) :=
  decidable_of_iff (s.all isBlank = true) List.all_eq_true

/-- A text that is not empty and has no blanks at its ends. -/
structure Trimmed (s : List Char) : Prop where
  ne_nil : s ≠ []
  head : s.head?.any isBlank = false
  last : s.getLast?.any isBlank = false

theorem trim_eq_nil_iff {s : List Char} : trim s = [] ↔ ∀ c ∈ s, isBlank c = true := by
  rw [trim, trimRight, List.reverse_eq_nil_iff, List.dropWhile_eq_nil_iff]
  simp only [List.mem_reverse]
  refine ⟨fun h => ?_, fun h c hc => h c (List.dropWhile_sublist _ |>.subset hc)⟩
  -- What is dropped at the left is blank anyway.
  have hall := List.takeWhile_append_dropWhile (p := isBlank) (l := s)
  intro c hc
  rw [← hall, List.mem_append] at hc
  rcases hc with hleft | hrest
  · exact List.mem_takeWhile_imp hleft
  · exact h c hrest

theorem trimLeft_pad {w s : List Char} (hw : Blank w) (hs : s.head?.any isBlank = false) :
    trimLeft (w ++ s) = s := by
  rw [trimLeft, List.dropWhile_append_of_pos hw]
  cases s with
  | nil => rfl
  | cons c cs =>
    have hc : isBlank c = false := hs
    rw [List.dropWhile_cons_of_neg (by rw [hc]; simp)]

theorem trimRight_pad {w s : List Char} (hw : Blank w)
    (hs : s.getLast?.any isBlank = false) : trimRight (s ++ w) = s := by
  have hleft : trimLeft (w.reverse ++ s.reverse) = s.reverse := by
    refine trimLeft_pad (fun c hc => hw c (List.mem_reverse.mp hc)) ?_
    rwa [List.head?_reverse]
  rw [trimRight, List.reverse_append]
  exact (congrArg List.reverse hleft).trans (List.reverse_reverse s)

theorem trim_pad {w s w' : List Char} (hw : Blank w) (hs : Trimmed s) (hw' : Blank w') :
    trim (w ++ s ++ w') = s := by
  have hhead : (s ++ w').head?.any isBlank = false := by
    rw [List.head?_append_of_ne_nil s hs.ne_nil]
    exact hs.head
  rw [trim, List.append_assoc, trimLeft_pad hw hhead, trimRight_pad hw' hs.last]

theorem exists_pad (s : List Char) : ∃ w w', Blank w ∧ Blank w' ∧ s = w ++ trim s ++ w' := by
  refine ⟨s.takeWhile isBlank, (trimLeft s).rtakeWhile isBlank,
    fun c hc => List.mem_takeWhile_imp hc, fun c hc => List.mem_rtakeWhile_imp hc, ?_⟩
  have hright : trim s ++ (trimLeft s).rtakeWhile isBlank = trimLeft s :=
    List.rdropWhile_append_rtakeWhile
  rw [List.append_assoc, hright]
  exact List.takeWhile_append_dropWhile.symm

theorem any_head?_dropWhile (s : List Char) : (s.dropWhile isBlank).head?.any isBlank = false := by
  have hnot := List.head?_dropWhile_not isBlank s
  cases hhead : (s.dropWhile isBlank).head? with
  | none => rfl
  | some c =>
    rw [hhead] at hnot
    exact hnot

theorem trimmed_trim {s : List Char} (h : trim s ≠ []) : Trimmed (trim s) where
  ne_nil := h
  head := by
    -- What is left of the text begins as it does before the right end is trimmed.
    obtain ⟨rest, hrest⟩ : trim s <+: trimLeft s := List.rdropWhile_prefix isBlank _
    have hhead := any_head?_dropWhile s
    rwa [← trimLeft, ← hrest, List.head?_append_of_ne_nil _ h] at hhead
  last := by
    rw [trim, trimRight, List.getLast?_reverse]
    exact any_head?_dropWhile _

/-- A part without blanks does not reach into the blanks around a text. -/
theorem infix_pad_iff {part w s w' : List Char} (hpart : ∀ c ∈ part, isBlank c = false)
    (hne : part ≠ []) (hw : Blank w) (hw' : Blank w') :
    part <:+: w ++ s ++ w' ↔ part <:+: s := by
  have hnil {t v : List Char} (ht : t.Sublist part) (htv : t.Sublist v) (hv : Blank v) :
      t = [] := by
    refine List.eq_nil_iff_forall_not_mem.mpr fun c hc => ?_
    have hboth := (hpart c (ht.subset hc)).symm.trans (hv c (htv.subset hc))
    cases hboth
  constructor
  · intro h
    have hleft : part <:+: w ++ s := by
      rcases List.infix_append_iff.mp h with hin | hin | ⟨p, q, rfl, hp, hq⟩
      · exact hin
      · exact absurd (hnil (.refl _) hin.sublist hw') hne
      · obtain rfl : q = [] := hnil (List.sublist_append_right p q) hq.sublist hw'
        rw [List.append_nil]
        exact hp.isInfix
    rcases List.infix_append_iff.mp hleft with hin | hin | ⟨p, q, rfl, hp, hq⟩
    · exact absurd (hnil (.refl _) hin.sublist hw) hne
    · exact hin
    · obtain rfl : p = [] := hnil (List.sublist_append_left p q) hp.sublist hw
      exact hq.isInfix
  · intro h
    exact h.trans (List.infix_append w s w')

end Text
end SymbolAtlas
