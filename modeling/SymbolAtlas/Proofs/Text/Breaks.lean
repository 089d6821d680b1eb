/-
The lines of a text.

A text is written line by line, with a line break behind each, and is read by cutting it at
its line breaks.  A line that holds breaks of its own is read as several.  So what is read is
each written line cut at its breaks, `linesOf_join`, and this is what was written if every line
is `Unbroken`.
-/
import Mathlib.Data.List.Basic

namespace SymbolAtlas
namespace Text

/-- What stands between the line breaks of a text, the ends included. -/
def cutLines (s : String) : List String := (s.toList.splitOn '\n').map String.ofList

/-- The lines of a text, each of which a line break ends. -/
def linesOf (text : String) : List String := (cutLines text).dropLast

def Unbroken (s : String) : Prop := '\n' ∉ s.toList

instance (s : String) : Decidable (Unbroken s) := inferInstanceAs (Decidable ('\n' ∉ s.toList))

theorem unbroken_append {a b : String} : Unbroken (a ++ b) ↔ Unbroken a ∧ Unbroken b := by
  simp [Unbroken]

/-- No part of a list that is cut at a mark holds the mark. -/
theorem not_mem_of_mem_splitOn {α : Type} [DecidableEq α] {mark : α} {xs part : List α}
    (h : part ∈ xs.splitOn mark) : mark ∉ part := by
  rw [List.splitOn_eq_splitOnP] at h
  induction xs generalizing part with
  | nil =>
    rw [List.splitOnP_nil, List.mem_singleton] at h
    rw [h]
    exact List.not_mem_nil
  | cons x xs ih =>
    rw [List.splitOnP_cons_eq_if_modifyHead] at h
    split at h
    · rcases List.mem_cons.mp h with rfl | h
      · exact List.not_mem_nil
      · exact ih h
    · next hx =>
      cases hparts : xs.splitOnP (· == mark) with
      | nil => exact absurd hparts (List.splitOnP_ne_nil _ _)
      | cons first rest =>
        rw [hparts] at h ih
        rcases List.mem_cons.mp h with rfl | h
        · rw [List.mem_cons, not_or]
          exact ⟨fun hmark => hx (beq_iff_eq.mpr hmark.symm), ih List.mem_cons_self⟩
        · exact ih (List.mem_cons_of_mem first h)

theorem unbroken_of_mem_cutLines {s line : String} (h : line ∈ cutLines s) : Unbroken line := by
  obtain ⟨part, hpart, rfl⟩ := List.mem_map.mp h
  rw [Unbroken, String.toList_ofList]
  exact not_mem_of_mem_splitOn hpart

theorem unbroken_of_mem_linesOf {text line : String} (h : line ∈ linesOf text) : Unbroken line :=
  unbroken_of_mem_cutLines ((List.dropLast_sublist _).subset h)

theorem cutLines_of_unbroken {s : String} (h : Unbroken s) : cutLines s = [s] := by
  have hcut : s.toList.splitOn '\n' = [s.toList] := by
    rw [List.splitOn_eq_splitOnP]
    apply List.splitOnP_eq_singleton
    intro c hc
    have hne : c ≠ '\n' := fun hbreak => h (hbreak ▸ hc)
    exact beq_eq_false_iff_ne.mpr hne
  rw [cutLines, hcut, List.map_singleton, String.ofList_toList]

/-- Cutting at one line break and then at the others. -/
theorem cutLines_append_break (a b : String) :
    cutLines (a ++ "\n" ++ b) = cutLines a ++ cutLines b := by
  have htext : (a ++ "\n" ++ b).toList = a.toList ++ '\n' :: b.toList := by simp
  have hcut : (a.toList ++ '\n' :: b.toList).splitOn '\n' =
      a.toList.splitOn '\n' ++ b.toList.splitOn '\n' := by
    simp only [List.splitOn_eq_splitOnP]
    exact List.splitOnP_append_cons a.toList b.toList rfl
  rw [cutLines, htext, hcut, List.map_append, cutLines, cutLines]

theorem cutLines_join (lines : List String) :
    cutLines (String.join (lines.map fun l => l ++ "\n")) = lines.flatMap cutLines ++ [""] := by
  induction lines with
  | nil => rfl
  | cons l lines ih =>
    rw [List.map_cons, String.join_cons, cutLines_append_break, ih, List.flatMap_cons,
      List.append_assoc]

/-- A text that is written line by line has the lines that its lines have. -/
theorem linesOf_join (lines : List String) :
    linesOf (String.join (lines.map fun l => l ++ "\n")) = lines.flatMap cutLines := by
  rw [linesOf, cutLines_join, List.dropLast_concat]

theorem flatMap_cutLines {lines : List String} (h : ∀ l ∈ lines, Unbroken l) :
    lines.flatMap cutLines = lines := by
  rw [List.flatMap_congr fun l hl => cutLines_of_unbroken (h l hl), List.flatMap_singleton']

end Text
end SymbolAtlas
