/-
The openings of a file and the lines that they declare on.

Each item of an opening takes lines of its own, and a declaration stands on the first of its
lines.  A function that is exported by default and has no name leaves that line without one.  Of
the lines of an opening only those up to the last one with a name are remembered,
`FileSketch.height`, and the next opening goes on below them: it takes the rest of them,
`FileSketch.blankEnd`, a second time.

`openedLines` are the lines that declarations stand on if the openings of a file go on like this.
They ascend just if the openings keep clear of each other, `pairwise_openedLines_iff`: what an
opening has left without a name is passed over before the next thing is declared.
-/
import SymbolAtlas.Proofs.Source.Headings
import Mathlib.Data.List.DropRight

namespace SymbolAtlas

/-! ## Lines without names -/

def Line.isBlank (l : Line) : Bool := l.words.isEmpty

namespace Line

theorem isBlank_memberCall (frames : List Frame) (object property : String) :
    (memberCall frames object property).isBlank = false := by
  unfold memberCall
  split
  · rfl
  · rfl

theorem isBlank_base (frames : List Frame) (name : String) :
    (base frames name).isBlank = false := by
  unfold base
  split
  · rfl
  · rfl

end Line

theorem BodyItem.isBlank_ownLines (frames : List Frame) (i : BodyItem) :
    ∀ l ∈ i.ownLines frames, l.isBlank = false := by
  intro l hl
  cases i with
  | param name writtenType =>
    cases writtenType with
    | none => cases hl
    | some type => rw [List.mem_singleton.mp hl]; rfl
  | paramInferred name type => cases hl
  | callMember object property =>
    rw [List.mem_singleton.mp hl]
    exact Line.isBlank_memberCall frames object property
  | callThis method =>
    rw [List.mem_singleton.mp hl]
    exact Line.isBlank_memberCall frames "this" method
  | _ => rw [List.mem_singleton.mp hl]; rfl

theorem BodyItem.isBlank_lines (frames : List Frame) (is : List BodyItem) :
    ∀ l ∈ lines frames is, l.isBlank = false := by
  intro l hl
  obtain ⟨e, -, hl⟩ := List.mem_flatMap.mp hl
  exact isBlank_ownLines _ e.item l hl

theorem ClassItem.isBlank_lines (className : String) (i : ClassItem) :
    ∀ l ∈ i.lines className, l.isBlank = false := by
  intro l hl
  cases i with
  | base name =>
    rw [List.mem_singleton.mp hl]
    exact Line.isBlank_base _ name
  | member name kind visibility isStatic is =>
    rcases List.mem_cons.mp hl with rfl | hl
    · rfl
    · exact BodyItem.isBlank_lines _ is l hl
  | property name visibility isStatic initializerCall => rw [List.mem_singleton.mp hl]; rfl

namespace FileItem

/-- Only the first line of a declaration can be without a name. -/
theorem lines_of_declares {i : FileItem} (h : i.declares = true) :
    ∃ l ls, i.lines = l :: ls ∧ ∀ m ∈ ls, m.isBlank = false := by
  cases i with
  | interface name => exact ⟨_, _, rfl, List.forall_mem_nil _⟩
  | enumeration name => exact ⟨_, _, rfl, List.forall_mem_nil _⟩
  | «variable» name => exact ⟨_, _, rfl, List.forall_mem_nil _⟩
  | function name is => exact ⟨_, _, rfl, BodyItem.isBlank_lines _ is⟩
  | arrow name is => exact ⟨_, _, rfl, BodyItem.isBlank_lines _ is⟩
  | classDecl name is =>
    refine ⟨_, _, rfl, fun m hm => ?_⟩
    obtain ⟨i, -, hm⟩ := List.mem_flatMap.mp hm
    exact i.isBlank_lines name m hm
  | defaultExport name wrapper =>
    cases wrapper with
    | none => exact ⟨_, _, rfl, List.forall_mem_nil _⟩
    | some w => exact ⟨_, _, rfl, List.forall_mem_nil _⟩
  | defaultExportFunction name is =>
    cases name with
    | none => exact ⟨_, _, rfl, BodyItem.isBlank_lines _ is⟩
    | some n => exact ⟨_, _, rfl, BodyItem.isBlank_lines _ is⟩
  | _ => cases h

theorem isBlank_of_not_declares {i : FileItem} (h : i.declares = false) :
    ∀ l ∈ i.lines, l.isBlank = false := by
  intro l hl
  cases i with
  | exportNext => cases hl
  | withoutPosition => cases hl
  | reExport name newName =>
    cases newName with
    | none => rw [List.mem_singleton.mp hl]; rfl
    | some newName => rw [List.mem_singleton.mp hl]; rfl
  | importName name => rw [List.mem_singleton.mp hl]; rfl
  | defaultImport name => rw [List.mem_singleton.mp hl]; rfl
  | exportSpecifier name => rw [List.mem_singleton.mp hl]; rfl
  | reference name role => rw [List.mem_singleton.mp hl]; rfl
  | occurrenceAt name role position => rw [List.mem_singleton.mp hl]; rfl
  | _ => cases h

end FileItem

/-! ## Openings -/

/-- The lines of an opening up to the last one with a name. -/
def FileSketch.height (s : FileSketch) : Nat := (s.lines.rdropWhile Line.isBlank).length

/-- The lines without names at the end of an opening. -/
def FileSketch.blankEnd (s : FileSketch) : Nat := s.lines.length - s.height

/-- The lines of items in front of the first declaration. -/
def leadingLines (is : List FileItem) : Nat :=
  ((is.takeWhile fun i => !i.declares).flatMap FileItem.lines).length

/-- No declaration comes on a line that an earlier opening of the file has left without a name. -/
def KeepsClear : List FileSketch → Prop
  | [] => True
  | s :: ss =>
    ((ss.flatMap FileSketch.items).any FileItem.declares = true →
      s.blankEnd ≤ leadingLines (ss.flatMap FileSketch.items)) ∧ KeepsClear ss

instance decidableKeepsClear : (ss : List FileSketch) → Decidable (KeepsClear ss)
  | [] => isTrue trivial
  | _ :: ss =>
    have := decidableKeepsClear ss
    inferInstanceAs (Decidable (_ ∧ _))

/-- The lines on which items below line `n` declare something. -/
def declaredLines : (n : Nat) → List FileItem → List Nat
  | _, [] => []
  | n, i :: is => (if i.declares then [n + 1] else []) ++ declaredLines (n + i.lines.length) is

/-- The lines on which the openings of a file declare something. -/
def openedLines : (n : Nat) → List FileSketch → List Nat
  | _, [] => []
  | n, s :: ss => declaredLines n s.items ++ openedLines (n + s.height) ss

theorem leadingLines_cons (i : FileItem) (is : List FileItem) :
    leadingLines (i :: is) = if i.declares then 0 else i.lines.length + leadingLines is := by
  rw [leadingLines, List.takeWhile_cons]
  cases i.declares with
  | true => rfl
  | false => exact List.length_append

theorem FileSketch.height_le (s : FileSketch) : s.height ≤ s.lines.length :=
  (List.rdropWhile_prefix _ _).length_le

section Items

variable {n : Nat} {is : List FileItem}

theorem declaredLines_bounds {x : Nat} (hx : x ∈ declaredLines n is) :
    n < x ∧ x ≤ n + (is.flatMap FileItem.lines).length := by
  induction is generalizing n with
  | nil => cases hx
  | cons i is ih =>
    rw [List.flatMap_cons, List.length_append]
    rcases List.mem_append.mp hx with hfirst | hrest
    · split at hfirst
      · next hi =>
        obtain ⟨l, ls, hlines, -⟩ := FileItem.lines_of_declares hi
        rw [List.mem_singleton.mp hfirst, hlines, List.length_cons]
        omega
      · cases hfirst
    · have := ih hrest
      omega

theorem pairwise_declaredLines (n : Nat) (is : List FileItem) :
    (declaredLines n is).Pairwise (· < ·) := by
  induction is generalizing n with
  | nil => exact .nil
  | cons i is ih =>
    rw [declaredLines]
    split
    · next hi =>
      obtain ⟨l, ls, hlines, -⟩ := FileItem.lines_of_declares hi
      refine List.pairwise_cons.mpr ⟨fun x hx => ?_, ih _⟩
      have hbelow := declaredLines_bounds hx
      rw [hlines, List.length_cons] at hbelow
      omega
    · exact ih _

theorem declaredLines_of_none (h : is.any FileItem.declares = false) : declaredLines n is = [] := by
  induction is generalizing n with
  | nil => rfl
  | cons i is ih =>
    rw [List.any_cons, Bool.or_eq_false_iff] at h
    rw [declaredLines, ih h.2, h.1]
    rfl

theorem declaredLines_of_any (h : is.any FileItem.declares = true) :
    ∃ rest, declaredLines n is = (n + leadingLines is + 1) :: rest := by
  induction is generalizing n with
  | nil => cases h
  | cons i is ih =>
    rw [declaredLines, leadingLines_cons]
    by_cases hi : i.declares = true
    · rw [if_pos hi, if_pos hi]
      exact ⟨_, rfl⟩
    · rw [List.any_cons, Bool.eq_false_iff.mpr hi, Bool.false_or] at h
      obtain ⟨rest, hrest⟩ := ih (n := n + i.lines.length) h
      rw [if_neg hi, if_neg hi, List.nil_append, hrest, Nat.add_assoc n]
      exact ⟨rest, rfl⟩

/-- If the last line has no name, it is the only line of a declaration. -/
theorem last_mem_declaredLines {l : Line} (hlast : (is.flatMap FileItem.lines).getLast? = some l)
    (hblank : l.isBlank = true) : n + (is.flatMap FileItem.lines).length ∈ declaredLines n is := by
  induction is generalizing n with
  | nil => cases hlast
  | cons i is ih =>
    rw [List.flatMap_cons, List.getLast?_append] at hlast
    rw [List.flatMap_cons, List.length_append, declaredLines]
    cases hrest : (is.flatMap FileItem.lines).getLast? with
    | some m =>
      rw [hrest, Option.some_or] at hlast
      obtain rfl := Option.some.inj hlast
      rw [← Nat.add_assoc]
      exact List.mem_append_right _ (ih hrest)
    | none =>
      have hnil := List.getLast?_eq_none_iff.mp hrest
      rw [hrest, Option.none_or] at hlast
      have hmem := List.mem_of_getLast? hlast
      by_cases hi : i.declares = true
      · obtain ⟨first, ls, hlines, hls⟩ := FileItem.lines_of_declares hi
        have hone : ls = [] := by
          by_contra hne
          rw [hlines, List.getLast?_cons, List.getLast?_eq_some_getLast hne] at hlast
          have hin : l ∈ ls := Option.some.inj hlast ▸ List.getLast_mem hne
          rw [hls l hin] at hblank
          cases hblank
        rw [hnil, hlines, hone, if_pos hi]
        exact List.mem_append_left _ (List.mem_singleton_self _)
      · rw [FileItem.isBlank_of_not_declares (Bool.eq_false_iff.mpr hi) l hmem] at hblank
        cases hblank

end Items

section Openings

variable {s : FileSketch}

theorem height_of_last {l : Line} (hlast : s.lines.getLast? = some l) (hl : l.isBlank = false) :
    s.height = s.lines.length := by
  obtain ⟨ls, hls⟩ := List.getLast?_eq_some_iff.mp hlast
  rw [FileSketch.height, hls, List.rdropWhile_concat_neg _ _ _ (by simp [hl])]

/-- An opening that declares nothing leaves all its lines behind. -/
theorem height_of_none (h : s.items.any FileItem.declares = false) : s.height = s.lines.length := by
  cases hlast : s.lines.getLast? with
  | none =>
    rw [FileSketch.height, List.getLast?_eq_none_iff.mp hlast]
    rfl
  | some l =>
    obtain ⟨i, hi, hl⟩ := List.mem_flatMap.mp (List.mem_of_getLast? hlast)
    have hnot : i.declares = false := by
      rw [List.any_eq_false] at h
      exact Bool.eq_false_iff.mpr (h i hi)
    exact height_of_last hlast (FileItem.isBlank_of_not_declares hnot l hl)

theorem last_mem_of_blankEnd (h : 0 < s.blankEnd) (n : Nat) :
    n + s.lines.length ∈ declaredLines n s.items := by
  cases hlast : s.lines.getLast? with
  | none =>
    rw [FileSketch.blankEnd, List.getLast?_eq_none_iff.mp hlast, List.length_nil] at h
    omega
  | some l =>
    cases hl : l.isBlank with
    | true => exact last_mem_declaredLines hlast hl
    | false =>
      rw [FileSketch.blankEnd, height_of_last hlast hl, Nat.sub_self] at h
      cases h

theorem leadingLines_append_of_any {is : List FileItem} (h : is.any FileItem.declares = true)
    (more : List FileItem) : leadingLines (is ++ more) = leadingLines is := by
  induction is with
  | nil => cases h
  | cons i is ih =>
    rw [List.cons_append, leadingLines_cons, leadingLines_cons]
    by_cases hi : i.declares = true
    · rw [if_pos hi, if_pos hi]
    · rw [List.any_cons, Bool.eq_false_iff.mpr hi, Bool.false_or] at h
      rw [if_neg hi, if_neg hi, ih h]

theorem leadingLines_append_of_none {is : List FileItem} (h : is.any FileItem.declares = false)
    (more : List FileItem) :
    leadingLines (is ++ more) = (is.flatMap FileItem.lines).length + leadingLines more := by
  induction is with
  | nil => simp
  | cons i is ih =>
    rw [List.any_cons, Bool.or_eq_false_iff] at h
    rw [List.cons_append, leadingLines_cons, h.1, ih h.2, List.flatMap_cons, List.length_append,
      Nat.add_assoc]
    rfl

theorem openedLines_of_none {n : Nat} {ss : List FileSketch}
    (h : (ss.flatMap FileSketch.items).any FileItem.declares = false) : openedLines n ss = [] := by
  induction ss generalizing n with
  | nil => rfl
  | cons s ss ih =>
    rw [List.flatMap_cons, List.any_append, Bool.or_eq_false_iff] at h
    rw [openedLines, declaredLines_of_none h.1, ih h.2]
    rfl

theorem openedLines_of_any {n : Nat} {ss : List FileSketch}
    (h : (ss.flatMap FileSketch.items).any FileItem.declares = true) :
    ∃ rest, openedLines n ss = (n + leadingLines (ss.flatMap FileSketch.items) + 1) :: rest := by
  induction ss generalizing n with
  | nil => cases h
  | cons s ss ih =>
    rw [List.flatMap_cons, openedLines]
    cases hs : s.items.any FileItem.declares with
    | true =>
      obtain ⟨rest, hrest⟩ := declaredLines_of_any (n := n) hs
      rw [leadingLines_append_of_any hs, hrest]
      exact ⟨_, rfl⟩
    | false =>
      rw [List.flatMap_cons, List.any_append, hs, Bool.false_or] at h
      obtain ⟨rest, hrest⟩ := ih (n := n + s.height) h
      have hheight : n + s.height = n + (s.items.flatMap FileItem.lines).length :=
        congrArg (n + ·) (height_of_none hs)
      rw [declaredLines_of_none hs, List.nil_append, hrest, leadingLines_append_of_none hs,
        hheight, Nat.add_assoc n]
      exact ⟨rest, rfl⟩

theorem pairwise_openedLines_iff (n : Nat) (ss : List FileSketch) :
    (openedLines n ss).Pairwise (· < ·) ↔ KeepsClear ss := by
  induction ss generalizing n with
  | nil => exact iff_of_true .nil trivial
  | cons s ss ih =>
    rw [openedLines, List.pairwise_append, ih, KeepsClear]
    have hlines : s.lines.length = s.height + s.blankEnd := by
      have := s.height_le
      unfold FileSketch.blankEnd
      omega
    cases hany : (ss.flatMap FileSketch.items).any FileItem.declares with
    | false =>
      rw [openedLines_of_none hany]
      simp [pairwise_declaredLines]
    | true =>
      obtain ⟨rest, hrest⟩ := openedLines_of_any (n := n + s.height) hany
      constructor
      · intro h
        obtain ⟨-, hss, hcross⟩ := h
        refine ⟨fun _ => ?_, hss⟩
        by_cases hend : 0 < s.blankEnd
        · have hlt := hcross _ (last_mem_of_blankEnd hend n) _ (hrest ▸ List.mem_cons_self)
          omega
        · omega
      · intro h
        obtain ⟨hclear, hss⟩ := h
        refine ⟨pairwise_declaredLines n s.items, hss, fun x hx y hy => ?_⟩
        have hle : x ≤ n + s.lines.length := (declaredLines_bounds hx).2
        have hfirst : n + s.height + leadingLines (ss.flatMap FileSketch.items) + 1 ≤ y := by
          have hascend := (ih (n + s.height)).mpr hss
          rw [hrest] at hascend hy
          rcases List.mem_cons.mp hy with rfl | hy
          · exact Nat.le_refl _
          · exact Nat.le_of_lt ((List.pairwise_cons.mp hascend).1 y hy)
        have := hclear rfl
        omega

end Openings

end SymbolAtlas
