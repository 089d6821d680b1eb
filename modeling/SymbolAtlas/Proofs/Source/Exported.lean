/-
Which declarations of an opening are exported.

A mark in a file exports the declaration that comes next.  `MarkedSince ends before` says that
behind these items a mark still holds, if the items of the kind `ends` end its reach.  Meant is
that every declaration does, `FileItem.declares`.  But a default export, which is exported anyway,
leaves the mark in place, and it goes on to the next declaration of another shape:
`exportNext_items_iff` has `FileItem.takesExportMark`.

The two differ on the openings in which a mark passes a default export and nothing renews or takes
it before the next declaration, `LeaksMark`, and on no others.  A variable notes the flag twice,
and the second note is the same in any case.
-/
import SymbolAtlas.Proofs.Source.Headings
import SymbolAtlas.Proofs.Source.Introduced

namespace SymbolAtlas

/-! ## Marks and their reach -/

/-- There is a mark in front, and no item behind it ends its reach. -/
def MarkedSince (ends : FileItem → Bool) (before : List FileItem) : Prop :=
  ∃ first rest, before = first ++ .exportNext :: rest ∧ ∀ i ∈ rest, ends i = false

/-- A mark passes a default export and reaches a declaration that it is not meant for. -/
def LeaksMark (items : List FileItem) : Prop :=
  ∃ first between passed more i rest,
    items = first ++ .exportNext :: between ++ passed :: more ++ i :: rest ∧
    (∀ j ∈ between, j.takesExportMark = false) ∧ passed.isDefaultExport = true ∧
    (∀ j ∈ more, j.declares = false ∧ j.isExportMark = false) ∧ i.takesExportMark = true

section Reach

variable {ends : FileItem → Bool} {before : List FileItem}

theorem not_markedSince_nil : ¬ MarkedSince ends [] := by
  intro h
  obtain ⟨first, rest, heq, -⟩ := h
  exact List.append_ne_nil_of_right_ne_nil first (List.cons_ne_nil _ rest) heq.symm

theorem markedSince_concat {i : FileItem} :
    MarkedSince ends (before ++ [i]) ↔
      i = .exportNext ∨ (ends i = false ∧ MarkedSince ends before) := by
  constructor
  · intro h
    obtain ⟨first, rest, heq, hrest⟩ := h
    cases rest using List.reverseRecOn with
    | nil => exact Or.inl (List.singleton_inj.mp (List.append_inj_right' heq rfl))
    | append_singleton rest j =>
      have hsplit : before ++ [i] = (first ++ .exportNext :: rest) ++ [j] := by
        rw [heq, List.append_assoc, List.cons_append]
      obtain ⟨hbefore, hlast⟩ := List.append_inj' hsplit rfl
      obtain rfl := List.singleton_inj.mp hlast
      exact Or.inr ⟨hrest i (by simp), first, rest, hbefore, fun j hj => hrest j (by simp [hj])⟩
  · intro h
    rcases h with rfl | ⟨hi, first, rest, rfl, hrest⟩
    · exact ⟨before, [], rfl, List.forall_mem_nil _⟩
    · refine ⟨first, rest ++ [i], by simp, ?_⟩
      intro j hj
      rcases List.mem_append.mp hj with hold | hnew
      · exact hrest j hold
      · rw [List.mem_singleton.mp hnew]
        exact hi

/-- Items that neither mark nor end anything change nothing. -/
theorem markedSince_append {more : List FileItem}
    (hmore : ∀ i ∈ more, ends i = false ∧ i.isExportMark = false) :
    MarkedSince ends (before ++ more) ↔ MarkedSince ends before := by
  induction more using List.reverseRecOn with
  | nil => rw [List.append_nil]
  | append_singleton more i ih =>
    obtain ⟨hends, hmark⟩ := hmore i (by simp)
    have hne : i ≠ .exportNext := by
      intro heq
      rw [heq] at hmark
      cases hmark
    rw [← List.append_assoc, markedSince_concat, ih fun j hj => hmore j (by simp [hj])]
    simp [hne, hends]

theorem FileItem.declares_of_takesExportMark {i : FileItem} (h : i.takesExportMark = true) :
    i.declares = true := by
  rw [takesExportMark, Bool.and_eq_true] at h
  exact h.1

theorem FileItem.takesExportMark_of_not_declares {i : FileItem} (h : i.declares = false) :
    i.takesExportMark = false := by
  rw [takesExportMark, h, Bool.false_and]

theorem FileItem.takesExportMark_of_isDefaultExport {i : FileItem}
    (h : i.isDefaultExport = true) : i.takesExportMark = false := by
  rw [takesExportMark, h, Bool.not_true, Bool.and_false]

theorem FileItem.declares_of_isDefaultExport {i : FileItem} (h : i.isDefaultExport = true) :
    i.declares = true := by
  cases i with
  | defaultExport name wrapper => rfl
  | defaultExportFunction name is => rfl
  | _ => cases h

/-- A mark that reaches a place past declarations only has passed a last one of them. -/
theorem exists_last_declaring {items : List FileItem} (h : ∃ i ∈ items, i.declares = true) :
    ∃ first i rest, items = first ++ i :: rest ∧ i.declares = true ∧
      ∀ j ∈ rest, j.declares = false := by
  induction items with
  | nil =>
    obtain ⟨i, hi, -⟩ := h
    cases hi
  | cons j items ih =>
    by_cases hlater : ∃ i ∈ items, i.declares = true
    · obtain ⟨first, i, rest, rfl, hi⟩ := ih hlater
      exact ⟨j :: first, i, rest, rfl, hi⟩
    · obtain ⟨i, hi, hdeclares⟩ := h
      rcases List.mem_cons.mp hi with rfl | hi
      · refine ⟨[], i, items, rfl, hdeclares, fun k hk => ?_⟩
        exact Bool.eq_false_iff.mpr fun hk' => hlater ⟨k, hk, hk'⟩
      · exact absurd ⟨i, hi, hdeclares⟩ hlater

theorem MarkedSince.mono {ends' : FileItem → Bool} (hle : ∀ i, ends i = false → ends' i = false)
    (h : MarkedSince ends before) : MarkedSince ends' before := by
  obtain ⟨first, rest, heq, hrest⟩ := h
  exact ⟨first, rest, heq, fun i hi => hle i (hrest i hi)⟩

/-- Where the two readings of a mark differ, it has passed a default export. -/
theorem markedSince_differ_iff :
    (MarkedSince FileItem.takesExportMark before ∧ ¬ MarkedSince FileItem.declares before) ↔
      ∃ first between passed more, before = first ++ .exportNext :: between ++ passed :: more ∧
        (∀ j ∈ between, j.takesExportMark = false) ∧ passed.isDefaultExport = true ∧
        ∀ j ∈ more, j.declares = false ∧ j.isExportMark = false := by
  constructor
  · intro h
    obtain ⟨⟨first, rest, rfl, hrest⟩, hnot⟩ := h
    have hpassed : ∃ i ∈ rest, i.declares = true := by
      by_contra hnone
      refine hnot ⟨first, rest, rfl, fun i hi => ?_⟩
      exact Bool.eq_false_iff.mpr fun hdeclares => hnone ⟨i, hi, hdeclares⟩
    obtain ⟨between, passed, more, rfl, hdeclares, hmore⟩ := exists_last_declaring hpassed
    refine ⟨first, between, passed, more, by simp, fun j hj => hrest j (by simp [hj]), ?_, ?_⟩
    · have htakes := hrest passed (by simp)
      rw [FileItem.takesExportMark, hdeclares, Bool.true_and] at htakes
      simpa using htakes
    · intro j hj
      refine ⟨hmore j hj, Bool.eq_false_iff.mpr fun hmark => hnot ?_⟩
      -- A mark behind the last declaration would hold in both readings.
      obtain ⟨a, b, rfl⟩ := List.append_of_mem hj
      have hj : j = .exportNext := by
        cases j with
        | exportNext => rfl
        | _ => cases hmark
      refine ⟨first ++ .exportNext :: between ++ passed :: a, b, by simp [hj], ?_⟩
      exact fun k hk => hmore k (by simp [hk])
  · intro h
    obtain ⟨first, between, passed, more, rfl, hbetween, hpassed, hmore⟩ := h
    constructor
    · refine ⟨first, between ++ passed :: more, by simp, ?_⟩
      intro j hj
      rcases List.mem_append.mp hj with hj | hj
      · exact hbetween j hj
      · rcases List.mem_cons.mp hj with rfl | hj
        · exact FileItem.takesExportMark_of_isDefaultExport hpassed
        · exact FileItem.takesExportMark_of_not_declares (hmore j hj).1
    · have hdeclares := FileItem.declares_of_isDefaultExport hpassed
      have hne : passed ≠ .exportNext := by
        intro heq
        rw [heq] at hdeclares
        cases hdeclares
      rw [List.append_cons, markedSince_append hmore, markedSince_concat, hdeclares]
      simp [hne]

end Reach

/-! ## One opening -/

namespace Draft

/-- Behind the items of an opening the mark is set just if one of them set it and no declaration
took it. -/
theorem exportNext_items_iff {d : Draft} (hd : d.exportNext = false) (is : List FileItem) :
    (is.foldl item d).exportNext = true ↔ MarkedSince FileItem.takesExportMark is := by
  induction is using List.reverseRecOn with
  | nil => simp [hd, not_markedSince_nil]
  | append_singleton is i ih =>
    have hmark : i.isExportMark = true ↔ i = .exportNext := by
      cases i <;> simp [FileItem.isExportMark]
    rw [List.foldl_concat, exportNext_item, markedSince_concat, Bool.or_eq_true, Bool.and_eq_true,
      Bool.not_eq_true', hmark, ih, and_comm]

theorem path_items (d : Draft) (is : List FileItem) : (is.foldl item d).path = d.path := by
  induction is generalizing d with
  | nil => rfl
  | cons i is ih => rw [List.foldl_cons, ih, path_item]

theorem length_heading? (d : Draft) (i : FileItem) :
    (d.heading? i).toList.length = if i.declares then 1 else 0 := by
  rw [heading?, FileItem.declares]
  cases i.declaredName? with
  | none => rfl
  | some name => rfl

theorem length_headings_items (d : Draft) (is : List FileItem) :
    (is.foldl item d).workspace.headings.length =
      d.workspace.headings.length + is.countP FileItem.declares := by
  induction is generalizing d with
  | nil => rfl
  | cons i is ih =>
    rw [List.foldl_cons, ih, headings_item, List.length_append, length_heading?, List.countP_cons]
    omega

theorem headings_prefix_items (d : Draft) (is : List FileItem) :
    d.workspace.headings <+: (is.foldl item d).workspace.headings := by
  induction is generalizing d with
  | nil => exact List.prefix_rfl
  | cons i is ih =>
    refine List.IsPrefix.trans ?_ (ih (d.item i))
    rw [headings_item]
    exact List.prefix_append _ _

/-- The heading of an item stands behind those of the items in front of it. -/
theorem headings_at (d : Draft) (before : List FileItem) (i : FileItem) (rest : List FileItem)
    (hi : i.declares = true) :
    ((before ++ i :: rest).foldl item d).workspace.headings[d.workspace.headings.length +
      before.countP FileItem.declares]? = (before.foldl item d).heading? i := by
  let d' := before.foldl item d
  obtain ⟨name, hname⟩ := Option.isSome_iff_exists.mp hi
  obtain ⟨x, hx⟩ : ∃ x, d'.heading? i = some x := ⟨_, by rw [heading?, hname]; rfl⟩
  obtain ⟨more, hmore⟩ := headings_prefix_items (d'.item i) rest
  rw [List.foldl_append, List.foldl_cons, ← length_headings_items, ← hmore, headings_item, hx,
    Option.toList_some, List.append_assoc, List.getElem?_append_right (Nat.le_refl _),
    Nat.sub_self]
  rfl

end Draft

/-! ## Programs -/

namespace Workspace

/-- The declaration that the item behind `before` makes when the sketch is written. -/
def declaredBehind? (w : Workspace) (s : FileSketch) (before : List FileItem) :
    Option Declaration :=
  (w.add s).declarations[w.declarations.length + before.countP FileItem.declares]?

variable (w : Workspace) (s : FileSketch)

theorem length_declarations_add :
    (w.add s).declarations.length = w.declarations.length + s.items.countP FileItem.declares := by
  have hlength := (w.openFile s.path s.generated).length_headings_items s.items
  have hopen : (w.openFile s.path s.generated).workspace.headings = w.headings :=
    w.headings_addFile s.path s.generated
  rw [hopen] at hlength
  rwa [headings, headings, List.length_map, List.length_map] at hlength

theorem declaredBehind?_eq {before rest : List FileItem} {i : FileItem}
    (hs : s.items = before ++ i :: rest) (hi : i.declares = true) :
    ∃ x, w.declaredBehind? s before = some x ∧ i.declaredName? = some x.name ∧
      x.file = s.path ∧ x.isDefaultExport = i.isDefaultExport ∧
      (x.exported = true ↔
        i.isDefaultExport = true ∨ MarkedSince FileItem.takesExportMark before) := by
  let d := w.openFile s.path s.generated
  have hopen : d.workspace.headings = w.headings := w.headings_addFile s.path s.generated
  have hat := d.headings_at before i rest hi
  rw [← hs, hopen, headings, headings, List.length_map, List.getElem?_map] at hat
  obtain ⟨name, hname⟩ := Option.isSome_iff_exists.mp hi
  rw [Draft.heading?, hname, Option.map_some] at hat
  obtain ⟨x, hx, hheading⟩ := Option.map_eq_some_iff.mp hat
  refine ⟨x, hx, ?_, ?_, congrArg Heading.isDefaultExport hheading, ?_⟩
  · rw [hname]
    exact congrArg some (congrArg Heading.name hheading).symm
  · exact (congrArg Heading.file hheading).trans (d.path_items before)
  · have hexported : x.exported = (i.isDefaultExport || (before.foldl Draft.item d).exportNext) :=
      congrArg Heading.exported hheading
    rw [hexported, Bool.or_eq_true, Draft.exportNext_items_iff rfl]

/-- Where a mark leaks, the declaration it reaches is exported and was not meant to be. -/
theorem meant_exports_iff :
    (∀ before i rest x, s.items = before ++ i :: rest → i.declares = true →
        w.declaredBehind? s before = some x →
        (x.exported = true ↔ i.isDefaultExport = true ∨ MarkedSince FileItem.declares before)) ↔
      ¬ LeaksMark s.items := by
  constructor
  · intro hmeant hleaks
    obtain ⟨first, between, passed, more, i, rest, hs, hbetween, hpassed, hmore, hi⟩ := hleaks
    have hdeclares := FileItem.declares_of_takesExportMark hi
    obtain ⟨x, hx, -, -, -, hexported⟩ := w.declaredBehind?_eq s hs hdeclares
    obtain ⟨hmarked, hunmarked⟩ :=
      markedSince_differ_iff.mpr ⟨first, between, passed, more, rfl, hbetween, hpassed, hmore⟩
    rcases (hmeant _ i rest x hs hdeclares hx).mp (hexported.mpr (Or.inr hmarked)) with h | h
    · rw [FileItem.takesExportMark_of_isDefaultExport h] at hi
      cases hi
    · exact hunmarked h
  · intro hkeeps before i rest x hs hi hx
    obtain ⟨y, hy, -, -, -, hexported⟩ := w.declaredBehind?_eq s hs hi
    obtain rfl : y = x := Option.some.inj (hy.symm.trans hx)
    rw [hexported]
    constructor
    · intro h
      by_cases hdefault : i.isDefaultExport = true
      · exact Or.inl hdefault
      · have hmarked := h.resolve_left hdefault
        by_contra hneither
        have hunmarked := fun hdeclares => hneither (Or.inr hdeclares)
        obtain ⟨first, between, passed, more, rfl, hleak⟩ :=
          markedSince_differ_iff.mp ⟨hmarked, hunmarked⟩
        refine hkeeps ⟨first, between, passed, more, i, rest, hs, hleak.1, hleak.2.1, hleak.2.2, ?_⟩
        rw [FileItem.takesExportMark, hi, Bool.eq_false_iff.mpr hdefault]
        rfl
    · intro h
      refine h.imp id fun hdeclares => ?_
      exact hdeclares.mono fun _ => FileItem.takesExportMark_of_not_declares

/-- A variable's own name is mentioned with the variable's own flag. -/
theorem variableName_ofSketches (sketches : List FileSketch) {x : Declaration}
    (hx : x ∈ (ofSketches sketches).declarations) {initializer : Option Callable}
    (hshape : x.shape = .variable initializer) :
    ∃ m, ((ofSketches sketches).mentions.filter fun n => n.occurrence.handle = x.handle) = [m] ∧
      m.file = x.file ∧ m.name = x.name ∧ m.occurrence.role = .variableName x.exported := by
  have hnamed : x.isNameless = false := by rw [Declaration.isNameless, hshape]
  obtain ⟨m, hm, hintro⟩ := introduced_ofSketches sketches (.declaration x)
    (declaration_mem_symbols_iff.mpr ⟨hx, hnamed⟩)
  have hone := (sound_ofSketches sketches).numbered.filter_handle_eq hm
  rw [hintro.handle_eq] at hone
  refine ⟨m, hone, hintro.file_eq, hintro.name_eq, ?_⟩
  rw [hintro.role_eq, Definition.nameRole, hshape]
  rfl

/-- Each item that declares makes one declaration, a default export is exported in any case, and
another declaration just if there is a mark behind the last one that is no default export.  Each
variable's name is mentioned with the flag of the variable.  If the last declaration of any shape
is meant to end the reach of a mark, all flags are as they are meant just if no mark leaks. -/
theorem exported_as_marked_iff (sketches : List FileSketch) (s : FileSketch) :
    (ofSketches (sketches ++ [s])).declarations.length =
      (ofSketches sketches).declarations.length + s.items.countP FileItem.declares ∧
    (∀ before i rest, s.items = before ++ i :: rest → i.declares = true →
      ∃ x, (ofSketches sketches).declaredBehind? s before = some x ∧
        i.declaredName? = some x.name ∧ x.file = s.path ∧
        x.isDefaultExport = i.isDefaultExport ∧
        (x.exported = true ↔
          i.isDefaultExport = true ∨ MarkedSince FileItem.takesExportMark before)) ∧
    (∀ x ∈ (ofSketches (sketches ++ [s])).declarations, ∀ initializer,
      x.shape = .variable initializer →
      ∃ m, ((ofSketches (sketches ++ [s])).mentions.filter fun n =>
          n.occurrence.handle = x.handle) = [m] ∧
        m.file = x.file ∧ m.name = x.name ∧ m.occurrence.role = .variableName x.exported) ∧
    ((∀ before i rest x, s.items = before ++ i :: rest → i.declares = true →
        (ofSketches sketches).declaredBehind? s before = some x →
        (x.exported = true ↔ i.isDefaultExport = true ∨ MarkedSince FileItem.declares before)) ↔
      ¬ LeaksMark s.items) := by
  have hadd : ofSketches (sketches ++ [s]) = (ofSketches sketches).add s := List.foldl_concat ..
  refine ⟨?_, ?_, ?_, meant_exports_iff _ s⟩
  · rw [hadd, length_declarations_add]
  · exact fun before i rest hs hi => declaredBehind?_eq _ s hs hi
  · exact fun x hx initializer hshape => variableName_ofSketches _ hx hshape

/-- The variable behind a default export is exported by the mark in front of it. -/
theorem exported_past_default_export :
    ∃ s : FileSketch, s.items = [.exportNext, .defaultExport "load" none, .variable "limit"] ∧
      LeaksMark s.items ∧
      ((ofSketches [s]).declarations.map fun x => (x.name, x.exported)) =
        [("default", true), ("limit", true)] ∧
      ¬ MarkedSince FileItem.declares [.exportNext, .defaultExport "load" none] := by
  have hunmarked : ¬ MarkedSince FileItem.declares [.exportNext, .defaultExport "load" none] := by
    have hlast := @markedSince_concat FileItem.declares [.exportNext] (.defaultExport "load" none)
    rw [List.singleton_append] at hlast
    simp [hlast, FileItem.declares, FileItem.declaredName?]
  refine ⟨{ path := "config.ts", generated := false, items := _ }, rfl, ?_, rfl, hunmarked⟩
  exact ⟨[], [], .defaultExport "load" none, [], .variable "limit", [], rfl,
    List.forall_mem_nil _, rfl, List.forall_mem_nil _, rfl⟩

end Workspace
end SymbolAtlas
