/-
Mentions in the order of their places.

Every line of a file is taken once, from the top down, and the names on a line stand from left
to right.  A file that is opened again goes on below the last line that anything is mentioned
on.  A line without names is not remembered and may be taken a second time, but then nothing is
on it.  So the mentions of a file are recorded in the order of their places, as long as no line
and no column is beyond the limit, `Workspace.Fits`, and no item gives a place of its own.

Then no two mentions of a file have the same place.  References are listed once for each place,
and this drops none of them, `mentions_ascend_and_references_stay`.
-/
import SymbolAtlas.Lookup.Reference
import SymbolAtlas.Proofs.Lookup.Origin
import SymbolAtlas.Proofs.Source.Growth
import SymbolAtlas.Proofs.Source.Lines

namespace SymbolAtlas

instance : LT Position where
  lt p q := p.line < q.line ∨ (p.line = q.line ∧ p.column < q.column)

theorem Position.lt_iff {p q : Position} :
    p < q ↔ p.line < q.line ∨ (p.line = q.line ∧ p.column < q.column) := Iff.rfl

theorem Position.ne_of_lt {p q : Position} (h : p < q) : p ≠ q := by
  rintro rfl
  rw [Position.lt_iff] at h
  omega

/-! ## Room for a sketch -/

/-- No line and no column is beyond the limit if the sketch is written below a line. -/
structure FileSketch.FitsBelow (s : FileSketch) (n : Nat) : Prop where
  lines : n + s.lines.length < placeLimit
  columns : ∀ l ∈ s.lines, ∀ x ∈ l.words, x.column < placeLimit

/-- Each sketch fits below what is mentioned in its file when it is opened. -/
def Workspace.Fits (w : Workspace) : List FileSketch → Prop
  | [] => True
  | s :: ss => s.FitsBelow (w.lastLine s.path) ∧ (w.add s).Fits ss

instance (s : FileSketch) (n : Nat) : Decidable (s.FitsBelow n) :=
  decidable_of_iff (n + s.lines.length < placeLimit ∧
      ∀ l ∈ s.lines, ∀ x ∈ l.words, x.column < placeLimit)
    ⟨fun h => ⟨h.1, h.2⟩, fun h => ⟨h.lines, h.columns⟩⟩

instance Workspace.decidableFits (w : Workspace) :
    (sketches : List FileSketch) → Decidable (w.Fits sketches)
  | [] => isTrue trivial
  | s :: ss =>
    have := (w.add s).decidableFits ss
    inferInstanceAs (Decidable (_ ∧ _))

/-! ## Lines one below the other -/

theorem wrapPlace_of_lt {n : Nat} (h : n < placeLimit) : wrapPlace n = n := Nat.mod_eq_of_lt h

theorem Line.pairwise_sightings (l : Line) (hcolumns : ∀ x ∈ l.words, x.column < placeLimit)
    (file : String) (number : Nat) :
    (l.sightings file number).Pairwise fun x y => x.position < y.position := by
  rw [Line.sightings, List.pairwise_map]
  refine (List.pairwise_map.mp l.ascending).imp_of_mem fun hx hy hlt => Or.inr ⟨rfl, ?_⟩
  rw [wrapPlace_of_lt (hcolumns _ hx), wrapPlace_of_lt (hcolumns _ hy)]
  exact hlt

section Below

variable {n : Nat} {ls : List Line} {file : String}

theorem of_mem_sightingsBelow (h : n + ls.length < placeLimit) {x : Sighting}
    (hx : x ∈ sightingsBelow file n ls) : x.file = file ∧ n < x.position.line := by
  induction ls generalizing n with
  | nil => cases hx
  | cons l ls ih =>
    rw [List.length_cons] at h
    rw [sightingsBelow, wrapPlace_of_lt (by omega)] at hx
    rcases List.mem_append.mp hx with hfirst | hrest
    · obtain ⟨word, -, rfl⟩ := List.mem_map.mp hfirst
      exact ⟨rfl, Nat.lt_succ_self n⟩
    · obtain ⟨hfile, hline⟩ := ih (by omega) hrest
      exact ⟨hfile, by omega⟩

theorem pairwise_sightingsBelow (h : n + ls.length < placeLimit)
    (hcolumns : ∀ l ∈ ls, ∀ x ∈ l.words, x.column < placeLimit) :
    (sightingsBelow file n ls).Pairwise fun x y => x.position < y.position := by
  induction ls generalizing n with
  | nil => exact .nil
  | cons l ls ih =>
    obtain ⟨hl, hls⟩ := List.forall_mem_cons.mp hcolumns
    rw [List.length_cons] at h
    have hrest : n + 1 + ls.length < placeLimit := by omega
    rw [sightingsBelow, wrapPlace_of_lt (by omega), List.pairwise_append]
    refine ⟨l.pairwise_sightings hl file (n + 1), ih hrest hls, ?_⟩
    intro x hx y hy
    obtain ⟨word, -, rfl⟩ := List.mem_map.mp hx
    exact Or.inl (of_mem_sightingsBelow hrest hy).2

end Below

/-! ## Programs -/

theorem le_foldl_max {n : Nat} {ns : List Nat} (h : n ∈ ns) (start : Nat) :
    n ≤ ns.foldl max start := by
  have hstart (ns : List Nat) (start : Nat) : start ≤ ns.foldl max start := by
    induction ns generalizing start with
    | nil => exact Nat.le_refl start
    | cons m ms ih => exact Nat.le_trans (Nat.le_max_left start m) (ih (max start m))
  induction ns generalizing start with
  | nil => cases h
  | cons m ms ih =>
    rcases List.mem_cons.mp h with rfl | h
    · exact Nat.le_trans (Nat.le_max_right start n) (hstart ms (max start n))
    · exact ih h (max start m)

namespace Workspace

variable {w : Workspace}

theorem line_le_lastLine {x : Sighting} (hx : x ∈ w.sightings) :
    x.position.line ≤ w.lastLine x.file := by
  obtain ⟨m, hm, rfl⟩ := List.mem_map.mp hx
  have hmem : m ∈ w.mentionsIn m.file := List.mem_filter.mpr ⟨hm, decide_eq_true rfl⟩
  have hline : m.occurrence.position.line ∈
      (w.mentionsIn m.file).map fun n => n.occurrence.position.line :=
    List.mem_map.mpr ⟨m, hmem, rfl⟩
  exact le_foldl_max hline 0

/-- In every file the sightings are in the order of their places. -/
def Ascends (w : Workspace) : Prop :=
  ∀ path, (w.sightings.filter fun x => x.file = path).Pairwise fun x y => x.position < y.position

theorem ascends_iff : w.Ascends ↔ ∀ path,
    (w.mentionsIn path).Pairwise fun m n => m.occurrence.position < n.occurrence.position := by
  refine forall_congr' fun path => ?_
  rw [sightings, List.filter_map, List.pairwise_map]
  rfl

theorem Ascends.add (hw : w.Ascends) (htidy : w.Tidy) {s : FileSketch}
    (hs : ∀ i ∈ s.items, i.isPlaced = false) (hfits : s.FitsBelow (w.lastLine s.path)) :
    (w.add s).Ascends := by
  have hnew : ∀ x ∈ sightingsBelow s.path (w.lastLine s.path) s.lines,
      x.file = s.path ∧ w.lastLine s.path < x.position.line :=
    fun x hx => of_mem_sightingsBelow hfits.lines hx
  intro path
  rw [(sightings_add htidy s hs).2, List.filter_append]
  by_cases hpath : s.path = path
  · have hall : (sightingsBelow s.path (w.lastLine s.path) s.lines).filter
        (fun x => x.file = path) = sightingsBelow s.path (w.lastLine s.path) s.lines := by
      rw [List.filter_eq_self]
      intro x hx
      exact decide_eq_true ((hnew x hx).1.trans hpath)
    rw [hall, List.pairwise_append]
    refine ⟨hw path, pairwise_sightingsBelow hfits.lines hfits.columns, ?_⟩
    intro x hx y hy
    obtain ⟨hmem, hfile⟩ := List.mem_filter.mp hx
    have hle := line_le_lastLine hmem
    rw [of_decide_eq_true hfile, ← hpath] at hle
    exact Or.inl (Nat.lt_of_le_of_lt hle (hnew y hy).2)
  · have hnone : (sightingsBelow s.path (w.lastLine s.path) s.lines).filter
        (fun x => x.file = path) = [] := by
      rw [List.filter_eq_nil_iff]
      intro x hx
      rw [(hnew x hx).1, decide_eq_true_eq]
      exact hpath
    rw [hnone, List.append_nil]
    exact hw path

theorem ascends_foldl_add (hw : w.Ascends) (htidy : w.Tidy) {sketches : List FileSketch}
    (hplaced : ∀ s ∈ sketches, ∀ i ∈ s.items, i.isPlaced = false) (hfits : w.Fits sketches) :
    (sketches.foldl Workspace.add w).Ascends := by
  induction sketches generalizing w with
  | nil => exact hw
  | cons s ss ih =>
    obtain ⟨hs, hss⟩ := List.forall_mem_cons.mp hplaced
    exact ih (hw.add htidy hs hfits.1) (sightings_add htidy s hs).1 hss hfits.2

end Workspace

/-! ## References -/

namespace Atlas

variable {a : Atlas} {w : Workspace}

theorem pairwise_occurrencesIn (ha : a.source = w.snapshot) (hw : w.Ascends) (name : String)
    (d : Definition) (path : String) :
    (a.occurrencesIn name d path).Pairwise fun o o' => o.location ≠ o'.location := by
  have hsub : (w.mentions.filter fun m => m.file = path ∧ m.name = d.lookupName name).Sublist
      (w.mentionsIn path) := by
    refine List.monotone_filter_right _ fun m hm => ?_
    rw [decide_eq_true_eq] at hm ⊢
    exact hm.1
  have hplaces := (Workspace.ascends_iff.mp hw path).sublist hsub
  rw [occurrencesIn, ha, List.pairwise_map]
  show (w.occurrencesOf path (d.lookupName name)).Pairwise _
  rw [Workspace.occurrencesOf, List.pairwise_map]
  refine hplaces.imp ?_
  intro m n hlt heq
  exact Position.ne_of_lt hlt (congrArg Location.position heq)

/-- In a program whose mentions ascend no two occurrences have the same location. -/
theorem pairwise_allOccurrences (ha : a.source = w.snapshot) (hw : w.Ascends)
    (hnodup : (w.files.map SourceFile.path).Nodup) (name : String) (d : Definition)
    (internal : Bool) :
    (a.allOccurrences name d internal).Pairwise fun o o' => o.location ≠ o'.location := by
  have hpaths : (a.files.filter fun f => internal || f.path ≠ d.file).Pairwise
      fun f f' => f.path ≠ f'.path := by
    have hfiles : (a.files.filter fun f => internal || f.path ≠ d.file).Sublist w.files := by
      unfold files
      rw [ha]
      exact List.filter_sublist.trans List.filter_sublist
    exact (List.pairwise_map.mp hnodup).sublist hfiles
  rw [allOccurrences, List.pairwise_flatMap]
  refine ⟨fun f _ => pairwise_occurrencesIn ha hw name d f.path, hpaths.imp ?_⟩
  intro f f' hne o ho o' ho' heq
  obtain ⟨n, -, rfl⟩ := List.mem_map.mp ho
  obtain ⟨n', -, rfl⟩ := List.mem_map.mp ho'
  exact hne (congrArg Location.file heq)

end Atlas

/-- Where no item gives a place of its own and no line or column is beyond the limit, the
mentions of each file are recorded in the order of their places, however often the file is
opened, and every occurrence that counts is listed as a reference. -/
theorem mentions_ascend_and_references_stay (sketches : List FileSketch)
    (hplaced : ∀ s ∈ sketches, ∀ i ∈ s.items, i.isPlaced = false)
    (hfits : ({} : Workspace).Fits sketches) :
    (∀ path, ((Workspace.ofSketches sketches).mentionsIn path).Pairwise fun m n =>
      m.occurrence.position < n.occurrence.position) ∧
    ∀ settings name d internal,
      (Atlas.ofSketches sketches settings).collectReferences name d internal =
        ((Atlas.ofSketches sketches settings).allOccurrences name d internal).filter
          Occurrence.valid := by
  have hempty : ({} : Workspace).Ascends := fun _ => .nil
  have hascends := Workspace.ascends_foldl_add hempty Workspace.tidy_empty hplaced hfits
  refine ⟨Workspace.ascends_iff.mp hascends, fun settings name d internal => ?_⟩
  have hlocations := Atlas.pairwise_allOccurrences (a := Atlas.ofSketches sketches settings) rfl
    hascends (Workspace.nodup_paths_ofSketches sketches) name d internal
  exact distinctBy_eq_self Occurrence.location (hlocations.sublist List.filter_sublist)

/-- A file is left with a line that has no names and opened again, and lines have two names. -/
def reopenedSketches : List FileSketch :=
  [{ path := "cart.ts", generated := false
     items := [.reExport "Item" (some "Entry"), .defaultExportFunction none []] },
   { path := "main.ts", generated := false
     items := [.function "main" [.renderWith "Cart" [.callMember "cart.items" "add",
       .callThis "add"]]] },
   { path := "cart.ts", generated := false
     items := [.classDecl "Cart" [.base "ui.Component", .method "add" [.call "Item"]]] }]

theorem references_stay_reopened :
    (∀ s ∈ reopenedSketches, ∀ i ∈ s.items, i.isPlaced = false) ∧
    ({} : Workspace).Fits reopenedSketches ∧
    ((Workspace.ofSketches reopenedSketches).mentionsIn "cart.ts").Pairwise (fun m n =>
      m.occurrence.position < n.occurrence.position) ∧
    ∀ d, (Atlas.ofSketches reopenedSketches {}).collectReferences "add" d true =
      ((Atlas.ofSketches reopenedSketches {}).allOccurrences "add" d true).filter
        Occurrence.valid := by
  have hplaced : ∀ s ∈ reopenedSketches, ∀ i ∈ s.items, i.isPlaced = false := by decide
  have hfits : ({} : Workspace).Fits reopenedSketches := by decide +kernel
  obtain ⟨hascend, hstay⟩ := mentions_ascend_and_references_stay reopenedSketches hplaced hfits
  exact ⟨hplaced, hfits, hascend "cart.ts", fun d => hstay {} "add" d true⟩

end SymbolAtlas
