/-
What writing can change.

An item of a sketch may nest as deep as it likes, but it is written in steps of
five kinds, `Draft.Step`, and `runs_item` says that writing it is a run of them.
What a run keeps is then proved for one step at a time.

The main use is `grows_add`: writing a file only adds to a workspace, its new
declarations belong to that file, and what it says of types is about handles that
were not given out before.  Only opening a file changes the file list, so no path
stands in it twice, `nodup_paths_ofSketches`.
-/
import SymbolAtlas.Distinct
import SymbolAtlas.Source.Draft
import Mathlib.Logic.Relation
import Mathlib.Data.List.Infix

namespace SymbolAtlas
namespace Draft

/-! ## Steps -/

inductive Step (d : Draft) : Draft → Prop
  | move (line : Nat) (exportNext hidePosition : Bool) :
    Step d { d with line := line, exportNext := exportNext, hidePosition := hidePosition }
  | record (name : String) (role : Role) (position : Position) (frames : List Frame) :
    Step d (d.record name role position frames)
  | skipHandle : Step d d.skipHandle
  | infer (type : String) : Step d (d.skipHandle.inferType d.nextHandle type)
  | declare (name : String) (shape : Shape) (position : Position) (exported : Bool)
      (handle : Handle) : Step d (d.declare name shape position exported handle)

abbrev Runs : Draft → Draft → Prop := Relation.ReflTransGen Step

theorem Runs.move {d d' : Draft} (h : d.Runs d') (line : Nat) (exportNext hidePosition : Bool) :
    d.Runs { d' with line := line, exportNext := exportNext, hidePosition := hidePosition } :=
  h.tail (.move line exportNext hidePosition)

theorem Runs.newLine {d d' : Draft} (h : d.Runs d') : d.Runs d'.newLine :=
  h.move _ d'.exportNext d'.hidePosition

theorem Runs.skipHandle {d d' : Draft} (h : d.Runs d') : d.Runs d'.skipHandle :=
  h.tail .skipHandle

theorem Runs.record {d d' : Draft} (h : d.Runs d') (name : String) (role : Role)
    (position : Position) (frames : List Frame) :
    d.Runs (d'.record name role position frames) :=
  h.tail (.record name role position frames)

theorem Runs.mention {d d' : Draft} (h : d.Runs d') (name : String) (role : Role)
    (frames : List Frame) : d.Runs (d'.mention name role frames) :=
  h.newLine.record name role _ frames

theorem Runs.declare {d d' : Draft} (h : d.Runs d') (name : String) (shape : Shape)
    (position : Position) (exported : Bool) (handle : Handle) :
    d.Runs (d'.declare name shape position exported handle) :=
  h.tail (.declare name shape position exported handle)

/-! ## Bodies -/

namespace InBody

/-- What the operations on a body keep. -/
structure Kept (P : InBody → Prop) : Prop where
  mention {s : InBody} (frames : List Frame) (name : String) (role : Role) :
    P s → P (s.mention name role frames)
  param {s : InBody} (frames : List Frame) (name : String) (writtenType : Option String) :
    P s → P (s.param frames name writtenType)
  paramInferred {s : InBody} (name type : String) : P s → P (s.paramInferred name type)
  call {s : InBody} (frames : List Frame) (name : String) (isNew : Bool) :
    P s → P (s.call frames name isNew)
  callMember {s : InBody} (frames : List Frame) (object property : String) :
    P s → P (s.callMember frames object property)
  render {s : InBody} (frames : List Frame) (tag : String) : P s → P (s.render frames tag)

mutual

theorem Kept.item {P : InBody → Prop} (hP : Kept P) (frames : List Frame) {s : InBody}
    (h : P s) (i : BodyItem) : P (item frames s i) := by
  cases i with
  | param name writtenType => exact hP.param frames name writtenType h
  | paramInferred name type => exact hP.paramInferred name type h
  | call name => exact hP.call frames name false h
  | callMember object property => exact hP.callMember frames object property h
  | callThis method => exact hP.callMember frames "this" method h
  | construct name => exact hP.call frames name true h
  | render tag => exact hP.render frames tag h
  | renderWith tag children =>
    rw [InBody.item]
    exact hP.items (frames ++ [.markup tag]) (hP.render frames tag h) children
  | typeRef name => exact hP.mention frames name .typeReference h
  | reference name => exact hP.mention frames name .identifier h
  | occurrence name role => exact hP.mention frames name role h

theorem Kept.items {P : InBody → Prop} (hP : Kept P) (frames : List Frame) {s : InBody}
    (h : P s) (is : List BodyItem) : P (items frames s is) := by
  cases is with
  | nil => exact h
  | cons i is => exact hP.items frames (hP.item frames h i) is

end

theorem kept_runs (d : Draft) : Kept fun s => d.Runs s.draft where
  mention frames name role h := h.mention name role frames
  param := by
    intro s frames name writtenType h
    cases writtenType with
    | none => exact h.skipHandle
    | some type => exact h.skipHandle.mention type .typeReference frames
  paramInferred name type h := h.tail (.infer type)
  call frames name isNew h := h.mention name _ frames
  callMember := by
    intro s frames object property h
    simp only [InBody.callMember]
    split
    · exact h.newLine.record _ _ _ frames
    · exact (h.newLine.record _ _ _ frames).record _ _ _ frames
  render frames tag h := h.mention tag .markupTag frames

end InBody

theorem Runs.body {d d' : Draft} (h : d.Runs d') (frames : List Frame) (is : List BodyItem) :
    d.Runs (d'.body frames is).draft :=
  (InBody.kept_runs d).items frames (s := { draft := d' }) h is

/-! ## Classes and files -/

theorem InClass.runs_item {d : Draft} {s : InClass} (h : d.Runs s.draft) (className : String)
    (i : ClassItem) : d.Runs (s.item className i).draft := by
  cases i with
  | base base =>
    show d.Runs (s.heritage className base).draft
    unfold InClass.heritage
    split
    · exact (h.newLine.record _ _ _ _).record _ _ _ _
    · exact h.newLine.record _ _ _ _
  | member name kind visibility isStatic is => exact (h.mention name _ _).body _ is
  | property name visibility isStatic initializerCall => exact h.mention name _ _

theorem InClass.runs_items {d : Draft} {s : InClass} (h : d.Runs s.draft) (className : String)
    (is : List ClassItem) : d.Runs (is.foldl (InClass.item className) s).draft := by
  induction is generalizing s with
  | nil => exact h
  | cons i is ih => exact ih (InClass.runs_item h className i)

theorem runs_item (d : Draft) (i : FileItem) : d.Runs (d.item i) := by
  have hstart : d.Runs d := .refl
  have hunmarked : d.Runs { d with exportNext := false } :=
    hstart.move d.line false d.hidePosition
  cases i with
  | exportNext => exact hstart.move d.line true d.hidePosition
  | withoutPosition => exact hstart.move d.line d.exportNext true
  | importName name => exact hstart.mention name _ []
  | defaultImport name => exact hstart.mention name _ []
  | exportSpecifier name => exact hstart.mention name _ []
  | reExport name newName =>
    cases newName with
    | none => exact hstart.newLine.record _ _ _ []
    | some newName => exact (hstart.newLine.record _ _ _ []).record _ _ _ []
  | interface name => exact (hunmarked.mention name _ []).declare _ _ _ _ _
  | enumeration name => exact (hunmarked.mention name _ []).declare _ _ _ _ _
  | «variable» name => exact (hunmarked.mention name _ []).declare _ _ _ _ _
  | function name is => exact ((hunmarked.mention name _ []).body _ is).declare _ _ _ _ _
  | arrow name is => exact ((hunmarked.mention name _ []).body _ is).declare _ _ _ _ _
  | classDecl name is =>
    have hnamed := hunmarked.mention name .declarationName []
    exact (InClass.runs_items (s := { draft := _ }) hnamed name is).declare _ _ _ _ _
  | defaultExport name wrapper =>
    cases wrapper with
    | none => exact (hstart.newLine.record _ _ _ []).declare _ _ _ _ _
    | some w => exact ((hstart.newLine.record w _ _ []).record _ _ _ []).declare _ _ _ _ _
  | defaultExportFunction name is =>
    cases name with
    | none => exact (hstart.newLine.skipHandle.body _ is).declare _ _ _ _ _
    | some n => exact ((hstart.newLine.record n _ _ []).body _ is).declare _ _ _ _ _
  | reference name role => exact hstart.mention name role []
  | occurrenceAt name role position =>
    have hmoved := hstart.move (max d.line position.line) d.exportNext d.hidePosition
    exact hmoved.record name role position []

theorem runs_items (d : Draft) (is : List FileItem) : d.Runs (is.foldl item d) := by
  induction is generalizing d with
  | nil => exact .refl
  | cons i is ih => exact (runs_item d i).trans (ih (d.item i))

end Draft

/-! ## Growth -/

namespace Workspace

/-- The second workspace is the first with more in it, where new declarations are at
the top of the file `path` and new types are those of new handles. -/
structure Grows (path : String) (w w' : Workspace) : Prop where
  files : w.files <+: w'.files
  declarations : ∃ new, w'.declarations = w.declarations ++ new ∧
    ∀ d ∈ new, d.file = path ∧ d.container = .module
  mentions : w.mentions <+: w'.mentions
  typeTexts : ∃ new, w'.typeTexts = w.typeTexts ++ new ∧ ∀ row ∈ new, w.nextHandle ≤ row.1
  nextHandle_le : w.nextHandle ≤ w'.nextHandle

variable {path : String} {w w' w'' : Workspace}

theorem Grows.trans (h : w.Grows path w') (h' : w'.Grows path w'') : w.Grows path w'' := by
  obtain ⟨declared, hdeclared, hplace⟩ := h.declarations
  obtain ⟨declared', hdeclared', hplace'⟩ := h'.declarations
  obtain ⟨typed, htyped, hnew⟩ := h.typeTexts
  obtain ⟨typed', htyped', hnew'⟩ := h'.typeTexts
  refine ⟨h.files.trans h'.files, ⟨declared ++ declared', ?_, ?_⟩, h.mentions.trans h'.mentions,
    ⟨typed ++ typed', ?_, ?_⟩, Nat.le_trans h.nextHandle_le h'.nextHandle_le⟩
  · rw [hdeclared', hdeclared, List.append_assoc]
  · exact List.forall_mem_append.mpr ⟨hplace, hplace'⟩
  · rw [htyped', htyped, List.append_assoc]
  · refine List.forall_mem_append.mpr ⟨hnew, fun row hrow => ?_⟩
    exact Nat.le_trans h.nextHandle_le (hnew' row hrow)

/-- Most changes leave declarations and types alone. -/
theorem grows_of_eq (hfiles : w.files <+: w'.files) (hdecl : w'.declarations = w.declarations)
    (hmentions : w.mentions <+: w'.mentions) (htypes : w'.typeTexts = w.typeTexts)
    (hnext : w.nextHandle ≤ w'.nextHandle) : w.Grows path w' where
  files := hfiles
  declarations := ⟨[], by rw [hdecl, List.append_nil], List.forall_mem_nil _⟩
  mentions := hmentions
  typeTexts := ⟨[], by rw [htypes, List.append_nil], List.forall_mem_nil _⟩
  nextHandle_le := hnext

theorem Grows.refl (path : String) (w : Workspace) : w.Grows path w :=
  grows_of_eq List.prefix_rfl rfl List.prefix_rfl rfl (Nat.le_refl _)

theorem grows_step {d d' : Draft} (h : d.Step d') :
    d'.path = d.path ∧ d.workspace.Grows d.path d'.workspace := by
  cases h with
  | move line exportNext hidePosition => exact ⟨rfl, .refl d.path d.workspace⟩
  | record name role position frames =>
    exact ⟨rfl, grows_of_eq List.prefix_rfl rfl (List.prefix_append _ _) rfl (Nat.le_succ _)⟩
  | skipHandle =>
    exact ⟨rfl, grows_of_eq List.prefix_rfl rfl List.prefix_rfl rfl (Nat.le_succ _)⟩
  | infer type =>
    refine ⟨rfl, List.prefix_rfl, ⟨[], (List.append_nil _).symm, List.forall_mem_nil _⟩,
      List.prefix_rfl, ⟨[(d.nextHandle, type)], rfl, ?_⟩, Nat.le_succ _⟩
    exact List.forall_mem_singleton.mpr (Nat.le_refl d.workspace.nextHandle)
  | declare name shape position exported handle =>
    refine ⟨rfl, List.prefix_rfl, ⟨_, rfl, ?_⟩, List.prefix_rfl,
      ⟨[], (List.append_nil _).symm, List.forall_mem_nil _⟩, Nat.le_refl _⟩
    exact List.forall_mem_singleton.mpr ⟨rfl, rfl⟩

theorem grows_runs {d d' : Draft} (h : d.Runs d') :
    d'.path = d.path ∧ d.workspace.Grows d.path d'.workspace := by
  induction h with
  | refl => exact ⟨rfl, .refl d.path d.workspace⟩
  | tail _ hstep ih =>
    obtain ⟨hpath, hgrows⟩ := grows_step hstep
    rw [ih.1] at hpath hgrows
    exact ⟨hpath, ih.2.trans hgrows⟩

theorem grows_addFile (w : Workspace) (path : String) (generated : Bool) :
    w.Grows path (w.addFile path generated) := by
  unfold addFile
  split
  · exact .refl path w
  · exact grows_of_eq (List.prefix_append _ _) rfl List.prefix_rfl rfl (Nat.le_refl _)

theorem grows_add (w : Workspace) (s : FileSketch) : w.Grows s.path (w.add s) :=
  (grows_addFile w s.path s.generated).trans
    (grows_runs (Draft.runs_items (w.openFile s.path s.generated) s.items)).2

/-! ## Files -/

theorem files_step {d d' : Draft} (h : d.Step d') : d'.workspace.files = d.workspace.files := by
  cases h <;> rfl

theorem files_runs {d d' : Draft} (h : d.Runs d') : d'.workspace.files = d.workspace.files := by
  induction h with
  | refl => rfl
  | tail _ hstep ih => exact (files_step hstep).trans ih

theorem files_add (w : Workspace) (s : FileSketch) :
    (w.add s).files = (w.addFile s.path s.generated).files :=
  files_runs (Draft.runs_items (w.openFile s.path s.generated) s.items)

theorem paths_addFile (w : Workspace) (path : String) (generated : Bool) :
    (w.addFile path generated).files.map SourceFile.path =
      addLast (w.files.map SourceFile.path) path := by
  have hmem : path ∈ w.files.map SourceFile.path ↔
      (w.files.any fun f => f.path = path) = true := by
    simp [List.any_eq_true]
  unfold addFile addLast
  split
  · next hold => rw [if_pos (hmem.mpr hold)]
  · next hnew => rw [if_neg (mt hmem.mp hnew), List.map_append, List.map_singleton]

/-- A path stands in the file list once, however often the file is opened. -/
theorem nodup_paths_ofSketches (sketches : List FileSketch) :
    ((ofSketches sketches).files.map SourceFile.path).Nodup := by
  have hempty : (({} : Workspace).files.map SourceFile.path).Nodup := List.nodup_nil
  refine List.foldlRecOn (motive := fun w => (w.files.map SourceFile.path).Nodup)
    sketches add hempty ?_
  intro w hw s _
  rw [files_add, paths_addFile]
  exact nodup_addLast hw

/-! ## What growth keeps -/

theorem Grows.declarationsIn_eq (h : w.Grows path w') {other : String} (hother : path ≠ other) :
    w'.declarationsIn other = w.declarationsIn other := by
  obtain ⟨new, hnew, hplace⟩ := h.declarations
  have hnone : new.filter (fun d => d.file = other) = [] := by
    rw [List.filter_eq_nil_iff]
    intro d hd
    rw [(hplace d hd).1, decide_eq_true_eq]
    exact hother
  rw [declarationsIn, hnew, List.filter_append, hnone, List.append_nil]
  rfl

theorem Grows.occurrencesOf_subset (h : w.Grows path w') (file name : String) :
    w.occurrencesOf file name ⊆ w'.occurrencesOf file name := by
  obtain ⟨new, hnew⟩ := h.mentions
  rw [occurrencesOf, occurrencesOf, ← hnew, List.filter_append, List.map_append]
  exact List.subset_append_left _ _

theorem Grows.typeText_eq (h : w.Grows path w') {k : Handle} (hk : k < w.nextHandle) :
    w'.typeTexts.lookup k = w.typeTexts.lookup k := by
  obtain ⟨new, hnew, hfresh⟩ := h.typeTexts
  have hnone : new.lookup k = none := by
    rw [List.lookup_eq_none_iff]
    intro row hrow
    have hne : k ≠ row.1 := Nat.ne_of_lt (Nat.lt_of_lt_of_le hk (hfresh row hrow))
    exact bne_iff_ne.mpr hne
  rw [hnew, List.lookup_append, hnone, Option.or_none]

theorem declarations_subset_foldl_add {w : Workspace} (sketches : List FileSketch) :
    w.declarations ⊆ (sketches.foldl add w).declarations := by
  induction sketches generalizing w with
  | nil => exact List.Subset.refl _
  | cons s ss ih =>
    obtain ⟨new, hnew, -⟩ := (grows_add w s).declarations
    have hfirst : w.declarations ⊆ (w.add s).declarations := by
      rw [hnew]
      exact List.subset_append_left _ _
    exact List.Subset.trans hfirst ih

theorem container_ofSketches (sketches : List FileSketch) :
    ∀ d ∈ (ofSketches sketches).declarations, d.container = .module := by
  have hempty : ∀ d ∈ ({} : Workspace).declarations, d.container = .module :=
    List.forall_mem_nil _
  refine List.foldlRecOn (motive := fun w => ∀ d ∈ w.declarations, d.container = .module)
    sketches add hempty ?_
  intro w hw s _ d hd
  obtain ⟨new, hnew, hplace⟩ := (grows_add w s).declarations
  rw [hnew] at hd
  rcases List.mem_append.mp hd with hold | hadded
  · exact hw d hold
  · exact (hplace d hadded).2

end Workspace
end SymbolAtlas
