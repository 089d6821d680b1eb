/-
What the items of a file declare.

An item declares one thing or nothing.  The heading of a declaration is what does not come from
inside of it: its file and name, its place, whether it is a default export and whether it is
exported.  Place and export hang on two marks, which an item in front of the declaration may have
set and which a draft carries along.

`headings_item` says which heading an item adds, and `exportNext_item` and `hidePosition_item` say
what it does to the marks.  The mark for the place is taken by the next declaration of any kind,
the mark for the export by the next one that is no default export: a default export is exported in
any case and leaves the mark alone.
-/
import SymbolAtlas.Proofs.Source.Growth
import SymbolAtlas.Proofs.Source.Nesting

namespace SymbolAtlas

/-! ## Items -/

namespace FileItem

/-- The name under which an item declares something. -/
def declaredName? : FileItem → Option String
  | .interface name => some name
  | .enumeration name => some name
  | .variable name => some name
  | .function name _ => some name
  | .arrow name _ => some name
  | .classDecl name _ => some name
  | .defaultExport .. => some defaultExportName
  | .defaultExportFunction name _ => some (name.getD defaultExportName)
  | _ => none

def declares (i : FileItem) : Bool := i.declaredName?.isSome

def isDefaultExport : FileItem → Bool
  | .defaultExport .. => true
  | .defaultExportFunction .. => true
  | _ => false

/-- Whether it marks the next declaration as exported. -/
def isExportMark : FileItem → Bool
  | .exportNext => true
  | _ => false

/-- Whether it takes the position of the next declaration away. -/
def hidesPosition : FileItem → Bool
  | .withoutPosition => true
  | _ => false

/-- A declaration to which a mark in front of it is meant. -/
def takesExportMark (i : FileItem) : Bool := i.declares && !i.isDefaultExport

end FileItem

/-! ## Headings -/

structure Heading where
  file : String
  name : String
  position : Option Position
  isDefaultExport : Bool
  exported : Bool

def Declaration.heading (x : Declaration) : Heading where
  file := x.file
  name := x.name
  position := x.position
  isDefaultExport := x.isDefaultExport
  exported := x.exported

def Workspace.headings (w : Workspace) : List Heading := w.declarations.map Declaration.heading

namespace Draft

/-- A heading on the next line. -/
def newHeading (d : Draft) (name : String) (isDefault exported : Bool) : Heading where
  file := d.path
  name := name
  position := if d.hidePosition then none else some d.newLine.here
  isDefaultExport := isDefault
  exported := exported

/-- The heading that an item gets in this draft, if it declares something. -/
def heading? (d : Draft) (i : FileItem) : Option Heading :=
  i.declaredName?.map fun name =>
    d.newHeading name i.isDefaultExport (i.isDefaultExport || d.exportNext)

/-! ## Marks inside a declaration -/

/-- The second draft carries the marks of the first one. -/
structure KeepsMarks (d d' : Draft) : Prop where
  exportNext_eq : d'.exportNext = d.exportNext
  hidePosition_eq : d'.hidePosition = d.hidePosition

theorem InBody.kept_marks (d : Draft) : Kept fun s => d.KeepsMarks s.draft where
  mention _ _ _ h := ⟨h.1, h.2⟩
  param := by
    intro s frames name writtenType h
    cases writtenType with
    | none => exact ⟨h.1, h.2⟩
    | some type => exact ⟨h.1, h.2⟩
  paramInferred _ _ h := ⟨h.1, h.2⟩
  call _ _ _ h := ⟨h.1, h.2⟩
  callMember := by
    intro s frames object property h
    simp only [InBody.callMember]
    split
    · exact ⟨h.1, h.2⟩
    · exact ⟨h.1, h.2⟩
  render _ _ h := ⟨h.1, h.2⟩

theorem keepsMarks_body (d : Draft) (frames : List Frame) (is : List BodyItem) :
    d.KeepsMarks (d.body frames is).draft :=
  (InBody.kept_marks d).items frames (s := { draft := d }) ⟨rfl, rfl⟩ is

theorem InClass.keepsMarks_item {d : Draft} {s : InClass} (h : d.KeepsMarks s.draft)
    (className : String) (i : ClassItem) : d.KeepsMarks (s.item className i).draft := by
  cases i with
  | base base =>
    show d.KeepsMarks (s.heritage className base).draft
    unfold InClass.heritage
    split
    · exact ⟨h.1, h.2⟩
    · exact ⟨h.1, h.2⟩
  | member name kind visibility isStatic is =>
    have hbody := (s.draft.mention name .declarationName [.classBody className]).keepsMarks_body
      [.classBody className, .method name] is
    exact ⟨hbody.1.trans h.1, hbody.2.trans h.2⟩
  | property name visibility isStatic initializerCall => exact ⟨h.1, h.2⟩

theorem InClass.keepsMarks_items (d : Draft) (className : String) (is : List ClassItem) :
    d.KeepsMarks (is.foldl (InClass.item className) { draft := d }).draft :=
  List.foldlRecOn (motive := fun s : InClass => d.KeepsMarks s.draft) is (InClass.item className)
    ⟨rfl, rfl⟩ fun _ h i _ => keepsMarks_item h className i

/-! ## One item -/

/-- What was written between the name and the end of a declaration does not show in its
heading. -/
theorem headings_declare {d d' : Draft} (hwrites : d.Writes d')
    (hhide : d'.hidePosition = d.hidePosition) (name : String) (shape : Shape) (exported : Bool)
    (handle : Handle) (isDefault : Bool)
    (hshape : ∀ x : Declaration, x.shape = shape → x.isDefaultExport = isDefault) :
    (d'.declare name shape d.newLine.here exported handle).workspace.headings =
      d.workspace.headings ++ [d.newHeading name isDefault exported] := by
  show (d'.workspace.declarations ++ [_]).map Declaration.heading = _
  rw [List.map_append, List.map_singleton, hwrites.declarations_eq, Declaration.heading,
    hshape _ rfl, hwrites.path_eq, hhide]
  rfl

theorem Writes.headings_eq {d d' : Draft} (h : d.Writes d') :
    d'.workspace.headings = d.workspace.headings := by
  rw [Workspace.headings, h.declarations_eq]
  rfl

section Items

variable (d : Draft)

theorem headings_simple (name : String) (role : Role) {shape : Shape}
    (hshape : ∀ x : Declaration, x.shape = shape → x.isDefaultExport = false) :
    (d.simple name role shape).workspace.headings =
      d.workspace.headings ++ [d.newHeading name false d.exportNext] :=
  headings_declare (d.writes_name name role) rfl name shape d.exportNext d.nextHandle false hshape

theorem headings_callable (name : String) (role : Role) {shape : Callable → Shape}
    (is : List BodyItem)
    (hshape : ∀ c, ∀ x : Declaration, x.shape = shape c → x.isDefaultExport = false) :
    (d.callable name role shape is).workspace.headings =
      d.workspace.headings ++ [d.newHeading name false d.exportNext] := by
  let named := { d with exportNext := false }.mention name role []
  have hwrites := (d.writes_name name role).trans (named.writes_body [.function name] is)
  have hmarks := named.keepsMarks_body [.function name] is
  exact headings_declare hwrites hmarks.hidePosition_eq name _ d.exportNext d.nextHandle
    false (hshape _)

theorem headings_classDeclaration (name : String) (is : List ClassItem) :
    (d.classDeclaration name is).workspace.headings =
      d.workspace.headings ++ [d.newHeading name false d.exportNext] := by
  let named := { d with exportNext := false }.mention name .declarationName []
  have hwrites := (d.writes_name name .declarationName).trans
    (InClass.writes_items name { draft := named } is)
  have hmarks := InClass.keepsMarks_items named name is
  refine headings_declare hwrites hmarks.hidePosition_eq name _ d.exportNext d.nextHandle false ?_
  intro x hx
  rw [Declaration.isDefaultExport, hx]

/-- The function without a name only takes a handle where another one mentions its name. -/
theorem headings_defaultExportFunction (name : Option String) (is : List BodyItem) :
    (d.defaultExportFunction name is).workspace.headings =
      d.workspace.headings ++ [d.newHeading (name.getD defaultExportName) true true] := by
  have hnamed {named : Draft} (hwrites : d.Writes named)
      (hhide : named.hidePosition = d.hidePosition) :
      ((named.body [.function (name.getD defaultExportName)] is).draft.declare
        (name.getD defaultExportName)
        (.defaultExport (.callable
          (named.body [.function (name.getD defaultExportName)] is).callable))
        d.newLine.here true d.nextHandle).workspace.headings =
        d.workspace.headings ++ [d.newHeading (name.getD defaultExportName) true true] := by
    have hmarks := named.keepsMarks_body [.function (name.getD defaultExportName)] is
    refine headings_declare (hwrites.trans (named.writes_body _ is))
      (hmarks.hidePosition_eq.trans hhide) _ _ true d.nextHandle true ?_
    intro x hx
    rw [Declaration.isDefaultExport, hx]
  cases name with
  | none => exact hnamed (d.writes_newLine.trans (writes_skipHandle _)) rfl
  | some n => exact hnamed (d.writes_newLine.trans (writes_record _ n _ _ _)) rfl

theorem headings_defaultExport (name : String) (wrapper : Option String) :
    (d.defaultExport name wrapper).workspace.headings =
      d.workspace.headings ++ [d.newHeading defaultExportName true true] := by
  have hshape : ∀ x : Declaration, x.shape = .defaultExport (.identifier name wrapper) →
      x.isDefaultExport = true := by
    intro x hx
    rw [Declaration.isDefaultExport, hx]
  cases wrapper with
  | none =>
    exact headings_declare (d.writes_newLine.trans (writes_record _ _ _ _ _)) rfl _ _ true _ true
      hshape
  | some w =>
    exact headings_declare ((d.writes_newLine.trans (writes_record _ w _ _ _)).trans
      (writes_record _ _ _ _ _)) rfl _ _ true _ true hshape

/-- An item adds its heading and no other. -/
theorem headings_item (i : FileItem) :
    (d.item i).workspace.headings = d.workspace.headings ++ (d.heading? i).toList := by
  have hsilent {d' : Draft} (h : d.Writes d') :
      d'.workspace.headings = d.workspace.headings ++ [] := by
    rw [h.headings_eq, List.append_nil]
  have hother {shape : Shape} (h : ∀ t, shape ≠ .defaultExport t) :
      ∀ x : Declaration, x.shape = shape → x.isDefaultExport = false := by
    intro x hx
    unfold Declaration.isDefaultExport
    split
    · next t ht => exact absurd (hx.symm.trans ht) (h t)
    · rfl
  cases i with
  | exportNext => exact hsilent ⟨rfl, rfl, List.prefix_rfl, id⟩
  | withoutPosition => exact hsilent ⟨rfl, rfl, List.prefix_rfl, id⟩
  | importName name => exact hsilent (d.writes_mention name _ [])
  | defaultImport name => exact hsilent (d.writes_mention name _ [])
  | exportSpecifier name => exact hsilent (d.writes_mention name _ [])
  | reExport name newName =>
    cases newName with
    | none => exact hsilent (d.writes_newLine.trans (writes_record _ _ _ _ _))
    | some newName =>
      exact hsilent ((d.writes_newLine.trans (writes_record _ _ _ _ _)).trans
        (writes_record _ _ _ _ _))
  | interface name => exact d.headings_simple name _ (hother (by simp))
  | enumeration name => exact d.headings_simple name _ (hother (by simp))
  | «variable» name => exact d.headings_simple name _ (hother (by simp))
  | function name is => exact d.headings_callable name _ is fun _ => hother (by simp)
  | arrow name is => exact d.headings_callable name _ is fun _ => hother (by simp)
  | classDecl name is => exact d.headings_classDeclaration name is
  | defaultExport name wrapper => exact d.headings_defaultExport name wrapper
  | defaultExportFunction name is => exact d.headings_defaultExportFunction name is
  | reference name role => exact hsilent (d.writes_mention name role [])
  | occurrenceAt name role position =>
    have hmoved : d.Writes { d with line := max d.line position.line } :=
      ⟨rfl, rfl, List.prefix_rfl, id⟩
    exact hsilent (hmoved.trans (writes_record _ name role position []))

/-- A body or a class is written with the marks that are left when its name is mentioned. -/
theorem exportNext_item (i : FileItem) :
    (d.item i).exportNext = (i.isExportMark || (d.exportNext && !i.takesExportMark)) := by
  have hkeep : d.exportNext = (false || (d.exportNext && !false)) := by simp
  have htake : false = (false || (d.exportNext && !true)) := by simp
  cases i with
  | exportNext => rfl
  | function name is => exact (keepsMarks_body _ [.function name] is).exportNext_eq.trans htake
  | arrow name is => exact (keepsMarks_body _ [.function name] is).exportNext_eq.trans htake
  | classDecl name is => exact (InClass.keepsMarks_items _ name is).exportNext_eq.trans htake
  | interface name => exact htake
  | enumeration name => exact htake
  | «variable» name => exact htake
  | defaultExportFunction name is =>
    cases name with
    | none => exact (keepsMarks_body _ _ is).exportNext_eq.trans hkeep
    | some n => exact (keepsMarks_body _ _ is).exportNext_eq.trans hkeep
  | defaultExport name wrapper =>
    cases wrapper with
    | none => exact hkeep
    | some w => exact hkeep
  | reExport name newName =>
    cases newName with
    | none => exact hkeep
    | some n => exact hkeep
  | _ => exact hkeep

theorem hidePosition_item (i : FileItem) :
    (d.item i).hidePosition = (i.hidesPosition || (d.hidePosition && !i.declares)) := by
  have hkeep : d.hidePosition = (false || (d.hidePosition && !false)) := by simp
  have htake : false = (false || (d.hidePosition && !true)) := by simp
  cases i with
  | withoutPosition => rfl
  | interface name => exact htake
  | enumeration name => exact htake
  | «variable» name => exact htake
  | function name is => exact htake
  | arrow name is => exact htake
  | classDecl name is => exact htake
  | defaultExport name wrapper => exact htake
  | defaultExportFunction name is => exact htake
  | reExport name newName =>
    cases newName with
    | none => exact hkeep
    | some n => exact hkeep
  | _ => exact hkeep

end Items

end Draft

theorem Workspace.headings_addFile (w : Workspace) (path : String) (generated : Bool) :
    (w.addFile path generated).headings = w.headings := by
  unfold addFile
  split
  · rfl
  · rfl

end SymbolAtlas
