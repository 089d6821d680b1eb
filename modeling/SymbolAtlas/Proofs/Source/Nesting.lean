/-
What encloses a name, and what a body lists.

Markup nests in a body, and an item inside an element is enclosed by the frames of all elements
around it.  These frames are handed down while a body is written and taken back behind each
element: neither the tag of an element nor what follows it stands inside.  The calls, elements
and parameters of a body come from all depths and are listed in source order.

`frames_and_outlines_ofSketches` says both for whole programs.  Its first list has every mention
with what encloses it and compares with the lines of the sketches, and its second one has every
callable and compares with the bodies of the sketches, so no mention and no callable is left out
and none is in another's place.
-/
import SymbolAtlas.Proofs.Source.Lines

namespace SymbolAtlas

/-! ## Bodies and their outlines -/

/-- What a body lists, without places and handles. -/
structure Outline where
  params : List (String × Option String) := []
  calls : List (CallTarget × Bool) := []
  markup : List String := []

def Callable.outline (c : Callable) : Outline where
  params := c.params.map fun p => (p.name, p.writtenType)
  calls := c.body.calls.map fun s => (s.target, s.isNew)
  markup := c.body.markup.map Element.tag

namespace BodyItem

def param? : BodyItem → Option (String × Option String)
  | .param name writtenType => some (name, writtenType)
  | .paramInferred name _ => some (name, none)
  | _ => none

/-- The call that an item makes, and whether it constructs what it names. -/
def call? : BodyItem → Option (CallTarget × Bool)
  | .call name => some (.name name, false)
  | .callMember object property => some (.member object property, false)
  | .callThis method => some (.member "this" method, false)
  | .construct name => some (.name name, true)
  | _ => none

def tag? : BodyItem → Option String
  | .render tag => some tag
  | .renderWith tag _ => some tag
  | _ => none

end BodyItem

/-- An outline that goes on with these items. -/
def Outline.extend (o : Outline) (es : List Nested) : Outline where
  params := o.params ++ es.filterMap fun e => e.item.param?
  calls := o.calls ++ es.filterMap fun e => e.item.call?
  markup := o.markup ++ es.filterMap fun e => e.item.tag?

/-- The parameters, calls and elements of a body, each in source order. -/
def BodyItem.outline (is : List BodyItem) : Outline := ({} : Outline).extend (nestedIn is)

/-- The bodies of a class, and what encloses them. -/
def ClassItem.body? (className : String) : ClassItem → Option (List Frame × List BodyItem)
  | .member name _ _ _ is => some ([.classBody className, .method name], is)
  | _ => none

def FileItem.bodies : FileItem → List (List Frame × List BodyItem)
  | .function name is => [([.function name], is)]
  | .arrow name is => [([.function name], is)]
  | .defaultExportFunction name is => [([.function (name.getD defaultExportName)], is)]
  | .classDecl name is => is.filterMap (ClassItem.body? name)
  | _ => []

def Member.body? (className : String) (m : Member) : Option (List Frame × Callable) :=
  m.callable.map fun c => ([.classBody className, .method m.name], c)

/-- The callables of a declaration of that name, and what encloses their bodies. -/
def Shape.bodies (name : String) : Shape → List (List Frame × Callable)
  | .function c => [([.function name], c)]
  | .defaultExport (.callable c) => [([.function name], c)]
  | .variable (some c) => [([.function name], c)]
  | .classDecl shape => shape.members.filterMap (Member.body? name)
  | _ => []

def Shape.outlines (name : String) (s : Shape) : List (List Frame × Outline) :=
  (s.bodies name).map fun b => (b.1, b.2.outline)

def FileItem.outlines (i : FileItem) : List (List Frame × Outline) :=
  i.bodies.map fun b => (b.1, BodyItem.outline b.2)

/-- The callables of a program with their files, what encloses them and what they list. -/
def Workspace.outlines (w : Workspace) : List (String × List Frame × Outline) :=
  w.declarations.flatMap fun d => (d.shape.outlines d.name).map (Prod.mk d.file)

theorem Outline.extend_append (o : Outline) (es es' : List Nested) :
    o.extend (es ++ es') = (o.extend es).extend es' := by
  simp [extend]

namespace Draft

/-! ## One body -/

namespace InBody

section Entries

variable (s : InBody)

@[simp]
theorem outline_addParam (p : Parameter) : (s.addParam p).callable.outline =
    { s.callable.outline with
      params := s.callable.outline.params ++ [(p.name, p.writtenType)] } := by
  simp [addParam, Callable.outline]

@[simp]
theorem outline_addCall (c : CallSite) : (s.addCall c).callable.outline =
    { s.callable.outline with calls := s.callable.outline.calls ++ [(c.target, c.isNew)] } := by
  simp [addCall, Callable.outline]

@[simp]
theorem outline_addElement (e : Element) : (s.addElement e).callable.outline =
    { s.callable.outline with markup := s.callable.outline.markup ++ [e.tag] } := by
  simp [addElement, Callable.outline]

@[simp]
theorem callable_mention (name : String) (role : Role) (frames : List Frame) :
    (s.mention name role frames).callable = s.callable := rfl

end Entries

theorem outline_own (frames : List Frame) (s : InBody) (e : Nested) :
    (s.own frames e.item).callable.outline = s.callable.outline.extend [e] := by
  obtain ⟨tags, i⟩ := e
  cases i with
  | param name writtenType =>
    cases writtenType <;>
      simp [own, item, param, Outline.extend, BodyItem.param?, BodyItem.call?, BodyItem.tag?]
  | _ =>
    simp [own, item, paramInferred, call, callMember, render, Outline.extend, BodyItem.param?,
      BodyItem.call?, BodyItem.tag?]

theorem outline_nested (frames : List Frame) (s : InBody) (es : List Nested) :
    (es.foldl (nested frames) s).callable.outline = s.callable.outline.extend es := by
  induction es generalizing s with
  | nil => simp [Outline.extend]
  | cons e es ih =>
    rw [List.foldl_cons, ih, nested, outline_own, ← Outline.extend_append, List.singleton_append]

end InBody

theorem outline_body (d : Draft) (frames : List Frame) (is : List BodyItem) :
    (d.body frames is).callable.outline = BodyItem.outline is := by
  rw [body, InBody.items_eq_foldl]
  exact InBody.outline_nested frames { draft := d } _

/-! ## One class -/

namespace InClass

theorem outlines_addMember (className : String) (s : InClass) (m : Member) :
    (Shape.classDecl (s.addMember m).shape).outlines className =
      (Shape.classDecl s.shape).outlines className ++
        (m.body? className).toList.map fun b => (b.1, b.2.outline) := by
  show ((s.shape.members ++ [m]).filterMap (Member.body? className)).map _ = _
  rw [List.filterMap_append, List.map_append]
  cases hbody : m.body? className with
  | none => simp [hbody, Shape.outlines, Shape.bodies]
  | some b => simp [hbody, Shape.outlines, Shape.bodies]

theorem outlines_item (className : String) (s : InClass) (i : ClassItem) :
    (Shape.classDecl (s.item className i).shape).outlines className =
      (Shape.classDecl s.shape).outlines className ++
        (i.body? className).toList.map fun b => (b.1, BodyItem.outline b.2) := by
  cases i with
  | base base => exact (List.append_nil _).symm
  | member name kind visibility isStatic is =>
    refine (outlines_addMember className _ _).trans ?_
    rw [Member.body?, Option.map_some, Option.toList_some, List.map_singleton, outline_body]
    rfl
  | property name visibility isStatic initializerCall =>
    exact outlines_addMember className _ _

theorem outlines_items (className : String) (s : InClass) (is : List ClassItem) :
    (Shape.classDecl (is.foldl (InClass.item className) s).shape).outlines className =
      (Shape.classDecl s.shape).outlines className ++
        (is.filterMap (ClassItem.body? className)).map fun b => (b.1, BodyItem.outline b.2) := by
  induction is generalizing s with
  | nil => simp
  | cons i is ih =>
    rw [List.foldl_cons, ih, outlines_item, List.append_assoc]
    cases hbody : i.body? className with
    | none => simp [hbody]
    | some b => simp [hbody]

end InClass

end Draft

/-! ## Names -/

/-- A name, where it is sighted and what encloses it. -/
def Sighting.site (x : Sighting) : String × String × List Frame := (x.file, x.name, x.frames)

def Line.sites (file : String) (l : Line) : List (String × String × List Frame) :=
  l.words.map fun x => (file, x.name, l.frames)

theorem map_site_sightingsBelow (file : String) (n : Nat) (ls : List Line) :
    (sightingsBelow file n ls).map Sighting.site = ls.flatMap (Line.sites file) := by
  induction ls generalizing n with
  | nil => rfl
  | cons l ls ih =>
    rw [sightingsBelow, List.map_append, ih, List.flatMap_cons, Line.sightings, List.map_map]
    rfl

namespace Draft

/-- What an item mentions is on its lines, also if it gives the place itself. -/
theorem shows_item (d : Draft) (i : FileItem) :
    ∃ new, d.Shows new (d.item i) ∧
      new.map Sighting.site = i.lines.flatMap (Line.sites d.path) := by
  cases hplaced : i.isPlaced with
  | false => exact ⟨_, (d.fills_item i hplaced).shows, map_site_sightingsBelow _ _ _⟩
  | true =>
    cases i with
    | occurrenceAt name role position =>
      have hmoved : d.Shows [] { d with line := max d.line position.line } :=
        shows_of_eq rfl rfl rfl (Nat.le_refl _)
      exact ⟨_, hmoved.trans (shows_record _ name role position []), rfl⟩
    | _ => cases hplaced

theorem shows_items (d : Draft) (is : List FileItem) :
    ∃ new, d.Shows new (is.foldl item d) ∧
      new.map Sighting.site = (is.flatMap FileItem.lines).flatMap (Line.sites d.path) := by
  induction is generalizing d with
  | nil => exact ⟨[], (Fills.refl d).shows, rfl⟩
  | cons i is ih =>
    obtain ⟨first, hfirst, hsites⟩ := d.shows_item i
    obtain ⟨rest, hrest, hsites'⟩ := ih (d.item i)
    refine ⟨first ++ rest, hfirst.trans hrest, ?_⟩
    rw [List.map_append, hsites, hsites', hfirst.path_eq, List.flatMap_cons, List.flatMap_append]

/-! ## Declarations -/

theorem Writes.outlines_eq {d d' : Draft} (h : d.Writes d') :
    d'.workspace.outlines = d.workspace.outlines := by
  rw [Workspace.outlines, h.declarations_eq]
  rfl

theorem outlines_declare {d d' : Draft} (h : d.Writes d') (name : String) (shape : Shape)
    (position : Position) (exported : Bool) (handle : Handle) :
    (d'.declare name shape position exported handle).workspace.outlines =
      d.workspace.outlines ++ (shape.outlines name).map (Prod.mk d.path) := by
  show (d'.workspace.declarations ++ [_]).flatMap _ = _
  rw [List.flatMap_append, List.flatMap_singleton, h.declarations_eq]
  show _ ++ (shape.outlines name).map (Prod.mk d'.path) = _
  rw [h.path_eq]
  rfl

section Items

variable (d : Draft)

theorem writes_name (name : String) (role : Role) :
    d.Writes ({ d with exportNext := false }.mention name role []) := by
  have hmark : d.Writes { d with exportNext := false } := ⟨rfl, rfl, List.prefix_rfl, id⟩
  exact hmark.trans (writes_mention _ name role [])

theorem outlines_callable (name : String) (role : Role) {shape : Callable → Shape}
    (is : List BodyItem) (hshape : ∀ c, (shape c).bodies name = [([.function name], c)]) :
    (d.callable name role shape is).workspace.outlines =
      d.workspace.outlines ++ [(d.path, [.function name], BodyItem.outline is)] := by
  have hwrites := (d.writes_name name role).trans (writes_body _ [.function name] is)
  refine (outlines_declare hwrites _ _ _ _ _).trans ?_
  rw [Shape.outlines, hshape, List.map_singleton, outline_body, List.map_singleton]

theorem outlines_classDeclaration (name : String) (is : List ClassItem) :
    (d.classDeclaration name is).workspace.outlines =
      d.workspace.outlines ++ (FileItem.classDecl name is).outlines.map (Prod.mk d.path) := by
  let named := { d with exportNext := false }.mention name .declarationName []
  have hwrites := (d.writes_name name .declarationName).trans
    (InClass.writes_items name { draft := named } is)
  refine (outlines_declare hwrites _ _ _ _ _).trans ?_
  rw [InClass.outlines_items name { draft := named } is]
  rfl

theorem outlines_defaultExportFunction (name : Option String) (is : List BodyItem) :
    (d.defaultExportFunction name is).workspace.outlines = d.workspace.outlines ++
      [(d.path, [.function (name.getD defaultExportName)], BodyItem.outline is)] := by
  have hnamed {named : Draft} (h : d.newLine.Writes named) (n : String) (position : Position)
      (handle : Handle) :
      ((named.body [.function n] is).draft.declare n
        (.defaultExport (.callable (named.body [.function n] is).callable)) position true
          handle).workspace.outlines =
        d.workspace.outlines ++ [(d.path, [.function n], BodyItem.outline is)] := by
    refine (outlines_declare ((d.writes_newLine.trans h).trans (writes_body _ _ is))
      _ _ _ _ _).trans ?_
    rw [Shape.outlines, Shape.bodies, List.map_singleton, outline_body, List.map_singleton]
  cases name with
  | none => exact hnamed (writes_skipHandle _) _ _ _
  | some n => exact hnamed (writes_record _ _ _ _ _) n _ _

/-- The callables that an item declares are its bodies. -/
theorem outlines_item (i : FileItem) :
    (d.item i).workspace.outlines =
      d.workspace.outlines ++ i.outlines.map (Prod.mk d.path) := by
  have hsilent {d' : Draft} (h : d.Writes d') :
      d'.workspace.outlines = d.workspace.outlines ++ [] := by
    rw [h.outlines_eq, List.append_nil]
  cases i with
  | exportNext => exact hsilent ⟨rfl, rfl, List.prefix_rfl, id⟩
  | withoutPosition => exact hsilent ⟨rfl, rfl, List.prefix_rfl, id⟩
  | importName name => exact hsilent (d.writes_mention name _ [])
  | defaultImport name => exact hsilent (d.writes_mention name _ [])
  | exportSpecifier name => exact hsilent (d.writes_mention name _ [])
  | reExport name newName =>
    cases newName with
    | none => exact hsilent (d.writes_newLine.trans (writes_record _ _ _ _ _))
    | some newName =>
      exact hsilent ((d.writes_newLine.trans (writes_record _ _ _ _ _)).trans
        (writes_record _ _ _ _ _))
  | interface name => exact outlines_declare (d.writes_name name _) _ _ _ _ _
  | enumeration name => exact outlines_declare (d.writes_name name _) _ _ _ _ _
  | «variable» name => exact outlines_declare (d.writes_name name _) _ _ _ _ _
  | function name is => exact d.outlines_callable name _ is fun _ => rfl
  | arrow name is => exact d.outlines_callable name _ is fun _ => rfl
  | classDecl name is => exact d.outlines_classDeclaration name is
  | defaultExport name wrapper =>
    cases wrapper with
    | none =>
      exact outlines_declare (d.writes_newLine.trans (writes_record _ _ _ _ _)) _ _ _ _ _
    | some wrapper =>
      exact outlines_declare ((d.writes_newLine.trans (writes_record _ _ _ _ _)).trans
        (writes_record _ _ _ _ _)) _ _ _ _ _
  | defaultExportFunction name is => exact d.outlines_defaultExportFunction name is
  | reference name role => exact hsilent (d.writes_mention name role [])
  | occurrenceAt name role position =>
    have hmoved : d.Writes { d with line := max d.line position.line } :=
      ⟨rfl, rfl, List.prefix_rfl, id⟩
    exact hsilent (hmoved.trans (writes_record _ name role position []))

theorem path_item (i : FileItem) : (d.item i).path = d.path := by
  obtain ⟨new, hshows, -⟩ := d.shows_item i
  exact hshows.path_eq

theorem outlines_items (is : List FileItem) :
    (is.foldl item d).workspace.outlines =
      d.workspace.outlines ++ (is.flatMap FileItem.outlines).map (Prod.mk d.path) := by
  induction is generalizing d with
  | nil => simp
  | cons i is ih =>
    rw [List.foldl_cons, ih, outlines_item, path_item, List.flatMap_cons, List.map_append,
      List.append_assoc]

end Items

end Draft

/-! ## Programs -/

namespace Workspace

variable {w : Workspace}

theorem outlines_add (w : Workspace) (s : FileSketch) :
    (w.add s).outlines =
      w.outlines ++ (s.items.flatMap FileItem.outlines).map (Prod.mk s.path) := by
  have hopen : (w.addFile s.path s.generated).outlines = w.outlines := by
    unfold addFile
    split
    · rfl
    · rfl
  rw [← hopen]
  exact (w.openFile s.path s.generated).outlines_items s.items

theorem sites_add (hw : w.Tidy) (s : FileSketch) :
    (w.add s).Tidy ∧ (w.add s).sightings.map Sighting.site =
      w.sightings.map Sighting.site ++ s.lines.flatMap (Line.sites s.path) := by
  obtain ⟨new, hshows, hsites⟩ := (w.openFile s.path s.generated).shows_items s.items
  have hopen : (w.openFile s.path s.generated).workspace.Tidy := hw.addFile s.path s.generated
  refine ⟨hshows.tidy hopen, ?_⟩
  rw [add, hshows.sightings_eq hopen, List.map_append, hsites]
  exact congrArg (List.map _ · ++ _) (w.sightings_addFile s.path s.generated)

theorem sites_foldl_add (hw : w.Tidy) (sketches : List FileSketch) :
    (sketches.foldl add w).sightings.map Sighting.site = w.sightings.map Sighting.site ++
      sketches.flatMap fun s => s.lines.flatMap (Line.sites s.path) := by
  induction sketches generalizing w with
  | nil => simp
  | cons s ss ih =>
    obtain ⟨htidy, hadd⟩ := sites_add hw s
    rw [List.foldl_cons, ih htidy, hadd, List.flatMap_cons, List.append_assoc]

theorem outlines_foldl_add (w : Workspace) (sketches : List FileSketch) :
    (sketches.foldl add w).outlines = w.outlines ++
      sketches.flatMap fun s => (s.items.flatMap FileItem.outlines).map (Prod.mk s.path) := by
  induction sketches generalizing w with
  | nil => simp
  | cons s ss ih =>
    rw [List.foldl_cons, ih, outlines_add, List.flatMap_cons, List.append_assoc]

/-- Every mention of a program with what encloses it: what the lines of the sketches have, in
their order.  Every callable of a program with what encloses it and what it lists: the bodies
of the sketches, in their order. -/
theorem frames_and_outlines_ofSketches (sketches : List FileSketch) :
    ((ofSketches sketches).mentions.map fun m =>
        (m.file, m.name, (ofSketches sketches).framesOf m.occurrence.handle)) =
      (sketches.flatMap fun s => s.lines.flatMap (Line.sites s.path)) ∧
    ((ofSketches sketches).declarations.flatMap fun d =>
        (d.shape.outlines d.name).map (Prod.mk d.file)) =
      sketches.flatMap fun s => (s.items.flatMap FileItem.outlines).map (Prod.mk s.path) := by
  have hsites := sites_foldl_add tidy_empty sketches
  rw [sightings, List.map_map] at hsites
  exact ⟨hsites, outlines_foldl_add {} sketches⟩

-- A tag stands outside its own element, and so does what follows the element.
example :
    let w := ofSketches [{ path := "page.tsx", generated := false, items := [.function "Page"
      [.renderWith "Card" [.renderWith "Row" [.call "draw"], .render "Icon"], .call "close"]] }]
    (w.mentions.map fun m => (m.name, w.framesOf m.occurrence.handle)) =
      [("Page", []),
       ("Card", [.function "Page"]),
       ("Row", [.function "Page", .markup "Card"]),
       ("draw", [.function "Page", .markup "Card", .markup "Row"]),
       ("Icon", [.function "Page", .markup "Card"]),
       ("close", [.function "Page"])] := by decide +kernel

end Workspace
end SymbolAtlas
