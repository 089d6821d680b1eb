/-
Handles.

A mention, a parameter and a function without a name take the next handle each, and
a symbol has the handle of the mention of its own name.  `Workspace.Accounts` is the
book of this: the handles of the mentions and the others in the list come out even
with those given out.  An operation on a body keeps the book with the parameters
that it adds, a declaration moves them to the workspace, and so the handles of a
program are numbered without gaps and without repetitions.
-/
import SymbolAtlas.Lookup.Definition
import SymbolAtlas.Proofs.Source.Growth
import SymbolAtlas.Proofs.Source.Recorded

namespace SymbolAtlas

/-! ## The book of handles -/

def Callable.paramHandles (c : Callable) : List Handle := c.params.map Parameter.handle

def Shape.paramHandles (s : Shape) : List Handle := s.callables.flatMap Callable.paramHandles

namespace Workspace

def mentionHandles (w : Workspace) : List Handle := w.mentions.map fun m => m.occurrence.handle

def paramHandles (w : Workspace) : List Handle :=
  w.declarations.flatMap fun d => d.shape.paramHandles

/-- Every handle given out so far is that of one mention or stands in the list, just
once. -/
def Accounts (w : Workspace) (others : List Handle) : Prop :=
  (w.mentionHandles ++ others).Perm (List.range w.nextHandle)

theorem Accounts.perm {w : Workspace} {others others' : List Handle} (h : w.Accounts others)
    (hp : others.Perm others') : w.Accounts others' :=
  (hp.symm.append_left w.mentionHandles).trans h

theorem Accounts.lt_nextHandle {w : Workspace} {others : List Handle} (h : w.Accounts others)
    {k : Handle} (hk : k ∈ others) : k < w.nextHandle :=
  List.mem_range.mp (h.mem_iff.mp (List.mem_append_right _ hk))

end Workspace

namespace Draft

section Operations

variable {d : Draft} {others : List Handle} (h : d.workspace.Accounts others)
include h

theorem accounts_record (name : String) (role : Role) (position : Position)
    (frames : List Frame) : (d.record name role position frames).workspace.Accounts others := by
  let handles := d.workspace.mentionHandles
  have hnew : (handles ++ [d.nextHandle] ++ others).Perm (handles ++ others ++ [d.nextHandle]) := by
    rw [List.append_assoc, List.append_assoc]
    exact List.perm_append_comm.append_left handles
  show ((d.workspace.mentions ++ [_]).map _ ++ others).Perm (List.range (d.nextHandle + 1))
  rw [List.map_append, List.range_succ]
  exact hnew.trans (h.append_right [d.nextHandle])

theorem accounts_skipHandle : d.skipHandle.workspace.Accounts (others ++ [d.nextHandle]) := by
  show (d.workspace.mentionHandles ++ (others ++ [d.nextHandle])).Perm
    (List.range (d.nextHandle + 1))
  rw [← List.append_assoc, List.range_succ]
  exact h.append_right [d.nextHandle]

theorem accounts_mention (name : String) (role : Role) (frames : List Frame) :
    (d.mention name role frames).workspace.Accounts others :=
  accounts_record (d := d.newLine) h name role _ frames

end Operations

/-! ## Bodies and classes -/

namespace InBody

def Accounts (others : List Handle) (s : InBody) : Prop :=
  s.draft.workspace.Accounts (others ++ s.callable.paramHandles)

theorem accounts_addParam {others : List Handle} {s : InBody} {p : Parameter}
    (h : s.draft.workspace.Accounts (others ++ s.callable.paramHandles ++ [p.handle])) :
    (s.addParam p).Accounts others := by
  have hparams : (s.addParam p).callable.paramHandles =
      s.callable.paramHandles ++ [p.handle] := List.map_append
  rw [Accounts, hparams, ← List.append_assoc]
  exact h

theorem kept_accounts (others : List Handle) : Kept (Accounts others) where
  mention frames name role h := accounts_mention h name role frames
  param := by
    intro s frames name writtenType h
    have hskip := accounts_skipHandle h
    cases writtenType with
    | none => exact accounts_addParam hskip
    | some type => exact accounts_addParam (accounts_mention hskip type .typeReference frames)
  paramInferred name type h := accounts_addParam (accounts_skipHandle h)
  call frames name isNew h := accounts_mention h name _ frames
  callMember := by
    intro s frames object property h
    have hline : s.draft.newLine.workspace.Accounts (others ++ s.callable.paramHandles) := h
    simp only [InBody.callMember]
    split
    · exact accounts_record hline property .propertyName _ frames
    · exact accounts_record (accounts_record hline _ .identifier _ frames) property .propertyName
        _ frames
  render frames tag h := accounts_mention h tag .markupTag frames

end InBody

theorem accounts_body {d : Draft} {others : List Handle} (h : d.workspace.Accounts others)
    (frames : List Frame) (is : List BodyItem) :
    (d.body frames is).draft.workspace.Accounts
      (others ++ (d.body frames is).callable.paramHandles) := by
  have hempty : InBody.Accounts others { draft := d } := by
    show d.workspace.Accounts (others ++ [])
    rw [List.append_nil]
    exact h
  exact (InBody.kept_accounts others).items frames hempty is

namespace InClass

def Accounts (others : List Handle) (s : InClass) : Prop :=
  s.draft.workspace.Accounts (others ++ (Shape.classDecl s.shape).paramHandles)

theorem accounts_addMember {others : List Handle} {s : InClass} {m : Member}
    (h : s.draft.workspace.Accounts (others ++ (Shape.classDecl s.shape).paramHandles ++
      m.callable.toList.flatMap Callable.paramHandles)) : (s.addMember m).Accounts others := by
  have hmembers : (Shape.classDecl (s.addMember m).shape).paramHandles =
      (Shape.classDecl s.shape).paramHandles ++
        m.callable.toList.flatMap Callable.paramHandles := by
    show ((s.shape.members ++ [m]).filterMap Member.callable).flatMap _ = _
    rw [List.filterMap_append, List.flatMap_append]
    cases hcallable : m.callable with
    | none => simp [Shape.paramHandles, Shape.callables, hcallable]
    | some c => simp [Shape.paramHandles, Shape.callables, hcallable]
  rw [Accounts, hmembers, ← List.append_assoc]
  exact h

theorem Accounts.item {others : List Handle} {s : InClass} (h : s.Accounts others)
    (className : String) (i : ClassItem) : (s.item className i).Accounts others := by
  cases i with
  | base base =>
    have hline : s.draft.newLine.workspace.Accounts
        (others ++ (Shape.classDecl s.shape).paramHandles) := h
    show (s.heritage className base).draft.workspace.Accounts _
    unfold heritage
    split
    · exact accounts_record (accounts_record hline _ _ _ _) _ _ _ _
    · exact accounts_record hline _ _ _ _
  | member name kind visibility isStatic is =>
    have hbody := accounts_body (accounts_mention h name .declarationName [.classBody className])
      [.classBody className, .method name] is
    refine accounts_addMember ?_
    rw [Option.toList_some, List.flatMap_singleton]
    exact hbody
  | property name visibility isStatic initializerCall =>
    refine accounts_addMember ?_
    rw [Option.toList_none, List.flatMap_nil, List.append_nil]
    exact accounts_mention h name .declarationName [.classBody className]

theorem Accounts.items {others : List Handle} {s : InClass} (h : s.Accounts others)
    (className : String) (is : List ClassItem) :
    (is.foldl (InClass.item className) s).Accounts others :=
  List.foldlRecOn is (InClass.item className) h fun _ h i _ => h.item className i

end InClass

/-! ## Files -/

/-- The function without a name that an item exports by default. -/
def anonymous? (d : Draft) : FileItem → Option Declaration
  | .defaultExportFunction none is =>
    (d.item (.defaultExportFunction none is)).workspace.declarations.getLast?
  | _ => none

def anonymous (d : Draft) : List FileItem → List Declaration
  | [] => []
  | i :: is => (d.anonymous? i).toList ++ (d.item i).anonymous is

theorem getLast?_declare (d : Draft) (name : String) (shape : Shape) (position : Position)
    (exported : Bool) (handle : Handle) :
    ∃ x, (d.declare name shape position exported handle).workspace.declarations.getLast? = some x ∧
      x.name = name ∧ x.shape = shape ∧ x.handle = handle :=
  ⟨_, List.getLast?_concat, rfl, rfl, rfl⟩

theorem anonymous?_eq (d : Draft) (is : List BodyItem) :
    ∃ x c, d.anonymous? (.defaultExportFunction none is) = some x ∧ x.name = defaultExportName ∧
      x.shape = .defaultExport (.callable c) ∧ x.handle = d.nextHandle := by
  let written := d.newLine.skipHandle.body [.function defaultExportName] is
  obtain ⟨x, hx, hname, hshape, hhandle⟩ := getLast?_declare written.draft defaultExportName
    (.defaultExport (.callable written.callable)) d.newLine.here true d.nextHandle
  exact ⟨x, written.callable, hx, hname, hshape, hhandle⟩

theorem of_anonymous? {d : Draft} {i : FileItem} {x : Declaration} (h : d.anonymous? i = some x) :
    x ∈ (d.item i).workspace.declarations ∧ x.name = defaultExportName ∧
      ∃ c, x.shape = .defaultExport (.callable c) := by
  unfold anonymous? at h
  split at h
  · next is =>
    obtain ⟨y, c, hy, hname, hshape, -⟩ := d.anonymous?_eq is
    obtain rfl : y = x := Option.some.inj (hy.symm.trans h)
    exact ⟨List.mem_of_getLast? h, hname, c, hshape⟩
  · cases h

/-- What is declared stays declared while a file is written on. -/
theorem of_mem_anonymous {d : Draft} {is : List FileItem} {x : Declaration}
    (h : x ∈ d.anonymous is) :
    x ∈ (is.foldl item d).workspace.declarations ∧ x.name = defaultExportName ∧
      ∃ c, x.shape = .defaultExport (.callable c) := by
  induction is generalizing d with
  | nil => cases h
  | cons i is ih =>
    rcases List.mem_append.mp h with hhead | htail
    · obtain ⟨hx, hshape⟩ := of_anonymous? (Option.mem_toList.mp hhead)
      obtain ⟨new, hnew, -⟩ := (Workspace.grows_runs (runs_items (d.item i) is)).2.declarations
      refine ⟨?_, hshape⟩
      rw [List.foldl_cons, hnew]
      exact List.mem_append_left _ hx
    · exact ih htail

/-- The book of a draft in which no body is open: only parameters and functions
without a name have handles that are not mentioned. -/
def Balances (d : Draft) (nameless : List Handle) : Prop :=
  d.workspace.Accounts (d.workspace.paramHandles ++ nameless)

/-- A declaration takes over the parameters that were written for it. -/
theorem balances_declare {d d' : Draft} (hw : d.Writes d') {nameless : List Handle}
    {name : String} {shape : Shape} {position : Position} {exported : Bool} {handle : Handle}
    (h : d'.workspace.Accounts (d.workspace.paramHandles ++ nameless ++ shape.paramHandles)) :
    (d'.declare name shape position exported handle).Balances nameless := by
  let d'' := d'.declare name shape position exported handle
  have hparams : d''.workspace.paramHandles = d.workspace.paramHandles ++ shape.paramHandles := by
    show (d'.workspace.declarations ++ [_]).flatMap _ = _
    rw [hw.declarations_eq, List.flatMap_append, List.flatMap_singleton]
    rfl
  have hmoved : d''.workspace.Accounts
      (d.workspace.paramHandles ++ nameless ++ shape.paramHandles) := h
  refine hmoved.perm ?_
  rw [hparams, List.append_assoc, List.append_assoc]
  exact List.perm_append_comm.append_left d.workspace.paramHandles

section Items

variable {d : Draft} {nameless : List Handle} (h : d.Balances nameless)
include h

theorem balances_mention (name : String) (role : Role) :
    (d.mention name role []).Balances nameless := accounts_mention h name role []

theorem balances_simple (name : String) (role : Role) {shape : Shape}
    (hshape : shape.paramHandles = []) : (d.simple name role shape).Balances nameless := by
  let unmarked := { d with exportNext := false }
  have hnamed := accounts_mention (d := unmarked) h name role []
  refine balances_declare (unmarked.writes_mention name role []) ?_
  rw [hshape, List.append_nil]
  exact hnamed

theorem balances_callable (name : String) (role : Role) {shape : Callable → Shape}
    (is : List BodyItem) (hshape : ∀ c, (shape c).paramHandles = c.paramHandles) :
    (d.callable name role shape is).Balances nameless := by
  let unmarked := { d with exportNext := false }
  let named := unmarked.mention name role []
  have hbody := accounts_body (accounts_mention (d := unmarked) h name role [])
    [.function name] is
  refine balances_declare ((unmarked.writes_mention name role []).trans
    (named.writes_body [.function name] is)) ?_
  rw [hshape]
  exact hbody

theorem balances_classDeclaration (name : String) (is : List ClassItem) :
    (d.classDeclaration name is).Balances nameless := by
  let unmarked := { d with exportNext := false }
  let named := unmarked.mention name .declarationName []
  have hempty : InClass.Accounts (d.workspace.paramHandles ++ nameless) { draft := named } := by
    show named.workspace.Accounts (d.workspace.paramHandles ++ nameless ++ [])
    rw [List.append_nil]
    exact accounts_mention (d := unmarked) h name .declarationName []
  exact balances_declare ((unmarked.writes_mention name .declarationName []).trans
    (InClass.writes_items name { draft := named } is)) (hempty.items name is)

theorem balances_reExport (name : String) (newName : Option String) :
    (d.reExport name newName).Balances nameless := by
  have hline : d.newLine.workspace.Accounts (d.workspace.paramHandles ++ nameless) := h
  cases newName with
  | none => exact accounts_record hline _ _ _ _
  | some newName => exact accounts_record (accounts_record hline _ _ _ _) _ _ _ _

theorem balances_defaultExport (name : String) (wrapper : Option String) :
    (d.defaultExport name wrapper).Balances nameless := by
  have hline : d.newLine.workspace.Accounts
      (d.workspace.paramHandles ++ nameless ++ []) := by
    rw [List.append_nil]
    exact h
  cases wrapper with
  | none =>
    exact balances_declare (d.writes_newLine.trans (writes_record _ _ _ _ _))
      (accounts_record hline _ _ _ _)
  | some w =>
    exact balances_declare
      ((d.writes_newLine.trans (writes_record _ _ _ _ _)).trans (writes_record _ _ _ _ _))
      (accounts_record (accounts_record hline _ _ _ _) _ _ _ _)

/-- Without a name the handle of the function is taken but not mentioned. -/
theorem balances_defaultExportFunction (name : Option String) (is : List BodyItem) :
    (d.defaultExportFunction name is).Balances
      (nameless ++
        (d.anonymous? (.defaultExportFunction name is)).toList.map Declaration.handle) := by
  have hline : d.newLine.workspace.Accounts (d.workspace.paramHandles ++ nameless) := h
  have hone (c : Callable) : (Shape.defaultExport (.callable c)).paramHandles = c.paramHandles :=
    List.flatMap_singleton _ c
  cases name with
  | none =>
    let named := d.newLine.skipHandle
    obtain ⟨x, c, hx, -, -, hhandle⟩ := d.anonymous?_eq is
    rw [hx, Option.toList_some, List.map_singleton, hhandle]
    refine balances_declare ((d.writes_newLine.trans (writes_skipHandle _)).trans
      (named.writes_body _ is)) ?_
    rw [hone, ← List.append_assoc]
    exact accounts_body (accounts_skipHandle hline) _ is
  | some n =>
    show (d.defaultExportFunction (some n) is).Balances (nameless ++ [])
    rw [List.append_nil]
    let named := d.newLine.record n .declarationName d.newLine.here []
    refine balances_declare ((d.writes_newLine.trans (writes_record _ _ _ _ _)).trans
      (named.writes_body [.function n] is)) ?_
    rw [hone]
    exact accounts_body (accounts_record hline n .declarationName _ []) _ is

theorem balances_item (i : FileItem) :
    (d.item i).Balances (nameless ++ (d.anonymous? i).toList.map Declaration.handle) := by
  have hnone {i : FileItem} (hi : d.anonymous? i = none) (hb : (d.item i).Balances nameless) :
      (d.item i).Balances (nameless ++ (d.anonymous? i).toList.map Declaration.handle) := by
    rw [hi, Option.toList_none, List.map_nil, List.append_nil]
    exact hb
  cases i with
  | exportNext => exact hnone rfl h
  | withoutPosition => exact hnone rfl h
  | importName name => exact hnone rfl (balances_mention h name _)
  | defaultImport name => exact hnone rfl (balances_mention h name _)
  | exportSpecifier name => exact hnone rfl (balances_mention h name _)
  | reExport name newName => exact hnone rfl (balances_reExport h name newName)
  | interface name => exact hnone rfl (balances_simple h name _ rfl)
  | enumeration name => exact hnone rfl (balances_simple h name _ rfl)
  | «variable» name => exact hnone rfl (balances_simple h name _ rfl)
  | function name is =>
    exact hnone rfl (balances_callable h name _ is fun c => List.flatMap_singleton _ c)
  | arrow name is =>
    exact hnone rfl (balances_callable h name _ is fun c => List.flatMap_singleton _ c)
  | classDecl name is => exact hnone rfl (balances_classDeclaration h name is)
  | defaultExport name wrapper => exact hnone rfl (balances_defaultExport h name wrapper)
  | defaultExportFunction name is => exact balances_defaultExportFunction h name is
  | reference name role => exact hnone rfl (balances_mention h name role)
  | occurrenceAt name role position => exact hnone rfl (accounts_record h name role position [])

end Items

theorem balances_items {d : Draft} {nameless : List Handle} (h : d.Balances nameless)
    (is : List FileItem) :
    (is.foldl item d).Balances (nameless ++ (d.anonymous is).map Declaration.handle) := by
  induction is generalizing d nameless with
  | nil =>
    rw [anonymous, List.map_nil, List.append_nil]
    exact h
  | cons i is ih =>
    rw [anonymous, List.map_append, ← List.append_assoc]
    exact ih (balances_item h i)

end Draft

/-! ## Programs -/

namespace Workspace

def anonymous (w : Workspace) : List FileSketch → List Declaration
  | [] => []
  | s :: ss => (w.openFile s.path s.generated).anonymous s.items ++ (w.add s).anonymous ss

/-- The functions without a name that are exported by default, over all files. -/
def anonymousFunctions (sketches : List FileSketch) : List Declaration :=
  ({} : Workspace).anonymous sketches

theorem of_mem_anonymous {w : Workspace} {sketches : List FileSketch} {x : Declaration}
    (h : x ∈ w.anonymous sketches) :
    x ∈ (sketches.foldl add w).declarations ∧ x.name = defaultExportName ∧
      ∃ c, x.shape = .defaultExport (.callable c) := by
  induction sketches generalizing w with
  | nil => cases h
  | cons s ss ih =>
    rcases List.mem_append.mp h with hhead | htail
    · obtain ⟨hx, hshape⟩ := Draft.of_mem_anonymous hhead
      exact ⟨declarations_subset_foldl_add ss hx, hshape⟩
    · exact ih htail

theorem balances_openFile {w : Workspace} {nameless : List Handle}
    (h : w.Accounts (w.paramHandles ++ nameless)) (path : String) (generated : Bool) :
    (w.openFile path generated).Balances nameless := by
  unfold openFile addFile Draft.Balances
  split
  · exact h
  · exact h

theorem accounts_foldl_add {w : Workspace} {nameless : List Handle}
    (h : w.Accounts (w.paramHandles ++ nameless)) (sketches : List FileSketch) :
    (sketches.foldl add w).Accounts ((sketches.foldl add w).paramHandles ++
      (nameless ++ (w.anonymous sketches).map Declaration.handle)) := by
  induction sketches generalizing w nameless with
  | nil =>
    rw [anonymous, List.map_nil, List.append_nil]
    exact h
  | cons s ss ih =>
    have hfile := Draft.balances_items (balances_openFile h s.path s.generated) s.items
    rw [anonymous, List.map_append, ← List.append_assoc nameless]
    exact ih hfile

/-- Mentions, parameters and functions without a name have all the handles below the
counter, each of them its own. -/
theorem accounts_ofSketches (sketches : List FileSketch) :
    (ofSketches sketches).Accounts ((ofSketches sketches).paramHandles ++
      (anonymousFunctions sketches).map Declaration.handle) := by
  have hempty : ({} : Workspace).Accounts (({} : Workspace).paramHandles ++ []) := .refl []
  exact accounts_foldl_add hempty sketches

end Workspace
end SymbolAtlas
