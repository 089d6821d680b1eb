/-
Symbols and the mentions of their own names.

A declaration with a name and a member are symbols.  The name of a symbol is
mentioned where the symbol is declared, before its body or its members are written,
and the symbol gets the handle of that mention.  `introduced_item` says that no item
of a file adds a symbol without it.  Since no handle is given out twice, the mention
with the handle of a symbol is the one that introduces it, and
`handles_and_names_ofSketches` says both for the programs that sketches make.
-/
import SymbolAtlas.Proofs.Source.Handles

namespace SymbolAtlas

/-! ## Symbols -/

/-- The role in which a declaration of that shape mentions its own name. -/
def Shape.nameRole (exported : Bool) : Shape → Role
  | .variable _ => .variableName exported
  | _ => .declarationName

namespace Definition

def position? : Definition → Option Position
  | .declaration d => d.position
  | .member _ m => m.position

def nameRole : Definition → Role
  | .declaration d => d.shape.nameRole d.exported
  | .member .. => .declarationName

end Definition

/-- A declaration, if it has a name, and its members. -/
def Declaration.symbols (d : Declaration) : List Definition :=
  (if d.isNameless then [] else [.declaration d]) ++ d.members.map (.member d)

theorem Declaration.mem_symbols_iff {d : Declaration} {s : Definition} :
    s ∈ d.symbols ↔
      (d.isNameless = false ∧ s = .declaration d) ∨ ∃ m ∈ d.members, s = .member d m := by
  rw [symbols, List.mem_append, List.mem_map]
  cases hname : d.isNameless with
  | true => simp [eq_comm (a := s)]
  | false => simp [eq_comm (a := s)]

namespace Workspace

def symbols (w : Workspace) : List Definition := w.declarations.flatMap Declaration.symbols

theorem declaration_mem_symbols_iff {w : Workspace} {d : Declaration} :
    .declaration d ∈ w.symbols ↔ d ∈ w.declarations ∧ d.isNameless = false := by
  simp [symbols, List.mem_flatMap, Declaration.mem_symbols_iff]

theorem member_mem_symbols_iff {w : Workspace} {o : Declaration} {m : Member} :
    .member o m ∈ w.symbols ↔ o ∈ w.declarations ∧ m ∈ o.members := by
  simp [symbols, List.mem_flatMap, Declaration.mem_symbols_iff]

end Workspace

/-! ## Introductions -/

/-- A mention of a symbol's own name.  It stands where the symbol does, unless the
symbol is a declaration without a position. -/
structure Mention.Introduces (m : Mention) (s : Definition) : Prop where
  file_eq : m.file = s.file
  name_eq : m.name = s.name
  handle_eq : m.occurrence.handle = s.handle
  role_eq : m.occurrence.role = s.nameRole
  position_eq : s.position? = some m.occurrence.position ∨
    (s.owner? = none ∧ s.position? = none)

namespace Workspace

def Introduced (w : Workspace) : Prop := ∀ s ∈ w.symbols, ∃ m ∈ w.mentions, m.Introduces s

/-- A member's name is mentioned at its place, whatever class it will belong to. -/
def NamesMember (w : Workspace) (file : String) (m : Member) : Prop :=
  ∃ p, m.position = some p ∧
    { file := file, name := m.name,
      occurrence := { position := p, role := .declarationName, handle := m.handle } } ∈ w.mentions

theorem NamesMember.mono {w w' : Workspace} (h : w.mentions ⊆ w'.mentions) {file : String}
    {m : Member} (hm : w.NamesMember file m) : w'.NamesMember file m := by
  obtain ⟨p, hp, hmem⟩ := hm
  exact ⟨p, hp, h hmem⟩

theorem NamesMember.introduces {w : Workspace} {o : Declaration} {m : Member}
    (h : w.NamesMember o.file m) : ∃ n ∈ w.mentions, n.Introduces (.member o m) := by
  obtain ⟨p, hp, hmem⟩ := h
  exact ⟨_, hmem, rfl, rfl, rfl, rfl, Or.inl hp⟩

end Workspace

namespace Draft

theorem mem_mention (d : Draft) (name : String) (role : Role) (frames : List Frame) :
    { file := d.path, name := name,
      occurrence := { position := d.newLine.here, role := role, handle := d.nextHandle } } ∈
      (d.mention name role frames).workspace.mentions :=
  d.newLine.mem_record name role d.newLine.here frames

theorem Writes.introduced {d d' : Draft} (h : d.Writes d') (hs : d.workspace.Introduced) :
    d'.workspace.Introduced := by
  intro s hmem
  rw [Workspace.symbols, h.declarations_eq] at hmem
  obtain ⟨m, hm, hintro⟩ := hs s hmem
  exact ⟨m, h.kept.subset hm, hintro⟩

/-- A declaration may be added if its name, unless it has none, and those of its
members are mentioned. -/
theorem introduced_declare {d : Draft} (hs : d.workspace.Introduced) {name : String}
    {shape : Shape} {position : Position} {exported : Bool} {handle : Handle}
    (hown : ∀ x : Declaration, x.name = name → x.shape = shape → x.isNameless = false →
      { file := d.path, name := name,
        occurrence := { position := position, role := shape.nameRole exported,
                        handle := handle } } ∈ d.workspace.mentions)
    (hmembers : ∀ c, shape = .classDecl c → ∀ m ∈ c.members,
      d.workspace.NamesMember d.path m) :
    (d.declare name shape position exported handle).workspace.Introduced := by
  intro s hmem
  obtain ⟨x, hx, hsx⟩ := List.mem_flatMap.mp hmem
  rcases List.mem_append.mp hx with hold | hnew
  · exact hs s (List.mem_flatMap.mpr ⟨x, hold, hsx⟩)
  · rw [List.mem_singleton] at hnew
    have hxname : x.name = name := by rw [hnew]
    have hxshape : x.shape = shape := by rw [hnew]
    rcases Declaration.mem_symbols_iff.mp hsx with ⟨hnamed, rfl⟩ | ⟨m, hm, rfl⟩
    · refine ⟨_, hown x hxname hxshape hnamed, ?_⟩
      subst hnew
      refine ⟨rfl, rfl, rfl, rfl, ?_⟩
      cases hhide : d.hidePosition with
      | true => exact Or.inr ⟨rfl, by simp [Definition.position?]⟩
      | false => exact Or.inl (by simp [Definition.position?])
    · have hfile : x.file = d.path := by rw [hnew]
      unfold Declaration.members at hm
      split at hm
      · next c hclass =>
        have hmember := hmembers c (hxshape.symm.trans hclass) m hm
        rw [← hfile] at hmember
        exact hmember.introduces
      · cases hm

/-! ## Members -/

namespace InClass

def Named (s : InClass) : Prop :=
  ∀ m ∈ s.shape.members, s.draft.workspace.NamesMember s.draft.path m

/-- An item writes on and adds at most one member, whose name it mentions. -/
theorem Named.of_members {s s' : InClass} (hs : s.Named) (hw : s.draft.Writes s'.draft)
    (hnew : ∀ m ∈ s'.shape.members, m ∈ s.shape.members ∨
      s'.draft.workspace.NamesMember s.draft.path m) : s'.Named := by
  intro m hm
  rw [hw.path_eq]
  rcases hnew m hm with hold | hnew
  · exact (hs m hold).mono hw.kept.subset
  · exact hnew

theorem Named.item {s : InClass} (hs : s.Named) (className : String) (i : ClassItem) :
    (s.item className i).Named := by
  refine hs.of_members (writes_item className s i) ?_
  intro m hm
  cases i with
  | base base => exact Or.inl hm
  | member name kind visibility isStatic is =>
    rcases List.mem_append.mp hm with hold | hnew
    · exact Or.inl hold
    · right
      rw [List.mem_singleton.mp hnew]
      let named := s.draft.mention name .declarationName [.classBody className]
      have hbody := named.writes_body [.classBody className, .method name] is
      exact ⟨_, rfl, hbody.kept.subset (s.draft.mem_mention name _ _)⟩
  | property name visibility isStatic initializerCall =>
    rcases List.mem_append.mp hm with hold | hnew
    · exact Or.inl hold
    · right
      rw [List.mem_singleton.mp hnew]
      exact ⟨_, rfl, s.draft.mem_mention name _ _⟩

theorem named_items (className : String) (d : Draft) (is : List ClassItem) :
    (is.foldl (InClass.item className) { draft := d }).Named :=
  List.foldlRecOn is (InClass.item className) (List.forall_mem_nil _)
    fun _ h i _ => h.item className i

end InClass

/-! ## Files -/

section Items

variable {d : Draft} (hs : d.workspace.Introduced)
include hs

/-- A declaration that mentions its name on a new line and then writes what is in
it. -/
theorem introduced_written (name : String) {role : Role} {shape : Shape} {written : Draft}
    (hw : ({ d with exportNext := false }.mention name role []).Writes written)
    (hrole : role = shape.nameRole d.exportNext)
    (hmembers : ∀ c, shape = .classDecl c → ∀ m ∈ c.members,
      written.workspace.NamesMember written.path m) :
    (written.declare name shape d.newLine.here d.exportNext
      d.nextHandle).workspace.Introduced := by
  let unmarked := { d with exportNext := false }
  have hwritten := (unmarked.writes_mention name role []).trans hw
  refine introduced_declare (hwritten.introduced hs) ?_ hmembers
  intro x _ _ _
  rw [hwritten.path_eq, ← hrole]
  exact hw.kept.subset (unmarked.mem_mention name role [])

theorem introduced_simple (name : String) {role : Role} {shape : Shape}
    (hrole : role = shape.nameRole d.exportNext) (hclass : ∀ c, shape ≠ .classDecl c) :
    (d.simple name role shape).workspace.Introduced :=
  introduced_written hs name (Writes.refl _) hrole fun c hc => absurd hc (hclass c)

theorem introduced_callable (name : String) {role : Role} {shape : Callable → Shape}
    (is : List BodyItem) (hrole : ∀ c, role = (shape c).nameRole d.exportNext)
    (hclass : ∀ c c', shape c ≠ .classDecl c') :
    (d.callable name role shape is).workspace.Introduced :=
  introduced_written hs name (writes_body _ _ is) (hrole _) fun c hc => absurd hc (hclass _ c)

theorem introduced_classDeclaration (name : String) (is : List ClassItem) :
    (d.classDeclaration name is).workspace.Introduced := by
  let named := { d with exportNext := false }.mention name .declarationName []
  refine introduced_written hs name (InClass.writes_items name { draft := named } is) rfl ?_
  intro c hc m hm
  cases hc
  exact InClass.named_items name named is m hm

theorem introduced_defaultExport (name : String) (wrapper : Option String) :
    (d.defaultExport name wrapper).workspace.Introduced := by
  have hplain {w : Draft} (hw : w.workspace.Introduced) (place position : Position)
      (h : Handle) : ((w.record name (.defaultExport wrapper) place []).declare defaultExportName
        (.defaultExport (.identifier name wrapper)) position true h).workspace.Introduced := by
    refine introduced_declare ((w.writes_record _ _ _ _).introduced hw) ?_ ?_
    · intro x _ hx hnamed
      simp [Declaration.isNameless, hx] at hnamed
    · intro c hc
      cases hc
  cases wrapper with
  | none => exact hplain (d.writes_newLine.introduced hs) _ _ _
  | some w =>
    exact hplain ((d.writes_newLine.trans (writes_record _ w _ _ _)).introduced hs) _ _ _

theorem introduced_defaultExportFunction (name : Option String) (is : List BodyItem) :
    (d.defaultExportFunction name is).workspace.Introduced := by
  cases name with
  | none =>
    let named := d.newLine.skipHandle
    have hwritten := (d.writes_newLine.trans (writes_skipHandle _)).trans
      (named.writes_body [.function defaultExportName] is)
    refine introduced_declare (hwritten.introduced hs) ?_ ?_
    · intro x hname hx hnamed
      simp [Declaration.isNameless, hx, hname] at hnamed
    · intro c hc
      cases hc
  | some n =>
    let named := d.newLine.record n .declarationName d.newLine.here []
    have hbody := named.writes_body [.function n] is
    have hwritten := (d.writes_newLine.trans (writes_record _ _ _ _ _)).trans hbody
    refine introduced_declare (hwritten.introduced hs) ?_ ?_
    · intro x _ _ _
      rw [hwritten.path_eq]
      exact hbody.kept.subset (d.newLine.mem_record n .declarationName d.newLine.here [])
    · intro c hc
      cases hc

theorem introduced_reExport (name : String) (newName : Option String) :
    (d.reExport name newName).workspace.Introduced := by
  have hline := d.writes_newLine
  cases newName with
  | none => exact (hline.trans (writes_record _ _ _ _ _)).introduced hs
  | some newName =>
    exact ((hline.trans (writes_record _ _ _ _ _)).trans (writes_record _ _ _ _ _)).introduced hs

/-- No item of a file adds a symbol whose name it does not mention. -/
theorem introduced_item (i : FileItem) : (d.item i).workspace.Introduced := by
  cases i with
  | exportNext => exact hs
  | withoutPosition => exact hs
  | importName name => exact (writes_mention _ _ _ _).introduced hs
  | defaultImport name => exact (writes_mention _ _ _ _).introduced hs
  | exportSpecifier name => exact (writes_mention _ _ _ _).introduced hs
  | reExport name newName => exact introduced_reExport hs name newName
  | interface name => exact introduced_simple hs name rfl (by simp)
  | enumeration name => exact introduced_simple hs name rfl (by simp)
  | «variable» name => exact introduced_simple hs name rfl (by simp)
  | function name is => exact introduced_callable hs name is (fun _ => rfl) (by simp)
  | arrow name is => exact introduced_callable hs name is (fun _ => rfl) (by simp)
  | classDecl name is => exact introduced_classDeclaration hs name is
  | defaultExport name wrapper => exact introduced_defaultExport hs name wrapper
  | defaultExportFunction name is => exact introduced_defaultExportFunction hs name is
  | reference name role => exact (writes_mention _ _ _ _).introduced hs
  | occurrenceAt name role position => exact (writes_record _ _ _ _ _).introduced hs

end Items

end Draft

/-! ## Programs -/

namespace Workspace

theorem Introduced.addFile {w : Workspace} (h : w.Introduced) (path : String)
    (generated : Bool) : (w.addFile path generated).Introduced := by
  unfold Workspace.addFile
  split
  · exact h
  · exact h

theorem Introduced.add {w : Workspace} (h : w.Introduced) (s : FileSketch) :
    (w.add s).Introduced := by
  have hopen : (w.openFile s.path s.generated).workspace.Introduced :=
    h.addFile s.path s.generated
  exact List.foldlRecOn (motive := fun d : Draft => d.workspace.Introduced) s.items Draft.item
    hopen fun _ hd i _ => Draft.introduced_item hd i

theorem introduced_ofSketches (sketches : List FileSketch) :
    (ofSketches sketches).Introduced := by
  have hempty : Introduced {} := List.forall_mem_nil _
  exact List.foldlRecOn sketches add hempty fun _ h s _ => h.add s

/-- Handles ascend along the mentions, so a handle picks out at most one of them. -/
theorem Numbered.filter_handle_eq {w : Workspace} (h : w.Numbered) {m : Mention}
    (hm : m ∈ w.mentions) :
    (w.mentions.filter fun n => n.occurrence.handle = m.occurrence.handle) = [m] := by
  obtain ⟨before, after, hsplit⟩ := List.append_of_mem hm
  have hasc := h.increasing
  rw [hsplit, List.pairwise_append, List.pairwise_cons] at hasc
  obtain ⟨-, ⟨hafter, -⟩, hbefore⟩ := hasc
  have hnone : (before.filter fun n => n.occurrence.handle = m.occurrence.handle) = [] := by
    rw [List.filter_eq_nil_iff]
    intro n hn
    have hlt := hbefore n hn m List.mem_cons_self
    simpa using Nat.ne_of_lt hlt
  have hrest : (after.filter fun n => n.occurrence.handle = m.occurrence.handle) = [] := by
    rw [List.filter_eq_nil_iff]
    intro n hn
    simpa using Nat.ne_of_gt (hafter n hn)
  rw [hsplit, List.filter_append, hnone, List.nil_append, List.filter_cons_of_pos (by simp),
    hrest]

/-- The handles of mentions, parameters and functions without a name are those below
the counter, each given out once.  A symbol has the handle of just one mention of the
program: that of its own name in its own file, as a variable or as another
declaration, and at its own place unless it is a declaration without one. -/
theorem handles_and_names_ofSketches (sketches : List FileSketch) :
    ((ofSketches sketches).mentionHandles ++ ((ofSketches sketches).paramHandles ++
        (anonymousFunctions sketches).map Declaration.handle)).Perm
      (List.range (ofSketches sketches).nextHandle) ∧
    (∀ x ∈ anonymousFunctions sketches, x ∈ (ofSketches sketches).declarations ∧
      x.name = defaultExportName ∧ ∃ c, x.shape = .defaultExport (.callable c)) ∧
    ∀ s ∈ (ofSketches sketches).symbols, ∃ m,
      ((ofSketches sketches).mentions.filter fun n => n.occurrence.handle = s.handle) = [m] ∧
        m.file = s.file ∧ m.name = s.name ∧ m.occurrence.role = s.nameRole ∧
        (s.position? = some m.occurrence.position ∨
          (s.owner? = none ∧ s.position? = none)) := by
  refine ⟨accounts_ofSketches sketches, fun x hx => of_mem_anonymous hx, fun s hs => ?_⟩
  obtain ⟨m, hm, hintro⟩ := introduced_ofSketches sketches s hs
  have hone := (sound_ofSketches sketches).numbered.filter_handle_eq hm
  rw [hintro.handle_eq] at hone
  exact ⟨m, hone, hintro.file_eq, hintro.name_eq, hintro.role_eq, hintro.position_eq⟩

end Workspace
end SymbolAtlas
