/-
What a workspace says about a body it also says as mentions.

A call or an element of a body is written down twice: in the body, where the call
graph finds it, and as a mention, where the look-up of references finds it.
`Workspace.Sound` says that no call, element, declaration or member is without its
mention, and that no two mentions have the same handle.

Writing only ever adds mentions.  `Draft.Writes` is the part of that which the
steps inside one declaration share; with it each operation of a body or a class
needs one lemma, and the nesting of markup one induction.
-/
import SymbolAtlas.Source.Draft
import Mathlib.Data.List.Nodup

namespace SymbolAtlas

/-! ## Mentions -/

namespace Workspace

/-- A name is mentioned in a file in a role. -/
def Mentions (w : Workspace) (file name : String) (role : Role) : Prop :=
  ∃ m ∈ w.mentions, m.file = file ∧ m.name = name ∧ m.occurrence.role = role

/-- A handle is that of a mention in a file. -/
def Holds (w : Workspace) (file : String) (h : Handle) : Prop :=
  ∃ m ∈ w.mentions, m.file = file ∧ m.occurrence.handle = h

theorem Mentions.mono {w w' : Workspace} (h : w.mentions ⊆ w'.mentions) {file name : String}
    {role : Role} (hm : w.Mentions file name role) : w'.Mentions file name role := by
  obtain ⟨m, hmem, hm⟩ := hm
  exact ⟨m, h hmem, hm⟩

theorem Holds.mono {w w' : Workspace} (h : w.mentions ⊆ w'.mentions) {file : String}
    {k : Handle} (hk : w.Holds file k) : w'.Holds file k := by
  obtain ⟨m, hmem, hm⟩ := hk
  exact ⟨m, h hmem, hm⟩

/-- Later mentions have higher handles, all of them below the next one. -/
structure Numbered (w : Workspace) : Prop where
  increasing : w.mentions.Pairwise fun m n => m.occurrence.handle < n.occurrence.handle
  below : ∀ m ∈ w.mentions, m.occurrence.handle < w.nextHandle

theorem Numbered.eq_of_handle_eq {w : Workspace} (h : w.Numbered) {m n : Mention}
    (hm : m ∈ w.mentions) (hn : n ∈ w.mentions)
    (heq : m.occurrence.handle = n.occurrence.handle) : m = n := by
  have hnodup : (w.mentions.map fun m => m.occurrence.handle).Nodup :=
    List.pairwise_map.mpr (h.increasing.imp Nat.ne_of_lt)
  exact List.inj_on_of_nodup_map hnodup hm hn heq

end Workspace

/-! ## Steps inside a declaration -/

namespace Draft

/-- The second draft is the first with more mentions and no more declarations. -/
structure Writes (d d' : Draft) : Prop where
  path_eq : d'.path = d.path
  declarations_eq : d'.workspace.declarations = d.workspace.declarations
  kept : d.workspace.mentions <+: d'.workspace.mentions
  numbered : d.workspace.Numbered → d'.workspace.Numbered

theorem Writes.refl (d : Draft) : d.Writes d := ⟨rfl, rfl, List.prefix_rfl, id⟩

theorem Writes.trans {d d' d'' : Draft} (h : d.Writes d') (h' : d'.Writes d'') :
    d.Writes d'' where
  path_eq := h'.path_eq.trans h.path_eq
  declarations_eq := h'.declarations_eq.trans h.declarations_eq
  kept := h.kept.trans h'.kept
  numbered := h'.numbered ∘ h.numbered

theorem writes_newLine (d : Draft) : d.Writes d.newLine := ⟨rfl, rfl, List.prefix_rfl, id⟩

theorem writes_skipHandle (d : Draft) : d.Writes d.skipHandle where
  path_eq := rfl
  declarations_eq := rfl
  kept := List.prefix_rfl
  numbered h := ⟨h.increasing, fun m hm => Nat.lt_succ_of_lt (h.below m hm)⟩

theorem writes_inferType (d : Draft) (h : Handle) (type : String) :
    d.Writes (d.inferType h type) where
  path_eq := rfl
  declarations_eq := rfl
  kept := List.prefix_rfl
  numbered hn := ⟨hn.increasing, hn.below⟩

section Record

variable (d : Draft) (name : String) (role : Role) (position : Position) (frames : List Frame)

theorem writes_record : d.Writes (d.record name role position frames) where
  path_eq := rfl
  declarations_eq := rfl
  kept := List.prefix_append _ _
  numbered h := by
    constructor
    · refine List.pairwise_append.mpr ⟨h.increasing, List.pairwise_singleton _ _, ?_⟩
      intro m hm n hn
      rw [List.mem_singleton.mp hn]
      exact h.below m hm
    · intro m hm
      show m.occurrence.handle < d.workspace.nextHandle + 1
      rcases List.mem_append.mp hm with hold | hnew
      · exact Nat.lt_succ_of_lt (h.below m hold)
      · rw [List.mem_singleton.mp hnew]
        exact Nat.lt_succ_self _

theorem mem_record :
    { file := d.path, name := name,
      occurrence := { position := position, role := role, handle := d.nextHandle } } ∈
      (d.record name role position frames).workspace.mentions :=
  List.mem_append_right _ (List.mem_singleton_self _)

theorem mentions_record :
    (d.record name role position frames).workspace.Mentions d.path name role :=
  ⟨_, d.mem_record name role position frames, rfl, rfl, rfl⟩

theorem holds_record :
    (d.record name role position frames).workspace.Holds d.path d.nextHandle :=
  ⟨_, d.mem_record name role position frames, rfl, rfl⟩

end Record

theorem writes_mention (d : Draft) (name : String) (role : Role) (frames : List Frame) :
    d.Writes (d.mention name role frames) :=
  d.writes_newLine.trans (d.newLine.writes_record name role _ frames)

theorem mentions_mention (d : Draft) (name : String) (role : Role) (frames : List Frame) :
    (d.mention name role frames).workspace.Mentions d.path name role :=
  d.newLine.mentions_record name role _ frames

theorem holds_mention (d : Draft) (name : String) (role : Role) (frames : List Frame) :
    (d.mention name role frames).workspace.Holds d.path d.nextHandle :=
  d.newLine.holds_record name role _ frames

end Draft

/-! ## Bodies -/

/-- The role in which a call mentions the name that is called. -/
def CallSite.role (c : CallSite) : Role :=
  match c.target with
  | .name _ => if c.isNew then .newTarget else .callTarget
  | .member .. => .propertyName

structure Body.Recorded (w : Workspace) (file : String) (b : Body) : Prop where
  calls : ∀ c ∈ b.calls, w.Mentions file c.target.callee c.role
  markup : ∀ e ∈ b.markup, w.Mentions file e.tag .markupTag

theorem Body.Recorded.mono {w w' : Workspace} (h : w.mentions ⊆ w'.mentions) {file : String}
    {b : Body} (hb : b.Recorded w file) : b.Recorded w' file :=
  ⟨fun c hc => (hb.calls c hc).mono h, fun e he => (hb.markup e he).mono h⟩

namespace Draft
namespace InBody

def Recorded (s : InBody) : Prop := s.callable.body.Recorded s.draft.workspace s.draft.path

/-- Going from one state of a body to the next one leaves nothing unmentioned. -/
structure Advances (s s' : InBody) : Prop where
  writes : s.draft.Writes s'.draft
  recorded : s.Recorded → s'.Recorded

theorem Advances.refl (s : InBody) : s.Advances s := ⟨Writes.refl s.draft, id⟩

theorem Advances.trans {s s' s'' : InBody} (h : s.Advances s') (h' : s'.Advances s'') :
    s.Advances s'' := ⟨h.writes.trans h'.writes, h'.recorded ∘ h.recorded⟩

/-- A step that adds no call and no element only has to write. -/
theorem advances_of_writes {s s' : InBody} (h : s.draft.Writes s'.draft)
    (hbody : s'.callable.body = s.callable.body) : s.Advances s' where
  writes := h
  recorded hs := by
    unfold Recorded at hs ⊢
    rw [hbody, h.path_eq]
    exact hs.mono h.kept.subset

theorem Advances.addCall {s s' : InBody} (h : s.Advances s') {c : CallSite}
    (hc : s'.draft.workspace.Mentions s'.draft.path c.target.callee c.role) :
    s.Advances (s'.addCall c) where
  writes := h.writes
  recorded hs := by
    refine ⟨?_, (h.recorded hs).markup⟩
    intro c' hc'
    rcases List.mem_append.mp hc' with hold | hnew
    · exact (h.recorded hs).calls c' hold
    · rw [List.mem_singleton.mp hnew]
      exact hc

theorem Advances.addElement {s s' : InBody} (h : s.Advances s') {e : Element}
    (he : s'.draft.workspace.Mentions s'.draft.path e.tag .markupTag) :
    s.Advances (s'.addElement e) where
  writes := h.writes
  recorded hs := by
    refine ⟨(h.recorded hs).calls, ?_⟩
    intro e' he'
    rcases List.mem_append.mp he' with hold | hnew
    · exact (h.recorded hs).markup e' hold
    · rw [List.mem_singleton.mp hnew]
      exact he

section Operations

variable (s : InBody) (frames : List Frame)

theorem advances_mention (name : String) (role : Role) :
    s.Advances (s.mention name role frames) :=
  advances_of_writes (s.draft.writes_mention name role frames) rfl

theorem advances_param (name : String) (writtenType : Option String) :
    s.Advances (s.param frames name writtenType) := by
  cases writtenType with
  | none => exact advances_of_writes s.draft.writes_skipHandle rfl
  | some type =>
    have htype := s.draft.skipHandle.writes_mention type .typeReference frames
    exact advances_of_writes (s.draft.writes_skipHandle.trans htype) rfl

theorem advances_paramInferred (name type : String) :
    s.Advances (s.paramInferred name type) :=
  advances_of_writes (s.draft.writes_skipHandle.trans (writes_inferType _ _ type)) rfl

theorem advances_call (name : String) (isNew : Bool) :
    s.Advances (s.call frames name isNew) := by
  refine (s.advances_mention frames name _).addCall ?_
  exact s.draft.mentions_mention name _ frames

theorem advances_callMember (object property : String) :
    s.Advances (s.callMember frames object property) := by
  let d := s.draft.newLine
  let seen := if receiver object = "this" then d
    else d.record (receiver object) .identifier d.here frames
  have hseen : s.draft.Writes seen := by
    by_cases hthis : receiver object = "this"
    · rw [show seen = d from if_pos hthis]
      exact s.draft.writes_newLine
    · rw [show seen = _ from if_neg hthis]
      exact s.draft.writes_newLine.trans (d.writes_record _ _ _ frames)
  let named := seen.record property .propertyName (after d.here (object.utf8ByteSize + 1)) frames
  have hnamed : s.Advances { s with draft := named } :=
    advances_of_writes (hseen.trans (seen.writes_record property .propertyName _ frames)) rfl
  refine hnamed.addCall ?_
  show named.workspace.Mentions seen.path property .propertyName
  exact seen.mentions_record property .propertyName _ frames

theorem advances_render (tag : String) : s.Advances (s.render frames tag) := by
  refine (s.advances_mention frames tag .markupTag).addElement ?_
  exact s.draft.mentions_mention tag .markupTag frames

end Operations

mutual

theorem advances_item (frames : List Frame) (s : InBody) (i : BodyItem) :
    s.Advances (item frames s i) := by
  cases i with
  | param name writtenType => exact s.advances_param frames name writtenType
  | paramInferred name type => exact s.advances_paramInferred name type
  | call name => exact s.advances_call frames name false
  | callMember object property => exact s.advances_callMember frames object property
  | callThis method => exact s.advances_callMember frames "this" method
  | construct name => exact s.advances_call frames name true
  | render tag => exact s.advances_render frames tag
  | renderWith tag children =>
    rw [item]
    exact (s.advances_render frames tag).trans (advances_items _ (s.render frames tag) children)
  | typeRef name => exact s.advances_mention frames name .typeReference
  | reference name => exact s.advances_mention frames name .identifier
  | occurrence name role => exact s.advances_mention frames name role

theorem advances_items (frames : List Frame) (s : InBody) (is : List BodyItem) :
    s.Advances (items frames s is) := by
  cases is with
  | nil => exact Advances.refl s
  | cons i is =>
    exact (advances_item frames s i).trans (advances_items frames (item frames s i) is)

end

end InBody

theorem writes_body (d : Draft) (frames : List Frame) (is : List BodyItem) :
    d.Writes (d.body frames is).draft :=
  (InBody.advances_items frames { draft := d } is).writes

/-- Every call and element of a body that was written is mentioned. -/
theorem recorded_body (d : Draft) (frames : List Frame) (is : List BodyItem) :
    (d.body frames is).callable.body.Recorded (d.body frames is).draft.workspace d.path := by
  have h := InBody.advances_items frames { draft := d } is
  have hempty : InBody.Recorded { draft := d } := by
    constructor <;> exact List.forall_mem_nil _
  have hbody := h.recorded hempty
  rw [InBody.Recorded, h.writes.path_eq] at hbody
  exact hbody

end Draft

/-! ## Classes -/

structure Member.Recorded (w : Workspace) (file : String) (m : Member) : Prop where
  own : w.Holds file m.handle
  body : ∀ c, m.callable = some c → c.body.Recorded w file

theorem Member.Recorded.mono {w w' : Workspace} (h : w.mentions ⊆ w'.mentions) {file : String}
    {m : Member} (hm : m.Recorded w file) : m.Recorded w' file :=
  ⟨hm.own.mono h, fun c hc => (hm.body c hc).mono h⟩

namespace Draft
namespace InClass

def Recorded (s : InClass) : Prop :=
  ∀ m ∈ s.shape.members, m.Recorded s.draft.workspace s.draft.path

theorem writes_heritage (s : InClass) (className base : String) :
    s.draft.Writes (s.heritage className base).draft := by
  unfold heritage
  cases Text.cutLast? '.' base.toList with
  | none => exact s.draft.writes_newLine.trans (writes_record _ _ _ _ _)
  | some halves =>
    exact (s.draft.writes_newLine.trans (writes_record _ _ _ _ _)).trans (writes_record _ _ _ _ _)

theorem writes_item (className : String) (s : InClass) (i : ClassItem) :
    s.draft.Writes (s.item className i).draft := by
  cases i with
  | base base => exact s.writes_heritage className base
  | member name kind visibility isStatic is =>
    exact (s.draft.writes_mention name _ _).trans (writes_body _ _ is)
  | property name visibility isStatic initializerCall => exact s.draft.writes_mention name _ _

/-- An item keeps the members that are there and adds at most one. -/
theorem Recorded.of_members {s s' : InClass} (hs : s.Recorded) (hw : s.draft.Writes s'.draft)
    (hnew : ∀ m ∈ s'.shape.members, m ∈ s.shape.members ∨
      m.Recorded s'.draft.workspace s.draft.path) : s'.Recorded := by
  intro m hm
  rw [hw.path_eq]
  rcases hnew m hm with hold | hnew
  · exact (hs m hold).mono hw.kept.subset
  · exact hnew

theorem Recorded.item {s : InClass} (hs : s.Recorded) (className : String) (i : ClassItem) :
    (s.item className i).Recorded := by
  refine hs.of_members (writes_item className s i) ?_
  intro m hm
  cases i with
  | base base => exact Or.inl hm
  | member name kind visibility isStatic is =>
    rcases List.mem_append.mp hm with hold | hnew
    · exact Or.inl hold
    · right
      rw [List.mem_singleton.mp hnew]
      let named := s.draft.mention name .declarationName [.classBody className]
      have hown : named.workspace.Holds s.draft.path s.draft.nextHandle :=
        s.draft.holds_mention name _ _
      refine ⟨hown.mono (named.writes_body _ is).kept.subset, ?_⟩
      intro c hc
      cases hc
      exact named.recorded_body _ is
  | property name visibility isStatic initializerCall =>
    rcases List.mem_append.mp hm with hold | hnew
    · exact Or.inl hold
    · right
      rw [List.mem_singleton.mp hnew]
      refine ⟨s.draft.holds_mention name _ _, ?_⟩
      intro c hc
      cases hc

theorem writes_items (className : String) (s : InClass) (is : List ClassItem) :
    s.draft.Writes (is.foldl (InClass.item className) s).draft := by
  induction is generalizing s with
  | nil => exact Writes.refl s.draft
  | cons i is ih => exact (writes_item className s i).trans (ih (s.item className i))

end InClass
end Draft

/-! ## Declarations -/

/-- The callables whose bodies a shape holds. -/
def Shape.callables : Shape → List Callable
  | .function c => [c]
  | .defaultExport (.callable c) => [c]
  | .variable (some c) => [c]
  | .classDecl shape => shape.members.filterMap Member.callable
  | _ => []

structure Declaration.Recorded (w : Workspace) (d : Declaration) : Prop where
  own : d.isNameless = false → w.Holds d.file d.handle
  members : ∀ m ∈ d.members, w.Holds d.file m.handle
  bodies : ∀ c ∈ d.shape.callables, c.body.Recorded w d.file

theorem Declaration.Recorded.mono {w w' : Workspace} (h : w.mentions ⊆ w'.mentions)
    {d : Declaration} (hd : d.Recorded w) : d.Recorded w' :=
  ⟨fun hn => (hd.own hn).mono h, fun m hm => (hd.members m hm).mono h,
    fun c hc => (hd.bodies c hc).mono h⟩

structure Workspace.Sound (w : Workspace) : Prop where
  numbered : w.Numbered
  recorded : ∀ d ∈ w.declarations, d.Recorded w

namespace Draft

theorem Writes.sound {d d' : Draft} (h : d.Writes d') (hs : d.workspace.Sound) :
    d'.workspace.Sound where
  numbered := h.numbered hs.numbered
  recorded x hx := by
    rw [h.declarations_eq] at hx
    exact (hs.recorded x hx).mono h.kept.subset

/-- A declaration whose parts are mentioned may be added. -/
theorem sound_declare {d : Draft} (hs : d.workspace.Sound) {name : String} {shape : Shape}
    {position : Position} {exported : Bool} {handle : Handle}
    (hnew : ∀ x : Declaration, x.name = name → x.shape = shape → x.file = d.path →
      x.handle = handle → x.Recorded d.workspace) :
    (d.declare name shape position exported handle).workspace.Sound where
  numbered := ⟨hs.numbered.increasing, hs.numbered.below⟩
  recorded x hx := by
    have hrec : x.Recorded d.workspace := by
      rcases List.mem_append.mp hx with hold | hadded
      · exact hs.recorded x hold
      · rw [List.mem_singleton.mp hadded]
        exact hnew _ rfl rfl rfl rfl
    refine hrec.mono ?_
    exact List.Subset.refl d.workspace.mentions

/-! ## Files -/

/-- A declaration whose shape is the callable that was just written.  The mention
of its name is asked for only if it has one. -/
theorem sound_written {named : Draft} (hs : named.workspace.Sound) {name : String}
    {frames : List Frame} {is : List BodyItem} {shape : Shape} {position : Position}
    {exported : Bool} {handle : Handle}
    (hshape : shape = .function (named.body frames is).callable ∨
      shape = .variable (some (named.body frames is).callable) ∨
      shape = .defaultExport (.callable (named.body frames is).callable))
    (hown : ∀ x : Declaration, x.name = name → x.shape = shape → x.isNameless = false →
      named.workspace.Holds named.path handle) :
    ((named.body frames is).draft.declare name shape position exported
      handle).workspace.Sound := by
  have hwritten := named.writes_body frames is
  refine sound_declare (hwritten.sound hs) ?_
  intro x hname hx hfile hhandle
  have hpath : x.file = named.path := hfile.trans hwritten.path_eq
  constructor
  · intro hn
    rw [hpath, hhandle]
    exact (hown x hname hx hn).mono hwritten.kept.subset
  · rcases hshape with h | h | h <;> simp [Declaration.members, hx, h]
  · intro c hc
    have hcal : c = (named.body frames is).callable := by
      rcases hshape with h | h | h <;>
        · rw [hx, h] at hc
          exact List.mem_singleton.mp hc
    rw [hcal, hpath]
    exact named.recorded_body frames is

section Items

variable {d : Draft} (hs : d.workspace.Sound)
include hs

theorem sound_simple (name : String) (role : Role) {shape : Shape}
    (hshape : shape = .interface ∨ shape = .enum ∨ shape = .variable none) :
    (d.simple name role shape).workspace.Sound := by
  let named := { d with exportNext := false }.mention name role []
  have hnamed : named.workspace.Sound := (writes_mention _ name role []).sound hs
  refine sound_declare hnamed ?_
  intro x hname hx hfile hhandle
  have hown : named.workspace.Holds x.file x.handle := by
    rw [hfile, hhandle]
    exact holds_mention _ name role []
  refine ⟨fun _ => hown, ?_, ?_⟩
  · rcases hshape with rfl | rfl | rfl <;> simp [Declaration.members, hx]
  · rcases hshape with rfl | rfl | rfl <;> simp [Shape.callables, hx]

theorem sound_callable (name : String) (role : Role) {shape : Callable → Shape}
    (is : List BodyItem)
    (hshape : ∀ c, shape c = .function c ∨ shape c = .variable (some c)) :
    (d.callable name role shape is).workspace.Sound := by
  let named := { d with exportNext := false }.mention name role []
  have hnamed : named.workspace.Sound := (writes_mention _ name role []).sound hs
  refine sound_written hnamed ?_ fun _ _ _ _ => holds_mention _ name role []
  rcases hshape (named.body [.function name] is).callable with h | h
  · exact Or.inl h
  · exact Or.inr (Or.inl h)

theorem sound_classDeclaration (name : String) (is : List ClassItem) :
    (d.classDeclaration name is).workspace.Sound := by
  let named := { d with exportNext := false }.mention name .declarationName []
  let written := is.foldl (InClass.item name) { draft := named }
  have hwritten : named.Writes written.draft := InClass.writes_items name { draft := named } is
  have hsound : written.draft.workspace.Sound :=
    hwritten.sound ((writes_mention _ name .declarationName []).sound hs)
  have hmembers : written.Recorded :=
    List.foldlRecOn is (InClass.item name) (List.forall_mem_nil _) fun _ h i _ => h.item name i
  refine sound_declare hsound ?_
  intro x hname hx hfile hhandle
  have hown : written.draft.workspace.Holds x.file x.handle := by
    rw [hfile, hwritten.path_eq, hhandle]
    exact (holds_mention _ name .declarationName []).mono hwritten.kept.subset
  refine ⟨fun _ => hown, ?_, ?_⟩
  · intro m hm
    rw [Declaration.members, hx] at hm
    rw [hfile]
    exact (hmembers m hm).own
  · intro c hc
    rw [hx] at hc
    obtain ⟨m, hm, hmc⟩ := List.mem_filterMap.mp hc
    rw [hfile]
    exact (hmembers m hm).body c hmc

theorem sound_reExport (name : String) (newName : Option String) :
    (d.reExport name newName).workspace.Sound := by
  have hline := d.writes_newLine
  cases newName with
  | none => exact (hline.trans (writes_record _ _ _ _ _)).sound hs
  | some newName =>
    exact ((hline.trans (writes_record _ _ _ _ _)).trans (writes_record _ _ _ _ _)).sound hs

/-- A default export of a name introduces none, so its own mention is not asked
for. -/
theorem sound_defaultExport (name : String) (wrapper : Option String) :
    (d.defaultExport name wrapper).workspace.Sound := by
  have hplain {w : Draft} (hw : w.workspace.Sound) (place position : Position) (h : Handle) :
      ((w.record name (.defaultExport wrapper) place []).declare defaultExportName
        (.defaultExport (.identifier name wrapper)) position true h).workspace.Sound := by
    refine sound_declare ((w.writes_record _ _ _ _).sound hw) ?_
    intro x hname hx hfile hhandle
    constructor <;> simp [Declaration.isNameless, Declaration.members, Shape.callables, hx]
  cases wrapper with
  | none => exact hplain (d.writes_newLine.sound hs) _ _ _
  | some w => exact hplain ((d.writes_newLine.trans (writes_record _ w _ _ _)).sound hs) _ _ _

theorem sound_defaultExportFunction (name : Option String) (is : List BodyItem) :
    (d.defaultExportFunction name is).workspace.Sound := by
  have hline := d.writes_newLine
  cases name with
  | none =>
    refine sound_written ((hline.trans (writes_skipHandle _)).sound hs) (Or.inr (Or.inr rfl)) ?_
    intro x hname hx hn
    simp [Declaration.isNameless, hx, hname] at hn
  | some n =>
    refine sound_written ((hline.trans (writes_record _ n _ _ _)).sound hs)
      (Or.inr (Or.inr rfl)) ?_
    intro x hname hx hn
    exact d.newLine.holds_record n .declarationName _ []

/-- No item of a file leaves anything unmentioned. -/
theorem sound_item (i : FileItem) : (d.item i).workspace.Sound := by
  cases i with
  | exportNext => exact hs
  | withoutPosition => exact hs
  | importName name => exact (writes_mention _ _ _ _).sound hs
  | defaultImport name => exact (writes_mention _ _ _ _).sound hs
  | exportSpecifier name => exact (writes_mention _ _ _ _).sound hs
  | reExport name newName => exact sound_reExport hs name newName
  | interface name => exact sound_simple hs name _ (Or.inl rfl)
  | enumeration name => exact sound_simple hs name _ (Or.inr (Or.inl rfl))
  | «variable» name => exact sound_simple hs name _ (Or.inr (Or.inr rfl))
  | function name is => exact sound_callable hs name _ is fun _ => Or.inl rfl
  | arrow name is => exact sound_callable hs name _ is fun _ => Or.inr rfl
  | classDecl name is => exact sound_classDeclaration hs name is
  | defaultExport name wrapper => exact sound_defaultExport hs name wrapper
  | defaultExportFunction name is => exact sound_defaultExportFunction hs name is
  | reference name role => exact (writes_mention _ _ _ _).sound hs
  | occurrenceAt name role position => exact (writes_record _ _ _ _ _).sound hs

end Items

end Draft

namespace Workspace

theorem Sound.addFile {w : Workspace} (h : w.Sound) (path : String) (generated : Bool) :
    (w.addFile path generated).Sound := by
  unfold Workspace.addFile
  split
  · exact h
  · refine ⟨⟨h.numbered.increasing, h.numbered.below⟩, ?_⟩
    intro d hd
    refine (h.recorded d hd).mono ?_
    exact List.Subset.refl w.mentions

theorem Sound.add {w : Workspace} (h : w.Sound) (s : FileSketch) : (w.add s).Sound := by
  have hopen : (w.openFile s.path s.generated).workspace.Sound := h.addFile s.path s.generated
  unfold Workspace.add
  generalize w.openFile s.path s.generated = d at hopen ⊢
  induction s.items generalizing d with
  | nil => exact hopen
  | cons i is ih => exact ih (d.item i) (Draft.sound_item hopen i)

theorem sound_ofSketches (sketches : List FileSketch) : (ofSketches sketches).Sound := by
  have hempty : Sound {} :=
    ⟨⟨List.Pairwise.nil, List.forall_mem_nil _⟩, List.forall_mem_nil _⟩
  exact List.foldlRecOn sketches add hempty fun _ h s _ => h.add s

end Workspace
end SymbolAtlas
