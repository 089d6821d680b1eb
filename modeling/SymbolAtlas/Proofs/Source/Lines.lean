/-
The lines of a sketch.

A sketch says nothing of places, but each of its items takes lines of its own, and on a line
stand names in a fixed order.  `FileItem.lines` lists them, with what encloses them; markup may
nest in a body as deep as it likes, and `BodyItem.nestedIn` lists the items of a body in source
order, each with the tags around it.

What is recorded when a sketch is written are these lines one below the other, `Draft.Fills`,
whatever handles are given out and whatever is declared on the way.  The one exception is an
occurrence at a place of its own.
-/
import SymbolAtlas.Proofs.Source.Recorded

namespace SymbolAtlas

/-! ## Lines -/

/-- A name on a line and the column at which it begins. -/
structure Word where
  name : String
  column : Nat

/-- The names on a line, from left to right, and what encloses them. -/
structure Line where
  frames : List Frame
  words : List Word
  ascending : (words.map Word.column).Pairwise (· < ·)

namespace Line

def blank : Line := { frames := [], words := [], ascending := .nil }

/-- A name at a column. -/
def single (frames : List Frame) (name : String) (column : Nat) : Line where
  frames := frames
  words := [⟨name, column⟩]
  ascending := List.pairwise_singleton _ _

/-- A name at the start of the line. -/
def one (frames : List Frame) (name : String) : Line := single frames name 1

/-- A name at the start and another one that begins `width + 1` columns further. -/
def two (frames : List Frame) (first : String) (width : Nat) (second : String) : Line where
  frames := frames
  words := [⟨first, 1⟩, ⟨second, 1 + (width + 1)⟩]
  ascending := by simp

/-- A member behind its receiver, whose first name is on the line unless it is the enclosing
instance. -/
def memberCall (frames : List Frame) (object property : String) : Line :=
  if Draft.InBody.receiver object = "this" then
    single frames property (1 + (object.utf8ByteSize + 1))
  else
    two frames (Draft.InBody.receiver object) object.utf8ByteSize property

/-- A base class, behind its namespace if it has one. -/
def base (frames : List Frame) (name : String) : Line :=
  match Text.cutLast? '.' name.toList with
  | some (space, last) =>
    two frames (String.ofList space) (String.ofList space).utf8ByteSize (String.ofList last)
  | none => one frames name

end Line

/-! ## Items and their lines -/

/-- An item of a body and the tags of the elements around it, outermost first. -/
structure Nested where
  tags : List String
  item : BodyItem

def Nested.inside (tag : String) (e : Nested) : Nested := { e with tags := tag :: e.tags }

namespace BodyItem

mutual

/-- An item and the items inside it.  Its own tag does not enclose it. -/
def nested : BodyItem → List Nested
  | .renderWith tag children =>
    { tags := [], item := .renderWith tag children } :: (nestedIn children).map (.inside tag)
  | i => [{ tags := [], item := i }]

/-- The items of a body, each before those inside it. -/
def nestedIn : List BodyItem → List Nested
  | [] => []
  | i :: is => i.nested ++ nestedIn is

end

/-- The line of an item, if it takes one, without those of the items inside it. -/
def ownLines (frames : List Frame) : BodyItem → List Line
  | .param _ none => []
  | .param _ (some type) => [.one frames type]
  | .paramInferred .. => []
  | .call name => [.one frames name]
  | .callMember object property => [.memberCall frames object property]
  | .callThis method => [.memberCall frames "this" method]
  | .construct name => [.one frames name]
  | .render tag => [.one frames tag]
  | .renderWith tag _ => [.one frames tag]
  | .typeRef name => [.one frames name]
  | .reference name => [.one frames name]
  | .occurrence name _ => [.one frames name]

/-- The lines of a body that stands in `frames`. -/
def lines (frames : List Frame) (is : List BodyItem) : List Line :=
  (nestedIn is).flatMap fun e => e.item.ownLines (frames ++ e.tags.map .markup)

end BodyItem

def ClassItem.lines (className : String) : ClassItem → List Line
  | .base name => [.base [.classBody className] name]
  | .member name _ _ _ is =>
    .one [.classBody className] name :: BodyItem.lines [.classBody className, .method name] is
  | .property name .. => [.one [.classBody className] name]

def FileItem.lines : FileItem → List Line
  | .exportNext => []
  | .withoutPosition => []
  | .importName name => [.one [] name]
  | .defaultImport name => [.one [] name]
  | .exportSpecifier name => [.one [] name]
  | .reExport name none => [.one [] name]
  | .reExport name (some newName) => [.two [] name (name.utf8ByteSize + 3) newName]
  | .interface name => [.one [] name]
  | .enumeration name => [.one [] name]
  | .variable name => [.one [] name]
  | .function name is => .one [] name :: BodyItem.lines [.function name] is
  | .arrow name is => .one [] name :: BodyItem.lines [.function name] is
  | .classDecl name is => .one [] name :: is.flatMap (ClassItem.lines name)
  | .defaultExport name none => [.one [] name]
  | .defaultExport name (some wrapper) => [.two [] wrapper wrapper.utf8ByteSize name]
  | .defaultExportFunction none is => .blank :: BodyItem.lines [.function defaultExportName] is
  | .defaultExportFunction (some name) is => .one [] name :: BodyItem.lines [.function name] is
  | .reference name _ => [.one [] name]
  | .occurrenceAt name _ position => [.single [] name position.column]

/-- Whether it gives the place of what it mentions. -/
def FileItem.isPlaced : FileItem → Bool
  | .occurrenceAt .. => true
  | _ => false

def FileSketch.lines (s : FileSketch) : List Line := s.items.flatMap FileItem.lines

/-! ## What is recorded -/

/-- A mention with what encloses it, without its role and its handle. -/
structure Sighting where
  file : String
  name : String
  position : Position
  frames : List Frame

def Line.sightings (file : String) (number : Nat) (l : Line) : List Sighting :=
  l.words.map fun x =>
    { file := file, name := x.name, position := { line := number, column := wrapPlace x.column },
      frames := l.frames }

/-- The sightings of lines that begin below a line. -/
def sightingsBelow (file : String) : Nat → List Line → List Sighting
  | _, [] => []
  | n, l :: ls =>
    l.sightings file (wrapPlace (n + 1)) ++ sightingsBelow file (wrapPlace (n + 1)) ls

/-- The last of `count` lines that begin below a line. -/
def lineBelow (n : Nat) : (count : Nat) → Nat
  | 0 => n
  | count + 1 => lineBelow (wrapPlace (n + 1)) count

theorem sightingsBelow_append (file : String) (n : Nat) (ls ls' : List Line) :
    sightingsBelow file n (ls ++ ls') =
      sightingsBelow file n ls ++ sightingsBelow file (lineBelow n ls.length) ls' := by
  induction ls generalizing n with
  | nil => rfl
  | cons l ls ih =>
    rw [List.cons_append, sightingsBelow, ih, sightingsBelow, List.append_assoc]
    rfl

theorem lineBelow_add (n count count' : Nat) :
    lineBelow n (count + count') = lineBelow (lineBelow n count) count' := by
  induction count generalizing n with
  | zero => rw [Nat.zero_add]; rfl
  | succ count ih =>
    rw [Nat.succ_add, lineBelow, ih]
    rfl

def Mention.sighting (w : Workspace) (m : Mention) : Sighting :=
  { file := m.file, name := m.name, position := m.occurrence.position,
    frames := w.framesOf m.occurrence.handle }

namespace Workspace

def sightings (w : Workspace) : List Sighting := w.mentions.map (Mention.sighting w)

/-- Nothing is recorded under a handle that was not given out yet. -/
structure Tidy (w : Workspace) : Prop where
  mentions : ∀ m ∈ w.mentions, m.occurrence.handle < w.nextHandle
  frames : ∀ row ∈ w.frames, row.1 < w.nextHandle

theorem Tidy.lookup_nextHandle {w : Workspace} (h : w.Tidy) :
    w.frames.lookup w.nextHandle = none := by
  rw [List.lookup_eq_none_iff]
  intro row hrow
  exact bne_iff_ne.mpr (Nat.ne_of_gt (h.frames row hrow))

end Workspace

namespace Draft

/-- The second draft records these sightings on top of what the first one does. -/
structure Shows (d : Draft) (new : List Sighting) (d' : Draft) : Prop where
  path_eq : d'.path = d.path
  tidy : d.workspace.Tidy → d'.workspace.Tidy
  sightings_eq : d.workspace.Tidy → d'.workspace.sightings = d.workspace.sightings ++ new

theorem Shows.trans {d d' d'' : Draft} {new new' : List Sighting} (h : d.Shows new d')
    (h' : d'.Shows new' d'') : d.Shows (new ++ new') d'' where
  path_eq := h'.path_eq.trans h.path_eq
  tidy := h'.tidy ∘ h.tidy
  sightings_eq hd := by
    rw [h'.sightings_eq (h.tidy hd), h.sightings_eq hd, List.append_assoc]

/-- Most steps leave what is recorded alone. -/
theorem shows_of_eq {d d' : Draft} (hpath : d'.path = d.path)
    (hmentions : d'.workspace.mentions = d.workspace.mentions)
    (hframes : d'.workspace.frames = d.workspace.frames)
    (hnext : d.workspace.nextHandle ≤ d'.workspace.nextHandle) : d.Shows [] d' where
  path_eq := hpath
  tidy h := by
    constructor
    · rw [hmentions]
      exact fun m hm => Nat.lt_of_lt_of_le (h.mentions m hm) hnext
    · rw [hframes]
      exact fun row hrow => Nat.lt_of_lt_of_le (h.frames row hrow) hnext
  sightings_eq _ := by
    rw [List.append_nil, Workspace.sightings, Workspace.sightings, hmentions]
    refine List.map_congr_left fun m _ => ?_
    rw [Mention.sighting, Mention.sighting, Workspace.framesOf, Workspace.framesOf, hframes]

section Record

variable (d : Draft) (name : String) (role : Role) (position : Position) (frames : List Frame)

theorem framesOf_record (h : d.workspace.Tidy) (k : Handle) :
    (d.record name role position frames).workspace.framesOf k =
      if k = d.nextHandle then frames else d.workspace.framesOf k := by
  have hfresh := h.lookup_nextHandle
  by_cases hempty : frames = []
  · have hframes : (d.record name role position frames).workspace.frames = d.workspace.frames :=
      if_pos hempty
    rw [Workspace.framesOf, hframes]
    split
    · next hk => rw [hk, hempty, nextHandle, hfresh, Option.getD_none]
    · rfl
  · have hframes : (d.record name role position frames).workspace.frames =
        d.workspace.frames ++ [(d.nextHandle, frames)] := if_neg hempty
    rw [Workspace.framesOf, hframes, List.lookup_append]
    split
    · next hk =>
      rw [hk, nextHandle, hfresh, Option.none_or]
      simp
    · next hk =>
      have hother : [(d.nextHandle, frames)].lookup k = none := by simp [hk]
      rw [hother, Option.or_none]
      rfl

theorem tidy_record (h : d.workspace.Tidy) :
    (d.record name role position frames).workspace.Tidy := by
  constructor
  · intro m hm
    show m.occurrence.handle < d.workspace.nextHandle + 1
    rcases List.mem_append.mp hm with hold | hnew
    · exact Nat.lt_succ_of_lt (h.mentions m hold)
    · rw [List.mem_singleton.mp hnew]
      exact Nat.lt_succ_self _
  · intro row hrow
    show row.1 < d.workspace.nextHandle + 1
    change row ∈ (if frames = [] then d.workspace.frames
      else d.workspace.frames ++ [(d.workspace.nextHandle, frames)]) at hrow
    split at hrow
    · exact Nat.lt_succ_of_lt (h.frames row hrow)
    · rcases List.mem_append.mp hrow with hold | hnew
      · exact Nat.lt_succ_of_lt (h.frames row hold)
      · rw [List.mem_singleton.mp hnew]
        exact Nat.lt_succ_self _

theorem shows_record :
    d.Shows [{ file := d.path, name := name, position := position, frames := frames }]
      (d.record name role position frames) where
  path_eq := rfl
  tidy := d.tidy_record name role position frames
  sightings_eq h := by
    let w := (d.record name role position frames).workspace
    have hframes := d.framesOf_record name role position frames h
    have hold : ∀ m ∈ d.workspace.mentions, m.sighting w = m.sighting d.workspace := by
      intro m hm
      have hne : m.occurrence.handle ≠ d.nextHandle := Nat.ne_of_lt (h.mentions m hm)
      rw [Mention.sighting, hframes, if_neg hne]
      rfl
    have hnew : w.framesOf d.nextHandle = frames := by rw [hframes, if_pos rfl]
    show (d.workspace.mentions ++ [_]).map (Mention.sighting w) = _
    rw [List.map_append, List.map_congr_left hold, List.map_singleton, Mention.sighting]
    exact congrArg (fun frames => _ ++ [Sighting.mk d.path name position frames]) hnew

end Record

/-! ## Filling lines -/

/-- The second draft is the first one with these lines written below. -/
structure Fills (d : Draft) (ls : List Line) (d' : Draft) : Prop where
  shows : d.Shows (sightingsBelow d.path d.line ls) d'
  line_eq : d'.line = lineBelow d.line ls.length

theorem Fills.append {d d' d'' : Draft} {ls ls' : List Line} (h : d.Fills ls d')
    (h' : d'.Fills ls' d'') : d.Fills (ls ++ ls') d'' where
  shows := by
    have htwo := h.shows.trans h'.shows
    rw [h.shows.path_eq, h.line_eq, ← sightingsBelow_append] at htwo
    exact htwo
  line_eq := by rw [h'.line_eq, h.line_eq, List.length_append, lineBelow_add]

/-- A step that neither takes a line nor records anything. -/
theorem fills_nil {d d' : Draft} (h : d.Shows [] d') (hline : d'.line = d.line) :
    d.Fills [] d' := ⟨h, hline⟩

theorem Fills.refl (d : Draft) : d.Fills [] d :=
  fills_nil (shows_of_eq rfl rfl rfl (Nat.le_refl _)) rfl

theorem fills_skipHandle (d : Draft) : d.Fills [] d.skipHandle :=
  fills_nil (shows_of_eq rfl rfl rfl (Nat.le_succ _)) rfl

theorem fills_inferType (d : Draft) (h : Handle) (type : String) :
    d.Fills [] (d.inferType h type) :=
  fills_nil (shows_of_eq rfl rfl rfl (Nat.le_refl _)) rfl

theorem Fills.then {d d' d'' : Draft} {ls : List Line} (h : d.Fills ls d')
    (h' : d'.Fills [] d'') : d.Fills ls d'' := by
  have htwo := h.append h'
  rwa [List.append_nil] at htwo

theorem Fills.declare {d d' : Draft} {ls : List Line} (h : d.Fills ls d') (name : String)
    (shape : Shape) (position : Position) (exported : Bool) (handle : Handle) :
    d.Fills ls (d'.declare name shape position exported handle) :=
  h.then (fills_nil (shows_of_eq rfl rfl rfl (Nat.le_refl _)) rfl)

/-- A line is taken, and what is on it is recorded. -/
theorem fills_line {d d' : Draft} {l : Line} (hline : d'.line = d.newLine.line)
    (h : d.newLine.Shows (l.sightings d.path d.newLine.line) d') : d.Fills [l] d' where
  shows := by
    have hnew : d.Shows [] d.newLine := shows_of_eq rfl rfl rfl (Nat.le_refl _)
    rw [sightingsBelow, sightingsBelow, List.append_nil]
    exact hnew.trans h
  line_eq := hline

theorem fills_blank (d : Draft) : d.Fills [.blank] d.newLine :=
  fills_line rfl (shows_of_eq rfl rfl rfl (Nat.le_refl _))

section Words

variable (d : Draft) (frames : List Frame)

theorem fills_single (name : String) (role : Role) (width : Nat) :
    d.Fills [.single frames name (1 + width)]
      (d.newLine.record name role (after d.newLine.here width) frames) :=
  fills_line rfl (shows_record _ name role _ frames)

theorem fills_one (name : String) (role : Role) :
    d.Fills [.one frames name] (d.newLine.record name role d.newLine.here frames) :=
  fills_line rfl (shows_record _ name role _ frames)

theorem fills_two (first : String) (role : Role) (width : Nat) (second : String)
    (role' : Role) :
    d.Fills [.two frames first width second]
      ((d.newLine.record first role d.newLine.here frames).record second role'
        (after d.newLine.here (width + 1)) frames) :=
  fills_line rfl ((shows_record _ first role _ frames).trans
    (shows_record _ second role' _ frames))

theorem fills_mention (name : String) (role : Role) :
    d.Fills [.one frames name] (d.mention name role frames) := d.fills_one frames name role

end Words

/-! ## Bodies -/

namespace InBody

/-- Write an item without the items inside it. -/
def own (frames : List Frame) (s : InBody) : BodyItem → InBody
  | .renderWith tag _ => s.render frames tag
  | i => item frames s i

/-- Write an item where it stands in a body. -/
def nested (frames : List Frame) (s : InBody) (e : Nested) : InBody :=
  s.own (frames ++ e.tags.map .markup) e.item

theorem nested_inside (frames : List Frame) (tag : String) (s : InBody) (e : Nested) :
    s.nested frames (e.inside tag) = s.nested (frames ++ [.markup tag]) e := by
  simp [nested, Nested.inside]

mutual

/-- Writing goes through the items one after the other: what is inside an element needs
nothing of it but its frame. -/
theorem item_eq_foldl (frames : List Frame) (s : InBody) (i : BodyItem) :
    item frames s i = i.nested.foldl (nested frames) s := by
  cases i with
  | renderWith tag children =>
    have hown : s.nested frames { tags := [], item := .renderWith tag children } =
        s.render frames tag := by simp [nested, own]
    rw [item, items_eq_foldl, BodyItem.nested, List.foldl_cons, List.foldl_map, hown]
    simp only [nested_inside]
  | _ => simp [BodyItem.nested, nested, own]

theorem items_eq_foldl (frames : List Frame) (s : InBody) (is : List BodyItem) :
    items frames s is = (BodyItem.nestedIn is).foldl (nested frames) s := by
  cases is with
  | nil => rfl
  | cons i is =>
    rw [items, items_eq_foldl, item_eq_foldl, BodyItem.nestedIn, List.foldl_append]

end

theorem fills_callMember (frames : List Frame) (s : InBody) (object property : String) :
    s.draft.Fills [.memberCall frames object property]
      (s.callMember frames object property).draft := by
  unfold callMember Line.memberCall
  by_cases hthis : receiver object = "this"
  · simp only [if_pos hthis]
    exact s.draft.fills_single frames property .propertyName (object.utf8ByteSize + 1)
  · simp only [if_neg hthis]
    exact s.draft.fills_two frames _ .identifier _ property .propertyName

theorem fills_own (frames : List Frame) (s : InBody) (i : BodyItem) :
    s.draft.Fills (i.ownLines frames) (s.own frames i).draft := by
  cases i with
  | param name writtenType =>
    cases writtenType with
    | none => exact s.draft.fills_skipHandle
    | some type => exact (s.draft.fills_skipHandle).append (fills_mention _ frames type _)
  | paramInferred name type => exact s.draft.fills_skipHandle.then (fills_inferType _ _ type)
  | call name => exact s.draft.fills_mention frames name _
  | callMember object property => exact s.fills_callMember frames object property
  | callThis method => exact s.fills_callMember frames "this" method
  | construct name => exact s.draft.fills_mention frames name _
  | render tag => exact s.draft.fills_mention frames tag _
  | renderWith tag children => exact s.draft.fills_mention frames tag _
  | typeRef name => exact s.draft.fills_mention frames name _
  | reference name => exact s.draft.fills_mention frames name _
  | occurrence name role => exact s.draft.fills_mention frames name role

theorem fills_nested (frames : List Frame) (s : InBody) (es : List Nested) :
    s.draft.Fills (es.flatMap fun e => e.item.ownLines (frames ++ e.tags.map .markup))
      (es.foldl (nested frames) s).draft := by
  induction es generalizing s with
  | nil => exact .refl s.draft
  | cons e es ih => exact (s.fills_own _ e.item).append (ih (s.nested frames e))

end InBody

theorem fills_body (d : Draft) (frames : List Frame) (is : List BodyItem) :
    d.Fills (BodyItem.lines frames is) (d.body frames is).draft := by
  rw [body, InBody.items_eq_foldl]
  exact InBody.fills_nested frames { draft := d } _

/-! ## Classes -/

namespace InClass

theorem fills_heritage (s : InClass) (className base : String) :
    s.draft.Fills [.base [.classBody className] base] (s.heritage className base).draft := by
  unfold heritage Line.base
  cases Text.cutLast? '.' base.toList with
  | none => exact s.draft.fills_one _ base .heritage
  | some halves => exact s.draft.fills_two _ _ .identifier _ _ .heritage

theorem fills_item (className : String) (s : InClass) (i : ClassItem) :
    s.draft.Fills (i.lines className) (s.item className i).draft := by
  cases i with
  | base base => exact s.fills_heritage className base
  | member name kind visibility isStatic is =>
    exact (s.draft.fills_mention _ name .declarationName).append (fills_body _ _ is)
  | property name visibility isStatic initializerCall =>
    exact s.draft.fills_mention _ name .declarationName

theorem fills_items (className : String) (s : InClass) (is : List ClassItem) :
    s.draft.Fills (is.flatMap (ClassItem.lines className))
      (is.foldl (InClass.item className) s).draft := by
  induction is generalizing s with
  | nil => exact .refl s.draft
  | cons i is ih => exact (fills_item className s i).append (ih (s.item className i))

end InClass

/-! ## Files -/

section Items

variable (d : Draft)

theorem fills_flags (exportNext hidePosition : Bool) :
    d.Fills [] { d with exportNext := exportNext, hidePosition := hidePosition } :=
  fills_nil (shows_of_eq rfl rfl rfl (Nat.le_refl _)) rfl

/-- The name of a declaration, without the mark that it is exported. -/
theorem fills_name (name : String) (role : Role) :
    d.Fills [.one [] name] ({ d with exportNext := false }.mention name role []) :=
  (d.fills_flags false d.hidePosition).append (fills_mention _ [] name role)

theorem fills_simple (name : String) (role : Role) (shape : Shape) :
    d.Fills [.one [] name] (d.simple name role shape) :=
  (d.fills_name name role).declare _ _ _ _ _

theorem fills_callable (name : String) (role : Role) (shape : Callable → Shape)
    (is : List BodyItem) :
    d.Fills (.one [] name :: BodyItem.lines [.function name] is)
      (d.callable name role shape is) :=
  ((d.fills_name name role).append (fills_body _ _ is)).declare _ _ _ _ _

theorem fills_classDeclaration (name : String) (is : List ClassItem) :
    d.Fills (.one [] name :: is.flatMap (ClassItem.lines name)) (d.classDeclaration name is) := by
  let named := { d with exportNext := false }.mention name .declarationName []
  have hmembers := InClass.fills_items name { draft := named } is
  exact ((d.fills_name name _).append hmembers).declare _ _ _ _ _

/-- An item without a place of its own takes its lines and records what is on them. -/
theorem fills_item (i : FileItem) (hi : i.isPlaced = false) : d.Fills i.lines (d.item i) := by
  cases i with
  | exportNext => exact d.fills_flags true d.hidePosition
  | withoutPosition => exact d.fills_flags d.exportNext true
  | importName name => exact d.fills_mention [] name _
  | defaultImport name => exact d.fills_mention [] name _
  | exportSpecifier name => exact d.fills_mention [] name _
  | reExport name newName =>
    cases newName with
    | none => exact d.fills_one [] name _
    | some newName => exact d.fills_two [] name _ _ newName _
  | interface name => exact d.fills_simple name _ _
  | enumeration name => exact d.fills_simple name _ _
  | «variable» name => exact d.fills_simple name _ _
  | function name is => exact d.fills_callable name _ _ is
  | arrow name is =>
    exact d.fills_callable name (.variableName d.exportNext) (fun c => .variable (some c)) is
  | classDecl name is => exact d.fills_classDeclaration name is
  | defaultExport name wrapper =>
    cases wrapper with
    | none => exact (d.fills_one [] name _).declare _ _ _ _ _
    | some wrapper => exact (d.fills_two [] wrapper _ _ name _).declare _ _ _ _ _
  | defaultExportFunction name is =>
    cases name with
    | none =>
      have hline := d.fills_blank.then (fills_skipHandle _)
      exact (hline.append (fills_body _ _ is)).declare _ _ _ _ _
    | some name => exact ((d.fills_one [] name _).append (fills_body _ _ is)).declare _ _ _ _ _
  | reference name role => exact d.fills_mention [] name role
  | occurrenceAt name role position => cases hi

theorem fills_items (is : List FileItem) (his : ∀ i ∈ is, i.isPlaced = false) :
    d.Fills (is.flatMap FileItem.lines) (is.foldl item d) := by
  induction is generalizing d with
  | nil => exact .refl d
  | cons i is ih =>
    obtain ⟨hi, his⟩ := List.forall_mem_cons.mp his
    exact (d.fills_item i hi).append (ih (d.item i) his)

end Items

end Draft

/-! ## Programs -/

namespace Workspace

variable {w : Workspace}

theorem tidy_empty : Tidy {} := ⟨List.forall_mem_nil _, List.forall_mem_nil _⟩

theorem Tidy.addFile (h : w.Tidy) (path : String) (generated : Bool) :
    (w.addFile path generated).Tidy := by
  unfold Workspace.addFile
  split
  · exact h
  · exact ⟨h.mentions, h.frames⟩

theorem sightings_addFile (w : Workspace) (path : String) (generated : Bool) :
    (w.addFile path generated).sightings = w.sightings := by
  unfold addFile
  split
  · rfl
  · rfl

/-- Writing a file records its lines below the last line of the file. -/
theorem sightings_add (hw : w.Tidy) (s : FileSketch) (hs : ∀ i ∈ s.items, i.isPlaced = false) :
    (w.add s).Tidy ∧ (w.add s).sightings =
      w.sightings ++ sightingsBelow s.path (w.lastLine s.path) s.lines := by
  have hfills := (w.openFile s.path s.generated).fills_items s.items hs
  have hopen : (w.openFile s.path s.generated).workspace.Tidy := hw.addFile s.path s.generated
  refine ⟨hfills.shows.tidy hopen, (hfills.shows.sightings_eq hopen).trans ?_⟩
  exact congrArg (· ++ _) (w.sightings_addFile s.path s.generated)

end Workspace
end SymbolAtlas
