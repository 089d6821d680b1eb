/-
Reading a diagram.

A line of a diagram is told by the word it begins with and by what follows, `LineKind.of`: a
class or a style and its identifier, or an identifier and an arrow.  Identifiers have plain
characters only, so a line that is written for one part is not taken for that of another, even
if a symbol is called `class` or `style`; `blockId_lines` and `styleId_lines` say that reading
the lines gives the blocks and the styles back.  These are the lines as they are written, before
they are joined to a text.  The second half says which symbols are drawn how and under which
identifier, by the kinds of their nodes.
-/
import SymbolAtlas.Graph.Diagram
import SymbolAtlas.Proofs.Unused.Called

namespace SymbolAtlas
namespace Diagram

/-! ## Lines -/

/-- What a line of a diagram is about. -/
inductive LineKind where
  | block (id : String)
  | style (id : String)
  | relation
  | other
deriving DecidableEq

namespace LineKind

def blockId? : LineKind → Option String
  | .block id => some id
  | _ => none

def styleId? : LineKind → Option String
  | .style id => some id
  | _ => none

def arrows : List (List Char) := [" --> ".toList, " ..> ".toList]

/-- By the word at the start of a line, behind four blanks, and by what follows it. -/
def ofOpening (word rest : List Char) : LineKind :=
  if arrows.any (·.isPrefixOf rest) then .relation
  else
    let id := String.ofList (rest.tail.takeWhile isPlain)
    let tail := String.ofList (rest.tail.dropWhile isPlain)
    if word = "class".toList ∧ rest.head? = some ' ' ∧ tail ∈ ["", " \x7b"] then .block id
    else if word = "style".toList ∧ rest.head? = some ' ' ∧
        tail ∈ [" " ++ componentPaint, " " ++ hookPaint] then .style id
    else .other

def of (line : String) : LineKind :=
  match Text.dropLead? "    ".toList line.toList with
  | some text => ofOpening (text.takeWhile isPlain) (text.dropWhile isPlain)
  | none => .other

end LineKind

def Plain (s : String) : Prop := ∀ c ∈ s.toList, isPlain c = true

instance : DecidablePred Plain := fun _ => decidable_of_iff _ List.all_eq_true

theorem plain_sanitize (key : List Char) : Plain (sanitize key) := by
  intro c hc
  rw [sanitize, String.toList_ofList, List.mem_map] at hc
  obtain ⟨k, -, rfl⟩ := hc
  split
  · assumption
  · rfl

/-- What holds throughout `xs` and ends where `rest` begins cuts the two apart. -/
theorem cut_append {α : Type} {p : α → Bool} {xs rest : List α} (hxs : ∀ x ∈ xs, p x = true)
    (hrest : ∀ x ∈ rest.head?, p x = false) :
    (xs ++ rest).takeWhile p = xs ∧ (xs ++ rest).dropWhile p = rest := by
  rw [List.takeWhile_append_of_pos hxs, List.dropWhile_append_of_pos hxs]
  cases rest with
  | nil => simp
  | cons x rest =>
    have hx : p x = false := hrest x rfl
    simp [hx]

theorem LineKind.of_eq {line : String} {word rest : List Char}
    (hline : line.toList = "    ".toList ++ (word ++ rest))
    (hword : ∀ c ∈ word, isPlain c = true) (hrest : ∀ c ∈ rest.head?, isPlain c = false) :
    LineKind.of line = ofOpening word rest := by
  obtain ⟨htake, hdrop⟩ := cut_append hword hrest
  rw [LineKind.of, Text.dropLead?_eq_some_iff.mpr hline]
  show ofOpening _ _ = _
  rw [htake, hdrop]

/-- Behind a blank a plain identifier is no arrow, nor is the end of a line. -/
theorem not_arrow {id : String} (hid : Plain id) (tail : List Char)
    (htail : ∀ c ∈ tail.head?, c ≠ '-' ∧ c ≠ '.') :
    LineKind.arrows.any (·.isPrefixOf (' ' :: (id.toList ++ tail))) = false := by
  have hhead : ∀ c ∈ (id.toList ++ tail).head?, c ≠ '-' ∧ c ≠ '.' := by
    intro c hc
    rw [List.head?_append] at hc
    rcases Option.or_eq_some_iff.mp hc with hfirst | ⟨-, hfirst⟩
    · have hplain := hid c (List.mem_of_head? hfirst)
      constructor
      · rintro rfl
        cases hplain
      · rintro rfl
        cases hplain
    · exact htail c hfirst
  cases hrest : id.toList ++ tail with
  | nil => rfl
  | cons c rest =>
    obtain ⟨hdash, hdot⟩ := hhead c (by rw [hrest]; rfl)
    simp [LineKind.arrows, List.isPrefixOf, Ne.symm hdash, Ne.symm hdot]

/-- What may follow the identifier of a class or a style. -/
def endings : List String := ["", " \x7b", " " ++ componentPaint, " " ++ hookPaint]

theorem head_of_mem_endings {tail : String} (h : tail ∈ endings) :
    ∀ c ∈ tail.toList.head?, c = ' ' := by
  have hall : endings.all (fun t => t.toList.head?.all (· == ' ')) = true := by decide +kernel
  intro c hc
  have htail := List.all_eq_true.mp hall tail h
  rw [Option.mem_def.mp hc] at htail
  exact beq_iff_eq.mp htail

/-- A line that has an identifier behind its first word. -/
theorem ofOpening_named (word : List Char) {id tail : String} (hid : Plain id)
    (htail : tail ∈ endings) :
    LineKind.ofOpening word (' ' :: (id.toList ++ tail.toList)) =
      if word = "class".toList ∧ tail ∈ ["", " \x7b"] then .block id
      else if word = "style".toList ∧ tail ∈ [" " ++ componentPaint, " " ++ hookPaint] then
        .style id
      else .other := by
  have harrow := not_arrow hid tail.toList fun c hc => by
    rw [head_of_mem_endings htail c hc]
    decide
  have hend : ∀ c ∈ tail.toList.head?, isPlain c = false := fun c hc => by
    rw [head_of_mem_endings htail c hc]
    decide
  obtain ⟨htake, hdrop⟩ := cut_append hid hend
  rw [LineKind.ofOpening, harrow, if_neg Bool.false_ne_true]
  simp only [List.tail_cons, List.head?_cons, htake, hdrop, String.ofList_toList, true_and]

theorem of_class_line {id tail : String} (hid : Plain id) (htail : tail ∈ ["", " \x7b"]) :
    LineKind.of ("    class " ++ id ++ tail) = .block id := by
  have hword : Plain "class" := by decide
  have hending : tail ∈ endings := List.mem_append_left _ htail
  have hline : ("    class " ++ id ++ tail).toList =
      "    ".toList ++ ("class".toList ++ ' ' :: (id.toList ++ tail.toList)) := by simp
  rw [LineKind.of_eq hline hword fun c hc => by cases hc; rfl, ofOpening_named _ hid hending,
    if_pos ⟨rfl, htail⟩]

theorem of_style_line {id paint : String} (hid : Plain id)
    (hpaint : paint = componentPaint ∨ paint = hookPaint) :
    LineKind.of (Style.line { id := id, paint := paint }) = .style id := by
  have hword : Plain "style" := by decide
  have htail : " " ++ paint ∈ [" " ++ componentPaint, " " ++ hookPaint] := by
    rcases hpaint with rfl | rfl
    · exact List.mem_cons_self
    · exact List.mem_cons_of_mem _ List.mem_cons_self
  have hending : " " ++ paint ∈ endings := List.mem_append_right ["", " \x7b"] htail
  have hline : (Style.line { id := id, paint := paint }).toList =
      "    ".toList ++ ("style".toList ++ ' ' :: (id.toList ++ (" " ++ paint).toList)) := by
    simp [Style.line]
  rw [LineKind.of_eq hline hword fun c hc => by cases hc; rfl, ofOpening_named _ hid hending,
    if_neg fun h => absurd h.1 (by decide), if_pos ⟨rfl, htail⟩]

/-- An identifier and an arrow behind it. -/
theorem of_arrow_line {source rest arrow : String} (hsource : Plain source)
    (harrow : arrow = " --> " ∨ arrow = " ..> ") :
    LineKind.of ("    " ++ source ++ arrow ++ rest) = .relation := by
  have hline : ("    " ++ source ++ arrow ++ rest).toList =
      "    ".toList ++ (source.toList ++ (arrow.toList ++ rest.toList)) := by simp
  rcases harrow with rfl | rfl
  · rw [LineKind.of_eq hline hsource fun c hc => by cases hc; rfl, LineKind.ofOpening, if_pos]
    simp [LineKind.arrows]
  · rw [LineKind.of_eq hline hsource fun c hc => by cases hc; rfl, LineKind.ofOpening, if_pos]
    simp [LineKind.arrows]

/-- The lines inside a block stand further to the right. -/
theorem of_inner_line {line : String} (text : List Char)
    (h : line.toList = "        ".toList ++ text) : LineKind.of line = .other := by
  have hline : line.toList = "    ".toList ++ ([] ++ ("    ".toList ++ text)) := by
    rw [h]
    simp
  rw [LineKind.of_eq hline (List.forall_mem_nil _) fun c hc => by cases hc; rfl]
  simp [LineKind.ofOpening, LineKind.arrows]

/-! ## Parts -/

/-- A block has its identifier in its first line, and no other line of it has one. -/
theorem lines_block {b : Block} (hid : Plain b.id) :
    ∃ first rest, b.lines = first :: rest ∧ LineKind.of first = .block b.id ∧
      ∀ l ∈ rest, LineKind.of l = .other := by
  unfold Block.lines
  split
  · refine ⟨_, [], rfl, ?_, List.forall_mem_nil _⟩
    have hclosed : LineKind.of ("    class " ++ b.id ++ "") = .block b.id :=
      of_class_line hid List.mem_cons_self
    rwa [String.append_empty] at hclosed
  · refine ⟨_, _, rfl, of_class_line hid (List.mem_cons_of_mem _ List.mem_cons_self), ?_⟩
    intro l hl
    simp only [List.append_eq, List.nil_append, List.mem_append, Option.mem_toList,
      Option.map_eq_some_iff, List.mem_map, List.mem_singleton] at hl
    rcases hl with (⟨t, -, rfl⟩ | ⟨m, -, rfl⟩) | rfl
    · exact of_inner_line ("<<".toList ++ t.toList ++ ">>".toList) (by simp)
    · exact of_inner_line ('+' :: (m.toList ++ "()".toList)) (by simp)
    · decide +kernel

/-- A diagram whose lines can be told apart. -/
structure Legible (d : Diagram) : Prop where
  blocks : ∀ b ∈ d.blocks, Plain b.id
  styles : ∀ s ∈ d.styles, Plain s.id ∧ (s.paint = componentPaint ∨ s.paint = hookPaint)
  relations : ∀ l ∈ d.relations, LineKind.of l = .relation

variable {d : Diagram}

theorem Legible.of_style (h : d.Legible) {s : Style} (hs : s ∈ d.styles) :
    LineKind.of s.line = .style s.id :=
  of_style_line (h.styles s hs).1 (h.styles s hs).2

theorem Legible.of_block (h : d.Legible) {b : Block} (hb : b ∈ d.blocks) {l : String}
    (hl : l ∈ b.lines) : LineKind.of l = .block b.id ∨ LineKind.of l = .other := by
  obtain ⟨first, rest, hlines, hfirst, hrest⟩ := lines_block (h.blocks b hb)
  rw [hlines] at hl
  rcases List.mem_cons.mp hl with rfl | hl
  · exact Or.inl hfirst
  · exact Or.inr (hrest l hl)

theorem of_frame : LineKind.of "```mermaid" = .other ∧ LineKind.of "classDiagram" = .other ∧
    LineKind.of "```" = .other := by decide +kernel

/-! ## Diagrams -/

/-- What is read off the lines of the blocks and the styles. -/
theorem filterMap_lines (h : d.Legible) (f : LineKind → Option String)
    (hother : f .other = none) (hrelation : f .relation = none) :
    d.lines.filterMap (fun l => f (LineKind.of l)) =
      d.blocks.filterMap (fun b => f (.block b.id)) ++
        d.styles.filterMap fun s => f (.style s.id) := by
  have hblock : ∀ b ∈ d.blocks, b.lines.filterMap (fun l => f (LineKind.of l)) =
      (f (.block b.id)).toList := by
    intro b hb
    obtain ⟨first, rest, hlines, hfirst, hrest⟩ := lines_block (h.blocks b hb)
    have hnone : rest.filterMap (fun l => f (LineKind.of l)) = [] := by
      rw [List.filterMap_eq_nil_iff]
      intro l hl
      rw [hrest l hl, hother]
    rw [hlines, List.filterMap_cons, hfirst, hnone]
    cases f (.block b.id) <;> rfl
  have hblocks : (d.blocks.flatMap Block.lines).filterMap (fun l => f (LineKind.of l)) =
      d.blocks.filterMap fun b => f (.block b.id) := by
    rw [List.filterMap_flatMap, List.flatMap_congr hblock, List.filterMap_eq_flatMap_toList]
  have hstyles : (d.styles.map Style.line).filterMap (fun l => f (LineKind.of l)) =
      d.styles.filterMap fun s => f (.style s.id) := by
    rw [List.filterMap_map]
    exact List.filterMap_congr fun s hs => congrArg f (h.of_style hs)
  have hrelations : d.relations.filterMap (fun l => f (LineKind.of l)) = [] := by
    rw [List.filterMap_eq_nil_iff]
    intro l hl
    rw [h.relations l hl, hrelation]
  rw [lines, List.filterMap_append, List.filterMap_append, List.filterMap_append,
    List.filterMap_append, hblocks, hstyles, hrelations]
  simp [of_frame, hother]

theorem blockId_lines (h : d.Legible) :
    d.lines.filterMap (fun l => (LineKind.of l).blockId?) = d.blocks.map Block.id := by
  rw [filterMap_lines h LineKind.blockId? rfl rfl]
  simp [LineKind.blockId?]

theorem styleId_lines (h : d.Legible) :
    d.lines.filterMap (fun l => (LineKind.of l).styleId?) = d.styles.map Style.id := by
  rw [filterMap_lines h LineKind.styleId? rfl rfl]
  simp [LineKind.styleId?]

/-! ## Symbols -/

def HasKind (g : Graph) (key : String) (kind : SymbolKind) : Prop :=
  ∃ n, g.node? key = some n ∧ n.kind = some kind

def IsComponent (g : Graph) (key : String) : Prop :=
  ∃ kind, HasKind g key kind ∧ kind.isComponent = true

/-- A method, whose key is its class, a dot and its name. -/
def IsMethod (g : Graph) (key owner name : String) : Prop :=
  HasKind g key .method ∧ key = owner ++ "." ++ name ∧ '.' ∉ owner.toList

/-- The identifier of a symbol: a method is drawn as its class. -/
def DrawnAs (g : Graph) (key id : String) : Prop :=
  (∃ owner name, IsMethod g key owner name ∧ id = sanitize owner.toList) ∨
    ((∀ owner name, ¬ IsMethod g key owner name) ∧ id = sanitize key.toList)

variable {g : Graph} {key : String}

theorem hasKind_iff {kind : SymbolKind} :
    HasKind g key kind ↔ (g.node? key).bind Node.kind = some kind :=
  Option.bind_eq_some_iff.symm

theorem role_eq_iff {r : Role} (hr : r ≠ .other) :
    role g key = r ↔ ∃ kind, HasKind g key kind ∧ roleOfKind key kind = r := by
  simp only [hasKind_iff]
  unfold role
  cases (g.node? key).bind Node.kind with
  | none => simp [hr.symm]
  | some kind => simp

/-- The key of a method is cut at its first dot.  Without one it is drawn as nothing. -/
theorem roleOfKind_method_cases (key : String) :
    (∃ owner name : String, roleOfKind key .method = .method owner.toList name.toList ∧
        key = owner ++ "." ++ name ∧ '.' ∉ owner.toList) ∨
      (roleOfKind key .method = .other ∧ '.' ∉ key.toList) := by
  by_cases hdot : '.' ∈ key.toList
  · obtain ⟨owner, name, hkey, howner⟩ := List.eq_append_cons_of_mem hdot
    refine Or.inl ⟨String.ofList owner, String.ofList name, ?_, ?_, ?_⟩
    · rw [String.toList_ofList, String.toList_ofList, roleOfKind, hkey,
        Text.cutFirst?_append howner]
    · rw [← String.toList_inj, toList_dotted, String.toList_ofList, String.toList_ofList, hkey]
    · rwa [String.toList_ofList]
  · refine Or.inr ⟨?_, hdot⟩
    rw [roleOfKind, Text.cutFirst?_singleton_eq_none_iff.mpr hdot]

theorem roleOfKind_method_ne {r : Role} (hother : r ≠ .other)
    (hmethod : ∀ owner name, r ≠ .method owner name) : roleOfKind key .method ≠ r := by
  rintro rfl
  obtain ⟨owner, name, hrole, -⟩ | ⟨hrole, -⟩ := roleOfKind_method_cases key
  · exact hmethod _ _ hrole
  · exact hother hrole

theorem role_eq_component_iff : role g key = .component ↔ IsComponent g key := by
  rw [role_eq_iff (by simp), IsComponent]
  refine exists_congr fun kind => and_congr_right fun _ => ?_
  cases kind with
  | method => exact iff_of_false (roleOfKind_method_ne (by simp) (by simp)) (by decide)
  | _ => simp [roleOfKind, SymbolKind.isComponent]

/-- A role that only one kind has. -/
theorem role_eq_iff_hasKind {r : Role} {kind : SymbolKind} (hr : r ≠ .other)
    (hkind : ∀ kind', roleOfKind key kind' = r ↔ kind' = kind) :
    role g key = r ↔ HasKind g key kind := by
  simp only [role_eq_iff hr, hkind, exists_eq_right]

theorem role_eq_hook_iff : role g key = .hook ↔ HasKind g key .hook := by
  refine role_eq_iff_hasKind (by simp) fun kind => ?_
  cases kind with
  | method => exact iff_of_false (roleOfKind_method_ne (by simp) (by simp)) (by decide)
  | _ => simp [roleOfKind]

theorem role_eq_classBlock_iff : role g key = .classBlock ↔ HasKind g key .plainClass := by
  refine role_eq_iff_hasKind (by simp) fun kind => ?_
  cases kind with
  | method => exact iff_of_false (roleOfKind_method_ne (by simp) (by simp)) (by decide)
  | _ => simp [roleOfKind]

theorem role_eq_method_iff {owner name : String} :
    role g key = .method owner.toList name.toList ↔ IsMethod g key owner name := by
  rw [role_eq_iff (by simp), IsMethod]
  constructor
  · rintro ⟨kind, hkind, hrole⟩
    cases kind with
    | method =>
      obtain ⟨owner', name', hrole', hkey, howner⟩ | ⟨hother, -⟩ := roleOfKind_method_cases key
      · rw [hrole', Role.method.injEq, String.toList_inj, String.toList_inj] at hrole
        obtain ⟨rfl, rfl⟩ := hrole
        exact ⟨hkind, hkey, howner⟩
      · rw [hother] at hrole
        cases hrole
    | _ => cases hrole
  · rintro ⟨hkind, rfl, howner⟩
    refine ⟨.method, hkind, ?_⟩
    rw [roleOfKind, toList_dotted, Text.cutFirst?_append howner]

theorem exists_isMethod_of_role {owner name : List Char} (h : role g key = .method owner name) :
    IsMethod g key (String.ofList owner) (String.ofList name) := by
  rw [← role_eq_method_iff, String.toList_ofList, String.toList_ofList, h]

theorem drawnAs_iff {id : String} : DrawnAs g key id ↔ id = idOf g key := by
  unfold DrawnAs idOf
  split
  · next owner name hrole =>
    have hmethod := exists_isMethod_of_role hrole
    constructor
    · rintro (⟨owner', name', hother, rfl⟩ | ⟨hnone, -⟩)
      · rw [← role_eq_method_iff, hrole, Role.method.injEq] at hother
        rw [hother.1]
      · exact absurd hmethod (hnone _ _)
    · rintro rfl
      exact Or.inl ⟨_, _, hmethod, by rw [String.toList_ofList]⟩
  · next hrole =>
    have hnone : ∀ owner name, ¬ IsMethod g key owner name := fun owner name h =>
      hrole _ _ (role_eq_method_iff.mpr h)
    simp [hnone]

theorem plain_idOf (g : Graph) (key : String) : Plain (idOf g key) := by
  unfold idOf
  split
  · exact plain_sanitize _
  · exact plain_sanitize _

theorem of_relation (g : Graph) (call : String × String) :
    LineKind.of (relation g call) = .relation := by
  have hsource := plain_idOf g call.1
  unfold relation
  split
  · rw [String.append_assoc]
    exact of_arrow_line hsource (Or.inr rfl)
  · rw [String.append_assoc, String.append_assoc]
    exact of_arrow_line hsource (Or.inl rfl)
  · exact of_arrow_line hsource (Or.inl rfl)

theorem mem_relationsOf_iff {calls : List (String × String)} {l : String} :
    l ∈ relationsOf g calls ↔ ∃ call ∈ calls, relation g call = l := by
  simp only [relationsOf, relationsIn, mem_distinct, List.mem_append, List.mem_map,
    List.mem_filter, decide_eq_true_eq]
  constructor
  · intro h
    rcases h with (⟨call, ⟨hcall, -⟩, hl⟩ | ⟨call, ⟨hcall, -⟩, hl⟩) | ⟨call, ⟨hcall, -⟩, hl⟩
    · exact ⟨call, hcall, hl⟩
    · exact ⟨call, hcall, hl⟩
    · exact ⟨call, hcall, hl⟩
  · intro h
    obtain ⟨call, hcall, hl⟩ := h
    cases hgroup : groupOf g call with
    | renders => exact Or.inl (Or.inl ⟨call, ⟨hcall, hgroup⟩, hl⟩)
    | uses => exact Or.inl (Or.inr ⟨call, ⟨hcall, hgroup⟩, hl⟩)
    | calls => exact Or.inr ⟨call, ⟨hcall, hgroup⟩, hl⟩

theorem plain_of_mem_distinct_map {keys : List String} {p : String → Bool} {id : String}
    (h : id ∈ distinct ((keys.filter p).map (idOf g))) : Plain id := by
  obtain ⟨key, -, rfl⟩ := List.mem_map.mp (mem_distinct.mp h)
  exact plain_idOf g key

/-- No graph has symbols that make its diagrams illegible. -/
theorem legible_ofPaths (g : Graph) (paths : List (List String)) : (ofPaths g paths).Legible where
  blocks := by
    intro b hb
    simp only [ofPaths, blocksOf, List.mem_append, List.mem_map, List.mem_filter] at hb
    rcases hb with (⟨id, hid, rfl⟩ | ⟨id, hid, rfl⟩) | ⟨id, ⟨hid, -⟩, rfl⟩
    · exact plain_of_mem_distinct_map hid
    · exact plain_of_mem_distinct_map hid
    · exact plain_of_mem_distinct_map hid
  styles := by
    intro s hs
    simp only [ofPaths, stylesOf, List.mem_append, List.mem_map] at hs
    rcases hs with ⟨id, hid, rfl⟩ | ⟨id, hid, rfl⟩
    · exact ⟨plain_of_mem_distinct_map hid, Or.inl rfl⟩
    · exact ⟨plain_of_mem_distinct_map hid, Or.inr rfl⟩
  relations := by
    intro l hl
    obtain ⟨call, -, rfl⟩ := mem_relationsOf_iff.mp hl
    exact of_relation g call

end Diagram
end SymbolAtlas
