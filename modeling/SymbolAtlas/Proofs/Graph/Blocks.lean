/-
The classes and styles of a diagram.

In an identifier every character that is not plain is replaced, so different symbols can have
the same one.  Components of one identifier are one block, and a class with the identifier of a
component lists its methods in the block of the component.  But hooks list no methods: those of
a class with the identifier of a hook would be lost, and a component with it would be drawn
twice.  `HooksApart` excludes this.  `ShowsBlocks` says which classes and styles a text has and
which methods stand below which class; it reads the lines of the text alone, by `LineKind.of`
and `below`.  A diagram has such a text if no method on the paths has a break in its name, and
only then: `class_and_style_lines_of_text_iff`.
-/
import SymbolAtlas.Proofs.Graph.Written
import Mathlib.Data.List.Count
import Mathlib.Data.List.TakeWhile

namespace SymbolAtlas
namespace Diagram

/-! ## Below a class line -/

def indented (line : String) : Bool := (Text.dropLead? "        ".toList line.toList).isSome

/-- The lines further to the right under the first line of a class. -/
def below (lines : List String) (id : String) : List String :=
  (lines.dropWhile fun l => LineKind.of l ≠ .block id).tail.takeWhile indented

def Block.inner (b : Block) : List String :=
  (b.tag.map fun t => "        <<" ++ t ++ ">>").toList ++ b.methods.map methodLine

theorem indented_iff {line : String} :
    indented line = true ↔ ∃ text, line.toList = "        ".toList ++ text := by
  simp only [indented, Option.isSome_iff_exists, Text.dropLead?_eq_some_iff]

theorem indented_methodLine (name : String) : indented (methodLine name) = true :=
  indented_iff.mpr ⟨'+' :: (name.toList ++ "()".toList), by simp [methodLine]⟩

theorem indented_of_mem_inner {b : Block} {line : String} (h : line ∈ b.inner) :
    indented line = true := by
  simp only [Block.inner, List.mem_append, Option.mem_toList, Option.map_eq_some_iff,
    List.mem_map] at h
  rcases h with ⟨tag, -, rfl⟩ | ⟨name, -, rfl⟩
  · exact indented_iff.mpr ⟨"<<".toList ++ tag.toList ++ ">>".toList, by simp⟩
  · exact indented_methodLine name

/-- Only lines of no kind stand so far to the right. -/
theorem not_indented {line : String} (h : LineKind.of line ≠ .other) : indented line = false := by
  rw [Bool.eq_false_iff]
  intro hindented
  obtain ⟨text, htext⟩ := indented_iff.mp hindented
  exact h (of_inner_line text htext)

theorem takeWhile_lines_block (b : Block) {rest : List String}
    (hrest : ∀ l ∈ rest.head?, indented l = false) :
    (b.lines.tail ++ rest).takeWhile indented = b.inner := by
  unfold Block.lines
  split
  · next hbare =>
    have hinner : b.inner = [] := by simp [Block.inner, hbare]
    rw [hinner]
    exact (cut_append (List.forall_mem_nil _) hrest).1
  · have hclose : ∀ l ∈ ("    \x7d" :: rest).head?, indented l = false := by
      rintro l ⟨⟩
      decide +kernel
    show (b.inner ++ ["    \x7d"] ++ rest).takeWhile indented = b.inner
    rw [List.append_assoc]
    exact (cut_append (fun l hl => indented_of_mem_inner hl) hclose).1

theorem injective_methodLine : Function.Injective methodLine := by
  intro name name' h
  rw [← String.toList_inj] at h ⊢
  simpa [methodLine] using h

theorem count_inner (b : Block) (name : String) :
    b.inner.count (methodLine name) = b.methods.count name := by
  have htag :
      (b.tag.map fun t => "        <<" ++ t ++ ">>").toList.count (methodLine name) = 0 := by
    rw [List.count_eq_zero, Option.mem_toList, Option.map_eq_some_iff]
    rintro ⟨tag, -, h⟩
    rw [← String.toList_inj] at h
    simp [methodLine] at h
  rw [Block.inner, List.count_append, htag, Nat.zero_add,
    List.count_map_of_injective _ _ injective_methodLine]

section

variable {d : Diagram}

/-- What follows a block is not taken for a part of it. -/
theorem head_not_indented (h : d.Legible) {after : List Block}
    (hafter : ∀ b ∈ after, b ∈ d.blocks) :
    ∀ l ∈ (after.flatMap Block.lines ++ d.styles.map Style.line ++ d.relations ++ ["```"]).head?,
      indented l = false := by
  have happend {lines rest : List String} (hlines : ∀ l ∈ lines.head?, LineKind.of l ≠ .other)
      (hrest : ∀ l ∈ rest.head?, indented l = false) :
      ∀ l ∈ (lines ++ rest).head?, indented l = false := by
    intro l hl
    rw [List.head?_append] at hl
    rcases Option.or_eq_some_iff.mp hl with hl | ⟨-, hl⟩
    · exact not_indented (hlines l hl)
    · exact hrest l hl
  rw [List.append_assoc, List.append_assoc]
  refine happend ?_ (happend ?_ (happend ?_ ?_))
  · cases after with
    | nil => rintro l ⟨⟩
    | cons b after =>
      have hid := h.blocks b (hafter b List.mem_cons_self)
      obtain ⟨first, rest, hlines, hfirst, -⟩ := lines_block hid
      rw [List.flatMap_cons, hlines]
      rintro l ⟨⟩
      simp [hfirst]
  · intro l hl
    obtain ⟨s, hs, rfl⟩ := List.mem_map.mp (List.mem_of_head? hl)
    simp [h.of_style hs]
  · intro l hl
    simp [h.relations l (List.mem_of_head? hl)]
  · rintro l ⟨⟩
    decide +kernel

theorem below_lines (h : d.Legible) (hnodup : (d.blocks.map Block.id).Nodup) {b : Block}
    (hb : b ∈ d.blocks) : below d.lines b.id = b.inner := by
  obtain ⟨before, after, hblocks⟩ := List.append_of_mem hb
  obtain ⟨first, rest, hlines, hfirst, -⟩ := lines_block (h.blocks b hb)
  have hother : ∀ l ∈ ["```mermaid", "classDiagram"] ++ before.flatMap Block.lines,
      decide (LineKind.of l ≠ .block b.id) = true := by
    intro l hl
    rw [decide_eq_true_eq]
    rcases List.mem_append.mp hl with hl | hl
    · rcases List.mem_pair.mp hl with rfl | rfl
      · simp [of_frame]
      · simp [of_frame]
    · obtain ⟨b', hb', hl⟩ := List.mem_flatMap.mp hl
      have hne : b'.id ≠ b.id := by
        rw [hblocks, List.map_append, List.map_cons] at hnodup
        exact (List.nodup_append.mp hnodup).2.2 _ (List.mem_map_of_mem hb') _ List.mem_cons_self
      rcases h.of_block (hblocks ▸ List.mem_append_left _ hb') hl with hkind | hkind
      · simp [hkind, hne]
      · simp [hkind]
  have hskip : d.lines.dropWhile (fun l => LineKind.of l ≠ .block b.id) = b.lines ++
      (after.flatMap Block.lines ++ d.styles.map Style.line ++ d.relations ++ ["```"]) := by
    have hsplit : d.lines = ["```mermaid", "classDiagram"] ++ before.flatMap Block.lines ++
        (b.lines ++ (after.flatMap Block.lines ++ d.styles.map Style.line ++ d.relations ++
          ["```"])) := by
      simp [lines, hblocks]
    rw [hsplit]
    refine (cut_append hother fun l hl => ?_).2
    rw [hlines] at hl
    cases hl
    simp [hfirst]
  rw [below, hskip, List.tail_append_of_ne_nil (by simp [hlines])]
  refine takeWhile_lines_block b (head_not_indented h fun b' hb' => ?_)
  rw [hblocks]
  exact List.mem_append_right _ (List.mem_cons_of_mem _ hb')

/-- Nothing stands below a class that is not drawn. -/
theorem exists_block_of_mem_below (h : d.Legible) {id line : String}
    (hline : line ∈ below d.lines id) : ∃ b ∈ d.blocks, b.id = id := by
  have hfirst : ∃ l ∈ d.lines, LineKind.of l = .block id := by
    by_contra hnone
    have hskip : d.lines.dropWhile (fun l => LineKind.of l ≠ .block id) = [] := by
      rw [List.dropWhile_eq_nil_iff]
      exact fun l hl => decide_eq_true fun hkind => hnone ⟨l, hl, hkind⟩
    rw [below, hskip] at hline
    cases hline
  obtain ⟨l, hl, hkind⟩ := hfirst
  have hid : id ∈ d.lines.filterMap fun l => (LineKind.of l).blockId? :=
    List.mem_filterMap.mpr ⟨l, hl, by rw [hkind]; rfl⟩
  rw [blockId_lines h] at hid
  exact List.mem_map.mp hid

end

/-! ## Identifiers -/

/-- No component and no class with methods shares its identifier with a hook. -/
def HooksApart (g : Graph) (keys : List String) : Prop :=
  ∀ id, HookId g keys id → ¬ ComponentId g keys id ∧ ¬ OwnerId g keys id

section

variable {g : Graph} {keys : List String} {id name : String}

theorem not_ownerId_iff : ¬ OwnerId g keys id ↔ methodsOf g keys id = [] := by
  rw [List.eq_nil_iff_forall_not_mem, ← not_exists]
  refine not_congr ?_
  simp only [mem_methodsOf_iff, OwnerId]
  constructor
  · rintro ⟨key, hkey, owner, name, hmethod⟩
    exact ⟨name, key, hkey, owner, hmethod⟩
  · rintro ⟨name, key, hkey, owner, hmethod⟩
    exact ⟨key, hkey, owner, name, hmethod⟩

theorem hooksApart_iff : HooksApart g keys ↔
    ∀ id ∈ hookIds g keys, id ∉ componentIds g keys ∧ methodsOf g keys id = [] := by
  simp only [HooksApart, mem_hookIds_iff, mem_componentIds_iff, not_ownerId_iff]

instance : Decidable (HooksApart g keys) := decidable_of_iff' _ hooksApart_iff

theorem hooksApart_distinct : HooksApart g (distinct keys) ↔ HooksApart g keys := by
  simp [HooksApart, HookId, ComponentId]

/-! ## Blocks -/

theorem map_id_blocksOf (g : Graph) (keys : List String) : (blocksOf g keys).map Block.id =
    componentIds g keys ++ hookIds g keys ++
      (classIds g keys).filter fun id => id ∉ componentIds g keys ∧ id ∉ hookIds g keys := by
  simp [blocksOf, Function.comp_def]

theorem map_id_stylesOf (g : Graph) (keys : List String) :
    (stylesOf g keys).map Style.id = componentIds g keys ++ hookIds g keys := by
  simp [stylesOf, Function.comp_def]

theorem nodup_blockIds (h : HooksApart g keys) : ((blocksOf g keys).map Block.id).Nodup := by
  rw [map_id_blocksOf, List.nodup_append, List.nodup_append]
  refine ⟨⟨nodup_distinct _, nodup_distinct _, ?_⟩, (nodup_distinct _).filter _, ?_⟩
  · rintro id hcomponent _ hhook rfl
    exact (hooksApart_iff.mp h id hhook).1 hcomponent
  · rintro id hid _ hclass rfl
    obtain ⟨hcomponent, hhook⟩ := of_decide_eq_true (List.mem_filter.mp hclass).2
    exact (List.mem_append.mp hid).elim hcomponent hhook

/-- Hooks list no methods, and there are none that they would have to list. -/
theorem methods_of_mem_blocksOf (h : HooksApart g keys) {b : Block} (hb : b ∈ blocksOf g keys) :
    b.methods = methodsOf g keys b.id := by
  simp only [blocksOf, List.mem_append, List.mem_map] at hb
  rcases hb with (⟨id, -, rfl⟩ | ⟨id, hid, rfl⟩) | ⟨id, -, rfl⟩
  · rfl
  · exact (hooksApart_iff.mp h id hid).2.symm
  · rfl

theorem nodup_styleIds (h : HooksApart g keys) : ((stylesOf g keys).map Style.id).Nodup := by
  have hblocks := nodup_blockIds h
  rw [map_id_blocksOf] at hblocks
  rw [map_id_stylesOf]
  exact (List.nodup_append.mp hblocks).1

theorem mem_blockIds_iff : id ∈ (blocksOf g keys).map Block.id ↔
    ComponentId g keys id ∨ HookId g keys id ∨ ClassId g keys id ∨ OwnerId g keys id := by
  rw [map_id_blocksOf, List.mem_append, List.mem_append, List.mem_filter, decide_eq_true_eq,
    mem_componentIds_iff, mem_hookIds_iff, mem_classIds_iff]
  tauto

end

section

variable {g : Graph} {paths : List (List String)}

theorem count_below (h : HooksApart g paths.flatten) {b : Block}
    (hb : b ∈ (ofPaths g paths).blocks) (name : String) :
    (below (ofPaths g paths).lines b.id).count (methodLine name) =
      (methodsOf g (distinct paths.flatten) b.id).count name := by
  have hapart := hooksApart_distinct.mpr h
  rw [below_lines (legible_ofPaths g paths) (nodup_blockIds hapart) hb, count_inner,
    methods_of_mem_blocksOf hapart hb]

theorem count_below_of_isMethod (h : HooksApart g paths.flatten) {key owner name : String}
    (hkey : key ∈ paths.flatten) (hmethod : IsMethod g key owner name) :
    (below (ofPaths g paths).lines (sanitize owner.toList)).count (methodLine name) = 1 := by
  have hlisted : name ∈ methodsOf g (distinct paths.flatten) (sanitize owner.toList) :=
    mem_methodsOf_iff.mpr ⟨key, mem_distinct.mpr hkey, owner, hmethod, rfl⟩
  have hid : sanitize owner.toList ∈ (ofPaths g paths).blocks.map Block.id :=
    mem_blockIds_iff.mpr (Or.inr (Or.inr (Or.inr
      ⟨key, mem_distinct.mpr hkey, owner, name, hmethod, rfl⟩)))
  obtain ⟨b, hb, hbid⟩ := List.mem_map.mp hid
  rw [← hbid] at hlisted ⊢
  rw [count_below h hb]
  exact List.count_eq_one_of_mem (nodup_distinct _) hlisted

theorem isMethod_of_mem_below (h : HooksApart g paths.flatten) {id name : String}
    (hline : methodLine name ∈ below (ofPaths g paths).lines id) :
    ∃ key ∈ paths.flatten, ∃ owner, IsMethod g key owner name ∧ id = sanitize owner.toList := by
  obtain ⟨b, hb, rfl⟩ := exists_block_of_mem_below (legible_ofPaths g paths) hline
  rw [← List.count_pos_iff, count_below h hb, List.count_pos_iff, mem_methodsOf_iff] at hline
  simpa only [mem_distinct] using hline

end

/-! ## The text -/

/-- The identifiers in the class lines of a text. -/
def blockIdsIn (text : String) : List String :=
  (Text.linesOf text).filterMap fun l => (LineKind.of l).blockId?

/-- The identifiers in the style lines of a text. -/
def styleIdsIn (text : String) : List String :=
  (Text.linesOf text).filterMap fun l => (LineKind.of l).styleId?

/-- A text that shows the symbols.  Each component, hook, class and owner of a method has one
class line, each component and hook has one style line, and there are no others; components
come first and hooks next.  A method is listed once below its class, and nothing else is listed
as one. -/
structure ShowsBlocks (g : Graph) (keys : List String) (text : String) : Prop where
  nodup_blocks : (blockIdsIn text).Nodup
  mem_blocks_iff : ∀ id, id ∈ blockIdsIn text ↔
    ComponentId g keys id ∨ HookId g keys id ∨ ClassId g keys id ∨ OwnerId g keys id
  ordered : ∃ components hooks classes, blockIdsIn text = components ++ hooks ++ classes ∧
    (∀ id, id ∈ components ↔ ComponentId g keys id) ∧
    (∀ id, id ∈ hooks ↔ HookId g keys id) ∧
    ∀ id, id ∈ classes ↔ (ClassId g keys id ∨ OwnerId g keys id) ∧
      ¬ ComponentId g keys id ∧ ¬ HookId g keys id
  nodup_styles : (styleIdsIn text).Nodup
  mem_styles_iff : ∀ id, id ∈ styleIdsIn text ↔ ComponentId g keys id ∨ HookId g keys id
  listed : ∀ key ∈ keys, ∀ owner name, IsMethod g key owner name →
    (below (Text.linesOf text) (sanitize owner.toList)).count (methodLine name) = 1
  only_methods : ∀ id name, methodLine name ∈ below (Text.linesOf text) id →
    ∃ key ∈ keys, ∃ owner, IsMethod g key owner name ∧ id = sanitize owner.toList

theorem below_sublist (lines : List String) (id : String) : (below lines id).Sublist lines :=
  (List.takeWhile_sublist _).trans ((List.tail_sublist _).trans (List.dropWhile_sublist _))

theorem showsBlocks_of_lines {g : Graph} {paths : List (List String)}
    (h : HooksApart g paths.flatten)
    (hlines : Text.linesOf (ofPaths g paths).render = (ofPaths g paths).lines) :
    ShowsBlocks g paths.flatten (ofPaths g paths).render := by
  have hapart : HooksApart g (distinct paths.flatten) := hooksApart_distinct.mpr h
  have hblockIds : blockIdsIn (ofPaths g paths).render =
      (blocksOf g (distinct paths.flatten)).map Block.id := by
    rw [blockIdsIn, hlines]
    exact blockId_lines (legible_ofPaths g paths)
  have hstyleIds : styleIdsIn (ofPaths g paths).render =
      (stylesOf g (distinct paths.flatten)).map Style.id := by
    rw [styleIdsIn, hlines]
    exact styleId_lines (legible_ofPaths g paths)
  constructor
  case nodup_blocks =>
    rw [hblockIds]
    exact nodup_blockIds hapart
  case mem_blocks_iff =>
    simp [hblockIds, mem_blockIds_iff, ComponentId, HookId, ClassId]
  case ordered =>
    refine ⟨_, _, _, hblockIds.trans (map_id_blocksOf g _), ?_, ?_, ?_⟩
    · simp [mem_componentIds_iff, ComponentId]
    · simp [mem_hookIds_iff, HookId]
    · simp [mem_classIds_iff, mem_componentIds_iff, mem_hookIds_iff, ComponentId, HookId, ClassId]
  case nodup_styles =>
    rw [hstyleIds]
    exact nodup_styleIds hapart
  case mem_styles_iff =>
    simp [hstyleIds, map_id_stylesOf, mem_componentIds_iff, mem_hookIds_iff, ComponentId, HookId]
  case listed =>
    intro key hkey owner name hmethod
    rw [hlines]
    exact count_below_of_isMethod h hkey hmethod
  case only_methods =>
    intro id name hline
    rw [hlines] at hline
    exact isMethod_of_mem_below h hline

/-- With hooks apart, the text of a diagram shows the symbols in this way just if no method on
the paths has a break in its name. -/
theorem class_and_style_lines_of_text_iff (g : Graph) (paths : List (List String))
    (h : HooksApart g paths.flatten) :
    ShowsBlocks g paths.flatten (ofPaths g paths).render ↔
      ∀ key ∈ paths.flatten, ∀ owner name, IsMethod g key owner name → Text.Unbroken name := by
  constructor
  · intro hshows key hkey owner name hmethod
    have hline : methodLine name ∈ below (Text.linesOf (ofPaths g paths).render)
        (sanitize owner.toList) := by
      rw [← List.count_pos_iff, hshows.listed key hkey owner name hmethod]
      exact Nat.one_pos
    -- A line that is read has no break, whatever it was written from.
    have hunbroken := Text.unbroken_of_mem_linesOf ((below_sublist _ _).subset hline)
    exact unbroken_methodLine.mp hunbroken
  · intro hunbroken
    exact showsBlocks_of_lines h (linesOf_render_ofPaths hunbroken)

/-- A class with the identifier of a component, and a method whose class is not on the paths. -/
def shop : Graph :=
  let symbol (key : String) (kind : SymbolKind) : Graph.Change := .ensureNode key (some kind) none
  Graph.replay [symbol "Top-Bar" .functionComponent, symbol "useCart" .hook,
    symbol "Cart" .plainClass, symbol "Cart.add" .method, symbol "Top_Bar.draw" .method,
    symbol "Store.load" .method, symbol "format" .function]

def shopPaths : List (List String) :=
  [["Top-Bar", "useCart", "Cart.add"], ["Top-Bar", "Top_Bar.draw", "format"],
    ["Cart", "Cart.add"], ["format", "Store.load"]]

theorem class_and_style_lines_of_shop :
    HooksApart shop shopPaths.flatten ∧
      (∀ key ∈ shopPaths.flatten, ∀ owner name, IsMethod shop key owner name →
        Text.Unbroken name) ∧
      ShowsBlocks shop shopPaths.flatten (ofPaths shop shopPaths).render := by
  have hapart : HooksApart shop shopPaths.flatten := by decide +kernel
  have hunbroken : ∀ key ∈ shopPaths.flatten, ∀ owner name, IsMethod shop key owner name →
      Text.Unbroken name := by
    have hkeys : ∀ key ∈ shopPaths.flatten, Text.Unbroken key := by decide +kernel
    rintro key hkey owner name ⟨-, rfl, -⟩
    exact (Text.unbroken_append.mp (hkeys _ hkey)).2
  exact ⟨hapart, hunbroken,
    (class_and_style_lines_of_text_iff shop shopPaths hapart).mpr hunbroken⟩

/-- The name of one method goes on behind a break like the line of another, and that of a third
like the line of a class. -/
theorem class_lines_of_broken_names :
    let g := Graph.replay [.ensureNode "run" (some .function) none,
      .ensureNode "A.x()\n        +y" (some .method) none,
      .ensureNode "A.y" (some .method) none,
      .ensureNode "B.k\n    class Z \x7b" (some .method) none]
    let paths := [["run", "A.x()\n        +y"], ["run", "A.y"], ["run", "B.k\n    class Z \x7b"]]
    let keys := paths.flatten
    let text := (ofPaths g paths).render
    HooksApart g keys ∧
      (IsMethod g "A.y" "A" "y" ∧
        (below (Text.linesOf text) (sanitize "A".toList)).count (methodLine "y") = 2) ∧
      ("Z" ∈ blockIdsIn text ∧
        ¬ (ComponentId g keys "Z" ∨ HookId g keys "Z" ∨ ClassId g keys "Z" ∨ OwnerId g keys "Z")) ∧
      ¬ ShowsBlocks g keys text := by
  intro g paths keys text
  have hy : IsMethod g "A.y" "A" "y" := role_eq_method_iff.mp (by decide +kernel)
  have htwice : (below (Text.linesOf text) (sanitize "A".toList)).count (methodLine "y") = 2 := by
    rw [linesOf_render]
    decide +kernel
  have hz : "Z" ∈ blockIdsIn text := by
    rw [blockIdsIn, linesOf_render]
    decide +kernel
  have hnone : "Z" ∉ (blocksOf g keys).map Block.id := by decide +kernel
  rw [mem_blockIds_iff] at hnone
  refine ⟨by decide +kernel, ⟨hy, htwice⟩, ⟨hz, hnone⟩, ?_⟩
  intro hshows
  exact hnone ((hshows.mem_blocks_iff "Z").mp hz)

end Diagram
end SymbolAtlas
