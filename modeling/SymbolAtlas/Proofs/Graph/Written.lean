/-
The text of a diagram.

A diagram is one text, and its lines are read by cutting the text at its line breaks.  The
identifiers in it have no breaks, since they are plain.  The names of methods are written as
they are, below their classes and behind the calls.  So the lines of the text are those that
were written if no method on the paths has a break in its name, `linesOf_render_ofPaths`, and
otherwise what is written for a method is read as several lines.  The identifiers of the
symbols on the paths, and which methods are listed, come first.
-/
import SymbolAtlas.Proofs.Graph.Drawing
import SymbolAtlas.Proofs.Text.Breaks

namespace SymbolAtlas
namespace Diagram

open Text (Unbroken unbroken_append)

/-! ## Identifiers -/

/-- The identifiers of symbols that are drawn under their own names. -/
def NamedBy (keys : List String) (p : String → Prop) (id : String) : Prop :=
  ∃ key ∈ keys, p key ∧ id = sanitize key.toList

def ComponentId (g : Graph) (keys : List String) : String → Prop := NamedBy keys (IsComponent g)

def HookId (g : Graph) (keys : List String) : String → Prop := NamedBy keys (HasKind g · .hook)

def ClassId (g : Graph) (keys : List String) : String → Prop :=
  NamedBy keys (HasKind g · .plainClass)

/-- The identifier of the class of a method. -/
def OwnerId (g : Graph) (keys : List String) (id : String) : Prop :=
  ∃ key ∈ keys, ∃ owner name, IsMethod g key owner name ∧ id = sanitize owner.toList

/-- A method that is listed in a block.  Hooks list none, unless a component has the
identifier as well. -/
def ListsMethod (g : Graph) (keys : List String) (name : String) : Prop :=
  ∃ key ∈ keys, ∃ owner, IsMethod g key owner name ∧
    (ComponentId g keys (sanitize owner.toList) ∨ ¬ HookId g keys (sanitize owner.toList))

section

variable {g : Graph} {keys : List String} {id name : String}

theorem idOf_of_role {key : String} (h : ∀ owner name, role g key ≠ .method owner name) :
    idOf g key = sanitize key.toList := by
  unfold idOf
  split
  · next hrole => exact absurd hrole (h _ _)
  · rfl

theorem mem_ids_iff {r : Role} {p : String → Prop} (hr : ∀ owner name, r ≠ .method owner name)
    (hp : ∀ key, role g key = r ↔ p key) :
    id ∈ distinct ((keys.filter fun k => role g k = r).map (idOf g)) ↔ NamedBy keys p id := by
  rw [mem_distinct, List.mem_map]
  refine exists_congr fun key => ?_
  rw [List.mem_filter, decide_eq_true_eq, and_assoc, hp]
  refine and_congr_right fun _ => and_congr_right fun hkey => ?_
  rw [idOf_of_role ((hp key).mpr hkey ▸ hr), eq_comm]

theorem mem_componentIds_iff : id ∈ componentIds g keys ↔ ComponentId g keys id :=
  mem_ids_iff (by simp) fun _ => role_eq_component_iff

theorem mem_hookIds_iff : id ∈ hookIds g keys ↔ HookId g keys id :=
  mem_ids_iff (by simp) fun _ => role_eq_hook_iff

theorem methodOf?_eq_some_iff {key : String} : methodOf? g id key = some name ↔
    ∃ owner, IsMethod g key owner name ∧ id = sanitize owner.toList := by
  simp only [← role_eq_method_iff]
  unfold methodOf?
  split
  · next owner name' hrole =>
    rw [hrole]
    constructor
    · intro h
      obtain ⟨rfl, rfl⟩ := Option.ite_some_none_eq_some.mp h
      exact ⟨String.ofList owner, by simp⟩
    · rintro ⟨owner', hmethod, rfl⟩
      cases hmethod
      simp
  · next hrole =>
    refine iff_of_false (by simp) ?_
    rintro ⟨owner, hmethod, -⟩
    exact hrole _ _ hmethod

theorem mem_methodsOf_iff : name ∈ methodsOf g keys id ↔
    ∃ key ∈ keys, ∃ owner, IsMethod g key owner name ∧ id = sanitize owner.toList := by
  simp only [methodsOf, mem_distinct, List.mem_filterMap, methodOf?_eq_some_iff]

theorem classLike_iff {key : String} : isClassLike (role g key) = true ∧ idOf g key = id ↔
    (HasKind g key .plainClass ∧ id = sanitize key.toList) ∨
      ∃ owner name, IsMethod g key owner name ∧ id = sanitize owner.toList := by
  simp only [← role_eq_classBlock_iff, ← role_eq_method_iff]
  unfold idOf
  cases role g key with
  | classBlock => simp [isClassLike, eq_comm]
  | method owner name =>
    constructor
    · rintro ⟨-, rfl⟩
      exact Or.inr ⟨String.ofList owner, String.ofList name, by simp⟩
    · rintro (⟨⟨⟩, -⟩ | ⟨owner', name', hmethod, rfl⟩)
      cases hmethod
      exact ⟨rfl, rfl⟩
  | _ => simp [isClassLike]

theorem mem_classIds_iff : id ∈ classIds g keys ↔ ClassId g keys id ∨ OwnerId g keys id := by
  simp only [classIds, mem_distinct, List.mem_map, List.mem_filter, and_assoc, classLike_iff,
    ClassId, NamedBy, OwnerId, and_or_left, exists_or]

/-! The diagram keeps the first of each symbol on the paths.  This changes no identifiers. -/

@[simp] theorem namedBy_distinct {p : String → Prop} :
    NamedBy (distinct keys) p id ↔ NamedBy keys p id := by
  simp only [NamedBy, mem_distinct]

@[simp] theorem ownerId_distinct : OwnerId g (distinct keys) id ↔ OwnerId g keys id := by
  simp only [OwnerId, mem_distinct]

@[simp] theorem listsMethod_distinct :
    ListsMethod g (distinct keys) name ↔ ListsMethod g keys name := by
  simp only [ListsMethod, ComponentId, HookId, namedBy_distinct, mem_distinct]

theorem exists_mem_methods_iff :
    (∃ b ∈ blocksOf g keys, name ∈ b.methods) ↔ ListsMethod g keys name := by
  constructor
  · intro h
    obtain ⟨b, hb, hname⟩ := h
    simp only [blocksOf, List.mem_append, List.mem_map] at hb
    rcases hb with (⟨id, hid, rfl⟩ | ⟨id, -, rfl⟩) | ⟨id, hid, rfl⟩
    · obtain ⟨key, hkey, owner, hmethod, rfl⟩ := mem_methodsOf_iff.mp hname
      exact ⟨key, hkey, owner, hmethod, Or.inl (mem_componentIds_iff.mp hid)⟩
    · exact absurd hname List.not_mem_nil
    · obtain ⟨key, hkey, owner, hmethod, rfl⟩ := mem_methodsOf_iff.mp hname
      have hhook := (of_decide_eq_true (List.mem_filter.mp hid).2).2
      exact ⟨key, hkey, owner, hmethod, Or.inr (mt mem_hookIds_iff.mpr hhook)⟩
  · intro h
    obtain ⟨key, hkey, owner, hmethod, hid⟩ := h
    have hname : name ∈ methodsOf g keys (sanitize owner.toList) :=
      mem_methodsOf_iff.mpr ⟨key, hkey, owner, hmethod, rfl⟩
    by_cases hcomponent : sanitize owner.toList ∈ componentIds g keys
    · exact ⟨_, List.mem_append_left _ (List.mem_append_left _ (List.mem_map_of_mem hcomponent)),
        hname⟩
    · have hhook : sanitize owner.toList ∉ hookIds g keys :=
        mt mem_hookIds_iff.mp (hid.resolve_left (mt mem_componentIds_iff.mpr hcomponent))
      have hclass := mem_classIds_iff.mpr (Or.inr ⟨key, hkey, owner, name, hmethod, rfl⟩)
      exact ⟨_, List.mem_append_right _ (List.mem_map_of_mem (List.mem_filter.mpr
        ⟨hclass, decide_eq_true ⟨hcomponent, hhook⟩⟩)), hname⟩

end

/-! ## Breaks -/

def methodLine (name : String) : String := "        +" ++ name ++ "()"

theorem Plain.unbroken {s : String} (h : Plain s) : Unbroken s := by
  intro hbreak
  have hplain := h _ hbreak
  cases hplain

theorem unbroken_methodLine {name : String} : Unbroken (methodLine name) ↔ Unbroken name := by
  have hlead : Unbroken "        +" := by decide
  have hend : Unbroken "()" := by decide
  rw [methodLine, unbroken_append, unbroken_append]
  exact ⟨fun h => h.1.2, fun h => ⟨⟨hlead, h⟩, hend⟩⟩

theorem methodLine_mem_lines {b : Block} {name : String} (h : name ∈ b.methods) :
    methodLine name ∈ b.lines := by
  have hlong : ¬ (b.tag = none ∧ b.methods = []) := fun hbare => List.ne_nil_of_mem h hbare.2
  rw [Block.lines, if_neg hlong]
  exact List.mem_append_left _ (List.mem_append_right _ (List.mem_map_of_mem h))

/-- Only the methods that a block lists can bring breaks into its lines. -/
theorem unbroken_or_methodLine {b : Block} (hid : Plain b.id) (htag : ∀ t ∈ b.tag, Unbroken t)
    {l : String} (hl : l ∈ b.lines) : Unbroken l ∨ ∃ name ∈ b.methods, l = methodLine name := by
  have hclass : Unbroken ("    class " ++ b.id) := unbroken_append.mpr ⟨by decide, hid.unbroken⟩
  unfold Block.lines at hl
  split at hl
  · rw [List.mem_singleton] at hl
    rw [hl]
    exact Or.inl hclass
  · simp only [List.mem_append, List.mem_singleton, Option.mem_toList, Option.map_eq_some_iff,
      List.mem_map] at hl
    rcases hl with ((rfl | ⟨t, ht, rfl⟩) | ⟨name, hname, rfl⟩) | rfl
    · exact Or.inl (unbroken_append.mpr ⟨hclass, by decide⟩)
    · exact Or.inl (unbroken_append.mpr ⟨unbroken_append.mpr ⟨by decide, htag t ht⟩, by decide⟩)
    · exact Or.inr ⟨name, hname, rfl⟩
    · exact Or.inl (by decide)

theorem unbroken_tag {g : Graph} {keys : List String} {b : Block} (hb : b ∈ blocksOf g keys) :
    ∀ t ∈ b.tag, Unbroken t := by
  simp only [blocksOf, List.mem_append, List.mem_map] at hb
  intro t ht
  rcases hb with (⟨id, -, rfl⟩ | ⟨id, -, rfl⟩) | ⟨id, -, rfl⟩
  · cases ht
    decide
  · cases ht
    decide
  · cases ht

theorem Legible.unbroken_style {d : Diagram} (h : d.Legible) {s : Style} (hs : s ∈ d.styles) :
    Unbroken s.line := by
  obtain ⟨hid, hpaint⟩ := h.styles s hs
  have hpaint : Unbroken s.paint := by
    rcases hpaint with hpaint | hpaint
    · rw [hpaint]
      decide
    · rw [hpaint]
      decide
  rw [Style.line, unbroken_append, unbroken_append, unbroken_append]
  exact ⟨⟨⟨by decide, hid.unbroken⟩, by decide⟩, hpaint⟩

theorem unbroken_relation {g : Graph} {a b : String}
    (hb : ∀ owner name, IsMethod g b owner name → Unbroken name) :
    Unbroken (relation g (a, b)) := by
  have hsource := (plain_idOf g a).unbroken
  have htarget := (plain_idOf g b).unbroken
  have hblank : Unbroken "    " := by decide
  unfold relation
  split
  · simp only [unbroken_append]
    exact ⟨⟨⟨⟨hblank, hsource⟩, by decide⟩, htarget⟩, by decide⟩
  · next hrole =>
    simp only [unbroken_append]
    exact ⟨⟨⟨⟨⟨hblank, hsource⟩, by decide⟩, htarget⟩, by decide⟩,
      hb _ _ (exists_isMethod_of_role hrole)⟩
  · simp only [unbroken_append]
    exact ⟨⟨⟨hblank, hsource⟩, by decide⟩, htarget⟩

theorem mem_pairs_iff {nodes : List String} {a b : String} :
    (a, b) ∈ pairs nodes ↔ [a, b] <:+: nodes := by
  induction nodes with
  | nil => simp [pairs]
  | cons c rest ih =>
    cases rest with
    | nil =>
      have hshort : ¬ [a, b] <:+: [c] := fun h => absurd h.length_le (by simp)
      simp [pairs, hshort]
    | cons d rest =>
      rw [pairs, List.mem_cons, ih, List.infix_cons_iff (a := c)]
      simp [List.cons_prefix_cons]

/-! ## The lines of the text -/

theorem linesOf_render (d : Diagram) : Text.linesOf d.render = d.lines.flatMap Text.cutLines :=
  Text.linesOf_join d.lines

section

variable {g : Graph} {paths : List (List String)}

theorem mem_relations_ofPaths_iff {l : String} : l ∈ (ofPaths g paths).relations ↔
    ∃ a b, (∃ nodes ∈ paths, [a, b] <:+: nodes) ∧ relation g (a, b) = l := by
  simp only [ofPaths, mem_relationsOf_iff, mem_distinct, List.mem_flatMap, Prod.exists,
    mem_pairs_iff]

/-- The text of a diagram has the lines that are written, if no method on the paths has a break
in its name. -/
theorem linesOf_render_ofPaths
    (h : ∀ key ∈ paths.flatten, ∀ owner name, IsMethod g key owner name → Unbroken name) :
    Text.linesOf (ofPaths g paths).render = (ofPaths g paths).lines := by
  have hlegible := legible_ofPaths g paths
  rw [linesOf_render]
  refine Text.flatMap_cutLines fun l hl => ?_
  simp only [lines, List.mem_append, List.mem_flatMap, List.mem_map] at hl
  rcases hl with (((hl | ⟨b, hb, hl⟩) | ⟨s, hs, rfl⟩) | hl) | hl
  · rcases List.mem_pair.mp hl with rfl | rfl
    · decide
    · decide
  · rcases unbroken_or_methodLine (hlegible.blocks b hb) (unbroken_tag hb) hl with hl | hl
    · exact hl
    · obtain ⟨name, hname, rfl⟩ := hl
      obtain ⟨key, hkey, owner, hmethod, -⟩ := exists_mem_methods_iff.mp ⟨b, hb, hname⟩
      exact unbroken_methodLine.mpr (h key (mem_distinct.mp hkey) owner name hmethod)
  · exact hlegible.unbroken_style hs
  · obtain ⟨a, b, ⟨nodes, hnodes, hcall⟩, rfl⟩ := mem_relations_ofPaths_iff.mp hl
    have hb : b ∈ nodes := hcall.subset (List.mem_cons_of_mem a List.mem_cons_self)
    exact unbroken_relation (h b (List.mem_flatten_of_mem hnodes hb))
  · rw [List.mem_singleton.mp hl]
    decide

end

end Diagram
end SymbolAtlas
