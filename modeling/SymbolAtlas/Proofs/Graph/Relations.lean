/-
The call lines of a diagram.

`Draws` says which line a call is drawn by and in which of the three groups, by the kinds of
the two symbols alone.  Lines can coincide: several methods are drawn as one class, different
keys can have the same identifier, and a call of any kind may read like one between two
components.  So a line belongs to the first place where it is drawn, and the places are ordered
by group, then by path, then along the path; `listed_relations` says that the lines that are
written are what is drawn first at each place, in this order.  The diagram drops repeated calls
before it draws them and repeated lines afterwards.  The first makes no difference,
`relationsOf_distinct`.  The call lines that are read in the text can be others: a name with
breaks cuts the line of a call, and it can read like a call where its method is listed.
`call_lines_of_text_iff` says when they are the same.
-/
import SymbolAtlas.Proofs.Graph.Written
import SymbolAtlas.Proofs.Graph.Steps
import SymbolAtlas.Proofs.Places

namespace SymbolAtlas
namespace Diagram

open Text (Unbroken unbroken_append)

def Group.rank : Group → Nat
  | .renders => 0
  | .uses => 1
  | .calls => 2

/-- Where a line is drawn: its group, and the place of its call on the paths. -/
structure Spot where
  group : Group
  slot : Slot

instance : LT Spot where
  lt p q := p.group.rank < q.group.rank ∨ (p.group = q.group ∧ p.slot < q.slot)

theorem Spot.lt_iff {p q : Spot} :
    p < q ↔ p.group.rank < q.group.rank ∨ (p.group = q.group ∧ p.slot < q.slot) := Iff.rfl

theorem Spot.lt_of_rank {p q : Spot} (h : p.group.rank < q.group.rank) : p < q := Or.inl h

instance : Std.Asymm (fun p q : Spot => p < q) where
  asymm p q hpq hqp := by
    rcases Spot.lt_iff.mp hpq with hrank | ⟨hgroup, hslot⟩
    · rcases Spot.lt_iff.mp hqp with hrank' | ⟨hgroup, -⟩
      · omega
      · rw [hgroup] at hrank
        omega
    · rcases Spot.lt_iff.mp hqp with hrank | ⟨-, hslot'⟩
      · rw [hgroup] at hrank
        omega
      · exact Std.Asymm.asymm (r := fun p q : Slot => p < q) _ _ hslot hslot'

/-- How a call from `a` to `b` is drawn. -/
inductive Draws (g : Graph) (a b : String) : Group → String → Prop
  | renders {source target : String} (ha : IsComponent g a) (hb : IsComponent g b)
      (hsource : DrawnAs g a source) (htarget : DrawnAs g b target) :
      Draws g a b .renders ("    " ++ source ++ " --> " ++ target)
  | uses {source target : String} (ha : IsComponent g a) (hb : HasKind g b .hook)
      (hsource : DrawnAs g a source) (htarget : DrawnAs g b target) :
      Draws g a b .uses ("    " ++ source ++ " ..> " ++ target ++ " : uses")
  | method {source target owner name : String} (hb : IsMethod g b owner name)
      (hsource : DrawnAs g a source) (htarget : DrawnAs g b target) :
      Draws g a b .calls ("    " ++ source ++ " --> " ++ target ++ " : " ++ name)
  | other {source target : String}
      (hother : ¬ (IsComponent g a ∧ (IsComponent g b ∨ HasKind g b .hook)))
      (hb : ∀ owner name, ¬ IsMethod g b owner name)
      (hsource : DrawnAs g a source) (htarget : DrawnAs g b target) :
      Draws g a b .calls ("    " ++ source ++ " --> " ++ target)

/-- The nodes at a place of the paths and right behind it. -/
def CallAt (paths : List (List String)) (p : Slot) (call : String × String) : Prop :=
  ∃ nodes, paths[p.outer]? = some nodes ∧ nodes[p.inner]? = some call.1 ∧
    nodes[p.inner + 1]? = some call.2

def DrawnAt (g : Graph) (paths : List (List String)) (p : Spot) (line : String) : Prop :=
  ∃ a b, CallAt paths p.slot (a, b) ∧ Draws g a b p.group line

variable {g : Graph} {paths : List (List String)}

/-! ## One call -/

theorem groupOf_eq_renders_iff {a b : String} :
    groupOf g (a, b) = .renders ↔ IsComponent g a ∧ IsComponent g b := by
  rw [← role_eq_component_iff, ← role_eq_component_iff]
  unfold groupOf
  split <;> simp_all

theorem groupOf_eq_uses_iff {a b : String} :
    groupOf g (a, b) = .uses ↔ IsComponent g a ∧ HasKind g b .hook := by
  rw [← role_eq_component_iff, ← role_eq_hook_iff]
  unfold groupOf
  split <;> simp_all

theorem groupOf_eq_calls_iff {a b : String} :
    groupOf g (a, b) = .calls ↔
      ¬ (IsComponent g a ∧ (IsComponent g b ∨ HasKind g b .hook)) := by
  rw [and_or_left, ← groupOf_eq_renders_iff, ← groupOf_eq_uses_iff]
  cases groupOf g (a, b) <;> simp

/-- A call of a method is in neither of the first two groups. -/
theorem groupOf_of_isMethod {a b owner name : String} (hb : IsMethod g b owner name) :
    groupOf g (a, b) = .calls := by
  have hrole := role_eq_method_iff.mpr hb
  rw [groupOf_eq_calls_iff]
  rintro ⟨-, hcomponent | hhook⟩
  · rw [role_eq_component_iff.mpr hcomponent] at hrole
    cases hrole
  · rw [role_eq_hook_iff.mpr hhook] at hrole
    cases hrole

theorem relation_of_not_method {a b : String} (hgroup : groupOf g (a, b) ≠ .uses)
    (hb : ∀ owner name, ¬ IsMethod g b owner name) :
    relation g (a, b) = "    " ++ idOf g a ++ " --> " ++ idOf g b := by
  unfold relation
  split
  · contradiction
  · next hrole => exact absurd (exists_isMethod_of_role hrole) (hb _ _)
  · rfl

theorem relation_of_draws {a b : String} {group : Group} {line : String}
    (h : Draws g a b group line) : groupOf g (a, b) = group ∧ relation g (a, b) = line := by
  cases h with
  | renders ha hb hsource htarget =>
    have hgroup := groupOf_eq_renders_iff.mpr ⟨ha, hb⟩
    rw [drawnAs_iff.mp hsource, drawnAs_iff.mp htarget, relation, hgroup]
    exact ⟨rfl, rfl⟩
  | uses ha hb hsource htarget =>
    have hgroup := groupOf_eq_uses_iff.mpr ⟨ha, hb⟩
    rw [drawnAs_iff.mp hsource, drawnAs_iff.mp htarget, relation, hgroup]
    exact ⟨rfl, rfl⟩
  | method hb hsource htarget =>
    have hrole := role_eq_method_iff.mpr hb
    rw [drawnAs_iff.mp hsource, drawnAs_iff.mp htarget, relation, groupOf_of_isMethod hb, hrole]
    exact ⟨rfl, congrArg (_ ++ ·) String.ofList_toList⟩
  | other hother hb hsource htarget =>
    have hgroup := groupOf_eq_calls_iff.mpr hother
    rw [drawnAs_iff.mp hsource, drawnAs_iff.mp htarget]
    exact ⟨hgroup, relation_of_not_method (by simp [hgroup]) hb⟩

theorem exists_draws (g : Graph) (a b : String) : ∃ group line, Draws g a b group line := by
  have hsource : DrawnAs g a (idOf g a) := drawnAs_iff.mpr rfl
  have htarget : DrawnAs g b (idOf g b) := drawnAs_iff.mpr rfl
  by_cases hmethod : ∃ owner name, IsMethod g b owner name
  · obtain ⟨owner, name, hb⟩ := hmethod
    exact ⟨_, _, .method hb hsource htarget⟩
  by_cases hmain : IsComponent g a ∧ (IsComponent g b ∨ HasKind g b .hook)
  · obtain ⟨ha, hb | hb⟩ := hmain
    · exact ⟨_, _, .renders ha hb hsource htarget⟩
    · exact ⟨_, _, .uses ha hb hsource htarget⟩
  · exact ⟨_, _, .other hmain (fun owner name hb => hmethod ⟨owner, name, hb⟩) hsource htarget⟩

theorem draws_iff {a b : String} {group : Group} {line : String} :
    Draws g a b group line ↔ groupOf g (a, b) = group ∧ relation g (a, b) = line := by
  refine ⟨relation_of_draws, ?_⟩
  rintro ⟨rfl, rfl⟩
  obtain ⟨group, line, h⟩ := exists_draws g a b
  obtain ⟨hgroup, hline⟩ := relation_of_draws h
  rwa [hgroup, hline]

/-! ## All calls -/

theorem relationsOf_distinct (g : Graph) (calls : List (String × String)) :
    relationsOf g (distinct calls) = relationsOf g calls := by
  have hgroup (group : Group) : distinct (relationsIn g (distinct calls) group) =
      distinct (relationsIn g calls group) := by
    rw [relationsIn, relationsIn, filter_distinct, distinct_map_distinct]
  exact distinct_append_congr (distinct_append_congr (hgroup .renders) (hgroup .uses))
    (hgroup .calls)

theorem listed_calls (paths : List (List String)) :
    Listed (CallAt paths) (paths.flatMap pairs) := by
  have hpairs (nodes : List String) : Listed (fun (i : Nat) (c : String × String) =>
      nodes[i]? = some c.1 ∧ nodes[i + 1]? = some c.2) (pairs nodes) := by
    refine (listed_getElem? (pairs nodes)).congr fun i c => ?_
    rw [pairs_eq_zip, List.getElem?_zip_eq_some, List.getElem?_tail]
  have hall := Listed.filter_flatMap hpairs (fun _ => true) paths
  rw [List.filter_true] at hall
  refine hall.congr fun p c => ?_
  simp only [CallAt, true_and]

theorem listed_relationsIn (g : Graph) (paths : List (List String)) (group : Group) :
    Listed (fun (p : Spot) line => p.group = group ∧ DrawnAt g paths p line)
      (relationsIn g (paths.flatMap pairs) group) := by
  have hlines := (((listed_calls paths).filter fun c => groupOf g c = group).map
    (relation g)).relocate (Spot.mk group) fun p q hpq => Or.inr ⟨rfl, hpq⟩
  refine hlines.congr fun p line => ?_
  constructor
  · rintro ⟨slot, rfl, ⟨a, b⟩, ⟨hcall, hgroup⟩, hline⟩
    exact ⟨rfl, a, b, hcall, draws_iff.mpr ⟨of_decide_eq_true hgroup, hline⟩⟩
  · rintro ⟨rfl, a, b, hcall, hdraws⟩
    obtain ⟨hgroup, hline⟩ := draws_iff.mp hdraws
    exact ⟨p.slot, rfl, (a, b), ⟨hcall, decide_eq_true hgroup⟩, hline⟩

/-- The lines before repeated ones are dropped. -/
def drawn (g : Graph) (paths : List (List String)) : List String :=
  let calls := paths.flatMap pairs
  relationsIn g calls .renders ++ relationsIn g calls .uses ++ relationsIn g calls .calls

theorem listed_drawn (g : Graph) (paths : List (List String)) :
    Listed (DrawnAt g paths) (drawn g paths) := by
  have hgroups := ((listed_relationsIn g paths .renders).append
    (listed_relationsIn g paths .uses) ?_).append (listed_relationsIn g paths .calls) ?_
  · refine hgroups.congr fun p line => ?_
    cases hgroup : p.group <;> simp
  · intro p _ q _ hp hq
    exact Spot.lt_of_rank (by rw [hp.1, hq.1]; decide)
  · rintro p _ q _ (hp | hp) hq
    · exact Spot.lt_of_rank (by rw [hp.1, hq.1]; decide)
    · exact Spot.lt_of_rank (by rw [hp.1, hq.1]; decide)

theorem relations_ofPaths (g : Graph) (paths : List (List String)) :
    (ofPaths g paths).relations = distinct (drawn g paths) :=
  relationsOf_distinct g (paths.flatMap pairs)

/-- The lines of a diagram, each where it is drawn first. -/
theorem listed_relations (g : Graph) (paths : List (List String)) :
    Listed (fun p line => DrawnAt g paths p line ∧ ∀ q < p, ¬ DrawnAt g paths q line)
      (ofPaths g paths).relations := by
  rw [relations_ofPaths]
  refine ((listed_drawn g paths).distinctBy id).congr fun p line => and_congr_right fun _ => ?_
  constructor
  · intro hfirst q hq hdrawn
    exact hfirst q line hq hdrawn rfl
  · rintro hfirst q _ hq hdrawn rfl
    exact hfirst q hq hdrawn

/-! ## The text -/

/-- The call lines of a text. -/
def callLinesIn (text : String) : List String :=
  (Text.linesOf text).filter fun l => LineKind.of l = .relation

/-- A text that shows the calls on the paths: no line twice, one for each call and none
besides, and in the order in which they are first drawn. -/
structure ShowsCalls (g : Graph) (paths : List (List String)) (text : String) : Prop where
  nodup : (callLinesIn text).Nodup
  mem_iff : ∀ line, line ∈ callLinesIn text ↔
    ∃ a b, (∃ nodes ∈ paths, [a, b] <:+: nodes) ∧ ∃ group, Draws g a b group line
  listed : Listed (fun p line => DrawnAt g paths p line ∧ ∀ q < p, ¬ DrawnAt g paths q line)
    (callLinesIn text)

/-- The call lines as which a written line is read. -/
def callPieces (line : String) : List String :=
  (Text.cutLines line).filter fun l => LineKind.of l = .relation

/-- The call lines that are read inside the blocks. -/
def strayCalls (d : Diagram) : List String := (d.blocks.flatMap Block.lines).flatMap callPieces

theorem callPieces_eq_nil_iff {line : String} :
    callPieces line = [] ↔ ∀ l ∈ Text.cutLines line, LineKind.of l ≠ .relation := by
  simp only [callPieces, List.filter_eq_nil_iff, decide_eq_true_eq, ne_eq]

theorem callPieces_of_unbroken {line : String} (h : Unbroken line)
    (hkind : LineKind.of line ≠ .relation) : callPieces line = [] := by
  rw [callPieces_eq_nil_iff, Text.cutLines_of_unbroken h]
  intro l hl
  rwa [List.mem_singleton.mp hl]

theorem callPieces_of_relation {line : String} (h : Unbroken line)
    (hkind : LineKind.of line = .relation) : callPieces line = [line] := by
  rw [callPieces, Text.cutLines_of_unbroken h, List.filter_singleton, hkind, decide_eq_true rfl]
  rfl

/-- If no call is drawn with a break, its line is among those that are read, and what else is
read as a call stands in the blocks. -/
theorem Legible.callLinesIn_render {d : Diagram} (h : d.Legible)
    (hunbroken : ∀ l ∈ d.relations, Unbroken l) :
    callLinesIn d.render = d.strayCalls ++ d.relations := by
  have hread : callLinesIn d.render = d.lines.flatMap callPieces := by
    rw [callLinesIn, linesOf_render, List.filter_flatMap]
    rfl
  have hstyles : (d.styles.map Style.line).flatMap callPieces = [] := by
    rw [List.flatMap_eq_nil_iff]
    intro l hl
    obtain ⟨s, hs, rfl⟩ := List.mem_map.mp hl
    refine callPieces_of_unbroken (h.unbroken_style hs) ?_
    rw [h.of_style hs]
    exact LineKind.noConfusion
  have hrelations : d.relations.flatMap callPieces = d.relations := by
    have hone : ∀ l ∈ d.relations, callPieces l = [l] := fun l hl =>
      callPieces_of_relation (hunbroken l hl) (h.relations l hl)
    rw [List.flatMap_congr hone, List.flatMap_singleton']
  have hopen : ["```mermaid", "classDiagram"].flatMap callPieces = [] := by decide +kernel
  have hclose : ["```"].flatMap callPieces = [] := by decide +kernel
  rw [hread, lines, List.flatMap_append, List.flatMap_append, List.flatMap_append,
    List.flatMap_append, hopen, hstyles, hrelations, hclose, List.nil_append, List.append_nil,
    List.append_nil, strayCalls]

/-- Only the methods that the blocks list can be read as calls there. -/
theorem strayCalls_eq_nil_iff : (ofPaths g paths).strayCalls = [] ↔
    ∀ name, ListsMethod g paths.flatten name →
      ∀ l ∈ Text.cutLines (methodLine name), LineKind.of l ≠ .relation := by
  have hlegible := legible_ofPaths g paths
  simp only [← callPieces_eq_nil_iff]
  rw [strayCalls, List.flatMap_eq_nil_iff]
  constructor
  · intro hall name hlists
    obtain ⟨b, hb, hname⟩ := exists_mem_methods_iff.mpr (listsMethod_distinct.mpr hlists)
    exact hall _ (List.mem_flatMap.mpr ⟨b, hb, methodLine_mem_lines hname⟩)
  · intro hall l hl
    obtain ⟨b, hb, hl⟩ := List.mem_flatMap.mp hl
    rcases unbroken_or_methodLine (hlegible.blocks b hb) (unbroken_tag hb) hl with hline | hline
    · refine callPieces_of_unbroken hline ?_
      rcases hlegible.of_block hb hl with hkind | hkind
      · rw [hkind]
        exact LineKind.noConfusion
      · rw [hkind]
        exact LineKind.noConfusion
    · obtain ⟨name, hname, rfl⟩ := hline
      exact hall name (listsMethod_distinct.mp (exists_mem_methods_iff.mp ⟨b, hb, hname⟩))

theorem exists_draws_iff {a b line : String} :
    (∃ group, Draws g a b group line) ↔ relation g (a, b) = line := by
  simp only [draws_iff, exists_eq_left']

theorem unbroken_relation_iff {a b : String} : Unbroken (relation g (a, b)) ↔
    ∀ owner name, IsMethod g b owner name → Unbroken name := by
  refine ⟨fun h owner name hb => ?_, unbroken_relation⟩
  have hdraws := Draws.method (a := a) hb (drawnAs_iff.mpr rfl) (drawnAs_iff.mpr rfl)
  rw [(relation_of_draws hdraws).2] at h
  exact (unbroken_append.mp h).2

theorem unbroken_relations_iff : (∀ l ∈ (ofPaths g paths).relations, Unbroken l) ↔
    ∀ a b, (∃ nodes ∈ paths, [a, b] <:+: nodes) →
      ∀ owner name, IsMethod g b owner name → Unbroken name := by
  simp only [mem_relations_ofPaths_iff]
  constructor
  · intro h a b hcall
    exact unbroken_relation_iff.mp (h _ ⟨a, b, hcall, rfl⟩)
  · rintro h l ⟨a, b, hcall, rfl⟩
    exact unbroken_relation (h a b hcall)

theorem showsCalls_iff : ShowsCalls g paths (ofPaths g paths).render ↔
    callLinesIn (ofPaths g paths).render = (ofPaths g paths).relations := by
  have hmem : ∀ line, line ∈ (ofPaths g paths).relations ↔
      ∃ a b, (∃ nodes ∈ paths, [a, b] <:+: nodes) ∧ ∃ group, Draws g a b group line := by
    intro line
    simp only [exists_draws_iff, mem_relations_ofPaths_iff]
  constructor
  · intro h
    exact h.listed.unique (listed_relations g paths)
  · intro h
    refine ⟨?_, ?_, ?_⟩
    · rw [h, relations_ofPaths]
      exact nodup_distinct _
    · rw [h]
      exact hmem
    · rw [h]
      exact listed_relations g paths

theorem callLinesIn_render_iff :
    callLinesIn (ofPaths g paths).render = (ofPaths g paths).relations ↔
      (∀ l ∈ (ofPaths g paths).relations, Unbroken l) ∧ (ofPaths g paths).strayCalls = [] := by
  constructor
  · intro h
    have hunbroken : ∀ l ∈ (ofPaths g paths).relations, Unbroken l := by
      intro l hl
      rw [← h] at hl
      exact Text.unbroken_of_mem_linesOf (List.mem_of_mem_filter hl)
    rw [(legible_ofPaths g paths).callLinesIn_render hunbroken, List.append_left_eq_self] at h
    exact ⟨hunbroken, h⟩
  · intro h
    obtain ⟨hunbroken, hstray⟩ := h
    rw [(legible_ofPaths g paths).callLinesIn_render hunbroken, hstray, List.nil_append]

/-- Every call is drawn by one line, in one group.  The text of a diagram shows the calls in
this way just if no method that is called has a break in its name, and no method that a block
lists has a name of which a part would be read as a call. -/
theorem call_lines_of_text_iff (g : Graph) (paths : List (List String)) :
    (∀ a b, ∃! drawing : Group × String, Draws g a b drawing.1 drawing.2) ∧
    (ShowsCalls g paths (ofPaths g paths).render ↔
      (∀ a b, (∃ nodes ∈ paths, [a, b] <:+: nodes) →
        ∀ owner name, IsMethod g b owner name → Unbroken name) ∧
      ∀ name, ListsMethod g paths.flatten name →
        ∀ l ∈ Text.cutLines (methodLine name), LineKind.of l ≠ .relation) := by
  constructor
  · intro a b
    refine ⟨(groupOf g (a, b), relation g (a, b)), draws_iff.mpr ⟨rfl, rfl⟩, ?_⟩
    rintro ⟨group, line⟩ h
    obtain ⟨rfl, rfl⟩ := draws_iff.mp h
    rfl
  · rw [showsCalls_iff, callLinesIn_render_iff, unbroken_relations_iff, strayCalls_eq_nil_iff]

/-- Two methods are called whose names go on behind a break with a call of their own.  It is
read twice, and there is no such call. -/
theorem call_lines_of_broken_names :
    let g := Graph.replay [.ensureNode "run" (some .function) none,
      .ensureNode "A.m\n    X --> Y" (some .method) none,
      .ensureNode "A.n\n    X --> Y" (some .method) none]
    let paths := [["run", "A.m\n    X --> Y"], ["run", "A.n\n    X --> Y"]]
    let text := (ofPaths g paths).render
    (callLinesIn text).count "    X --> Y" = 2 ∧
      (∀ a b, (∃ nodes ∈ paths, [a, b] <:+: nodes) →
        ∀ group, ¬ Draws g a b group "    X --> Y") ∧
      ¬ ShowsCalls g paths text := by
  intro g paths text
  have htwice : (callLinesIn text).count "    X --> Y" = 2 := by
    rw [callLinesIn, linesOf_render]
    decide +kernel
  have hnone : "    X --> Y" ∉ (ofPaths g paths).relations := by decide +kernel
  refine ⟨htwice, ?_, ?_⟩
  · intro a b hcall group hdraws
    exact hnone (mem_relations_ofPaths_iff.mpr ⟨a, b, hcall, (relation_of_draws hdraws).2⟩)
  · intro h
    have honce := List.nodup_iff_count_le_one.mp h.nodup "    X --> Y"
    omega

end Diagram
end SymbolAtlas
