/-
Paths that add nothing to a diagram.

A diagram shows the nodes and the calls on its paths, each where it comes first, and both sets
are made before anything is drawn.  So only the order in which nodes and calls come up counts,
`ofPaths_congr`.  A path that runs where others have run before brings neither a new node nor a
new call, wherever it starts and however it is put together, and a path that is there twice is
such a path.
-/
import SymbolAtlas.Proofs.Graph.Relations

namespace SymbolAtlas
namespace Diagram

/-- Every node and every call of a path is on one of the others. -/
structure Covered (paths : List (List String)) (path : List String) : Prop where
  nodes : ∀ a ∈ path, ∃ other ∈ paths, a ∈ other
  calls : ∀ a b, [a, b] <:+: path → ∃ other ∈ paths, [a, b] <:+: other

theorem covered_iff {paths : List (List String)} {path : List String} :
    Covered paths path ↔ path ⊆ paths.flatten ∧ pairs path ⊆ paths.flatMap pairs := by
  have hcalls : (∀ a b, [a, b] <:+: path → ∃ other ∈ paths, [a, b] <:+: other) ↔
      pairs path ⊆ paths.flatMap pairs := by
    simp only [← mem_pairs_iff, List.subset_def, List.mem_flatMap, Prod.forall]
  have hnodes : (∀ a ∈ path, ∃ other ∈ paths, a ∈ other) ↔ path ⊆ paths.flatten := by
    simp only [List.subset_def, List.mem_flatten]
  rw [← hnodes, ← hcalls]
  exact ⟨fun h => ⟨h.nodes, h.calls⟩, fun h => ⟨h.1, h.2⟩⟩

instance (paths : List (List String)) (path : List String) : Decidable (Covered paths path) :=
  decidable_of_iff _ covered_iff.symm

theorem ofPaths_congr (g : Graph) {paths paths' : List (List String)}
    (hkeys : distinct paths.flatten = distinct paths'.flatten)
    (hcalls : distinct (paths.flatMap pairs) = distinct (paths'.flatMap pairs)) :
    ofPaths g paths = ofPaths g paths' := by
  unfold ofPaths
  rw [hkeys, hcalls]

theorem ofPaths_append_of_covered (g : Graph) {paths : List (List String)} {path : List String}
    (h : Covered paths path) : ofPaths g (paths ++ [path]) = ofPaths g paths := by
  obtain ⟨hnodes, hcalls⟩ := covered_iff.mp h
  apply ofPaths_congr
  · rw [List.flatten_append, List.flatten_singleton]
    exact distinct_append_of_subset hnodes
  · rw [List.flatMap_append, List.flatMap_singleton]
    exact distinct_append_of_subset hcalls

theorem ofPaths_distinct (g : Graph) (paths : List (List String)) :
    ofPaths g (distinct paths) = ofPaths g paths := by
  apply ofPaths_congr
  · rw [← List.flatMap_id, ← List.flatMap_id]
    exact distinct_flatMap_distinct id paths
  · exact distinct_flatMap_distinct pairs paths

/-- The text of a diagram stays the same when a path comes behind the others that has only
their nodes and their calls, and when paths that come again are left out. -/
theorem render_of_overlapping_paths (g : Graph) (paths : List (List String)) :
    (∀ path, Covered paths path →
      (ofPaths g (paths ++ [path])).render = (ofPaths g paths).render) ∧
    (ofPaths g (distinct paths)).render = (ofPaths g paths).render := by
  constructor
  · intro path h
    rw [ofPaths_append_of_covered g h]
  · rw [ofPaths_distinct]

/-- The path behind the others is none of them: it goes along the first and then along the
second. -/
theorem render_of_crossing_paths :
    let g := Graph.replay [.ensureNode "App" (some .functionComponent) none,
      .ensureNode "Card" (some .classComponent) none, .ensureNode "Card.save" (some .method) none,
      .ensureNode "useCart" (some .hook) none]
    let paths := [["App", "Card", "Card.save"], ["Row", "Card", "useCart"]]
    let path := ["App", "Card", "useCart"]
    Covered paths path ∧ path ∉ paths ∧
      (ofPaths g (paths ++ [path])).render = (ofPaths g paths).render := by
  intro g paths path
  have h : Covered paths path := by decide
  exact ⟨h, by decide, (render_of_overlapping_paths g paths).1 path h⟩

end Diagram
end SymbolAtlas
