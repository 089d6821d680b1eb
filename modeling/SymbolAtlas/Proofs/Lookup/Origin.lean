/-
Where a definition comes from.

`findDefinition?_cases` is what any search for a definition can return: a
declaration of that name at the top of a file, the target of a default export, or
a member of a class.  In a workspace each of them has a mention of its own,
`Workspace.Sound.holds_definition`, so a handle tells a definition from every
occurrence elsewhere.
-/
import SymbolAtlas.Lookup.Definition
import SymbolAtlas.Proofs.Source.Recorded

namespace SymbolAtlas
namespace Atlas

/-- The program that sketches make, looked at by the given settings. -/
def ofSketches (sketches : List FileSketch) (settings : Settings) : Atlas :=
  ofSettings (Workspace.ofSketches sketches).snapshot settings

variable {a : Atlas}

theorem findDefinition_eq_ok_iff {name : String} {d : Definition} :
    a.findDefinition name = .ok d ↔ a.findDefinition? name = some d := by
  unfold findDefinition
  cases a.findDefinition? name with
  | none => simp
  | some x => simp

theorem mem_declarations_iff {d : Declaration} :
    d ∈ a.declarations ↔ ∃ f ∈ a.files, d ∈ a.source.declarations f.path :=
  List.mem_flatMap

theorem mem_moduleDeclarations {path : String} {d : Declaration}
    (h : d ∈ a.moduleDeclarations path) : d ∈ a.source.declarations path :=
  (List.mem_filter.mp h).1

theorem of_declared? {name : String} {ds : List Declaration} {d : Declaration}
    (h : declared? name ds = some d) : d ∈ ds ∧ d.name = name ∧ d.isNameless = false := by
  obtain ⟨rank, -, hrank⟩ := List.exists_of_findSome?_eq_some h
  have hd := List.find?_some hrank
  simp only [Bool.and_eq_true, decide_eq_true_eq, Bool.not_eq_true'] at hd
  exact ⟨List.mem_of_find?_eq_some hrank, hd.1.1, hd.1.2⟩

theorem of_exported? {name : String} {ds : List Declaration} {d : Declaration}
    (h : a.exported? name ds = some d) : ∃ e ∈ ds, a.source.exportTarget e = some d := by
  obtain ⟨e, he, hd⟩ := List.exists_of_findSome?_eq_some h
  refine ⟨e, he, ?_⟩
  split at hd
  · split at hd
    · exact hd
    · cases hd
  · cases hd

theorem of_findMember? {owner : Option String} {name : String} {d : Definition}
    (h : a.findMember? owner name = some d) :
    ∃ o ∈ a.declarations, ∃ m ∈ o.members, d = .member o m ∧ m.name = name ∧
      ∀ o', owner = some o' → o.name = o' := by
  obtain ⟨o, ho, hd⟩ := List.exists_of_findSome?_eq_some h
  obtain ⟨m, hm, rfl⟩ := Option.map_eq_some_iff.mp hd
  obtain ⟨hdecl, howner⟩ := List.mem_filter.mp ho
  have hname := List.find?_some hm
  refine ⟨o, hdecl, m, List.mem_of_find?_eq_some hm, rfl, of_decide_eq_true hname, ?_⟩
  rintro o' rfl
  exact of_decide_eq_true howner

/-- The three things that a search for a definition can find. -/
theorem findDefinition?_cases {name : String} {d : Definition}
    (h : a.findDefinition? name = some d) :
    (∃ f ∈ a.files, ∃ x ∈ a.source.declarations f.path,
        d = .declaration x ∧ x.name = name ∧ x.isNameless = false) ∨
      (∃ f ∈ a.files, ∃ e ∈ a.source.declarations f.path, ∃ x,
        a.source.exportTarget e = some x ∧ d = .declaration x) ∨
      ∃ o ∈ a.declarations, ∃ m ∈ o.members, d = .member o m := by
  have hmember {owner : Option String} {part : String}
      (hm : a.findMember? owner part = some d) :
      ∃ o ∈ a.declarations, ∃ m ∈ o.members, d = .member o m := by
    obtain ⟨o, ho, m, hmem, hd, -⟩ := of_findMember? hm
    exact ⟨o, ho, m, hmem, hd⟩
  unfold findDefinition? at h
  split at h
  · exact Or.inr (Or.inr (hmember h))
  · rcases Option.or_eq_some_iff.mp h with hmodule | ⟨-, hm⟩
    · obtain ⟨x, hx, rfl⟩ := Option.map_eq_some_iff.mp hmodule
      obtain ⟨f, hf, hin⟩ := List.exists_of_findSome?_eq_some hx
      rcases Option.or_eq_some_iff.mp hin with hdecl | ⟨-, hexp⟩
      · obtain ⟨hmem, hname, hnamed⟩ := of_declared? hdecl
        exact Or.inl ⟨f, hf, x, mem_moduleDeclarations hmem, rfl, hname, hnamed⟩
      · obtain ⟨e, he, htarget⟩ := of_exported? hexp
        exact Or.inr (Or.inl ⟨f, hf, e, mem_moduleDeclarations he, x, htarget, rfl⟩)
    · exact Or.inr (Or.inr (hmember hm))

/-- A dotted name stands for a member. -/
theorem exists_member_of_dotted {name : String} {d : Definition} (hdot : '.' ∈ name.toList)
    (h : a.findDefinition? name = some d) : ∃ o m, d = .member o m := by
  unfold findDefinition? at h
  split at h
  · obtain ⟨o, -, m, -, hd, -⟩ := of_findMember? h
    exact ⟨o, m, hd⟩
  · next hcut => exact absurd hdot (Text.cutFirst?_singleton_eq_none_iff.mp hcut)

end Atlas

namespace Workspace

variable {w : Workspace}

theorem mem_declarationsIn_iff {path : String} {d : Declaration} :
    d ∈ w.declarationsIn path ↔ d ∈ w.declarations ∧ d.file = path := by
  rw [declarationsIn, List.mem_filter, decide_eq_true_eq]

theorem of_exportable? {path name : String} {d : Declaration}
    (h : w.exportable? path name = some d) :
    d ∈ w.declarations ∧ d.isDefaultExport = false := by
  have hd := List.find?_some h
  simp only [Bool.and_eq_true, Bool.not_eq_true'] at hd
  exact ⟨(mem_declarationsIn_iff.mp (List.mem_of_find?_eq_some h)).1, hd.2⟩

theorem of_exportTarget {e d : Declaration} (h : w.exportTarget e = some d) :
    d ∈ w.declarations ∧ d.isDefaultExport = false := by
  unfold exportTarget at h
  split at h
  · rcases Option.or_eq_some_iff.mp h with hown | ⟨-, hother⟩
    · exact of_exportable? hown
    · obtain ⟨f, -, hf⟩ := List.mem_filterMap.mp (List.mem_of_find?_eq_some hother)
      exact of_exportable? hf
  · cases h

theorem isNameless_of_isDefaultExport {d : Declaration} (h : d.isDefaultExport = false) :
    d.isNameless = false := by
  unfold Declaration.isDefaultExport at h
  unfold Declaration.isNameless
  split at h
  · cases h
  · split <;> simp_all

/-- The definition of a name is mentioned in its file under its own handle. -/
theorem Sound.holds_definition (hw : w.Sound) {a : Atlas} (ha : a.source = w.snapshot)
    {name : String} {d : Definition} (h : a.findDefinition? name = some d) :
    w.Holds d.file d.handle := by
  rcases Atlas.findDefinition?_cases h with
    ⟨f, -, x, hx, rfl, -, hnamed⟩ | ⟨f, -, e, -, x, htarget, rfl⟩ | ⟨o, ho, m, hm, rfl⟩
  · rw [ha] at hx
    exact (hw.recorded x (mem_declarationsIn_iff.mp hx).1).own hnamed
  · rw [ha] at htarget
    obtain ⟨hx, hplain⟩ := of_exportTarget htarget
    exact (hw.recorded x hx).own (isNameless_of_isDefaultExport hplain)
  · obtain ⟨f, -, hof⟩ := Atlas.mem_declarations_iff.mp ho
    rw [ha] at hof
    exact (hw.recorded o (mem_declarationsIn_iff.mp hof).1).members m hm

end Workspace
end SymbolAtlas
