/-
The references of a definition.

`OccursAt` says where an occurrence of the looked-up name stands, by the index of
its file among all files and its index among the occurrences in that file, and
`Discounts` says which of them are no references.  All occurrences are listed by
place, `listed_allOccurrences`, and the references are the first that count at each
location, `listed_collectReferences`.

Whether the defining file is left out before or after repeated locations are
dropped makes no difference, `collectReferences_external`: a location knows its
file.
-/
import SymbolAtlas.Proofs.Lookup.Origin
import SymbolAtlas.Proofs.Places
import SymbolAtlas.Source.Tables
import SymbolAtlas.Unused

namespace SymbolAtlas
namespace Atlas

variable {a : Atlas} {d : Definition}

/-! ## Which occurrences count -/

/-- An occurrence that is no reference: the definition itself, a local export, the
name of an exported variable, or an import of what is not used by importing it. -/
def Discounts (a : Atlas) (d : Definition) (o : NameOccurrence) : Prop :=
  o.handle = d.handle ∨ o.role = .exportSpecifier ∨ o.role = .variableName true ∨
    ((∃ default, o.role = .importSpecifier default) ∧ a.symbolKind d ≠ .plainClass ∧
      a.symbolKind d ≠ .interface ∧ (a.symbolKind d).isComponent = false)

theorem importsCount_eq_false_iff :
    a.importsCount d = false ↔ a.symbolKind d ≠ .plainClass ∧ a.symbolKind d ≠ .interface ∧
      (a.symbolKind d).isComponent = false := by
  unfold importsCount
  cases a.symbolKind d <;> simp [SymbolKind.isComponent]

theorem judge_eq_false_iff {o : NameOccurrence} :
    (o.judge d.handle (a.importsCount d)).2 = false ↔ a.Discounts d o := by
  unfold NameOccurrence.judge Discounts
  by_cases hown : o.handle = d.handle
  · simp [hown]
  · rw [if_neg hown, ← importsCount_eq_false_iff]
    cases o.role <;> simp [Role.judge, hown]

/-! ## Where they stand -/

/-- An occurrence of the definition's name as it is listed. -/
def judged (a : Atlas) (d : Definition) (path : String) (o : NameOccurrence) : Occurrence :=
  { location := o.position.inFile path
    context := a.source.contextOf o.handle
    kind := (o.judge d.handle (a.importsCount d)).1
    valid := (o.judge d.handle (a.importsCount d)).2 }

/-- What is listed for a place: the file is neither generated nor skipped, and it is
another one than that of the definition unless that is asked for, too. -/
def OccursAt (a : Atlas) (name : String) (d : Definition) (internal : Bool) (p : Slot)
    (o : Occurrence) : Prop :=
  ∃ f n, a.source.files[p.outer]? = some f ∧ f.generated = false ∧
    a.skip.skips f.path = false ∧ (internal = true ∨ f.path ≠ d.file) ∧
    (a.source.occurrences f.path (d.lookupName name))[p.inner]? = some n ∧
    o = a.judged d f.path n

theorem listed_allOccurrences (a : Atlas) (name : String) (d : Definition) (internal : Bool) :
    Listed (a.OccursAt name d internal) (a.allOccurrences name d internal) := by
  have hfile (f : SourceFile) := (listed_getElem?
    (a.source.occurrences f.path (d.lookupName name))).map (a.judged d f.path)
  unfold allOccurrences files
  rw [List.filter_filter]
  refine (Listed.filter_flatMap hfile _ a.source.files).congr fun p o => ?_
  constructor
  · rintro ⟨f, hf, hscan, n, hn, rfl⟩
    simp only [Bool.and_eq_true, Bool.or_eq_true, decide_eq_true_eq, Bool.not_eq_true',
      Bool.or_eq_false_iff] at hscan
    obtain ⟨hother, hgen, hskip⟩ := hscan
    exact ⟨f, n, hf, hgen, hskip, hother, hn, rfl⟩
  · rintro ⟨f, n, hf, hgen, hskip, hother, hn, rfl⟩
    refine ⟨f, hf, ?_, n, hn, rfl⟩
    simp only [Bool.and_eq_true, Bool.or_eq_true, decide_eq_true_eq, Bool.not_eq_true',
      Bool.or_eq_false_iff]
    exact ⟨hother, hgen, hskip⟩

theorem listed_collectReferences (a : Atlas) (name : String) (d : Definition)
    (internal : Bool) :
    Listed (fun p o => a.OccursAt name d internal p o ∧ o.valid = true ∧
        ∀ q e, q < p → a.OccursAt name d internal q e → e.valid = true →
          e.location ≠ o.location)
      (a.collectReferences name d internal) := by
  have hvalid := (listed_allOccurrences a name d internal).filter Occurrence.valid
  refine (hvalid.distinctBy Occurrence.location).congr fun p o => ?_
  constructor
  · rintro ⟨⟨hat, hv⟩, hfirst⟩
    exact ⟨hat, hv, fun q e hq he hev => hfirst q e hq ⟨he, hev⟩⟩
  · rintro ⟨hat, hv, hfirst⟩
    exact ⟨⟨hat, hv⟩, fun q e hq he => hfirst q e hq he.1 he.2⟩

/-- All occurrences are listed by file and then in source order, and the references
are those among them that count and have no earlier one that counts at their
location.  So each reference counts, no two share a location, and no location of an
occurrence that counts is missed, whatever else stands there.  What counts is what
is not discounted. -/
theorem collectReferences_lists_first_valid (a : Atlas) (name : String) (d : Definition)
    (internal : Bool) :
    Listed (a.OccursAt name d internal) (a.allOccurrences name d internal) ∧
    Listed (fun p o => a.OccursAt name d internal p o ∧ o.valid = true ∧
        ∀ q e, q < p → a.OccursAt name d internal q e → e.valid = true →
          e.location ≠ o.location)
      (a.collectReferences name d internal) ∧
    (a.collectReferences name d internal).Sublist (a.allOccurrences name d internal) ∧
    (∀ o ∈ a.collectReferences name d internal, o.valid = true) ∧
    (a.collectReferences name d internal).Pairwise (fun o e => o.location ≠ e.location) ∧
    (∀ o ∈ a.allOccurrences name d internal, o.valid = true →
      ∃ r ∈ a.collectReferences name d internal, r.location = o.location) ∧
    ∀ path n, (a.judged d path n).valid = false ↔
      n.handle = d.handle ∨ n.role = .exportSpecifier ∨ n.role = .variableName true ∨
        ((∃ default, n.role = .importSpecifier default) ∧ a.symbolKind d ≠ .plainClass ∧
          a.symbolKind d ≠ .interface ∧ (a.symbolKind d).isComponent = false) := by
  have hsub : (a.collectReferences name d internal).Sublist
      ((a.allOccurrences name d internal).filter Occurrence.valid) := distinctBy_sublist _ _
  refine ⟨listed_allOccurrences a name d internal, listed_collectReferences a name d internal,
    hsub.trans List.filter_sublist, ?_, pairwise_distinctBy _ _, ?_, ?_⟩
  · intro o ho
    exact (List.mem_filter.mp (hsub.subset ho)).2
  · intro o ho hvalid
    exact exists_mem_distinctBy _ (List.mem_filter.mpr ⟨ho, hvalid⟩)
  · intro path n
    exact judge_eq_false_iff

/-! ## Leaving out the defining file -/

theorem allOccurrences_external (a : Atlas) (name : String) (d : Definition) :
    a.allOccurrences name d false =
      (a.allOccurrences name d true).filter fun o => o.location.file ≠ d.file := by
  have hall := (listed_allOccurrences a name d true).filter fun o => o.location.file ≠ d.file
  refine (listed_allOccurrences a name d false).unique (hall.congr fun p o => ?_)
  constructor
  · rintro ⟨⟨f, n, hf, hgen, hskip, -, hn, rfl⟩, hother⟩
    exact ⟨f, n, hf, hgen, hskip, Or.inr (of_decide_eq_true hother), hn, rfl⟩
  · rintro ⟨f, n, hf, hgen, hskip, hother, hn, rfl⟩
    have hne : f.path ≠ d.file := hother.resolve_left Bool.false_ne_true
    exact ⟨⟨f, n, hf, hgen, hskip, Or.inl rfl, hn, rfl⟩, decide_eq_true hne⟩

theorem collectReferences_external (a : Atlas) (name : String) (d : Definition) :
    a.collectReferences name d false =
      (a.collectReferences name d true).filter fun o => o.location.file ≠ d.file := by
  have hfile (o e : Occurrence) (h : o.location = e.location) :
      decide (o.location.file ≠ d.file) = decide (e.location.file ≠ d.file) := by rw [h]
  rw [collectReferences, collectReferences, filter_distinctBy _ hfile, allOccurrences_external,
    List.filter_filter, List.filter_filter]
  exact congrArg _ (List.filter_congr fun o _ => Bool.and_comm _ _)

theorem isUnused_of_findDefinition {name : String} (h : a.findDefinition name = .ok d) :
    a.isUnused name = .ok (a.isUnreferenced name d) := by
  rw [isUnused, h]

theorem references_of_findDefinition {name : String} (h : a.findDefinition name = .ok d)
    (internal : Bool) : ∃ report, a.findReferences name internal = .ok report ∧
      report.references = a.collectReferences name d internal := by
  rw [findReferences, h]
  exact ⟨_, rfl, rfl⟩

theorem isUnreferenced_iff_internal {name : String} :
    a.isUnreferenced name d = true ↔
      ∀ o ∈ a.collectReferences name d true, o.location.file = d.file := by
  rw [isUnreferenced, collectReferences_external, List.isEmpty_iff, List.filter_eq_nil_iff]
  simp

/-- Without the defining file there are just the references that lie elsewhere.  A
symbol is unused if and only if all its references lie in the file of its
definition. -/
theorem collectReferences_elsewhere_and_isUnused (a : Atlas) (name : String) (d : Definition) :
    a.collectReferences name d false =
      ((a.collectReferences name d true).filter fun o => o.location.file ≠ d.file) ∧
    (a.findDefinition name = .ok d →
      ∃ report, a.findReferences name true = .ok report ∧
        (a.isUnused name = .ok true ↔
          ∀ o ∈ report.references, o.location.file = d.file)) := by
  refine ⟨collectReferences_external a name d, fun h => ?_⟩
  obtain ⟨report, hok, hrefs⟩ := references_of_findDefinition h true
  refine ⟨report, hok, ?_⟩
  rw [isUnused_of_findDefinition h, hrefs, Except.ok.injEq]
  exact isUnreferenced_iff_internal

end Atlas

def shapeClass : Declaration :=
  { name := "Shape", shape := .classDecl {}, container := .module, file := "shape.ts",
    position := none, exported := true, handle := 0 }

/-- A class that its own file uses, and a file that is listed twice and both exports
and uses the class at one location. -/
def repeatedTables : Tables :=
  { files := [⟨"shape.ts", false⟩, ⟨"main.ts", false⟩, ⟨"main.ts", false⟩]
    declarations := [("shape.ts", [shapeClass])]
    occurrences :=
      [("shape.ts", "Shape", ⟨⟨1, 1⟩, .declarationName, 0⟩),
       ("shape.ts", "Shape", ⟨⟨4, 3⟩, .newTarget, 1⟩),
       ("main.ts", "Shape", ⟨⟨2, 1⟩, .exportSpecifier, 2⟩),
       ("main.ts", "Shape", ⟨⟨2, 1⟩, .identifier, 3⟩)]
    frames := []
    typeTexts := []
    exportTargets := [] }

def repeatedAtlas : Atlas := .ofSettings repeatedTables.snapshot {}

theorem isUnused_shape_iff_internal :
    repeatedAtlas.findDefinition "Shape" = .ok (.declaration shapeClass) ∧
      ((repeatedAtlas.collectReferences "Shape" (.declaration shapeClass) true).map
        Occurrence.location = [⟨"shape.ts", 4, 3⟩, ⟨"main.ts", 2, 1⟩]) ∧
      ∃ report, repeatedAtlas.findReferences "Shape" true = .ok report ∧
        (repeatedAtlas.isUnused "Shape" = .ok true ↔
          ∀ o ∈ report.references, o.location.file = shapeClass.file) := by
  have hfound : repeatedAtlas.findDefinition? "Shape" = some (.declaration shapeClass) := by
    decide +kernel
  have hok := Atlas.findDefinition_eq_ok_iff.mpr hfound
  exact ⟨hok, by decide +kernel,
    (Atlas.collectReferences_elsewhere_and_isUnused repeatedAtlas "Shape" _).2 hok⟩

end SymbolAtlas
