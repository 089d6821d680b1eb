/-
What a default export of a name refers to.

An export refers to the first declaration of the name in its own file and, if there is none,
to an exported declaration of another file.  The search for that one asks each file for its
first declaration of the name and goes on to the next file if that is not exported.  So a
file that declares the name for itself and exports another declaration of it, `Hides`, is
passed over, and the export refers to a later file or to nothing.
`exportTarget_eq_some_iff` says what the search returns, and `exportTarget_first_exported_iff`
for which exports that is the first exported declaration of the program.
-/
import SymbolAtlas.Proofs.Lookup.Precedence

namespace SymbolAtlas

/-- A declaration at the top of a file that a default export of the name can refer to. -/
def Declaration.StandsFor (name : String) (d : Declaration) : Prop :=
  d.name = name ∧ d.isModuleScope = true ∧ d.isDefaultExport = false

/-- One that a default export in another file can refer to. -/
def Declaration.Offers (name : String) (d : Declaration) : Prop :=
  d.StandsFor name ∧ d.exported = true

instance (name : String) : DecidablePred (Declaration.StandsFor name) := fun d =>
  inferInstanceAs (Decidable (d.name = name ∧ d.isModuleScope = true ∧ d.isDefaultExport = false))

instance (name : String) : DecidablePred (Declaration.Offers name) := fun d =>
  inferInstanceAs (Decidable (d.StandsFor name ∧ d.exported = true))

namespace Workspace

variable {w : Workspace} {path name : String} {e x : Declaration}

/-- All declarations, by file and then in source order. -/
def declarationsByFile (w : Workspace) : List Declaration :=
  w.files.flatMap fun f => w.declarationsIn f.path

/-- What an export in the file should refer to: the first declaration of the name in the
file, or without one the first exported declaration of the name in all files. -/
def Intends (w : Workspace) (path name : String) (x : Declaration) : Prop :=
  FirstOf (Declaration.StandsFor name) (w.declarationsIn path) x ∨
    ((∀ d ∈ w.declarationsIn path, ¬ d.StandsFor name) ∧
      FirstOf (Declaration.Offers name) w.declarationsByFile x)

/-- The first file that exports a declaration of the name has one before it that is not
exported. -/
def Hides (w : Workspace) (name : String) : Prop :=
  ∃ f x, FirstOf (fun f => ∃ d ∈ w.declarationsIn f.path, d.Offers name) w.files f ∧
    FirstOf (Declaration.StandsFor name) (w.declarationsIn f.path) x ∧ x.exported = false

/-- The first declaration of the name in a file is exported. -/
def Opens (w : Workspace) (name : String) (f : SourceFile) : Prop :=
  ∃ x, FirstOf (Declaration.StandsFor name) (w.declarationsIn f.path) x ∧ x.exported = true

/-! ## What the search returns -/

theorem exportable?_eq_some_iff :
    w.exportable? path name = some x ↔
      FirstOf (Declaration.StandsFor name) (w.declarationsIn path) x := by
  rw [exportable?, find?_eq_some_iff_firstOf]
  refine firstOf_congr fun d => ?_
  simp only [Bool.and_eq_true, decide_eq_true_eq, Bool.not_eq_true', and_assoc]
  rfl

theorem exportable?_eq_none_iff :
    w.exportable? path name = none ↔ ∀ d ∈ w.declarationsIn path, ¬ d.StandsFor name := by
  rw [Option.eq_none_iff_forall_ne_some]
  simp only [ne_eq, exportable?_eq_some_iff]
  rw [← not_exists, exists_firstOf_iff]
  simp only [not_exists, not_and]

theorem exportedDeclaration?_eq_some_iff :
    w.exportedDeclaration? name = some x ↔
      ∃ f, FirstOf (w.Opens name) w.files f ∧
        FirstOf (Declaration.StandsFor name) (w.declarationsIn f.path) x := by
  have hopens (f : SourceFile) :
      (w.exportable? f.path name).any Declaration.exported = true ↔ w.Opens name f := by
    rw [Option.any_eq_true]
    simp only [exportable?_eq_some_iff]
    rfl
  rw [exportedDeclaration?, List.find?_filterMap, Option.bind_eq_some_iff]
  simp only [find?_eq_some_iff_firstOf, exportable?_eq_some_iff, firstOf_congr hopens]

/-- The first declaration in the file of the export, or else that of the first file whose
first declaration is exported. -/
theorem exportTarget_eq_some_iff {wrapper : Option String}
    (he : e.shape = .defaultExport (.identifier name wrapper)) :
    w.exportTarget e = some x ↔
      FirstOf (Declaration.StandsFor name) (w.declarationsIn e.file) x ∨
        ((∀ d ∈ w.declarationsIn e.file, ¬ d.StandsFor name) ∧
          ∃ f, FirstOf (w.Opens name) w.files f ∧
            FirstOf (Declaration.StandsFor name) (w.declarationsIn f.path) x) := by
  have htarget : w.exportTarget e =
      (w.exportable? e.file name).or (w.exportedDeclaration? name) := by
    rw [exportTarget, he]
    rfl
  rw [htarget, Option.or_eq_some_iff, exportable?_eq_some_iff, exportable?_eq_none_iff,
    exportedDeclaration?_eq_some_iff]

/-! ## What it should return -/

theorem firstOf_declarationsByFile :
    FirstOf (Declaration.Offers name) w.declarationsByFile x ↔
      ∃ f, FirstOf (fun f => ∃ d ∈ w.declarationsIn f.path, d.Offers name) w.files f ∧
        FirstOf (Declaration.Offers name) (w.declarationsIn f.path) x :=
  firstOf_flatMap

theorem exists_offers_of_opens {f : SourceFile} (h : w.Opens name f) :
    ∃ d ∈ w.declarationsIn f.path, d.Offers name := by
  obtain ⟨x, hx, hexported⟩ := h
  exact ⟨x, hx.mem, hx.holds, hexported⟩

/-- In a file whose first declaration is exported it is the first that is. -/
theorem firstOf_offers_iff_of_opens {f : SourceFile} (h : w.Opens name f) :
    FirstOf (Declaration.Offers name) (w.declarationsIn f.path) x ↔
      FirstOf (Declaration.StandsFor name) (w.declarationsIn f.path) x := by
  obtain ⟨y, hy, hexported⟩ := h
  refine (firstOf_iff_of_imp (fun _ _ hd => And.left hd) fun z hz => ?_).symm
  rw [hz.unique hy]
  exact ⟨hy.holds, hexported⟩

theorem opens_of_not_hides (h : ¬ w.Hides name) {f : SourceFile}
    (hf : FirstOf (fun f => ∃ d ∈ w.declarationsIn f.path, d.Offers name) w.files f) :
    w.Opens name f := by
  obtain ⟨d, hd, hoffers⟩ := hf.holds
  obtain ⟨y, hy⟩ := exists_firstOf_iff.mpr ⟨d, hd, hoffers.1⟩
  exact ⟨y, hy, eq_true_of_ne_false fun e => h ⟨f, y, hf, hy, e⟩⟩

theorem firstOf_offers_iff_of_not_hides (h : ¬ w.Hides name) :
    FirstOf (Declaration.Offers name) w.declarationsByFile x ↔
      ∃ f, FirstOf (w.Opens name) w.files f ∧
        FirstOf (Declaration.StandsFor name) (w.declarationsIn f.path) x := by
  rw [firstOf_declarationsByFile]
  refine exists_congr fun f => ?_
  rw [firstOf_iff_of_imp (fun f _ => exists_offers_of_opens) fun f hf => opens_of_not_hides h hf]
  exact and_congr_right fun hf => firstOf_offers_iff_of_opens hf.holds

/-- A hidden declaration is not found: it is not the first of its file. -/
theorem not_firstOf_of_hides (h : w.Hides name)
    (hx : FirstOf (Declaration.Offers name) w.declarationsByFile x) (f : SourceFile) :
    ¬ FirstOf (Declaration.StandsFor name) (w.declarationsIn f.path) x := by
  intro hfirst
  obtain ⟨g, y, hg, hy, hlocal⟩ := h
  obtain ⟨g', hg', hxg⟩ := firstOf_declarationsByFile.mp hx
  obtain rfl := hg.unique hg'
  have hpath : f.path = g.path := (mem_declarationsIn_iff.mp hfirst.mem).2.symm.trans
    (mem_declarationsIn_iff.mp hxg.mem).2
  rw [hpath] at hfirst
  rw [hfirst.unique hy] at hxg
  exact Bool.false_ne_true (hlocal.symm.trans hxg.holds.2)

theorem exists_firstOf_of_hides (h : w.Hides name) :
    ∃ x, FirstOf (Declaration.Offers name) w.declarationsByFile x := by
  obtain ⟨f, -, hf, -⟩ := h
  obtain ⟨x, hx⟩ := exists_firstOf_iff.mpr hf.holds
  exact ⟨x, firstOf_declarationsByFile.mpr ⟨f, hf, hx⟩⟩

/-- A default export of a name refers to the first declaration of the name in its file, or
else to that of the first file whose first declaration of the name is exported.  That is the
first exported declaration of the name in all files, and nothing only if there is none, just
if the file of the export declares the name itself or the first file that exports one has no
other declaration of the name before it. -/
theorem exportTarget_first_exported_iff (w : Workspace) (e : Declaration) (name : String)
    (wrapper : Option String) (he : e.shape = .defaultExport (.identifier name wrapper)) :
    (∀ x, w.exportTarget e = some x ↔
      FirstOf (Declaration.StandsFor name) (w.declarationsIn e.file) x ∨
        ((∀ d ∈ w.declarationsIn e.file, ¬ d.StandsFor name) ∧
          ∃ f, FirstOf (w.Opens name) w.files f ∧
            FirstOf (Declaration.StandsFor name) (w.declarationsIn f.path) x)) ∧
    ((∀ x, w.exportTarget e = some x ↔ w.Intends e.file name x) ↔
      (∃ d ∈ w.declarationsIn e.file, d.StandsFor name) ∨ ¬ w.Hides name) := by
  refine ⟨fun x => exportTarget_eq_some_iff he, ?_⟩
  simp only [exportTarget_eq_some_iff he, Intends]
  constructor
  · intro hsame
    by_contra hneither
    obtain ⟨hnone, hshown⟩ := not_or.mp hneither
    have hown : ∀ d ∈ w.declarationsIn e.file, ¬ d.StandsFor name :=
      fun d hd hstands => hnone ⟨d, hd, hstands⟩
    have hhides : w.Hides name := not_not.mp hshown
    obtain ⟨x, hx⟩ := exists_firstOf_of_hides hhides
    rcases (hsame x).mpr (Or.inr ⟨hown, hx⟩) with hfirst | ⟨-, f, -, hfirst⟩
    · exact hown x hfirst.mem hfirst.holds
    · exact not_firstOf_of_hides hhides hx f hfirst
  · rintro (⟨d, hd, hstands⟩ | hshown) x
    · -- Where the file declares the name, other files are not asked.
      exact or_congr_right
        ⟨fun h => absurd hstands (h.1 d hd), fun h => absurd hstands (h.1 d hd)⟩
    · rw [firstOf_offers_iff_of_not_hides hshown]

end Workspace

/-- A file that exports by default what another declares twice, first for itself and then for
others. -/
def shapeSketches : List FileSketch :=
  [{ path := "src/index.ts", generated := false, items := [.defaultExport "Shape" none] },
   { path := "src/shape.ts", generated := false
     items := [.interface "Shape", .exportNext, .classDecl "Shape" []] }]

/-- The same with a third file that exports the name as well. -/
def oldShapeSketches : List FileSketch :=
  shapeSketches ++ [{ path := "src/old/shape.ts", generated := false
                      items := [.exportNext, .classDecl "Shape" []] }]

/-- The export is led past the file that it should refer to. -/
theorem exportTarget_of_hidden_shape :
    ∃ e ∈ (Workspace.ofSketches oldShapeSketches).declarations,
      e.shape = .defaultExport (.identifier "Shape" none) ∧
      (∃ x, (Workspace.ofSketches oldShapeSketches).exportTarget e = some x ∧
        x.file = "src/old/shape.ts") ∧
      ¬ ∀ x, (Workspace.ofSketches oldShapeSketches).exportTarget e = some x ↔
        (Workspace.ofSketches oldShapeSketches).Intends e.file "Shape" x := by
  let w := Workspace.ofSketches oldShapeSketches
  have hexport : ∃ e ∈ w.declarations, e.shape = .defaultExport (.identifier "Shape" none) ∧
      (w.exportTarget e).map Declaration.file = some "src/old/shape.ts" ∧
      ∀ d ∈ w.declarationsIn e.file, ¬ d.StandsFor "Shape" := by decide +kernel
  have hhidden : ∃ f ∈ w.files, ∃ x ∈ w.declarationsIn f.path,
      FirstOf (fun f => ∃ d ∈ w.declarationsIn f.path, d.Offers "Shape") w.files f ∧
        FirstOf (Declaration.StandsFor "Shape") (w.declarationsIn f.path) x ∧
        x.exported = false := by decide +kernel
  obtain ⟨e, he, hshape, hfile, hown⟩ := hexport
  obtain ⟨f, -, x, -, hhides⟩ := hhidden
  refine ⟨e, he, hshape, Option.map_eq_some_iff.mp hfile, fun hsame => ?_⟩
  rcases (Workspace.exportTarget_first_exported_iff w e "Shape" none hshape).2.mp hsame with
    ⟨d, hd, hstands⟩ | hshown
  · exact hown d hd hstands
  · exact hshown ⟨f, x, hhides⟩

theorem exportTarget_misses_shape :
    ∃ e ∈ (Workspace.ofSketches shapeSketches).declarations,
      e.shape = .defaultExport (.identifier "Shape" none) ∧
      (Workspace.ofSketches shapeSketches).exportTarget e = none ∧
      ∃ x, x.file = "src/shape.ts" ∧ x.exported = true ∧
        (Workspace.ofSketches shapeSketches).Intends e.file "Shape" x := by
  let w := Workspace.ofSketches shapeSketches
  have hmissed : ∃ e ∈ w.declarations, e.shape = .defaultExport (.identifier "Shape" none) ∧
      w.exportTarget e = none ∧ (∀ d ∈ w.declarationsIn e.file, ¬ d.StandsFor "Shape") ∧
      ∃ x ∈ w.declarationsByFile, x.file = "src/shape.ts" ∧ x.exported = true ∧
        FirstOf (Declaration.Offers "Shape") w.declarationsByFile x := by decide +kernel
  obtain ⟨e, he, hshape, hnone, hown, x, -, hfile, hexported, hfirst⟩ := hmissed
  exact ⟨e, he, hshape, hnone, x, hfile, hexported, Or.inr ⟨hown, hfirst⟩⟩

end SymbolAtlas
