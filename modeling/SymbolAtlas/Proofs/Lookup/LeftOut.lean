/-
Definitions in files that are left out.

Generated and skipped files are not searched for definitions, but a default export
of a name is followed wherever it leads.  `definedIn?_of_declares` and
`definedIn?_iff_of_not_declares` say what a file has for a name, and
`findDefinition_in_files_iff` says for which programs and names the definition
always lies in a file that is looked at.
-/
import SymbolAtlas.Proofs.Lookup.Origin

namespace SymbolAtlas

/-- The declaration that a default export of `name` refers to if its own file has
none: of the first declarations of that name in all files the first that is
exported. -/
def Workspace.exportedDeclaration? (w : Workspace) (name : String) : Option Declaration :=
  (w.files.filterMap fun f => w.exportable? f.path name).find? Declaration.exported

namespace Atlas

variable {a : Atlas} {w : Workspace} {path name : String}

/-- One of the files that are neither generated nor skipped. -/
def LooksAt (a : Atlas) (path : String) : Prop := ∃ f ∈ a.files, f.path = path

def Declares (a : Atlas) (path name : String) : Prop :=
  ∃ d ∈ a.moduleDeclarations path, d.name = name ∧ d.isNameless = false

def ExportsByDefault (a : Atlas) (path name : String) : Prop :=
  ∃ e ∈ a.moduleDeclarations path, ∃ wrapper,
    e.shape = .defaultExport (.identifier name wrapper)

/-- A file exports the name by default before any file declares it, and what it
exports stands in a file that is left out. -/
def ExportsLeftOut (a : Atlas) (w : Workspace) (name : String) : Prop :=
  '.' ∉ name.toList ∧ ∃ before f after x, a.files = before ++ f :: after ∧
    (∀ g ∈ f :: before, ¬ a.Declares g.path name) ∧ a.ExportsByDefault f.path name ∧
    w.exportedDeclaration? name = some x ∧ ¬ a.LooksAt x.file

/-! ## What a file has for a name -/

theorem exists_rank_of_named {d : Declaration} (h : d.isNameless = false) :
    ∃ rank ∈ ShapeRank.inOrder, d.shape.rank? = some rank := by
  unfold Declaration.isNameless at h
  cases hshape : d.shape with
  | classDecl shape => exact ⟨.classDecl, by decide, rfl⟩
  | function callable => exact ⟨.function, by decide, rfl⟩
  | «variable» initializer => exact ⟨.variable, by decide, rfl⟩
  | interface => exact ⟨.interface, by decide, rfl⟩
  | enum => exact ⟨.enum, by decide, rfl⟩
  | defaultExport target =>
    cases target with
    | callable callable => exact ⟨.function, by decide, rfl⟩
    | identifier target wrapper =>
      rw [hshape] at h
      cases h

theorem declared?_eq_none_iff :
    declared? name (a.moduleDeclarations path) = none ↔ ¬ a.Declares path name := by
  unfold declared?
  rw [List.findSome?_eq_none_iff]
  constructor
  · rintro hnone ⟨d, hd, hname, hnamed⟩
    obtain ⟨rank, hrank, hshape⟩ := exists_rank_of_named hnamed
    have hd' := List.find?_eq_none.mp (hnone rank hrank) d hd
    simp [hname, hnamed, hshape] at hd'
  · intro hnot rank _
    rw [List.find?_eq_none]
    intro d hd hmatch
    simp only [Bool.and_eq_true, decide_eq_true_eq, Bool.not_eq_true'] at hmatch
    exact hnot ⟨d, hd, hmatch.1.1, hmatch.1.2⟩

theorem definedIn?_of_declares (h : a.Declares path name) :
    ∃ x ∈ a.moduleDeclarations path, a.definedIn? name path = some x := by
  obtain ⟨x, hx⟩ := Option.ne_none_iff_exists'.mp fun e => declared?_eq_none_iff.mp e h
  refine ⟨x, (of_declared? hx).1, ?_⟩
  rw [definedIn?, hx]
  rfl

theorem file_of_mem_moduleDeclarations (ha : a.source = w.snapshot) {d : Declaration}
    (h : d ∈ a.moduleDeclarations path) : d.file = path := by
  have hd := mem_moduleDeclarations h
  rw [ha] at hd
  exact (Workspace.mem_declarationsIn_iff.mp hd).2

theorem exportTarget_of_not_declares (ha : a.source = w.snapshot) (h : ¬ a.Declares path name)
    {e : Declaration} (he : e ∈ a.moduleDeclarations path) {wrapper : Option String}
    (hshape : e.shape = .defaultExport (.identifier name wrapper)) :
    a.source.exportTarget e = w.exportedDeclaration? name := by
  -- A target in the export's own file would be a declaration of the name.
  have hnone : w.exportable? e.file name = none := by
    rw [file_of_mem_moduleDeclarations ha he]
    cases hx : w.exportable? path name with
    | none => rfl
    | some x =>
      have hmatch := List.find?_some hx
      simp only [Bool.and_eq_true, decide_eq_true_eq, Bool.not_eq_true'] at hmatch
      refine absurd ⟨x, List.mem_filter.mpr ⟨?_, hmatch.1.2⟩, hmatch.1.1,
        Workspace.isNameless_of_isDefaultExport hmatch.2⟩ h
      rw [ha]
      exact List.mem_of_find?_eq_some hx
  rw [ha]
  show w.exportTarget e = _
  rw [Workspace.exportTarget, hshape]
  show (w.exportable? e.file name).or _ = _
  rw [hnone]
  rfl

theorem exported?_iff_of_not_declares (ha : a.source = w.snapshot)
    (h : ¬ a.Declares path name) {x : Declaration} :
    a.exported? name (a.moduleDeclarations path) = some x ↔
      a.ExportsByDefault path name ∧ w.exportedDeclaration? name = some x := by
  have hfound {y : Declaration} (hy : a.exported? name (a.moduleDeclarations path) = some y) :
      a.ExportsByDefault path name ∧ w.exportedDeclaration? name = some y := by
    obtain ⟨e, he, hd⟩ := List.exists_of_findSome?_eq_some hy
    split at hd
    · next target wrapper hshape =>
      split at hd
      · next htarget =>
        subst htarget
        exact ⟨⟨e, he, wrapper, hshape⟩, exportTarget_of_not_declares ha h he hshape ▸ hd⟩
      · cases hd
    · cases hd
  refine ⟨hfound, ?_⟩
  rintro ⟨⟨e, he, wrapper, hshape⟩, hx⟩
  cases hy : a.exported? name (a.moduleDeclarations path) with
  | some y => exact (hfound hy).2.symm.trans hx
  | none =>
    have hnone := List.findSome?_eq_none_iff.mp hy e he
    simp only [hshape, if_true, exportTarget_of_not_declares ha h he hshape, hx] at hnone
    cases hnone

theorem definedIn?_iff_of_not_declares (ha : a.source = w.snapshot)
    (h : ¬ a.Declares path name) {x : Declaration} :
    a.definedIn? name path = some x ↔
      a.ExportsByDefault path name ∧ w.exportedDeclaration? name = some x := by
  rw [definedIn?, declared?_eq_none_iff.mpr h]
  exact exported?_iff_of_not_declares ha h

/-! ## Where the definition lies -/

theorem looksAt_of_mem_declarations (ha : a.source = w.snapshot) {d : Declaration}
    (h : d ∈ a.declarations) : a.LooksAt d.file := by
  obtain ⟨f, hf, hd⟩ := mem_declarations_iff.mp h
  rw [ha] at hd
  exact ⟨f, hf, (Workspace.mem_declarationsIn_iff.mp hd).2.symm⟩

theorem looksAt_of_findMember? (ha : a.source = w.snapshot) {owner : Option String}
    {d : Definition} (h : a.findMember? owner name = some d) : a.LooksAt d.file := by
  obtain ⟨o, ho, m, -, rfl, -⟩ := of_findMember? h
  exact looksAt_of_mem_declarations ha ho

/-- The search at the top of the modules stays in the files that are looked at
unless an export leads it out of them. -/
theorem looksAt_of_findModuleDefinition? (ha : a.source = w.snapshot)
    (hdot : '.' ∉ name.toList) (hin : ¬ a.ExportsLeftOut w name) {d : Definition}
    (h : a.findModuleDefinition? name = some d) : a.LooksAt d.file := by
  obtain ⟨x, hx, rfl⟩ := Option.map_eq_some_iff.mp h
  obtain ⟨before, f, after, hfiles, hdef, hnone⟩ := List.findSome?_eq_some_iff.mp hx
  have hf : f ∈ a.files := hfiles ▸ List.mem_append_right _ List.mem_cons_self
  by_cases hdecl : a.Declares f.path name
  · obtain ⟨y, hy, hfound⟩ := definedIn?_of_declares hdecl
    rw [hdef] at hfound
    cases hfound
    exact ⟨f, hf, (file_of_mem_moduleDeclarations ha hy).symm⟩
  · obtain ⟨hexp, htarget⟩ := (definedIn?_iff_of_not_declares ha hdecl).mp hdef
    by_contra hout
    refine hin ⟨hdot, before, f, after, x, hfiles, ?_, hexp, htarget, hout⟩
    intro g hg hdeclares
    rcases List.mem_cons.mp hg with rfl | hg
    · exact hdecl hdeclares
    · obtain ⟨y, -, hfound⟩ := definedIn?_of_declares hdeclares
      rw [hnone g hg] at hfound
      cases hfound

theorem findDefinition?_of_exportsLeftOut (ha : a.source = w.snapshot)
    (h : a.ExportsLeftOut w name) :
    ∃ x, a.findDefinition? name = some (.declaration x) ∧ ¬ a.LooksAt x.file := by
  obtain ⟨hdot, before, f, after, x, hfiles, hnot, hexp, htarget, hout⟩ := h
  have hf : a.definedIn? name f.path = some x :=
    (definedIn?_iff_of_not_declares ha (hnot f List.mem_cons_self)).mpr ⟨hexp, htarget⟩
  have hfirst : a.files.findSome? (fun g => a.definedIn? name g.path) = some x := by
    rw [hfiles, List.findSome?_append, List.findSome?_cons, hf]
    cases hbefore : before.findSome? fun g => a.definedIn? name g.path with
    | none => rfl
    | some y =>
      -- An earlier file can only export the name, too, and then the same declaration.
      obtain ⟨g, hg, hy⟩ := List.exists_of_findSome?_eq_some hbefore
      have hnotg := hnot g (List.mem_cons_of_mem f hg)
      have hy' := ((definedIn?_iff_of_not_declares ha hnotg).mp hy).2
      exact hy'.symm.trans htarget
  refine ⟨x, ?_, hout⟩
  rw [findDefinition?, Text.cutFirst?_singleton_eq_none_iff.mpr hdot]
  show (a.findModuleDefinition? name).or _ = _
  rw [findModuleDefinition?, hfirst]
  rfl

theorem looksAt_of_findDefinition? (ha : a.source = w.snapshot)
    (hin : ¬ a.ExportsLeftOut w name) {d : Definition} (h : a.findDefinition? name = some d) :
    a.LooksAt d.file := by
  unfold findDefinition? at h
  split at h
  · exact looksAt_of_findMember? ha h
  · next hcut =>
    have hdot := Text.cutFirst?_singleton_eq_none_iff.mp hcut
    rcases Option.or_eq_some_iff.mp h with hmodule | ⟨-, hmember⟩
    · exact looksAt_of_findModuleDefinition? ha hdot hin hmodule
    · exact looksAt_of_findMember? ha hmember

end Atlas

/-- The definition of a name lies in a file that is looked at, except when the name
is exported by default before any file declares it and the declaration behind that
export stands in a generated or skipped file. -/
theorem findDefinition_in_files_iff (sketches : List FileSketch) (settings : Settings)
    (name : String) :
    (∀ d, (Atlas.ofSketches sketches settings).findDefinition name = .ok d →
      ∃ f ∈ (Atlas.ofSketches sketches settings).files, f.path = d.file) ↔
    ¬ (Atlas.ofSketches sketches settings).ExportsLeftOut (Workspace.ofSketches sketches)
      name := by
  have ha : (Atlas.ofSketches sketches settings).source =
      (Workspace.ofSketches sketches).snapshot := rfl
  constructor
  · intro hall hleft
    obtain ⟨x, hx, hout⟩ := Atlas.findDefinition?_of_exportsLeftOut ha hleft
    exact hout (hall _ (Atlas.findDefinition_eq_ok_iff.mpr hx))
  · intro hin d hd
    exact Atlas.looksAt_of_findDefinition? ha hin (Atlas.findDefinition_eq_ok_iff.mp hd)

/-- A file that exports by default what a generated file declares. -/
def clientSketches : List FileSketch :=
  [{ path := "src/index.ts", generated := false, items := [.defaultExport "Client" none] },
   { path := "src/gen/client.ts", generated := true
     items := [.exportNext, .classDecl "Client" []] }]

theorem findDefinition_client_left_out :
    ∃ d, (Atlas.ofSketches clientSketches {}).findDefinition "Client" = .ok d ∧
      d.file = "src/gen/client.ts" ∧
      ¬ ∃ f ∈ (Atlas.ofSketches clientSketches {}).files, f.path = d.file := by
  have hfound : ((Atlas.ofSketches clientSketches {}).findDefinition? "Client").map
      Definition.file = some "src/gen/client.ts" := by decide +kernel
  obtain ⟨d, hd, hfile⟩ := Option.map_eq_some_iff.mp hfound
  refine ⟨d, Atlas.findDefinition_eq_ok_iff.mpr hd, hfile, ?_⟩
  rw [hfile]
  decide +kernel

end SymbolAtlas
