/-
Names that only one symbol has.

A search for a definition goes through the files, follows default exports and falls
back on members, but whatever it returns is a symbol with the name it was asked for:
`symbol_of_findModuleDefinition?` and `symbol_of_findMember?` say so for its two
parts.  It returns something as soon as a file that is looked at has a symbol of that
name.  So a name that only one symbol has stands for that symbol, wherever the other
files are and whatever they export.
-/
import SymbolAtlas.Proofs.Lookup.LeftOut
import SymbolAtlas.Proofs.Source.Introduced
import SymbolAtlas.Proofs.Unused.Called

namespace SymbolAtlas

namespace Workspace

variable {w : Workspace}

theorem name_of_exportable? {path name : String} {d : Declaration}
    (h : w.exportable? path name = some d) : d.name = name := by
  have hd := List.find?_some h
  simp only [Bool.and_eq_true, decide_eq_true_eq] at hd
  exact hd.1.1

theorem name_of_exportTarget {e d : Declaration} {name : String} {wrapper : Option String}
    (he : e.shape = .defaultExport (.identifier name wrapper)) (h : w.exportTarget e = some d) :
    d.name = name := by
  unfold exportTarget at h
  rw [he] at h
  rcases Option.or_eq_some_iff.mp h with hown | ⟨-, hother⟩
  · exact name_of_exportable? hown
  · obtain ⟨f, -, hf⟩ := List.mem_filterMap.mp (List.mem_of_find?_eq_some hother)
    exact name_of_exportable? hf

end Workspace

namespace Atlas

variable {a : Atlas} {w : Workspace}

/-! ## What a search returns -/

theorem symbol_of_exported? (ha : a.source = w.snapshot) {name : String}
    {ds : List Declaration} {d : Declaration} (h : a.exported? name ds = some d) :
    .declaration d ∈ w.symbols ∧ d.name = name := by
  obtain ⟨e, -, hd⟩ := List.exists_of_findSome?_eq_some h
  split at hd
  · next target wrapper hshape =>
    split at hd
    · next htarget =>
      rw [ha] at hd
      obtain ⟨hmem, hplain⟩ := Workspace.of_exportTarget hd
      have hname := Workspace.name_of_exportTarget hshape hd
      exact ⟨Workspace.declaration_mem_symbols_iff.mpr
        ⟨hmem, Workspace.isNameless_of_isDefaultExport hplain⟩, hname.trans htarget⟩
    · cases hd
  · cases hd

theorem symbol_of_findModuleDefinition? (ha : a.source = w.snapshot) {name : String}
    {s : Definition} (h : a.findModuleDefinition? name = some s) :
    s ∈ w.symbols ∧ s.owner? = none ∧ s.name = name := by
  obtain ⟨d, hd, rfl⟩ := Option.map_eq_some_iff.mp h
  obtain ⟨f, -, hin⟩ := List.exists_of_findSome?_eq_some hd
  rcases Option.or_eq_some_iff.mp hin with hdecl | ⟨-, hexp⟩
  · obtain ⟨hmem, hname, hnamed⟩ := of_declared? hdecl
    have hsource := mem_moduleDeclarations hmem
    rw [ha] at hsource
    have hw := (Workspace.mem_declarationsIn_iff.mp hsource).1
    exact ⟨Workspace.declaration_mem_symbols_iff.mpr ⟨hw, hnamed⟩, rfl, hname⟩
  · obtain ⟨hmem, hname⟩ := symbol_of_exported? ha hexp
    exact ⟨hmem, rfl, hname⟩

theorem mem_workspace_of_mem_declarations (ha : a.source = w.snapshot) {d : Declaration}
    (h : d ∈ a.declarations) : d ∈ w.declarations := by
  obtain ⟨f, -, hd⟩ := mem_declarations_iff.mp h
  rw [ha] at hd
  exact (Workspace.mem_declarationsIn_iff.mp hd).1

theorem symbol_of_findMember? (ha : a.source = w.snapshot) {owner : Option String}
    {name : String} {s : Definition} (h : a.findMember? owner name = some s) :
    s ∈ w.symbols ∧ (∀ o, owner = some o → s.owner? = some o) ∧ s.name = name := by
  obtain ⟨o, ho, m, hm, rfl, hname, howner⟩ := of_findMember? h
  have hmem := Workspace.member_mem_symbols_iff.mpr
    ⟨mem_workspace_of_mem_declarations ha ho, hm⟩
  exact ⟨hmem, fun o' ho' => congrArg some (howner o' ho'), hname⟩

/-! ## When it returns something -/

theorem mem_declarations_of_looksAt (ha : a.source = w.snapshot) {d : Declaration}
    (hd : d ∈ w.declarations) (hlook : a.LooksAt d.file) : d ∈ a.declarations := by
  obtain ⟨f, hf, hpath⟩ := hlook
  refine mem_declarations_iff.mpr ⟨f, hf, ?_⟩
  rw [ha]
  exact Workspace.mem_declarationsIn_iff.mpr ⟨hd, hpath.symm⟩

theorem isSome_findModuleDefinition? (ha : a.source = w.snapshot) {d : Declaration}
    (hd : .declaration d ∈ w.symbols) (hscope : d.isModuleScope = true)
    (hlook : a.LooksAt d.file) : (a.findModuleDefinition? d.name).isSome = true := by
  obtain ⟨hmem, hnamed⟩ := Workspace.declaration_mem_symbols_iff.mp hd
  obtain ⟨f, hf, hpath⟩ := hlook
  have hdeclares : a.Declares f.path d.name := by
    refine ⟨d, List.mem_filter.mpr ⟨?_, hscope⟩, rfl, hnamed⟩
    rw [ha]
    exact Workspace.mem_declarationsIn_iff.mpr ⟨hmem, hpath.symm⟩
  obtain ⟨x, -, hx⟩ := definedIn?_of_declares hdeclares
  rw [findModuleDefinition?, Option.isSome_map, List.findSome?_isSome_iff]
  exact ⟨f, hf, by rw [hx]; rfl⟩

theorem isSome_findMember? (ha : a.source = w.snapshot) {o : Declaration} {m : Member}
    (hs : .member o m ∈ w.symbols) (hlook : a.LooksAt o.file) {owner : Option String}
    (howner : ∀ o', owner = some o' → o.name = o') :
    (a.findMember? owner m.name).isSome = true := by
  obtain ⟨ho, hm⟩ := Workspace.member_mem_symbols_iff.mp hs
  have hdecl := mem_declarations_of_looksAt ha ho hlook
  have hkept : (owner.all fun o' => o.name = o') = true := by
    cases owner with
    | none => rfl
    | some o' => exact decide_eq_true (howner o' rfl)
  rw [findMember?, List.findSome?_isSome_iff]
  refine ⟨o, List.mem_filter.mpr ⟨hdecl, hkept⟩, ?_⟩
  rw [memberNamed?, Option.isSome_map, List.find?_isSome]
  exact ⟨m, hm, decide_eq_true rfl⟩

/-! ## Sole symbols -/

/-- A plain name stands for the only declaration that has it. -/
theorem findDefinition?_of_sole_declaration (ha : a.source = w.snapshot) {d : Declaration}
    (hd : .declaration d ∈ w.symbols) (hscope : d.isModuleScope = true)
    (hlook : a.LooksAt d.file) (hdot : '.' ∉ d.name.toList)
    (hsole : ∀ t ∈ w.symbols, t.owner? = none → t.name = d.name → t = .declaration d) :
    a.findDefinition? d.name = some (.declaration d) := by
  obtain ⟨t, ht⟩ := Option.isSome_iff_exists.mp (isSome_findModuleDefinition? ha hd hscope hlook)
  obtain ⟨hmem, howner, hname⟩ := symbol_of_findModuleDefinition? ha ht
  rw [hsole t hmem howner hname] at ht
  rw [findDefinition?, Text.cutFirst?_singleton_eq_none_iff.mpr hdot]
  show (a.findModuleDefinition? d.name).or _ = _
  rw [ht]
  rfl

/-- A dotted name stands for the only member of that name among the classes of the
given name. -/
theorem findDefinition?_of_sole_member (ha : a.source = w.snapshot) {o : Declaration}
    {m : Member} (hs : .member o m ∈ w.symbols) (hlook : a.LooksAt o.file)
    (hdot : '.' ∉ o.name.toList)
    (hsole : ∀ t ∈ w.symbols, t.owner? = some o.name → t.name = m.name → t = .member o m) :
    a.findDefinition? (o.memberKey m) = some (.member o m) := by
  have hsome : (a.findMember? (some o.name) m.name).isSome = true :=
    isSome_findMember? ha hs hlook fun o' ho' => Option.some.inj ho'
  obtain ⟨t, ht⟩ := Option.isSome_iff_exists.mp hsome
  obtain ⟨hmem, howner, hname⟩ := symbol_of_findMember? ha ht
  rw [hsole t hmem (howner o.name rfl) hname] at ht
  rw [findDefinition?, Declaration.memberKey, toList_dotted, Text.cutFirst?_append hdot]
  show a.findMember? (some (String.ofList o.name.toList)) (String.ofList m.name.toList) = _
  rw [String.ofList_toList, String.ofList_toList]
  exact ht

/-- A plain name stands for the only symbol that has it, be it a declaration or a
member. -/
theorem findDefinition?_of_sole_name (ha : a.source = w.snapshot)
    (hmodule : ∀ d ∈ w.declarations, d.isModuleScope = true) {s : Definition}
    (hs : s ∈ w.symbols) (hlook : a.LooksAt s.file) (hdot : '.' ∉ s.name.toList)
    (hsole : ∀ t ∈ w.symbols, t.name = s.name → t = s) :
    a.findDefinition? s.name = some s := by
  cases s with
  | declaration d =>
    have hd := (Workspace.declaration_mem_symbols_iff.mp hs).1
    exact findDefinition?_of_sole_declaration ha hs (hmodule d hd) hlook hdot
      fun t ht _ hname => hsole t ht hname
  | member o m =>
    -- What the modules have under this name would be the member itself.
    have hnone : a.findModuleDefinition? m.name = none := by
      cases hfound : a.findModuleDefinition? m.name with
      | none => rfl
      | some t =>
        obtain ⟨hmem, howner, hname⟩ := symbol_of_findModuleDefinition? ha hfound
        rw [hsole t hmem hname] at howner
        cases howner
    have hsome : (a.findMember? none m.name).isSome = true :=
      isSome_findMember? ha hs hlook fun o' ho' => nomatch ho'
    obtain ⟨t, ht⟩ := Option.isSome_iff_exists.mp hsome
    obtain ⟨hmem, -, hname⟩ := symbol_of_findMember? ha ht
    rw [hsole t hmem hname] at ht
    have hplain : '.' ∉ m.name.toList := hdot
    show a.findDefinition? m.name = _
    rw [findDefinition?, Text.cutFirst?_singleton_eq_none_iff.mpr hplain]
    show (a.findModuleDefinition? m.name).or (a.findMember? none m.name) = _
    rw [hnone, ht]
    rfl

end Atlas
end SymbolAtlas
