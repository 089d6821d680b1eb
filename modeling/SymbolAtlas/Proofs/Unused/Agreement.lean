/-
The report on a file and the question for one name.

The report walks through the declarations of a file; the question searches the whole
program for what a name stands for, and may be asked by a name with the class in front.
If one symbol has the name, the walk checks that symbol, `checksAt_of_sole_name`, and the
search finds it.  Both then look up its own name, because what stands behind the last
dot of the question is that name.
-/
import SymbolAtlas.Proofs.Lookup.Sole
import SymbolAtlas.Proofs.Unused.Reported

namespace SymbolAtlas

/-- Static members and constructors are not checked. -/
def Definition.isCheckable : Definition → Bool
  | .declaration _ => true
  | .member _ m => !m.isStatic && m.kind ≠ .constructor

namespace Atlas

variable {a : Atlas} {w : Workspace}

/-! ## The question -/

theorem isUnused_iff_of_findDefinition? {name : String} {s : Definition}
    (h : a.findDefinition? name = some s) :
    a.isUnused name = .ok true ↔ ¬ a.UsedElsewhere s (calledName name) := by
  rw [isUnused_of_findDefinition (findDefinition_eq_ok_iff.mpr h), Except.ok.injEq,
    isUnreferenced_iff, lookupName_of_findDefinition? h]

/-! ## The walk -/

theorem mem_symbols_of_mem_symbolsOf {d : Declaration} {s : Definition}
    (h : s ∈ a.symbolsOf d) : s ∈ d.symbols := by
  rcases List.mem_append.mp h with hown | hmember
  · exact List.mem_append_left _ hown
  · refine List.mem_append_right _ ?_
    split at hmember
    · obtain ⟨m, hm, rfl⟩ := List.mem_map.mp hmember
      exact List.mem_map_of_mem (List.mem_filter.mp hm).1
    · cases hmember

theorem mem_symbolsOf_of_mem_symbols (hcheck : a.checkMembers = true) {d : Declaration}
    {s : Definition} (h : s ∈ d.symbols) (hcheckable : s.isCheckable = true) :
    s ∈ a.symbolsOf d := by
  rcases List.mem_append.mp h with hown | hmember
  · exact List.mem_append_left _ hown
  · obtain ⟨m, hm, rfl⟩ := List.mem_map.mp hmember
    refine List.mem_append_right _ ?_
    rw [if_pos hcheck]
    exact List.mem_map_of_mem (List.mem_filter.mpr ⟨hm, hcheckable⟩)

theorem file_of_mem_symbols {d : Declaration} {s : Definition} (h : s ∈ d.symbols) :
    s.file = d.file := by
  rcases Declaration.mem_symbols_iff.mp h with ⟨-, rfl⟩ | ⟨m, -, rfl⟩
  · rfl
  · rfl

theorem mem_symbols_of_meetsAt (ha : a.source = w.snapshot) {path : String} {p : Slot}
    {s : Definition} (h : a.MeetsAt path p s) : s ∈ w.symbols := by
  have hwalk := (listed_walk a path).mem_iff.mpr ⟨p, h⟩
  obtain ⟨d, hd, hs⟩ := List.mem_flatMap.mp hwalk
  have hsource := mem_moduleDeclarations hd
  rw [ha] at hsource
  have hw := (Workspace.mem_declarationsIn_iff.mp hsource).1
  exact List.mem_flatMap.mpr ⟨d, hw, mem_symbols_of_mem_symbolsOf hs⟩

theorem checksAt_of_sole_name (ha : a.source = w.snapshot)
    (hmodule : ∀ d ∈ w.declarations, d.isModuleScope = true) (hcheck : a.checkMembers = true)
    {s : Definition} (hs : s ∈ w.symbols) (hcheckable : s.isCheckable = true)
    (hsole : ∀ t ∈ w.symbols, t.name = s.name → t = s) : ∃ p, a.ChecksAt s.file p s := by
  obtain ⟨d, hd, hsd⟩ := List.mem_flatMap.mp hs
  have hin : d ∈ a.moduleDeclarations s.file := by
    refine List.mem_filter.mpr ⟨?_, hmodule d hd⟩
    rw [ha]
    exact Workspace.mem_declarationsIn_iff.mpr ⟨hd, (file_of_mem_symbols hsd).symm⟩
  have hwalk : s ∈ (a.moduleDeclarations s.file).flatMap a.symbolsOf :=
    List.mem_flatMap.mpr ⟨d, hin, mem_symbolsOf_of_mem_symbols hcheck hsd hcheckable⟩
  obtain ⟨p, hmeets⟩ := (listed_walk a s.file).mem_iff.mp hwalk
  -- What is checked under the name can only be the symbol itself.
  obtain ⟨q, t, ht, hname⟩ := exists_checksAt_of_meetsAt hmeets
  obtain rfl := hsole t (mem_symbols_of_meetsAt ha ht.1) hname
  exact ⟨q, ht⟩

/-! ## Both -/

theorem hasFile_of_mem_files {f : SourceFile} (h : f ∈ a.files) : a.source.hasFile f.path = true :=
  List.any_eq_true.mpr ⟨f, (List.mem_filter.mp h).1, decide_eq_true rfl⟩

theorem lookupName_own {s : Definition} (h : '.' ∉ s.name.toList) :
    s.lookupName s.name = s.name := by
  cases s with
  | declaration d => rfl
  | member o m => exact lookupName_of_plain h

end Atlas

/-- Where a name without a dot belongs to one symbol of the whole program, and that symbol
is checked, the report on its file lists it just when the answer to its name is that it
is unused, and just when the answer to its name with its class in front is. -/
theorem unusedIn_iff_isUnused_of_sole_name (sketches : List FileSketch) (settings : Settings)
    (s : Definition) (hcheck : settings.unused.effectiveCheckMembers = true)
    (hs : s ∈ (Workspace.ofSketches sketches).symbols)
    (hlook : ∃ f ∈ (Atlas.ofSketches sketches settings).files, f.path = s.file)
    (hdot : '.' ∉ s.name.toList) (hcheckable : s.isCheckable = true)
    (hsole : ∀ t ∈ (Workspace.ofSketches sketches).symbols, t.name = s.name → t = s) :
    ∃ rows, (Atlas.ofSketches sketches settings).unusedIn s.file = .ok rows ∧
      ((∃ r ∈ rows, r.name = s.name) ↔
        (Atlas.ofSketches sketches settings).isUnused s.name = .ok true) ∧
      ∀ owner, s.owner? = some owner → '.' ∉ owner.toList →
        ((∃ r ∈ rows, r.name = s.name) ↔
          (Atlas.ofSketches sketches settings).isUnused (owner ++ "." ++ s.name) = .ok true) := by
  let a := Atlas.ofSketches sketches settings
  have ha : a.source = (Workspace.ofSketches sketches).snapshot := rfl
  have hmodule : ∀ d ∈ (Workspace.ofSketches sketches).declarations, d.isModuleScope = true :=
    fun d hd => decide_eq_true (Workspace.container_ofSketches sketches d hd)
  obtain ⟨p, hp⟩ := Atlas.checksAt_of_sole_name ha hmodule hcheck hs hcheckable hsole
  have hreported := Atlas.reported_iff (Atlas.listed_report a s.file) hp
  rw [Atlas.lookupName_own hdot] at hreported
  have hfile : a.source.hasFile s.file = true := by
    obtain ⟨f, hf, hpath⟩ := hlook
    exact hpath ▸ Atlas.hasFile_of_mem_files hf
  -- It does not matter by which name the symbol is asked for.
  have hasked {asked : String} (hfound : a.findDefinition? asked = some s)
      (hcalled : calledName asked = s.name) :
      ¬ a.UsedElsewhere s s.name ↔ a.isUnused asked = .ok true := by
    rw [Atlas.isUnused_iff_of_findDefinition? hfound, hcalled]
  refine ⟨_, if_pos hfile, hreported.trans (hasked ?_ ?_), ?_⟩
  · exact Atlas.findDefinition?_of_sole_name ha hmodule hs hlook hdot hsole
  · exact calledName_of_plain hdot
  · intro owner howner hplain
    refine hreported.trans (hasked ?_ (calledName_dotted owner hdot))
    cases s with
    | declaration d => cases howner
    | member o m =>
      obtain rfl : o.name = owner := Option.some.inj howner
      exact Atlas.findDefinition?_of_sole_member ha hs hlook hplain
        fun t ht _ hname => hsole t ht hname

/-- A store of which another file uses one method, and a file that exports the store by
default. -/
def ledgerSketches : List FileSketch :=
  [{ path := "index.ts", generated := false, items := [.defaultExport "Ledger" none] },
   { path := "ledger.ts", generated := false
     items := [.classDecl "Ledger" [.method "post" [], .method "audit" [.callThis "post"]]] },
   { path := "app.ts", generated := false
     items := [.function "close" [.construct "Ledger", .callMember "ledger" "post"]] }]

theorem unusedIn_iff_isUnused_of_ledger :
    (Workspace.ofSketches ledgerSketches).symbols.map Definition.name =
      ["Ledger", "post", "audit", "close"] ∧
    (Atlas.ofSketches ledgerSketches {}).isUnused "Ledger.post" = .ok false ∧
    (Atlas.ofSketches ledgerSketches {}).isUnused "Ledger.audit" = .ok true ∧
    ∀ s ∈ (Workspace.ofSketches ledgerSketches).symbols,
      ∃ rows, (Atlas.ofSketches ledgerSketches {}).unusedIn s.file = .ok rows ∧
        ((∃ r ∈ rows, r.name = s.name) ↔
          (Atlas.ofSketches ledgerSketches {}).isUnused s.name = .ok true) ∧
        ∀ owner, s.owner? = some owner → '.' ∉ owner.toList →
          ((∃ r ∈ rows, r.name = s.name) ↔
            (Atlas.ofSketches ledgerSketches {}).isUnused (owner ++ "." ++ s.name) =
              .ok true) := by
  refine ⟨by decide +kernel, by decide +kernel, by decide +kernel, ?_⟩
  have hlook : ∀ s ∈ (Workspace.ofSketches ledgerSketches).symbols,
      ∃ f ∈ (Atlas.ofSketches ledgerSketches {}).files, f.path = s.file := by decide +kernel
  have hplain : ∀ s ∈ (Workspace.ofSketches ledgerSketches).symbols,
      '.' ∉ s.name.toList ∧ s.isCheckable = true := by decide +kernel
  have hsole : ∀ s ∈ (Workspace.ofSketches ledgerSketches).symbols,
      ∀ t ∈ (Workspace.ofSketches ledgerSketches).symbols, t.name = s.name → t = s := by
    decide +kernel
  intro s hs
  exact unusedIn_iff_isUnused_of_sole_name ledgerSketches {} s rfl hs (hlook s hs)
    (hplain s hs).1 (hplain s hs).2 (hsole s hs)

end SymbolAtlas
