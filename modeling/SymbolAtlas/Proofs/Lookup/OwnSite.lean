/-
The definition among the occurrences of its name.

Only the handle tells the site of a definition from the other occurrences of the
name, so three things have to meet: the search has to return a symbol, the name that
is looked up has to be the symbol's own, and no other occurrence may have its handle.
`findDefinition?_symbol` gives the first two for names with at most one dot, where the
first and the last dot are the same, and the third is the numbering of the mentions.
Since each path stands in the file list once, the one mention is listed once:
`allOccurrences_hold_definition_once`.
-/
import SymbolAtlas.Proofs.Lookup.Counted
import SymbolAtlas.Proofs.Lookup.Sole

namespace SymbolAtlas

/-! ## Which occurrence is the definition -/

theorem Role.judge_ne_definition (importsCount : Bool) (role : Role) :
    (role.judge importsCount).1 ≠ .definition := by
  cases role <;> simp [Role.judge]

theorem NameOccurrence.judge_eq_definition_iff {o : NameOccurrence} {definition : Handle}
    {importsCount : Bool} :
    (o.judge definition importsCount).1 = .definition ↔ o.handle = definition := by
  unfold NameOccurrence.judge
  split
  · next hown => simp [hown]
  · next hother => simp [hother, Role.judge_ne_definition]

/-! ## Files and mentions -/

/-- Files are told apart by their paths, so what only one path has is what its file
has. -/
theorem flatMap_of_path {β : Type} {files : List SourceFile}
    (hnodup : (files.map SourceFile.path).Nodup) {f : SourceFile} (hf : f ∈ files)
    {g : SourceFile → List β} (hother : ∀ e ∈ files, e.path ≠ f.path → g e = []) :
    files.flatMap g = g f := by
  obtain ⟨before, after, rfl⟩ := List.append_of_mem hf
  rw [List.map_append, List.map_cons, List.nodup_append, List.nodup_cons] at hnodup
  obtain ⟨-, ⟨hafter, -⟩, hbefore⟩ := hnodup
  have hfront : before.flatMap g = [] := by
    rw [List.flatMap_eq_nil_iff]
    intro e he
    refine hother e (List.mem_append_left _ he) ?_
    exact hbefore e.path (List.mem_map_of_mem he) f.path List.mem_cons_self
  have hback : after.flatMap g = [] := by
    rw [List.flatMap_eq_nil_iff]
    intro e he
    refine hother e (List.mem_append_right _ (List.mem_cons_of_mem f he)) ?_
    exact fun hpath => hafter (hpath ▸ List.mem_map_of_mem he)
  rw [List.flatMap_append, List.flatMap_cons, hfront, hback, List.nil_append, List.append_nil]

/-- If a handle has one mention, the occurrences of a name in a file have it if that
mention is one of them. -/
theorem Workspace.occurrencesOf_filter_handle {w : Workspace} {h : Handle} {m : Mention}
    (hone : (w.mentions.filter fun n => n.occurrence.handle = h) = [m]) (path word : String) :
    ((w.occurrencesOf path word).filter fun o => o.handle = h) =
      if m.file = path ∧ m.name = word then [m.occurrence] else [] := by
  have hswap : (w.occurrencesOf path word).filter (fun o => o.handle = h) =
      (((w.mentions.filter fun n => n.occurrence.handle = h).filter
        fun n => n.file = path ∧ n.name = word)).map Mention.occurrence := by
    rw [occurrencesOf, List.filter_map, List.filter_filter, List.filter_filter]
    exact congrArg _ (List.filter_congr fun n _ => Bool.and_comm _ _)
  rw [hswap, hone]
  by_cases hsite : m.file = path ∧ m.name = word
  · simp [hsite]
  · rw [if_neg hsite, List.map_eq_nil_iff, List.filter_eq_nil_iff]
    simpa using hsite

theorem Mention.Introduces.location_eq {m : Mention} {s : Definition} (h : m.Introduces s)
    (hplaced : s.location?.isSome = true) :
    m.occurrence.position.inFile s.file = s.location := by
  have hlocation : s.location? = s.position?.map (·.inFile s.file) := by
    cases s <;> rfl
  rw [Definition.location, hlocation]
  rcases h.position_eq with hat | ⟨-, hnone⟩
  · rw [hat, Option.map_some, Option.getD_some]
  · rw [hlocation, hnone] at hplaced
    cases hplaced

namespace Atlas

variable {a : Atlas} {w : Workspace} {name : String} {d : Definition}

/-! ## The name that is looked up -/

/-- What a name with at most one dot stands for has the name under which its
references are looked up. -/
theorem findDefinition?_symbol (ha : a.source = w.snapshot) (hdots : name.toList.count '.' ≤ 1)
    (h : a.findDefinition? name = some d) : d ∈ w.symbols ∧ d.lookupName name = d.name := by
  have hlookup := lookupName_of_findDefinition? h
  unfold findDefinition? at h
  split at h
  · next owner member hcut =>
    obtain ⟨hmem, -, hname⟩ := symbol_of_findMember? ha h
    have hsplit := Text.append_of_cutFirst? hcut
    -- The first dot is the only one, so it is the last one, too.
    have hplain : '.' ∉ member := by
      rw [hsplit, List.count_append, List.count_append, List.count_singleton_self] at hdots
      exact List.count_eq_zero.mp (by omega)
    have hlast : Text.cutLast? '.' name.toList = some (owner, member) := by
      rw [hsplit, List.append_assoc]
      exact Text.cutLast?_append owner hplain
    refine ⟨hmem, ?_⟩
    rw [hlookup, calledName, Naming.Rules.lastSegment, hlast, hname]
  · next hcut =>
    have hplain := Text.cutFirst?_singleton_eq_none_iff.mp hcut
    rw [hlookup, calledName_of_plain hplain]
    rcases Option.or_eq_some_iff.mp h with hmodule | ⟨-, hmember⟩
    · obtain ⟨hmem, -, hname⟩ := symbol_of_findModuleDefinition? ha hmodule
      exact ⟨hmem, hname.symm⟩
    · obtain ⟨hmem, -, hname⟩ := symbol_of_findMember? ha hmember
      exact ⟨hmem, hname.symm⟩

/-! ## The listed occurrences -/

theorem occurrencesIn_filter_definition (path : String) :
    ((a.occurrencesIn name d path).filter fun o => o.kind = .definition) =
      ((a.source.occurrences path (d.lookupName name)).filter
        fun o => o.handle = d.handle).map (a.judged d path) := by
  have hmap : a.occurrencesIn name d path =
      (a.source.occurrences path (d.lookupName name)).map (a.judged d path) := rfl
  rw [hmap, List.filter_map]
  refine congrArg _ (List.filter_congr fun o _ => ?_)
  exact decide_eq_decide.mpr NameOccurrence.judge_eq_definition_iff

theorem allOccurrences_filter_definition (ha : a.source = w.snapshot)
    (hnodup : (w.files.map SourceFile.path).Nodup) {m : Mention}
    (hone : (w.mentions.filter fun n => n.occurrence.handle = d.handle) = [m])
    (hname : m.name = d.lookupName name) {f : SourceFile} (hf : f ∈ a.files)
    (hfile : m.file = f.path) :
    ((a.allOccurrences name d true).filter fun o => o.kind = .definition) =
      [a.judged d f.path m.occurrence] := by
  have hin (e : SourceFile) :
      ((a.occurrencesIn name d e.path).filter fun o => o.kind = .definition) =
        if m.file = e.path then [a.judged d e.path m.occurrence] else [] := by
    rw [occurrencesIn_filter_definition, ha]
    show List.map _ (List.filter _ (w.occurrencesOf e.path (d.lookupName name))) = _
    rw [Workspace.occurrencesOf_filter_handle hone]
    by_cases hpath : m.file = e.path
    · rw [if_pos ⟨hpath, hname⟩, if_pos hpath]
      rfl
    · rw [if_neg fun h => hpath h.1, if_neg hpath]
      rfl
  have hpaths : (a.files.map SourceFile.path).Nodup := by
    unfold files
    rw [ha]
    exact hnodup.sublist (List.filter_sublist.map SourceFile.path)
  have hall : a.allOccurrences name d true =
      a.files.flatMap fun e => a.occurrencesIn name d e.path := by
    unfold allOccurrences
    simp only [Bool.true_or, List.filter_true]
  rw [hall, List.filter_flatMap, flatMap_of_path hpaths hf, hin, if_pos hfile]
  intro e _ hpath
  rw [hin, if_neg fun h => hpath (h.symm.trans hfile)]

theorem valid_eq_false_of_definition {internal : Bool} {o : Occurrence}
    (ho : o ∈ a.allOccurrences name d internal) (hkind : o.kind = .definition) :
    o.valid = false := by
  obtain ⟨f, -, hin⟩ := List.mem_flatMap.mp ho
  obtain ⟨n, -, rfl⟩ := List.mem_map.mp hin
  have hown : n.handle = d.handle := NameOccurrence.judge_eq_definition_iff.mp hkind
  exact judge_eq_false_iff.mpr (Or.inl hown)

theorem kind_ne_definition_of_reference {internal : Bool} {o : Occurrence}
    (ho : o ∈ a.collectReferences name d internal) : o.kind ≠ .definition := by
  obtain ⟨hall, hvalid⟩ := List.mem_filter.mp ((distinctBy_sublist _ _).subset ho)
  intro hkind
  rw [valid_eq_false_of_definition hall hkind] at hvalid
  cases hvalid

end Atlas

/-- What a name with at most one dot stands for is listed as the definition once
among the occurrences of its name, if its file is looked at: as an occurrence that
does not count, in the file of the definition, and at its place if it has one.  So a
definition is not missed and is no reference to itself. -/
theorem allOccurrences_hold_definition_once (sketches : List FileSketch) (settings : Settings)
    (name : String) (d : Definition) (hdots : name.toList.count '.' ≤ 1)
    (hd : (Atlas.ofSketches sketches settings).findDefinition name = .ok d)
    (hlook : (Atlas.ofSketches sketches settings).LooksAt d.file) :
    (∃ o, (((Atlas.ofSketches sketches settings).allOccurrences name d true).filter
        fun o => o.kind = .definition) = [o] ∧
      o.valid = false ∧ o.location.file = d.file ∧
      (d.location?.isSome = true → o.location = d.location)) ∧
    ∀ internal, ∀ r ∈ (Atlas.ofSketches sketches settings).collectReferences name d internal,
      r.kind ≠ .definition := by
  have ha : (Atlas.ofSketches sketches settings).source =
      (Workspace.ofSketches sketches).snapshot := rfl
  obtain ⟨hsymbol, hlookup⟩ :=
    Atlas.findDefinition?_symbol ha hdots (Atlas.findDefinition_eq_ok_iff.mp hd)
  obtain ⟨m, hm, hintro⟩ := Workspace.introduced_ofSketches sketches d hsymbol
  have hone := (Workspace.sound_ofSketches sketches).numbered.filter_handle_eq hm
  rw [hintro.handle_eq] at hone
  obtain ⟨f, hf, hpath⟩ := hlook
  have hlisted := Atlas.allOccurrences_filter_definition ha
    (Workspace.nodup_paths_ofSketches sketches) hone (hintro.name_eq.trans hlookup.symm) hf
    (hintro.file_eq.trans hpath.symm)
  refine ⟨⟨_, hlisted, ?_, hpath, ?_⟩, fun _ _ => Atlas.kind_ne_definition_of_reference⟩
  · exact Atlas.judge_eq_false_iff.mpr (Or.inl hintro.handle_eq)
  · intro hplaced
    rw [← hintro.location_eq hplaced, ← hpath]
    rfl

/-- A file that exports by default a class of a later file, whose method it calls. -/
def clockSketches : List FileSketch :=
  [{ path := "index.ts", generated := false
     items := [.defaultExport "Clock" (some "wrap"),
       .function "main" [.callMember "Clock" "tick"]] },
   { path := "clock.ts", generated := false
     items := [.exportNext, .classDecl "Clock" [.method "tick" []]] }]

theorem allOccurrences_hold_clock_once :
    ∃ d, (Atlas.ofSketches clockSketches {}).findDefinition "Clock" = .ok d ∧
      d.location? = some ⟨"clock.ts", 1, 1⟩ ∧
      ∃ o, (((Atlas.ofSketches clockSketches {}).allOccurrences "Clock" d true).filter
          fun o => o.kind = .definition) = [o] ∧
        o.valid = false ∧ o.location = ⟨"clock.ts", 1, 1⟩ := by
  have hfound : ((Atlas.ofSketches clockSketches {}).findDefinition? "Clock").map
      (fun d => (d.file, d.location?)) = some ("clock.ts", some ⟨"clock.ts", 1, 1⟩) := by
    decide +kernel
  obtain ⟨d, hd, heq⟩ := Option.map_eq_some_iff.mp hfound
  obtain ⟨hfile, hplace⟩ := Prod.mk.inj heq
  have hok := Atlas.findDefinition_eq_ok_iff.mpr hd
  have hlook : (Atlas.ofSketches clockSketches {}).LooksAt d.file := by
    rw [hfile]
    exact ⟨⟨"clock.ts", false⟩, by decide +kernel, rfl⟩
  obtain ⟨⟨o, hone, hvalid, -, hat⟩, -⟩ := allOccurrences_hold_definition_once clockSketches {}
    "Clock" d (by decide) hok hlook
  refine ⟨d, hok, hplace, o, hone, hvalid, ?_⟩
  rw [hat (by rw [hplace]; rfl), Definition.location, hplace, Option.getD_some]

end SymbolAtlas
