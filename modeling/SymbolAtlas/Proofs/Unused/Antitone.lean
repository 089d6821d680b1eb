/-
More code elsewhere, fewer reports.

A workspace that has grown in another file has the same declarations in this one.
Their kinds are the same, too: the kind of a symbol depends on the types of its
parameters, and their handles were given out before the new code was written,
`kindOf_of_grows`.  The old mentions are all still there and count as before, so what
was used stays used, `usedElsewhere_of_grows`, and a report can only lose rows.
-/
import SymbolAtlas.Proofs.Unused.Agreement

namespace SymbolAtlas

/-! ## Kinds -/

namespace Naming.Rules

theorem classifyCallable_congr (r : Rules) {typeOf typeOf' : Parameter → Option String}
    {c : Callable} (h : ∀ p ∈ c.params, typeOf' p = typeOf p) (name : String)
    (plain : SymbolKind) :
    r.classifyCallable typeOf' name c plain = r.classifyCallable typeOf name c plain := by
  have hprops : c.params.any (r.isPropsParam typeOf') = c.params.any (r.isPropsParam typeOf) := by
    rw [Bool.eq_iff_iff, List.any_eq_true, List.any_eq_true]
    refine exists_congr fun p => and_congr_right fun hp => ?_
    rw [isPropsParam, isPropsParam, h p hp]
  rw [classifyCallable, classifyCallable, hasComponentSignal, hasComponentSignal, hprops]

theorem classifyWith_congr (r : Rules) {typeOf typeOf' : Parameter → Option String}
    {d : Declaration} (h : ∀ c ∈ d.shape.callables, ∀ p ∈ c.params, typeOf' p = typeOf p) :
    r.classifyWith typeOf' d = r.classifyWith typeOf d := by
  unfold classifyWith
  split
  · rfl
  · next c hshape => exact r.classifyCallable_congr (h c (by rw [hshape]; exact .head _)) _ _
  · next c hshape => exact r.classifyCallable_congr (h c (by rw [hshape]; exact .head _)) _ _
  · next c hshape => exact r.classifyCallable_congr (h c (by rw [hshape]; exact .head _)) _ _
  all_goals rfl

/-- Only a default export of a name gets its kind from another declaration. -/
theorem classifyIn_of_named (r : Rules) (s : Snapshot) {d : Declaration}
    (h : d.isNameless = false) : r.classifyIn s d = r.classifyWith (paramType s) d := by
  unfold Declaration.isNameless at h
  unfold classifyIn
  split at h
  · cases h
  · next hshape => rw [hshape]
  · next hother _ =>
    split
    · next hshape => exact absurd hshape (hother _ _)
    · rfl

end Naming.Rules

namespace Atlas

section Growth

variable {path : String} {w w' : Workspace} (h : w.Grows path w') (settings : Settings)
include h

theorem checkedSymbols_of_grows {other : String} (hother : path ≠ other) :
    (ofSettings w'.snapshot settings).checkedSymbols other =
      (ofSettings w.snapshot settings).checkedSymbols other := by
  have hmodule : (ofSettings w'.snapshot settings).moduleDeclarations other =
      (ofSettings w.snapshot settings).moduleDeclarations other :=
    congrArg (List.filter Declaration.isModuleScope) (h.declarationsIn_eq hother)
  rw [checkedSymbols, checkedSymbols, hmodule]
  rfl

variable (hparams : ∀ k ∈ w.paramHandles, k < w.nextHandle)
include hparams

theorem kindOf_of_grows {d : Declaration} (hd : d ∈ w.declarations)
    (hnamed : d.isNameless = false) :
    (ofSettings w'.snapshot settings).kindOf d = (ofSettings w.snapshot settings).kindOf d := by
  have htype : ∀ c ∈ d.shape.callables, ∀ p ∈ c.params,
      Naming.Rules.paramType w'.snapshot p = Naming.Rules.paramType w.snapshot p := by
    intro c hc p hp
    have hhandle : p.handle ∈ w.paramHandles :=
      List.mem_flatMap.mpr ⟨d, hd, List.mem_flatMap.mpr ⟨c, hc, List.mem_map_of_mem hp⟩⟩
    exact congrArg p.writtenType.or (h.typeText_eq (hparams p.handle hhandle))
  rw [kindOf, kindOf, Naming.Rules.classifyIn_of_named _ _ hnamed,
    Naming.Rules.classifyIn_of_named _ _ hnamed]
  exact Naming.Rules.classifyWith_congr _ htype

theorem symbolKind_of_grows {s : Definition} (hs : s ∈ w.symbols) :
    (ofSettings w'.snapshot settings).symbolKind s =
      (ofSettings w.snapshot settings).symbolKind s := by
  cases s with
  | declaration d =>
    obtain ⟨hd, hnamed⟩ := Workspace.declaration_mem_symbols_iff.mp hs
    exact kindOf_of_grows h settings hparams hd hnamed
  | member o m => rfl

theorem report_of_grows {s : Definition} (hs : s ∈ w.symbols) :
    (ofSettings w'.snapshot settings).report s = (ofSettings w.snapshot settings).report s := by
  rw [report, report, symbolKind_of_grows h settings hparams hs]

/-! ## Uses -/

theorem usedElsewhere_of_grows {s : Definition} (hs : s ∈ w.symbols) {word : String}
    (hused : (ofSettings w.snapshot settings).UsedElsewhere s word) :
    (ofSettings w'.snapshot settings).UsedElsewhere s word := by
  obtain ⟨f, hf, hother, o, ho, hcounts⟩ := hused
  obtain ⟨hfile, hkept⟩ := List.mem_filter.mp hf
  have hf' : f ∈ (ofSettings w'.snapshot settings).files :=
    List.mem_filter.mpr ⟨h.files.subset hfile, hkept⟩
  refine ⟨f, hf', hother, o, h.occurrencesOf_subset f.path word ho, ?_⟩
  rw [Discounts, symbolKind_of_grows h settings hparams hs]
  exact hcounts

theorem isUnreferenced_of_grows {s : Definition} (hs : s ∈ w.symbols) {name : String}
    (hunused : (ofSettings w'.snapshot settings).isUnreferenced name s = true) :
    (ofSettings w.snapshot settings).isUnreferenced name s = true := by
  rw [isUnreferenced_iff] at hunused ⊢
  exact mt (usedElsewhere_of_grows h settings hparams hs) hunused

/-! ## Reports -/

theorem unusedIn_of_grows {other : String} (hother : path ≠ other)
    (hfile : w.snapshot.hasFile other = true) :
    ∃ rows rows', (ofSettings w.snapshot settings).unusedIn other = .ok rows ∧
      (ofSettings w'.snapshot settings).unusedIn other = .ok rows' ∧ rows'.Sublist rows := by
  have hfile' : w'.snapshot.hasFile other = true := by
    obtain ⟨f, hf, hpath⟩ := List.any_eq_true.mp hfile
    exact List.any_eq_true.mpr ⟨f, h.files.subset hf, hpath⟩
  let a := ofSettings w.snapshot settings
  let b := ofSettings w'.snapshot settings
  have hsymbols : ∀ s ∈ a.checkedSymbols other, s ∈ w.symbols := by
    intro s hs
    obtain ⟨p, hp⟩ := (listed_checkedSymbols a other).mem_iff.mp hs
    exact mem_symbols_of_meetsAt rfl hp.1
  -- The rows that are left are among the old ones, and they read as before.
  have hkept : (a.checkedSymbols other).filter (fun s => b.isUnreferenced s.name s) =
      ((a.checkedSymbols other).filter fun s => a.isUnreferenced s.name s).filter
        fun s => b.isUnreferenced s.name s := by
    rw [List.filter_filter]
    refine List.filter_congr fun s hs => ?_
    have hmono : b.isUnreferenced s.name s = true → a.isUnreferenced s.name s = true :=
      isUnreferenced_of_grows h settings hparams (hsymbols s hs)
    rw [Bool.eq_iff_iff, Bool.and_eq_true]
    exact ⟨fun hb => ⟨hb, hmono hb⟩, And.left⟩
  have hread : ((a.checkedSymbols other).filter fun s => b.isUnreferenced s.name s).map b.report =
      ((a.checkedSymbols other).filter fun s => b.isUnreferenced s.name s).map a.report :=
    List.map_congr_left fun s hs =>
      report_of_grows h settings hparams (hsymbols s (List.mem_filter.mp hs).1)
  refine ⟨_, _, if_pos hfile, if_pos hfile', ?_⟩
  rw [checkedSymbols_of_grows h settings hother, hread, hkept]
  exact List.filter_sublist.map a.report

end Growth

end Atlas

/-- A file that is opened or opened again takes rows out of the report on every other
file; it adds none and changes none. -/
theorem unusedIn_antitone (sketches : List FileSketch) (more : FileSketch) (settings : Settings)
    (path : String) (hfile : (Workspace.ofSketches sketches).snapshot.hasFile path = true)
    (hother : more.path ≠ path) :
    ∃ rows rows', (Atlas.ofSketches sketches settings).unusedIn path = .ok rows ∧
      (Atlas.ofSketches (sketches ++ [more]) settings).unusedIn path = .ok rows' ∧
      rows'.Sublist rows := by
  let w := Workspace.ofSketches sketches
  have hadd : Workspace.ofSketches (sketches ++ [more]) = w.add more :=
    List.foldl_append
  have hparams : ∀ k ∈ w.paramHandles, k < w.nextHandle := fun k hk =>
    (Workspace.accounts_ofSketches sketches).lt_nextHandle (List.mem_append_left _ hk)
  rw [Atlas.ofSketches, Atlas.ofSketches, hadd]
  exact Atlas.unusedIn_of_grows (Workspace.grows_add w more) settings hparams hother hfile

/-- A file that is opened again and now calls what nobody has called before. -/
def auditSketch : FileSketch :=
  { path := "app.ts", generated := false
    items := [.function "review" [.callMember "ledger" "audit"]] }

theorem unusedIn_antitone_ledger :
    (Workspace.ofSketches ledgerSketches).snapshot.hasFile "ledger.ts" = true ∧
      auditSketch.path ≠ "ledger.ts" ∧
      ∃ rows rows',
        (Atlas.ofSketches ledgerSketches {}).unusedIn "ledger.ts" = .ok rows ∧
        (Atlas.ofSketches (ledgerSketches ++ [auditSketch]) {}).unusedIn "ledger.ts" = .ok rows' ∧
        rows'.Sublist rows ∧ rows' ≠ rows := by
  have hfile : (Workspace.ofSketches ledgerSketches).snapshot.hasFile "ledger.ts" = true := by
    decide +kernel
  have hother : auditSketch.path ≠ "ledger.ts" := by decide
  obtain ⟨rows, rows', hrows, hrows', hsub⟩ :=
    unusedIn_antitone ledgerSketches auditSketch {} "ledger.ts" hfile hother
  refine ⟨hfile, hother, rows, rows', hrows, hrows', hsub, ?_⟩
  rintro rfl
  have hchanged : (Atlas.ofSketches (ledgerSketches ++ [auditSketch]) {}).unusedIn "ledger.ts" ≠
      (Atlas.ofSketches ledgerSketches {}).unusedIn "ledger.ts" := by decide +kernel
  exact hchanged (hrows'.trans hrows.symm)

end SymbolAtlas
