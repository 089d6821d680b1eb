/-
The report on a file with and without members.

A name is checked once in a file.  If members are checked, too, a member takes the check of
its name from a declaration that comes after it, so the two reports are not simply one inside
the other.  What is checked among the declarations can only become less,
`checkedSymbols_without_members`.  A name that is lost to a member stays reported, because
what counts as a use of the member counts as a use of the declaration as well,
`usedElsewhere_of_member`: an import is never a use of a member, and no file but its own has
the occurrence that introduces the declaration.
-/
import SymbolAtlas.Proofs.Unused.Agreement

namespace SymbolAtlas

/-- What is first among all is first among some. -/
theorem filter_distinctBy_sublist {α β : Type} [DecidableEq β] (key : α → β)
    (p : α → Bool) (xs : List α) :
    ((distinctBy key xs).filter p).Sublist (distinctBy key (xs.filter p)) := by
  induction xs with
  | nil => exact .slnil
  | cons x xs ih =>
    rw [distinctBy]
    by_cases hx : p x
    · rw [List.filter_cons_of_pos hx, List.filter_cons_of_pos hx, distinctBy, List.filter_comm]
      exact (ih.filter _).cons_cons x
    · rw [List.filter_cons_of_neg hx, List.filter_cons_of_neg hx, List.filter_comm]
      exact List.filter_sublist.trans ih

def Settings.checkingMembers (s : Settings) (check : Bool) : Settings :=
  { s with unused := { checkMembers := some check } }

def Definition.isMember : Definition → Bool
  | .declaration _ => false
  | .member .. => true

/-- No class is called so that its members seem to stand at the top of the file. -/
theorem Definition.scope_eq_moduleScope_iff {s : Definition} :
    s.scope = Snapshot.moduleScope ↔ s.isMember = false := by
  cases s with
  | declaration d => exact ⟨fun _ => rfl, fun _ => rfl⟩
  | member o m =>
    constructor
    · intro h
      have hchars := congrArg String.toList h
      rw [scope, String.toList_append] at hchars
      cases hchars
    · intro h
      cases h

namespace Atlas

def checkingMembers (a : Atlas) (check : Bool) : Atlas := { a with checkMembers := check }

variable {a : Atlas} {w : Workspace} {path : String}

/-! ## What is checked -/

theorem symbolsOf_without_members (a : Atlas) (d : Declaration) :
    (a.symbolsOf d).filter (fun s => !s.isMember) = (a.checkingMembers false).symbolsOf d := by
  have hown : (if d.isNameless then [] else [Definition.declaration d]).filter
      (fun s => !s.isMember) = if d.isNameless then [] else [.declaration d] := by
    split <;> rfl
  have hmembers : (if a.checkMembers then checkedMembers d else []).filter
      (fun s => !s.isMember) = [] := by
    split
    · rw [List.filter_eq_nil_iff]
      intro s hs
      obtain ⟨m, -, rfl⟩ := List.mem_map.mp hs
      exact Bool.false_ne_true
    · rfl
  rw [symbolsOf, List.filter_append, hown, hmembers]
  rfl

theorem checkedSymbols_without_members (a : Atlas) (path : String) :
    ((a.checkedSymbols path).filter fun s => !s.isMember).Sublist
      ((a.checkingMembers false).checkedSymbols path) := by
  have hwalk : ((a.moduleDeclarations path).flatMap a.symbolsOf).filter (fun s => !s.isMember) =
      (a.moduleDeclarations path).flatMap (a.checkingMembers false).symbolsOf := by
    rw [List.filter_flatMap]
    exact List.flatMap_congr fun d _ => symbolsOf_without_members a d
  have hfirst := filter_distinctBy_sublist Definition.name (fun s => !s.isMember)
    ((a.moduleDeclarations path).flatMap a.symbolsOf)
  rwa [hwalk] at hfirst

/-- A declaration that is checked without members is checked with them, or a member of its
name is. -/
theorem exists_checked_with_members {s : Definition}
    (hs : s ∈ (a.checkingMembers false).checkedSymbols path) :
    ∃ t ∈ a.checkedSymbols path, t.name = s.name ∧ (t = s ∨ t.isMember = true) := by
  have hmeets : s ∈ (a.moduleDeclarations path).flatMap a.symbolsOf := by
    obtain ⟨d, hd, hsd⟩ := List.mem_flatMap.mp ((distinctBy_sublist _ _).subset hs)
    rw [← symbolsOf_without_members] at hsd
    exact List.mem_flatMap.mpr ⟨d, hd, (List.mem_filter.mp hsd).1⟩
  obtain ⟨t, ht, hname⟩ := exists_mem_distinctBy Definition.name hmeets
  refine ⟨t, ht, hname, ?_⟩
  cases hmember : t.isMember with
  | true => exact Or.inr rfl
  | false =>
    -- Both are checked without members, and no two that are share a name.
    have ht' : t ∈ (a.checkingMembers false).checkedSymbols path :=
      (checkedSymbols_without_members a path).subset
        (List.mem_filter.mpr ⟨ht, by rw [hmember]; rfl⟩)
    exact Or.inl (List.inj_on_of_nodup_map (nodup_names_checkedSymbols _ path) ht' hs hname)

theorem mem_declarationsIn_of_checked (ha : a.source = w.snapshot) {s : Definition}
    (hs : s ∈ a.checkedSymbols path) :
    ∃ d ∈ w.declarationsIn path, s ∈ d.symbols := by
  obtain ⟨d, hd, hsd⟩ := List.mem_flatMap.mp ((distinctBy_sublist _ _).subset hs)
  have hsource := mem_moduleDeclarations hd
  rw [ha] at hsource
  exact ⟨d, hsource, mem_symbols_of_mem_symbolsOf hsd⟩

/-! ## What counts as a use -/

theorem member_symbolKind_cases (m : Member) :
    m.symbolKind = .property ∨ m.symbolKind = .method := by
  unfold Member.symbolKind
  split
  · exact Or.inl rfl
  · exact Or.inr rfl

/-- What does not count for a symbol does not count for a member of its file either, in
another file. -/
theorem Discounts.of_member {s : Definition} {o : Declaration} {m : Member}
    {n : NameOccurrence} (h : a.Discounts s n) (hhandle : n.handle ≠ s.handle) :
    a.Discounts (.member o m) n := by
  rcases h with hown | hlocal | hvariable | ⟨himport, -⟩
  · exact absurd hown hhandle
  · exact Or.inr (Or.inl hlocal)
  · exact Or.inr (Or.inr (Or.inl hvariable))
  · refine Or.inr (Or.inr (Or.inr ⟨himport, ?_⟩))
    show m.symbolKind ≠ _ ∧ m.symbolKind ≠ _ ∧ m.symbolKind.isComponent = false
    rcases member_symbolKind_cases m with hkind | hkind
    · rw [hkind]
      decide
    · rw [hkind]
      decide

/-- The handle of a symbol is that of no occurrence in another file. -/
theorem handle_ne_of_elsewhere (hw : w.Introduced) (hnum : w.Numbered) {s : Definition}
    (hs : s ∈ w.symbols) {file word : String} (hother : file ≠ s.file) {n : NameOccurrence}
    (hn : n ∈ w.occurrencesOf file word) : n.handle ≠ s.handle := by
  intro hhandle
  obtain ⟨k, hk, rfl⟩ := List.mem_map.mp hn
  obtain ⟨hkmem, hplace⟩ := List.mem_filter.mp hk
  obtain ⟨i, hi, hintro⟩ := hw s hs
  have heq : k = i := hnum.eq_of_handle_eq hkmem hi (hhandle.trans hintro.handle_eq.symm)
  refine hother ((of_decide_eq_true hplace).1.symm.trans ?_)
  rw [heq]
  exact hintro.file_eq

theorem usedElsewhere_of_member (ha : a.source = w.snapshot) (hw : w.Introduced)
    (hnum : w.Numbered) {s : Definition} (hs : s ∈ w.symbols) {o : Declaration} {m : Member}
    (hfile : o.file = s.file) {word : String} (h : a.UsedElsewhere (.member o m) word) :
    a.UsedElsewhere s word := by
  obtain ⟨f, hf, hother, n, hn, hcounts⟩ := h
  have hother' : f.path ≠ s.file := hfile ▸ hother
  refine ⟨f, hf, hother', n, hn, fun hdiscount => hcounts (hdiscount.of_member ?_)⟩
  rw [ha] at hn
  exact handle_ne_of_elsewhere hw hnum hs hother' hn

/-! ## Reports -/

/-- What the report on a file lists. -/
def unusedRows (a : Atlas) (path : String) : List UnusedSymbol :=
  ((a.checkedSymbols path).filter fun s => a.isUnreferenced s.name s).map a.report

theorem unusedIn_eq_unusedRows (a : Atlas) (path : String) :
    a.unusedIn path =
      if a.source.hasFile path then .ok (a.unusedRows path) else .error (.fileNotFound path) :=
  rfl

theorem unusedRows_without_members (a : Atlas) (path : String) :
    ((a.unusedRows path).filter fun r => r.context = Snapshot.moduleScope).Sublist
      ((a.checkingMembers false).unusedRows path) := by
  have hscope : (fun s => decide ((a.report s).context = Snapshot.moduleScope)) =
      fun s => !s.isMember := by
    funext s
    rw [Bool.eq_iff_iff, decide_eq_true_eq, Bool.not_eq_true']
    exact Definition.scope_eq_moduleScope_iff
  rw [unusedRows, List.filter_map, Function.comp_def, hscope, List.filter_comm]
  exact ((checkedSymbols_without_members a path).filter _).map a.report

/-- If a declaration is unused, so is a member of the file that takes the check of its name. -/
theorem isUnreferenced_of_member (ha : a.source = w.snapshot) (hw : w.Introduced)
    (hnum : w.Numbered) {s : Definition} (hs : s ∈ w.symbols) {o : Declaration} {m : Member}
    (hfile : o.file = s.file) (hname : m.name = s.name) (hplain : '.' ∉ s.name.toList)
    (h : a.isUnreferenced s.name s = true) :
    a.isUnreferenced m.name (.member o m) = true := by
  rw [isUnreferenced_iff, lookupName_own hplain] at h
  rw [isUnreferenced_iff, lookupName_of_plain (hname ▸ hplain), hname]
  exact mt (usedElsewhere_of_member ha hw hnum hs hfile) h

/-- A row of the report without members is one of the report with them, or a member of the
file has its name and is reported. -/
theorem unusedRows_with_members (ha : a.source = w.snapshot) (hw : w.Introduced)
    (hnum : w.Numbered) (hplain : ∀ s ∈ w.symbols, '.' ∉ s.name.toList) {r : UnusedSymbol}
    (hr : r ∈ (a.checkingMembers false).unusedRows path) :
    r ∈ a.unusedRows path ∨ ∃ o ∈ w.declarationsIn path, ∃ m ∈ o.members, m.name = r.name ∧
      a.report (.member o m) ∈ a.unusedRows path := by
  obtain ⟨s, hs, rfl⟩ := List.mem_map.mp hr
  obtain ⟨hchecked, hunused⟩ := List.mem_filter.mp hs
  obtain ⟨d, hd, hsd⟩ := mem_declarationsIn_of_checked (a := a.checkingMembers false) ha hchecked
  have hdw := (Workspace.mem_declarationsIn_iff.mp hd).1
  have hsw : s ∈ w.symbols := List.mem_flatMap.mpr ⟨d, hdw, hsd⟩
  obtain ⟨t, ht, hname, rfl | hmember⟩ := exists_checked_with_members hchecked
  · exact Or.inl (List.mem_map_of_mem (List.mem_filter.mpr ⟨ht, hunused⟩))
  · obtain ⟨o, ho, hto⟩ := mem_declarationsIn_of_checked ha ht
    rcases Declaration.mem_symbols_iff.mp hto with ⟨-, rfl⟩ | ⟨m, hm, rfl⟩
    · cases hmember
    · have hfile : o.file = s.file :=
        ((Workspace.mem_declarationsIn_iff.mp ho).2.trans
          (Workspace.mem_declarationsIn_iff.mp hd).2.symm).trans (file_of_mem_symbols hsd).symm
      refine Or.inr ⟨o, ho, m, hm, hname, List.mem_map_of_mem (List.mem_filter.mpr ⟨ht, ?_⟩)⟩
      exact isUnreferenced_of_member ha hw hnum hsw hfile hname (hplain s hsw) hunused

end Atlas

/-- If no name of the program has a dot in it, checking members, too, takes no name out of
the report on a file.  The rows for declarations are among those of the report without
members, in the same order, and each row of that report is still there or has given way to
the row of a member of the same name. -/
theorem unusedIn_with_and_without_members (sketches : List FileSketch) (settings : Settings)
    (path : String)
    (hplain : ∀ s ∈ (Workspace.ofSketches sketches).symbols, '.' ∉ s.name.toList) :
    ∃ off on,
      (Atlas.ofSketches sketches (settings.checkingMembers false)).unusedIn path =
        (if (Workspace.ofSketches sketches).snapshot.hasFile path then .ok off
          else .error (.fileNotFound path)) ∧
      (Atlas.ofSketches sketches (settings.checkingMembers true)).unusedIn path =
        (if (Workspace.ofSketches sketches).snapshot.hasFile path then .ok on
          else .error (.fileNotFound path)) ∧
      (on.filter fun r => r.context = "module scope").Sublist off ∧
      ∀ r ∈ off, r ∈ on ∨ ∃ o ∈ (Workspace.ofSketches sketches).declarationsIn path,
        ∃ m ∈ o.members, m.name = r.name ∧
          { kind := m.symbolKind, name := m.name, context := "within class " ++ o.name } ∈ on := by
  let a := Atlas.ofSketches sketches (settings.checkingMembers true)
  have hnum := (Workspace.sound_ofSketches sketches).numbered
  refine ⟨(a.checkingMembers false).unusedRows path, a.unusedRows path, ?_, ?_, ?_, ?_⟩
  · exact Atlas.unusedIn_eq_unusedRows (a.checkingMembers false) path
  · exact Atlas.unusedIn_eq_unusedRows a path
  · exact Atlas.unusedRows_without_members a path
  · intro r hr
    exact Atlas.unusedRows_with_members rfl (Workspace.introduced_ofSketches sketches) hnum
      hplain hr

/-- A class with a method that has the name of a function below it, and a file that imports
the function and does nothing with it. -/
def queueSketches : List FileSketch :=
  [{ path := "queue.ts", generated := false
     items := [.classDecl "Queue" [.method "flush" [], .method "push" []],
       .function "flush" [], .function "drain" []] },
   { path := "app.ts", generated := false
     items := [.importName "flush", .function "main" [.construct "Queue",
       .callMember "queue" "push"]] }]

/-- The report without members, and the one in which the method has taken the check. -/
def queueRows : List UnusedSymbol × List UnusedSymbol :=
  ([{ kind := .function, name := "flush", context := "module scope" },
    { kind := .function, name := "drain", context := "module scope" }],
   [{ kind := .method, name := "flush", context := "within class Queue" },
    { kind := .function, name := "drain", context := "module scope" }])

theorem unusedIn_queue_with_and_without_members :
    (∀ s ∈ (Workspace.ofSketches queueSketches).symbols, '.' ∉ s.name.toList) ∧
    (Atlas.ofSketches queueSketches (({} : Settings).checkingMembers false)).unusedIn
      "queue.ts" = .ok queueRows.1 ∧
    (Atlas.ofSketches queueSketches (({} : Settings).checkingMembers true)).unusedIn
      "queue.ts" = .ok queueRows.2 ∧
    (queueRows.2.filter fun r => r.context = "module scope").Sublist queueRows.1 ∧
    ∀ r ∈ queueRows.1, r ∈ queueRows.2 ∨
      ∃ o ∈ (Workspace.ofSketches queueSketches).declarationsIn "queue.ts",
        ∃ m ∈ o.members, m.name = r.name ∧
          { kind := m.symbolKind, name := m.name, context := "within class " ++ o.name } ∈
            queueRows.2 := by
  have hplain : ∀ s ∈ (Workspace.ofSketches queueSketches).symbols,
      '.' ∉ s.name.toList := by decide +kernel
  have hfile : (Workspace.ofSketches queueSketches).snapshot.hasFile "queue.ts" = true := by
    decide +kernel
  have hwithout : (Atlas.ofSketches queueSketches
      (({} : Settings).checkingMembers false)).unusedIn "queue.ts" = .ok queueRows.1 := by
    decide +kernel
  have hwith : (Atlas.ofSketches queueSketches
      (({} : Settings).checkingMembers true)).unusedIn "queue.ts" = .ok queueRows.2 := by
    decide +kernel
  obtain ⟨off, on, hoff, hon, hsub, hrows⟩ :=
    unusedIn_with_and_without_members queueSketches {} "queue.ts" hplain
  rw [if_pos hfile] at hoff hon
  cases hoff.symm.trans hwithout
  cases hon.symm.trans hwith
  exact ⟨hplain, hwithout, hwith, hsub, hrows⟩

end SymbolAtlas
