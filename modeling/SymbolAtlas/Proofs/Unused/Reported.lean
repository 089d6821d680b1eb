/-
What the report on a file lists.

A file is walked declaration by declaration, each followed by its members, and the
first symbol of each name is checked.  `MeetsAt` and `ChecksAt` say what stands at
which place of this walk.  A symbol is reported if no other file refers to the name
that is looked up for it, and that is its own name unless it is a member whose name
has a dot: `unusedIn_lists_own_names_iff` says what follows from that.
-/
import SymbolAtlas.Proofs.Lookup.Counted

namespace SymbolAtlas
namespace Atlas

/-- What a walk through a file meets: the declaration itself at place 0 of the
declaration, if it has a name, and its `j`-th member at place `j + 1`, if members
are checked and it is neither static nor a constructor. -/
def MeetsAt (a : Atlas) (path : String) (p : Slot) (s : Definition) : Prop :=
  ∃ d, (a.source.declarations path)[p.outer]? = some d ∧ d.isModuleScope = true ∧
    ((p.inner = 0 ∧ d.isNameless = false ∧ s = .declaration d) ∨
      ∃ j m, p.inner = j + 1 ∧ d.members[j]? = some m ∧ a.checkMembers = true ∧
        m.isStatic = false ∧ m.kind ≠ .constructor ∧ s = .member d m)

/-- The first symbol of its name that the walk meets. -/
def ChecksAt (a : Atlas) (path : String) (p : Slot) (s : Definition) : Prop :=
  a.MeetsAt path p s ∧ ∀ q t, q < p → a.MeetsAt path q t → t.name ≠ s.name

/-- Another file has an occurrence of the word that counts for the definition. -/
def UsedElsewhere (a : Atlas) (d : Definition) (word : String) : Prop :=
  ∃ f ∈ a.files, f.path ≠ d.file ∧
    ∃ o ∈ a.source.occurrences f.path word, ¬ a.Discounts d o

/-- The row of a symbol that is checked by the given word and not used elsewhere. -/
def ReportsAt (a : Atlas) (path : String) (word : Definition → String) (p : Slot)
    (r : UnusedSymbol) : Prop :=
  ∃ s, a.ChecksAt path p s ∧ ¬ a.UsedElsewhere s (word s) ∧ r.kind = a.symbolKind s ∧
    r.name = s.name ∧
    r.context = match s.owner? with
      | none => "module scope"
      | some owner => "within class " ++ owner

variable {a : Atlas} {path : String}

/-! ## The walk -/

/-- What is checked at a declaration: itself, or one of its members. -/
def symbolAt? (a : Atlas) (d : Declaration) : Option Member → Option Definition
  | none => if d.isNameless then none else some (.declaration d)
  | some m =>
    if a.checkMembers && (!m.isStatic && m.kind ≠ .constructor) then some (.member d m) else none

theorem symbolAt?_none_iff {d : Declaration} {s : Definition} :
    a.symbolAt? d none = some s ↔ d.isNameless = false ∧ s = .declaration d := by
  cases hname : d.isNameless <;> simp [symbolAt?, hname, eq_comm (a := s)]

theorem symbolAt?_some_iff {d : Declaration} {m : Member} {s : Definition} :
    a.symbolAt? d (some m) = some s ↔ a.checkMembers = true ∧ m.isStatic = false ∧
      m.kind ≠ .constructor ∧ s = .member d m := by
  rw [symbolAt?, Option.ite_none_right_eq_some]
  simp [and_assoc, eq_comm (a := s)]

theorem checkedMembers_eq_filterMap (d : Declaration) :
    (if a.checkMembers then checkedMembers d else []) =
      d.members.filterMap fun m => a.symbolAt? d (some m) := by
  cases hcheck : a.checkMembers with
  | false => simp [symbolAt?, hcheck]
  | true =>
    rw [if_pos rfl, checkedMembers, ← List.filterMap_eq_filter, List.map_filterMap]
    refine List.filterMap_congr fun m _ => ?_
    simp only [symbolAt?, hcheck, Bool.true_and, Option.guard]
    split <;> rfl

theorem symbolsOf_eq_filterMap (d : Declaration) :
    a.symbolsOf d = (none :: d.members.map some).filterMap (a.symbolAt? d) := by
  rw [symbolsOf, checkedMembers_eq_filterMap, List.filterMap_cons, List.filterMap_map]
  cases hname : d.isNameless <;> simp [symbolAt?, hname, Function.comp_def]

theorem listed_walk (a : Atlas) (path : String) :
    Listed (a.MeetsAt path) ((a.moduleDeclarations path).flatMap a.symbolsOf) := by
  have hsymbols (d : Declaration) : Listed
      (fun (i : Nat) s => ∃ x, (none :: d.members.map some)[i]? = some x ∧
        a.symbolAt? d x = some s) (a.symbolsOf d) := by
    rw [symbolsOf_eq_filterMap]
    exact (listed_getElem? _).filterMap _
  refine (Listed.filter_flatMap hsymbols _ (a.source.declarations path)).congr fun p s => ?_
  refine exists_congr fun d => and_congr_right fun _ => and_congr_right fun _ => ?_
  cases hp : p.inner with
  | zero => simp [symbolAt?_none_iff]
  | succ j => simp [symbolAt?_some_iff]

theorem listed_checkedSymbols (a : Atlas) (path : String) :
    Listed (a.ChecksAt path) (a.checkedSymbols path) :=
  (listed_walk a path).distinctBy Definition.name

theorem nodup_names_checkedSymbols (a : Atlas) (path : String) :
    ((a.checkedSymbols path).map Definition.name).Nodup :=
  List.pairwise_map.mpr (pairwise_distinctBy _ _)

theorem ChecksAt.eq_of_name_eq {p q : Slot} {s t : Definition} (hs : a.ChecksAt path p s)
    (ht : a.ChecksAt path q t) (h : s.name = t.name) : s = t :=
  List.inj_on_of_nodup_map (nodup_names_checkedSymbols a path)
    ((listed_checkedSymbols a path).mem_iff.mpr ⟨p, hs⟩)
    ((listed_checkedSymbols a path).mem_iff.mpr ⟨q, ht⟩) h

theorem exists_checksAt_of_meetsAt {p : Slot} {s : Definition} (hs : a.MeetsAt path p s) :
    ∃ q t, a.ChecksAt path q t ∧ t.name = s.name := by
  have hmem := (listed_walk a path).mem_iff.mpr ⟨p, hs⟩
  obtain ⟨t, ht, hname⟩ := exists_mem_distinctBy Definition.name hmem
  obtain ⟨q, hq⟩ := (listed_checkedSymbols a path).mem_iff.mp ht
  exact ⟨q, t, hq, hname⟩

/-! ## The verdict on a symbol -/

theorem mem_allOccurrences_external {name : String} {d : Definition} {o : Occurrence} :
    o ∈ a.allOccurrences name d false ↔ ∃ f ∈ a.files, f.path ≠ d.file ∧
      ∃ n ∈ a.source.occurrences f.path (d.lookupName name), a.judged d f.path n = o := by
  simp only [allOccurrences, occurrencesIn, List.mem_flatMap, List.mem_filter, List.mem_map,
    Bool.false_or, decide_eq_true_eq, and_assoc]
  rfl

theorem isUnreferenced_iff {name : String} {d : Definition} :
    a.isUnreferenced name d = true ↔ ¬ a.UsedElsewhere d (d.lookupName name) := by
  rw [isUnreferenced, List.isEmpty_iff]
  constructor
  · rintro hnone ⟨f, hf, hother, n, hn, hcounts⟩
    have hvalid : (a.judged d f.path n).valid = true :=
      eq_true_of_ne_false fun e => hcounts (judge_eq_false_iff.mp e)
    have hall : a.judged d f.path n ∈ a.allOccurrences name d false :=
      mem_allOccurrences_external.mpr ⟨f, hf, hother, n, hn, rfl⟩
    obtain ⟨r, hr, -⟩ := exists_mem_distinctBy Occurrence.location
      (List.mem_filter.mpr ⟨hall, hvalid⟩)
    rw [collectReferences] at hnone
    rw [hnone] at hr
    cases hr
  · intro hunused
    rw [List.eq_nil_iff_forall_not_mem]
    intro o ho
    obtain ⟨hall, hvalid⟩ := List.mem_filter.mp ((distinctBy_sublist _ _).subset ho)
    obtain ⟨f, hf, hother, n, hn, rfl⟩ := mem_allOccurrences_external.mp hall
    refine hunused ⟨f, hf, hother, n, hn, fun hdiscount => ?_⟩
    exact Bool.false_ne_true ((judge_eq_false_iff.mpr hdiscount).symm.trans hvalid)

theorem lookupName_of_plain {o : Declaration} {m : Member} (h : '.' ∉ m.name.toList) :
    (Definition.member o m).lookupName m.name = m.name := by
  rw [Definition.lookupName, Text.cutLast?_eq_none_iff.mpr h]

/-! ## The report -/

theorem report_eq_iff {s : Definition} {r : UnusedSymbol} :
    a.report s = r ↔ r.kind = a.symbolKind s ∧ r.name = s.name ∧
      r.context = match s.owner? with
        | none => "module scope"
        | some owner => "within class " ++ owner := by
  have hscope : s.scope = match s.owner? with
      | none => "module scope"
      | some owner => "within class " ++ owner := by
    cases s <;> rfl
  rw [← hscope]
  constructor
  · rintro rfl
    exact ⟨rfl, rfl, rfl⟩
  · rintro ⟨hkind, hname, hcontext⟩
    rw [report, ← hkind, ← hname, ← hcontext]

theorem listed_report (a : Atlas) (path : String) :
    Listed (a.ReportsAt path fun s => s.lookupName s.name)
      (((a.checkedSymbols path).filter fun d => a.isUnreferenced d.name d).map a.report) := by
  refine (((listed_checkedSymbols a path).filter _).map a.report).congr fun p r => ?_
  refine exists_congr fun s => ?_
  rw [and_assoc, isUnreferenced_iff]
  exact and_congr_right fun _ => and_congr_right fun _ => report_eq_iff

theorem reported_iff {word : Definition → String} {rows : List UnusedSymbol}
    (h : Listed (a.ReportsAt path word) rows) {p : Slot} {s : Definition}
    (hs : a.ChecksAt path p s) :
    (∃ r ∈ rows, r.name = s.name) ↔ ¬ a.UsedElsewhere s (word s) := by
  constructor
  · rintro ⟨r, hr, hname⟩
    obtain ⟨q, t, ht, hunused, -, hrow, -⟩ := h.mem_iff.mp hr
    rw [hs.eq_of_name_eq ht (hname.symm.trans hrow)]
    exact hunused
  · intro hunused
    exact ⟨a.report s, h.mem_iff.mpr ⟨p, s, hs, hunused, report_eq_iff.mp rfl⟩, rfl⟩

/-- The report on a file lists the symbols that are checked and not used elsewhere,
in the order of the walk, each name once; and a symbol that is not checked leaves
its name to one that is.  What is looked up for a symbol is its own name, so the
report is right, unless a member with a dot in its name is used elsewhere by just
one of its name and the part behind the last dot. -/
theorem unusedIn_lists_own_names_iff (a : Atlas) (path : String) :
    ∃ rows, a.unusedIn path =
        (if a.source.hasFile path then .ok rows else .error (.fileNotFound path)) ∧
      (rows.map UnusedSymbol.name).Nodup ∧
      (∀ p s, a.MeetsAt path p s → ∃ q t, a.ChecksAt path q t ∧ t.name = s.name) ∧
      Listed (a.ReportsAt path fun s => s.lookupName s.name) rows ∧
      (Listed (a.ReportsAt path Definition.name) rows ↔
        ∀ p o m, a.ChecksAt path p (.member o m) → '.' ∈ m.name.toList →
          (a.UsedElsewhere (.member o m) m.name ↔
            a.UsedElsewhere (.member o m) ((Definition.member o m).lookupName m.name))) := by
  refine ⟨_, rfl, ?_, fun p s => exists_checksAt_of_meetsAt, listed_report a path, ?_⟩
  · rw [List.map_map]
    exact (nodup_names_checkedSymbols a path).sublist (List.filter_sublist.map _)
  · constructor
    · -- A row has the name of its symbol, so the rows alone tell who is reported.
      intro hown p o m hs _
      exact not_iff_not.mp
        ((reported_iff hown hs).symm.trans (reported_iff (listed_report a path) hs))
    · intro hsame
      refine (listed_report a path).congr fun p r => ?_
      refine exists_congr fun s => and_congr_right fun hs => and_congr_left fun _ => ?_
      cases s with
      | declaration d => exact Iff.rfl
      | member o m =>
        by_cases hdot : '.' ∈ m.name.toList
        · exact not_congr (hsame p o m hs hdot).symm
        · show ¬ a.UsedElsewhere _ ((Definition.member o m).lookupName m.name) ↔ _
          rw [lookupName_of_plain hdot]
          exact Iff.rfl

end Atlas

/-- A class with a member that has a dot in its name, and a file that calls it. -/
def bagSketches : List FileSketch :=
  [{ path := "src/bag.ts", generated := false
     items := [.classDecl "Bag" [.method "a.b" []]] },
   { path := "src/main.ts", generated := false
     items := [.function "main" [.construct "Bag", .callMember "bag" "a.b"]] }]

theorem unusedIn_bag_reports_used_member :
    (Atlas.ofSketches bagSketches {}).unusedIn "src/bag.ts" =
      .ok [{ kind := .method, name := "a.b", context := "within class Bag" }] ∧
    ¬ Listed ((Atlas.ofSketches bagSketches {}).ReportsAt "src/bag.ts" Definition.name)
      [{ kind := .method, name := "a.b", context := "within class Bag" }] := by
  let a := Atlas.ofSketches bagSketches {}
  have hused : ∀ s ∈ a.checkedSymbols "src/bag.ts", s.name = "a.b" →
      ∃ f ∈ a.files, f.path ≠ s.file ∧ ∃ o ∈ a.source.occurrences f.path "a.b",
        (o.judge s.handle (a.importsCount s)).2 = true := by decide +kernel
  refine ⟨by decide +kernel, fun h => ?_⟩
  obtain ⟨p, s, hs, hunused, -, hname, -⟩ := h.mem_iff.mp (List.mem_singleton_self _)
  have hchecked := (Atlas.listed_checkedSymbols a "src/bag.ts").mem_iff.mpr ⟨p, hs⟩
  obtain ⟨f, hf, hother, o, ho, hcounts⟩ := hused s hchecked hname.symm
  refine hunused ⟨f, hf, hother, o, hname ▸ ho, fun hdiscount => ?_⟩
  exact Bool.false_ne_true ((Atlas.judge_eq_false_iff.mpr hdiscount).symm.trans hcounts)

end SymbolAtlas
