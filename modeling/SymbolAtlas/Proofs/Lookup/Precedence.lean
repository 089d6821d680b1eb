/-
Which definition a name stands for.

Four things can answer to a name: the file order, the shape of a declaration, a default
export that leads elsewhere, and the members of classes.  Each is said here by the first
element of a list that has a property, `FirstOf`, without the search that finds it:
`BestOf` is the first declaration of the best shape in a file, `DefinedIn` adds the
exports that count if there is none, and `findModuleDefinition?_eq_some_iff` and
`findMember?_eq_some_iff` say that the two parts of the search return just that.
`findDefinition_by_precedence` puts them in order, for every program and not only for
those that sketches make.
-/
import SymbolAtlas.Proofs.Lookup.LeftOut
import SymbolAtlas.Proofs.Unused.Called

namespace SymbolAtlas

/-! ## First elements -/

section

variable {α β : Type} {P Q : α → Prop} {xs : List α} {x y : α}

def FirstOf (P : α → Prop) (xs : List α) (x : α) : Prop :=
  ∃ before after, xs = before ++ x :: after ∧ P x ∧ ∀ y ∈ before, ¬ P y

theorem FirstOf.mem (h : FirstOf P xs x) : x ∈ xs := by
  obtain ⟨before, after, rfl, -⟩ := h
  exact List.mem_append_right before List.mem_cons_self

theorem FirstOf.holds (h : FirstOf P xs x) : P x := by
  obtain ⟨-, -, -, hx, -⟩ := h
  exact hx

theorem firstOf_congr (h : ∀ y, P y ↔ Q y) : FirstOf P xs x ↔ FirstOf Q xs x := by
  simp only [FirstOf, h]

theorem find?_eq_some_iff_firstOf {p : α → Bool} :
    xs.find? p = some x ↔ FirstOf (fun y => p y = true) xs x := by
  rw [List.find?_eq_some_iff_append]
  constructor
  · rintro ⟨hx, before, after, hsplit, hbefore⟩
    exact ⟨before, after, hsplit, hx, fun y hy => by simpa using hbefore y hy⟩
  · rintro ⟨before, after, hsplit, hx, hbefore⟩
    exact ⟨hx, before, after, hsplit, fun y hy => by simpa using hbefore y hy⟩

theorem find?_decide_eq_some_iff [DecidablePred P] :
    xs.find? (fun y => decide (P y)) = some x ↔ FirstOf P xs x :=
  find?_eq_some_iff_firstOf.trans (firstOf_congr fun _ => decide_eq_true_iff)

instance [DecidableEq α] [DecidablePred P] : Decidable (FirstOf P xs x) :=
  decidable_of_iff _ find?_decide_eq_some_iff

theorem FirstOf.unique (h : FirstOf P xs x) (h' : FirstOf P xs y) : x = y := by
  classical
  have hx := find?_decide_eq_some_iff.mpr h
  have hy := find?_decide_eq_some_iff.mpr h'
  exact Option.some.inj (hx.symm.trans hy)

/-- A search for a value goes by the first element that has one. -/
theorem findSome?_eq_some_iff_firstOf {f : α → Option β} {R : α → β → Prop}
    (hf : ∀ x v, f x = some v ↔ R x v) {v : β} :
    xs.findSome? f = some v ↔ ∃ x, FirstOf (fun x => ∃ v, R x v) xs x ∧ R x v := by
  rw [List.findSome?_eq_some_iff]
  constructor
  · rintro ⟨before, x, after, hsplit, hx, hbefore⟩
    have hv := (hf x v).mp hx
    refine ⟨x, ⟨before, after, hsplit, ⟨v, hv⟩, ?_⟩, hv⟩
    rintro y hy ⟨u, hu⟩
    rw [← hf, hbefore y hy] at hu
    cases hu
  · rintro ⟨x, ⟨before, after, hsplit, -, hbefore⟩, hv⟩
    refine ⟨before, x, after, hsplit, (hf x v).mpr hv, fun y hy => ?_⟩
    cases hu : f y with
    | none => rfl
    | some u => exact absurd ⟨u, (hf y u).mp hu⟩ (hbefore y hy)

theorem exists_firstOf_iff : (∃ x, FirstOf P xs x) ↔ ∃ x ∈ xs, P x := by
  classical
  refine ⟨fun ⟨x, hx⟩ => ⟨x, hx.mem, hx.holds⟩, fun ⟨x, hx, hP⟩ => ?_⟩
  have hsome : (xs.find? fun y => decide (P y)).isSome = true :=
    List.find?_isSome.mpr ⟨x, hx, decide_eq_true hP⟩
  obtain ⟨y, hy⟩ := Option.isSome_iff_exists.mp hsome
  exact ⟨y, find?_decide_eq_some_iff.mp hy⟩

/-- The first element of several lists is that of the first list that has one. -/
theorem firstOf_flatMap {g : β → List α} {ys : List β} :
    FirstOf P (ys.flatMap g) x ↔
      ∃ y, FirstOf (fun y => ∃ z ∈ g y, P z) ys y ∧ FirstOf P (g y) x := by
  classical
  rw [← find?_decide_eq_some_iff, List.find?_flatMap,
    findSome?_eq_some_iff_firstOf fun _ _ => find?_decide_eq_some_iff]
  simp only [exists_firstOf_iff]

/-- If the first element with a property has a stronger one, too, it is the first with that. -/
theorem firstOf_iff_of_imp (himp : ∀ y ∈ xs, Q y → P y) (hfirst : ∀ y, FirstOf P xs y → Q y) :
    FirstOf P xs x ↔ FirstOf Q xs x := by
  have hto {y : α} (hy : FirstOf P xs y) : FirstOf Q xs y := by
    obtain ⟨before, after, hsplit, -, hbefore⟩ := id hy
    refine ⟨before, after, hsplit, hfirst y hy, fun z hz hQ => hbefore z hz (himp z ?_ hQ)⟩
    exact hsplit ▸ List.mem_append_left _ hz
  refine ⟨hto, fun hx => ?_⟩
  obtain ⟨y, hy⟩ := exists_firstOf_iff.mpr ⟨x, hx.mem, himp x hx.mem hx.holds⟩
  rwa [hx.unique (hto hy)]

end

/-! ## Declarations -/

def Declaration.IsNamed (name : String) (d : Declaration) : Prop :=
  d.name = name ∧ d.isNameless = false

/-- The place of a shape among those that answer to a name, best first. -/
def Shape.standing : Shape → Nat
  | .classDecl _ => 0
  | .interface => 1
  | .function _ => 2
  | .defaultExport (.callable _) => 2
  | .enum => 3
  | .variable _ => 4
  | .defaultExport (.identifier ..) => 5

/-- The first declaration of that name whose shape no other one's is better than. -/
def BestOf (name : String) (ds : List Declaration) (x : Declaration) : Prop :=
  FirstOf (fun d => d.IsNamed name ∧
    ∀ e ∈ ds, e.IsNamed name → d.shape.standing ≤ e.shape.standing) ds x

def ShapeRank.standing : ShapeRank → Nat
  | .classDecl => 0
  | .interface => 1
  | .function => 2
  | .enum => 3
  | .variable => 4

theorem ShapeRank.eq_of_standing_eq {r s : ShapeRank} (h : r.standing = s.standing) : r = s := by
  revert h
  cases r <;> cases s <;> decide

theorem Shape.standing_of_rank? {s : Shape} {rank : ShapeRank} (h : s.rank? = some rank) :
    s.standing = rank.standing := by
  cases s with
  | defaultExport target => cases target <;> cases h; rfl
  | _ => cases h; rfl

/-- A rank that is not among the better ones is no better. -/
theorem ShapeRank.standing_le {better worse : List ShapeRank} {rank r : ShapeRank}
    (horder : ShapeRank.inOrder = better ++ rank :: worse) (hr : r ∈ ShapeRank.inOrder)
    (hnot : r ∉ better) : rank.standing ≤ r.standing := by
  have hasc : ShapeRank.inOrder.Pairwise fun r s => r.standing < s.standing := by decide
  rw [horder, List.pairwise_append, List.pairwise_cons] at hasc
  rw [horder, List.mem_append, List.mem_cons] at hr
  rcases hr.resolve_left hnot with rfl | hworse
  · exact Nat.le_refl _
  · exact Nat.le_of_lt (hasc.2.1.1 r hworse)

namespace Atlas

variable {a : Atlas} {path name : String}

theorem bestOf_of_declared? {ds : List Declaration} {x : Declaration}
    (h : declared? name ds = some x) : BestOf name ds x := by
  obtain ⟨better, rank, worse, horder, hfind, hbetter⟩ := List.findSome?_eq_some_iff.mp h
  obtain ⟨before, after, hsplit, hx, hbefore⟩ := find?_eq_some_iff_firstOf.mp hfind
  simp only [Bool.and_eq_true, decide_eq_true_eq, Bool.not_eq_true'] at hx hbefore
  obtain ⟨hnamed, hrank⟩ := hx
  have hleast : ∀ e ∈ ds, e.IsNamed name → x.shape.standing ≤ e.shape.standing := by
    intro e he hen
    obtain ⟨r, hr, her⟩ := exists_rank_of_named hen.2
    rw [Shape.standing_of_rank? hrank, Shape.standing_of_rank? her]
    refine ShapeRank.standing_le horder hr fun hb => ?_
    have hnone := List.find?_eq_none.mp (hbetter r hb) e he
    simp [hen.1, hen.2, her] at hnone
  refine ⟨before, after, hsplit, ⟨hnamed, hleast⟩, ?_⟩
  -- One before it that is no worse has its rank, and the search would have stopped there.
  rintro y hy ⟨hyn, hymin⟩
  have hyds : y ∈ ds := hsplit ▸ List.mem_append_left _ hy
  have hxds : x ∈ ds := hsplit ▸ List.mem_append_right _ List.mem_cons_self
  have heq : y.shape.standing = x.shape.standing :=
    Nat.le_antisymm (hymin x hxds hnamed) (hleast y hyds hyn)
  obtain ⟨r, -, hyr⟩ := exists_rank_of_named hyn.2
  rw [Shape.standing_of_rank? hyr, Shape.standing_of_rank? hrank] at heq
  rw [ShapeRank.eq_of_standing_eq heq] at hyr
  exact hbefore y hy ⟨hyn, hyr⟩

theorem declared?_eq_some_iff {x : Declaration} :
    declared? name (a.moduleDeclarations path) = some x ↔
      BestOf name (a.moduleDeclarations path) x := by
  refine ⟨bestOf_of_declared?, fun hbest => ?_⟩
  cases hfound : declared? name (a.moduleDeclarations path) with
  | none => exact absurd ⟨x, hbest.mem, hbest.holds.1⟩ (declared?_eq_none_iff.mp hfound)
  | some y => rw [(bestOf_of_declared? hfound).unique hbest]

/-! ## Default exports and files -/

/-- A default export of that name, and what it leads to. -/
def ExportsTo (a : Atlas) (name : String) (e x : Declaration) : Prop :=
  (∃ wrapper, e.shape = .defaultExport (.identifier name wrapper)) ∧
    a.source.exportTarget e = some x

/-- What a file has for a name: its best declaration, or without one the target of the
first default export that has a target. -/
def DefinedIn (a : Atlas) (name path : String) (x : Declaration) : Prop :=
  BestOf name (a.moduleDeclarations path) x ∨
    (¬ a.Declares path name ∧
      ∃ e, FirstOf (fun e => ∃ y, a.ExportsTo name e y) (a.moduleDeclarations path) e ∧
        a.ExportsTo name e x)

/-- A file that declares the name, or exports it by default with a target. -/
def Decides (a : Atlas) (name path : String) : Prop :=
  a.Declares path name ∨ ∃ e ∈ a.moduleDeclarations path, ∃ x, a.ExportsTo name e x

theorem exported?_eq_some_iff {ds : List Declaration} {x : Declaration} :
    a.exported? name ds = some x ↔
      ∃ e, FirstOf (fun e => ∃ y, a.ExportsTo name e y) ds e ∧ a.ExportsTo name e x := by
  refine findSome?_eq_some_iff_firstOf fun e y => ?_
  unfold ExportsTo
  split
  · next target wrapper hshape =>
    by_cases htarget : target = name
    · simp [hshape, htarget]
    · simp [hshape, htarget]
  · next hshape =>
    constructor
    · intro h
      cases h
    · rintro ⟨⟨wrapper, he⟩, -⟩
      exact absurd he (hshape name wrapper)

theorem definedIn?_eq_some_iff {x : Declaration} :
    a.definedIn? name path = some x ↔ a.DefinedIn name path x := by
  unfold definedIn? DefinedIn
  rw [Option.or_eq_some_iff, declared?_eq_some_iff, exported?_eq_some_iff,
    declared?_eq_none_iff]

theorem exists_definedIn_iff : (∃ x, a.DefinedIn name path x) ↔ a.Decides name path := by
  constructor
  · rintro ⟨x, hbest | ⟨-, e, he, hx⟩⟩
    · exact Or.inl ⟨x, hbest.mem, hbest.holds.1⟩
    · exact Or.inr ⟨e, he.mem, x, hx⟩
  · intro h
    have hsome : a.definedIn? name path ≠ none := by
      intro hnone
      obtain ⟨hdecl, hexp⟩ := Option.or_eq_none_iff.mp hnone
      rcases h with hnamed | ⟨e, he, x, hx⟩
      · exact declared?_eq_none_iff.mp hdecl hnamed
      · have hskipped := List.findSome?_eq_none_iff.mp hexp e he
        obtain ⟨⟨wrapper, hshape⟩, htarget⟩ := hx
        simp [hshape, htarget] at hskipped
    obtain ⟨x, hx⟩ := Option.ne_none_iff_exists'.mp hsome
    exact ⟨x, definedIn?_eq_some_iff.mp hx⟩

theorem findModuleDefinition?_eq_some_iff {s : Definition} :
    a.findModuleDefinition? name = some s ↔
      ∃ f x, FirstOf (fun f => a.Decides name f.path) a.files f ∧ a.DefinedIn name f.path x ∧
        s = .declaration x := by
  have hfirst (x : Declaration) : (a.files.findSome? fun f => a.definedIn? name f.path) = some x ↔
      ∃ f, FirstOf (fun f => a.Decides name f.path) a.files f ∧ a.DefinedIn name f.path x := by
    rw [findSome?_eq_some_iff_firstOf fun f x => definedIn?_eq_some_iff]
    simp only [exists_definedIn_iff]
  rw [findModuleDefinition?, Option.map_eq_some_iff]
  simp only [hfirst]
  constructor
  · rintro ⟨x, ⟨f, hf, hx⟩, rfl⟩
    exact ⟨f, x, hf, hx, rfl⟩
  · rintro ⟨f, x, hf, hx, rfl⟩
    exact ⟨x, ⟨f, hf, hx⟩, rfl⟩

theorem findModuleDefinition?_eq_none_iff :
    a.findModuleDefinition? name = none ↔ ∀ f ∈ a.files, ¬ a.Decides name f.path := by
  rw [findModuleDefinition?, Option.map_eq_none_iff, List.findSome?_eq_none_iff]
  refine forall₂_congr fun f _ => ?_
  rw [← exists_definedIn_iff, Option.eq_none_iff_forall_ne_some, not_exists]
  exact forall_congr' fun x => not_congr definedIn?_eq_some_iff

/-! ## Members -/

/-- The members of all classes, by file, declaration and place in the class. -/
def members (a : Atlas) : List Definition :=
  a.declarations.flatMap fun d => d.members.map (.member d)

/-- A member of that name, in a class called `owner` if one is given. -/
def MemberNamed (owner : Option String) (name : String) (s : Definition) : Prop :=
  s.name = name ∧ ∀ o, owner = some o → s.owner? = some o

instance (owner : Option String) (name : String) (s : Definition) :
    Decidable (MemberNamed owner name s) :=
  inferInstanceAs (Decidable (s.name = name ∧ ∀ o, owner = some o → s.owner? = some o))

theorem find?_members (owner : Option String) (name : String) (d : Declaration) :
    ((d.members.map (.member d)).find? fun s => MemberNamed owner name s) =
      if owner.all fun o => d.name = o then memberNamed? name d else none := by
  rw [List.find?_map, memberNamed?, Function.comp_def]
  cases owner with
  | none => simp [MemberNamed, Definition.name]
  | some o =>
    by_cases ho : d.name = o
    · simp [MemberNamed, Definition.name, Definition.owner?, ho]
    · simp [MemberNamed, Definition.name, Definition.owner?, ho]

/-- Searching class by class is searching the list of all members. -/
theorem findMember?_eq_find? (owner : Option String) (name : String) :
    a.findMember? owner name = a.members.find? fun s => MemberNamed owner name s := by
  unfold findMember? members
  rw [List.find?_flatMap]
  induction a.declarations with
  | nil => rfl
  | cons d ds ih =>
    rw [List.findSome?_cons, find?_members, ← ih]
    by_cases hd : (owner.all fun o => d.name = o) = true
    · rw [if_pos hd, List.filter_cons, if_pos hd, List.findSome?_cons]
    · rw [if_neg hd, List.filter_cons, if_neg hd]

theorem findMember?_eq_some_iff {owner : Option String} {s : Definition} :
    a.findMember? owner name = some s ↔ FirstOf (MemberNamed owner name) a.members s := by
  rw [findMember?_eq_find?, find?_eq_some_iff_firstOf]
  exact firstOf_congr fun s => decide_eq_true_iff

theorem findMember?_eq_none_iff {owner : Option String} :
    a.findMember? owner name = none ↔ ∀ s ∈ a.members, ¬ MemberNamed owner name s := by
  rw [findMember?_eq_find?, List.find?_eq_none]
  simp only [decide_eq_true_eq]

/-! ## The order of precedence -/

theorem findDefinition_eq_error_iff :
    a.findDefinition name = .error (.missing name) ↔ a.findDefinition? name = none := by
  unfold findDefinition
  cases a.findDefinition? name with
  | none => simp
  | some d => simp

theorem findDefinition?_plain (h : '.' ∉ name.toList) :
    a.findDefinition? name = (a.findModuleDefinition? name).or (a.findMember? none name) := by
  rw [findDefinition?, Text.cutFirst?_singleton_eq_none_iff.mpr h]

theorem findDefinition?_dotted {owner : String} (h : '.' ∉ owner.toList) (member : String) :
    a.findDefinition? (owner ++ "." ++ member) = a.findMember? (some owner) member := by
  rw [findDefinition?, toList_dotted, Text.cutFirst?_append h]
  show a.findMember? (some (String.ofList owner.toList)) (String.ofList member.toList) = _
  rw [String.ofList_toList, String.ofList_toList]

/-- A name without a dot stands for what the first file that decides it has for it: the
first declaration of the best shape, or else the target of the first default export with
one.  If no file decides it, it stands for the first member of that name, and if there is
none, for nothing.  A name with a dot stands for the first member of the name behind its
first dot in a class of the name before it, or for nothing, whatever is declared under
the whole name. -/
theorem findDefinition_by_precedence (a : Atlas) :
    (∀ name, '.' ∉ name.toList →
      (∀ s, a.findDefinition name = .ok s ↔
        (∃ f x, FirstOf (fun f => a.Decides name f.path) a.files f ∧
          a.DefinedIn name f.path x ∧ s = .declaration x) ∨
        ((∀ f ∈ a.files, ¬ a.Decides name f.path) ∧
          FirstOf (MemberNamed none name) a.members s)) ∧
      (a.findDefinition name = .error (.missing name) ↔
        (∀ f ∈ a.files, ¬ a.Decides name f.path) ∧
          ∀ s ∈ a.members, ¬ MemberNamed none name s)) ∧
    ∀ owner member, '.' ∉ owner.toList →
      (∀ s, a.findDefinition (owner ++ "." ++ member) = .ok s ↔
        FirstOf (MemberNamed (some owner) member) a.members s) ∧
      (a.findDefinition (owner ++ "." ++ member) = .error (.missing (owner ++ "." ++ member)) ↔
        ∀ s ∈ a.members, ¬ MemberNamed (some owner) member s) := by
  refine ⟨fun name hplain => ⟨fun s => ?_, ?_⟩, fun owner member howner => ⟨fun s => ?_, ?_⟩⟩
  · rw [findDefinition_eq_ok_iff, findDefinition?_plain hplain, Option.or_eq_some_iff,
      findModuleDefinition?_eq_some_iff, findModuleDefinition?_eq_none_iff,
      findMember?_eq_some_iff]
  · rw [findDefinition_eq_error_iff, findDefinition?_plain hplain, Option.or_eq_none_iff,
      findModuleDefinition?_eq_none_iff, findMember?_eq_none_iff]
  · rw [findDefinition_eq_ok_iff, findDefinition?_dotted howner, findMember?_eq_some_iff]
  · rw [findDefinition_eq_error_iff, findDefinition?_dotted howner, findMember?_eq_none_iff]

end Atlas

/-- A variable whose name has a dot in it, a member of that last name in another class,
and a class of that first name without it. -/
def depotSketches : List FileSketch :=
  [{ path := "depot.ts", generated := false
     items := [.variable "Store.save", .classDecl "Depot" [.method "save" []],
       .classDecl "Store" [.method "load" []]] }]

theorem findDefinition_of_dotted_variable :
    (∃ d ∈ (Atlas.ofSketches depotSketches {}).moduleDeclarations "depot.ts",
      d.name = "Store.save" ∧ d.isNameless = false) ∧
    (Atlas.ofSketches depotSketches {}).findDefinition "Store.save" =
      .error (.missing "Store.save") := by
  have hdotted : "Store" ++ "." ++ "save" = "Store.save" := by decide
  have hnone : ∀ s ∈ (Atlas.ofSketches depotSketches {}).members,
      ¬ Atlas.MemberNamed (some "Store") "save" s := by decide +kernel
  have hmissing := ((Atlas.findDefinition_by_precedence
    (Atlas.ofSketches depotSketches {})).2 "Store" "save" (by decide)).2.mpr hnone
  rw [hdotted] at hmissing
  exact ⟨by decide +kernel, hmissing⟩

end SymbolAtlas
