/-
What is called from another file is not unused.

The call graph reads the bodies of a program and the search for unused symbols
reads its mentions.  An edge is the site of a body, `sites` of that body; every
site is mentioned in the file of the body under the name that is called, because
the workspace is sound; and the look-up of the callee's references asks for just
that name.  So an edge from another file is a reference, and it counts.
-/
import SymbolAtlas.Proofs.Graph.Sites
import SymbolAtlas.Proofs.Lookup.Origin
import SymbolAtlas.Source.Draft
import SymbolAtlas.Unused

namespace SymbolAtlas

/-! ## The name that is looked up -/

/-- The last name of a callee: what stands behind its last dot. -/
def calledName (callee : String) : String :=
  String.ofList (Naming.Rules.lastSegment callee.toList)

theorem calledName_of_plain {callee : String} (h : '.' ∉ callee.toList) :
    calledName callee = callee := by
  rw [calledName, Naming.Rules.lastSegment, Text.cutLast?_eq_none_iff.mpr h]
  exact String.ofList_toList

theorem toList_dotted (object property : String) :
    (object ++ "." ++ property).toList = object.toList ++ '.' :: property.toList := by
  rw [String.toList_append, String.toList_append, List.append_assoc]
  rfl

theorem calledName_dotted (object : String) {property : String} (h : '.' ∉ property.toList) :
    calledName (object ++ "." ++ property) = property := by
  rw [calledName, Naming.Rules.lastSegment, toList_dotted, Text.cutLast?_append _ h]
  exact String.ofList_toList

theorem lookupName_member (name : String) (o : Declaration) (m : Member) :
    (Definition.member o m).lookupName name = calledName name := by
  unfold Definition.lookupName calledName Naming.Rules.lastSegment
  cases Text.cutLast? '.' name.toList with
  | none => exact String.ofList_toList.symm
  | some halves => rfl

/-- Whatever a name is found to stand for, its references are looked up by its
last name: a declaration is found by a name without dots only. -/
theorem Atlas.lookupName_of_findDefinition? {a : Atlas} {name : String} {d : Definition}
    (h : a.findDefinition? name = some d) : d.lookupName name = calledName name := by
  by_cases hdot : '.' ∈ name.toList
  · obtain ⟨o, m, rfl⟩ := exists_member_of_dotted hdot h
    exact lookupName_member name o m
  · cases d with
    | declaration x => exact (calledName_of_plain hdot).symm
    | member o m => exact lookupName_member name o m

/-! ## The mention of a site -/

/-- An occurrence in this role is a reference, whatever is referred to. -/
def Role.Counts (role : Role) : Prop := ∀ importsCount, (role.judge importsCount).2 = true

/-- A callee whose last name is the name that its call mentions. -/
def Edge.PlainCallee (e : Edge) : Prop :=
  '.' ∉ e.callee.toList ∨ (e.kind = .methodCall ∧ e.callee.toList.count '.' = 1)

namespace ScanUnit

variable {u : ScanUnit}

theorem reach_member (object property : String) :
    u.reach (.member object property) = (property, .hook) ∨
      ∃ owner, u.reach (.member object property) = (owner ++ "." ++ property, .methodCall) := by
  simp only [reach]
  split
  · next owner _ _ => exact Or.inr ⟨owner, rfl⟩
  · split
    · exact Or.inl rfl
    · exact Or.inr ⟨object, rfl⟩

theorem calledName_callSite {c : CallSite} {e : Edge} (h : u.callSite? c = some e)
    (hplain : e.PlainCallee) : calledName e.callee = c.target.callee := by
  unfold callSite? at h
  split at h
  · cases h
  · cases h
    cases ht : c.target with
    | name name =>
      rw [ht] at hplain
      rcases hplain with hdot | ⟨hkind, -⟩
      · exact calledName_of_plain hdot
      · simp only [reach] at hkind
        split at hkind <;> cases hkind
    | member object property =>
      rw [ht] at hplain
      show calledName (u.reach (.member object property)).1 = property
      rcases reach_member (u := u) object property with hr | ⟨owner, hr⟩
      · rw [hr] at hplain ⊢
        rcases hplain with hdot | ⟨hkind, -⟩
        · exact calledName_of_plain hdot
        · cases hkind
      · rw [hr] at hplain ⊢
        unfold Edge.PlainCallee at hplain
        rw [toList_dotted] at hplain
        refine calledName_dotted owner ?_
        rcases hplain with hdot | ⟨-, hone⟩
        · simp at hdot
        · rw [List.count_append, List.count_cons_self] at hone
          rw [← List.count_eq_zero]
          omega

theorem counts_role {c : CallSite} {e : Edge} (h : u.callSite? c = some e) : c.role.Counts := by
  unfold callSite? at h
  split at h
  · cases h
  · next hnew =>
    unfold CallSite.role
    cases c.target with
    | name name =>
      simp only [if_neg hnew]
      exact fun _ => rfl
    | member object property => exact fun _ => rfl

/-- A site of a body whose calls and elements are mentioned is mentioned itself, by
the last name of its callee and in a role that counts. -/
theorem mentions_site {w : Workspace} (hbody : u.body.Recorded w u.file) {e : Edge}
    (he : e ∈ u.sites) (hplain : e.PlainCallee) :
    e.location.file = u.file ∧
      ∃ role : Role, role.Counts ∧ w.Mentions u.file (calledName e.callee) role := by
  rcases List.mem_append.mp he with hcall | hrender
  · obtain ⟨c, hc, hsite⟩ := List.mem_flatMap.mp hcall
    rw [Option.mem_toList] at hsite
    have hfile : e.location.file = u.file := by
      unfold callSite? at hsite
      split at hsite
      · cases hsite
      · cases hsite
        rfl
    refine ⟨hfile, c.role, counts_role hsite, ?_⟩
    rw [calledName_callSite hsite hplain]
    exact hbody.calls c hc
  · obtain ⟨m, hm, hsite⟩ := List.mem_flatMap.mp hrender
    unfold renderSites at hsite
    split at hsite
    · obtain ⟨caller, -, rfl⟩ := List.mem_map.mp hsite
      refine ⟨rfl, .markupTag, fun _ => rfl, ?_⟩
      rcases hplain with hdot | ⟨hkind, -⟩
      · rw [calledName_of_plain hdot]
        exact hbody.markup m hm
      · cases hkind
    · cases hsite

end ScanUnit

/-! ## The body of a site -/

namespace Atlas

variable {a : Atlas}

theorem mem_callables_of_registered {d : Declaration} {c : Callable}
    (h : a.registeredCallable? d = some c) : c ∈ d.shape.callables := by
  unfold registeredCallable? at h
  split at h
  · next hshape =>
    cases h
    rw [hshape]
    exact List.mem_singleton_self c
  · next hshape =>
    cases h
    rw [hshape]
    exact List.mem_singleton_self c
  · next hshape =>
    simp only at h
    split at h
    · cases h
      rw [hshape]
      exact List.mem_singleton_self c
    · cases h
  · cases h

theorem of_mem_units {d : Declaration} {u : ScanUnit} (h : u ∈ a.units d) :
    u.file = d.file ∧ ∃ c ∈ d.shape.callables, u.body = c.body := by
  unfold units at h
  split at h
  · next shape hshape =>
    obtain ⟨m, hm, hu⟩ := List.mem_filterMap.mp h
    obtain ⟨c, hc, rfl⟩ := Option.map_eq_some_iff.mp hu
    rw [Declaration.members, hshape] at hm
    refine ⟨rfl, c, ?_, rfl⟩
    rw [hshape]
    exact List.mem_filterMap.mpr ⟨m, hm, hc⟩
  · obtain ⟨c, hc, rfl⟩ := List.mem_map.mp h
    exact ⟨rfl, c, mem_callables_of_registered (Option.mem_toList.mp hc), rfl⟩

/-- An edge comes from a file that is looked at, and that file mentions the callee. -/
theorem mentions_edge {w : Workspace} (hw : w.Sound) (ha : a.source = w.snapshot) {e : Edge}
    (he : e ∈ a.callGraph.edgeList) (hplain : e.PlainCallee) :
    ∃ f ∈ a.files, f.path = e.location.file ∧
      ∃ role : Role, role.Counts ∧ w.Mentions f.path (calledName e.callee) role := by
  obtain ⟨u, hu, hsite⟩ := exists_site_of_mem_edgeList he
  obtain ⟨d, hd, hunit⟩ := List.mem_flatMap.mp hu
  obtain ⟨f, hf, hin⟩ := mem_declarations_iff.mp (List.mem_filter.mp hd).1
  rw [ha] at hin
  obtain ⟨hmem, hpath⟩ := Workspace.mem_declarationsIn_iff.mp hin
  obtain ⟨hfile, c, hc, hbody⟩ := of_mem_units hunit
  have hrec : u.body.Recorded w u.file := by
    rw [hbody, hfile]
    exact (hw.recorded d hmem).bodies c hc
  obtain ⟨hloc, role, hcounts, hmention⟩ := ScanUnit.mentions_site hrec hsite hplain
  have hfu : u.file = f.path := hfile.trans hpath
  exact ⟨f, hf, (hloc.trans hfu).symm, role, hcounts, hfu ▸ hmention⟩

/-! ## References -/

/-- A mention in another file counts as a reference unless it is the definition's
own. -/
theorem isUnreferenced_of_mention {w : Workspace} (ha : a.source = w.snapshot) {name : String}
    {d : Definition} {f : SourceFile} (hf : f ∈ a.files) (hfile : f.path ≠ d.file)
    {m : Mention} (hm : m ∈ w.mentions) (hmfile : m.file = f.path)
    (hname : m.name = d.lookupName name) (hcounts : m.occurrence.role.Counts)
    (hhandle : m.occurrence.handle ≠ d.handle) : a.isUnreferenced name d = false := by
  have hocc : m.occurrence ∈ a.source.occurrences f.path (d.lookupName name) := by
    rw [ha]
    refine List.mem_map_of_mem (List.mem_filter.mpr ⟨hm, ?_⟩)
    exact decide_eq_true ⟨hmfile, hname⟩
  have hjudge : (m.occurrence.judge d.handle (a.importsCount d)).2 = true := by
    rw [NameOccurrence.judge, if_neg hhandle]
    exact hcounts _
  let o : Occurrence :=
    { location := m.occurrence.position.inFile f.path
      context := a.source.contextOf m.occurrence.handle
      kind := (m.occurrence.judge d.handle (a.importsCount d)).1
      valid := (m.occurrence.judge d.handle (a.importsCount d)).2 }
  have ho : o ∈ a.allOccurrences name d false := by
    refine List.mem_flatMap.mpr ⟨f, List.mem_filter.mpr ⟨hf, ?_⟩, ?_⟩
    · rw [Bool.false_or]
      exact decide_eq_true hfile
    · exact List.mem_map.mpr ⟨m.occurrence, hocc, rfl⟩
  have hvalid : o ∈ (a.allOccurrences name d false).filter Occurrence.valid :=
    List.mem_filter.mpr ⟨ho, hjudge⟩
  rw [isUnreferenced, collectReferences, List.isEmpty_eq_false_iff]
  -- The first occurrence stays, whatever the places of the others.
  generalize (a.allOccurrences name d false).filter Occurrence.valid = os at hvalid
  cases os with
  | nil => cases hvalid
  | cons o' os => exact List.cons_ne_nil _ _

end Atlas

/-- A symbol that the call graph of a program shows being called, used as a hook or
rendered from another file than its own is never reported as unused. -/
theorem isUnused_of_edge_from_elsewhere (sketches : List FileSketch) (settings : Settings)
    (e : Edge) (d : Definition)
    (he : e ∈ (Atlas.ofSketches sketches settings).callGraph.edgeList)
    (hplain : '.' ∉ e.callee.toList ∨ (e.kind = .methodCall ∧ e.callee.toList.count '.' = 1))
    (hd : (Atlas.ofSketches sketches settings).findDefinition e.callee = .ok d)
    (hfile : e.location.file ≠ d.file) :
    (Atlas.ofSketches sketches settings).isUnused e.callee = .ok false := by
  let w := Workspace.ofSketches sketches
  have hw : w.Sound := Workspace.sound_ofSketches sketches
  have ha : (Atlas.ofSketches sketches settings).source = w.snapshot := rfl
  have hfound : (Atlas.ofSketches sketches settings).findDefinition? e.callee = some d :=
    Atlas.findDefinition_eq_ok_iff.mp hd
  obtain ⟨f, hf, hpath, role, hcounts, m, hm, hmfile, hmname, hrole⟩ :=
    Atlas.mentions_edge hw ha he hplain
  obtain ⟨own, hown, hownfile, hownhandle⟩ := hw.holds_definition ha hfound
  have hother : f.path ≠ d.file := hpath ▸ hfile
  -- Two mentions with one handle are one mention, and these are in different files.
  have hhandle : m.occurrence.handle ≠ d.handle := by
    intro hsame
    have hmo : m = own := hw.numbered.eq_of_handle_eq hm hown (hsame.trans hownhandle.symm)
    exact hother (by rw [← hmfile, hmo, hownfile])
  have hname : m.name = d.lookupName e.callee := by
    rw [hmname, Atlas.lookupName_of_findDefinition? hfound]
  rw [Atlas.isUnused, hd]
  exact congrArg Except.ok
    (Atlas.isUnreferenced_of_mention ha hf hother hm hmfile hname (hrole ▸ hcounts) hhandle)

/-- A store, and a component that saves it from inside the markup of another file. -/
def storeSketches : List FileSketch :=
  [{ path := "lib.ts", generated := false
     items := [.classDecl "Store" [.method "save" []], .function "Panel" []] },
   { path := "app.ts", generated := false
     items := [.function "App" [.renderWith "Panel" [.callMember "Store" "save"]]] }]

def saveSite : Edge :=
  { caller := "App", callee := "Store.save"
    location := { file := "app.ts", line := 3, column := 1 }, kind := .methodCall }

theorem isUnused_save_of_edge :
    ∃ d, saveSite ∈ (Atlas.ofSketches storeSketches {}).callGraph.edgeList ∧
      (saveSite.kind = .methodCall ∧ saveSite.callee.toList.count '.' = 1) ∧
      (Atlas.ofSketches storeSketches {}).findDefinition saveSite.callee = .ok d ∧
      saveSite.location.file ≠ d.file ∧
      (Atlas.ofSketches storeSketches {}).isUnused saveSite.callee = .ok false := by
  have he : saveSite ∈ (Atlas.ofSketches storeSketches {}).callGraph.edgeList := by
    decide +kernel
  have hplain : saveSite.kind = .methodCall ∧ saveSite.callee.toList.count '.' = 1 := by
    decide +kernel
  have hfound : ((Atlas.ofSketches storeSketches {}).findDefinition? saveSite.callee).map
      Definition.file = some "lib.ts" := by decide +kernel
  obtain ⟨d, hd, hlib⟩ := Option.map_eq_some_iff.mp hfound
  have hok := Atlas.findDefinition_eq_ok_iff.mpr hd
  have hfile : saveSite.location.file ≠ d.file := by
    rw [hlib]
    decide
  exact ⟨d, he, hplain, hok, hfile,
    isUnused_of_edge_from_elsewhere storeSketches {} saveSite d he (Or.inr hplain) hok hfile⟩

end SymbolAtlas
