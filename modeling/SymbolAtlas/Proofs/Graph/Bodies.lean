/-
The sites of a program, by declaration.

The builder of the graph lists units, registers them and scans them one after the
other.  `siteList` says which calls and elements of a program count, whom they go
to and in which order, from the declarations alone: nothing is registered and no
graph is at hand.  `siteList_eq` says that the units have just these sites, and
`keys_registrations` that they are registered under the keys of the bodies.
-/
import SymbolAtlas.Proofs.Graph.Sites
import Mathlib.Data.List.Basic

namespace SymbolAtlas

/-! ## The sites of a program -/

namespace Declaration

def isClass (d : Declaration) : Bool :=
  match d.shape with
  | .classDecl _ => true
  | _ => false

/-- Whom a call in a body of the declaration goes to, and how.  Inside a class
`this` is the class; everywhere else it is an object like any other, and a hook is
known by its name whatever object it is called on. -/
def calleeOf (d : Declaration) : CallTarget → String × EdgeKind
  | .name name => if Naming.isHookName name then (name, .hook) else (name, .call)
  | .member object property =>
    if d.isClass ∧ object = "this" then (d.name ++ "." ++ property, .methodCall)
    else if Naming.isHookName property then (property, .hook)
    else (object ++ "." ++ property, .methodCall)

/-- The calls of a body that stands under `key`; making an instance is none. -/
def callSites (d : Declaration) (key : String) (body : Body) : List Edge :=
  (body.calls.filter fun c => !c.isNew).map fun c =>
    { caller := key, callee := (d.calleeOf c.target).1, location := c.position.inFile d.file,
      kind := (d.calleeOf c.target).2 }

end Declaration

namespace Atlas

variable (a : Atlas)

/-- The bodies that a declaration brings into the graph, each under its key. -/
def bodiesOf (d : Declaration) : List (String × Body) :=
  match d.shape with
  | .function c | .defaultExport (.callable c) => [(d.name, c.body)]
  | .variable (some c) =>
    if (a.kindOf d).isComponent ∨ (a.kindOf d).isHook then [(d.name, c.body)] else []
  | .classDecl shape =>
    shape.members.filterMap fun m => m.callable.map fun c => (d.name ++ "." ++ m.name, c.body)
  | .variable none | .defaultExport (.identifier ..) | .interface | .enum => []

/-- The capitalised elements of a body that stands under `key`.  What a member of a
class component renders is rendered by the class as well. -/
def elementSites (d : Declaration) (key : String) (body : Body) : List Edge :=
  (body.markup.filter fun e => Naming.startsUpper e.tag).flatMap fun e =>
    (if a.kindOf d = .classComponent then [key, d.name] else [key]).map fun caller =>
      { caller := caller, callee := e.tag, location := e.position.inFile d.file, kind := .render }

def sitesOf (d : Declaration) : List Edge :=
  (a.bodiesOf d).flatMap fun b => d.callSites b.1 b.2 ++ a.elementSites d b.1 b.2

/-- All sites of a program: by file, declaration and body, and in a body the calls
before the markup. -/
def siteList : List Edge := a.graphDeclarations.flatMap a.sitesOf

/-- The keys that a declaration enters before any body is scanned, its own first. -/
def keysOf (d : Declaration) : List String :=
  (if d.isClass then [d.name] else []) ++ (a.bodiesOf d).map Prod.fst

def registeredKeys : List String := a.graphDeclarations.flatMap a.keysOf

/-! ## Registered bodies -/

def unitOf (d : Declaration) (b : String × Body) : ScanUnit :=
  { caller := b.1, file := d.file, body := b.2
    owner := if d.isClass then some d.name else none
    renderOwner := if a.kindOf d = .classComponent then some d.name else none }

theorem ne_classComponent_of_classifyCallable {r : Naming.Rules}
    {typeOf : Parameter → Option String} {name : String} {c : Callable} {plain : SymbolKind}
    (h : plain ≠ .classComponent) : r.classifyCallable typeOf name c plain ≠ .classComponent := by
  unfold Naming.Rules.classifyCallable
  split
  · decide
  · split
    · decide
    · exact h

/-- Only classes are class components, among the declarations that have bodies. -/
theorem isClass_of_classComponent {d : Declaration} {b : String × Body} (hb : b ∈ a.bodiesOf d)
    (h : a.kindOf d = .classComponent) : d.isClass = true := by
  match hshape : d.shape with
  | .classDecl _ => rw [Declaration.isClass, hshape]
  | .function c | .defaultExport (.callable c) | .variable (some c) =>
    simp only [kindOf, Naming.Rules.classifyIn, Naming.Rules.classifyWith, hshape] at h
    exact absurd h (ne_classComponent_of_classifyCallable (by decide))
  | .variable none | .defaultExport (.identifier ..) | .interface | .enum =>
    rw [bodiesOf, hshape] at hb
    cases hb

theorem unitOf_of_not_class {d : Declaration} {b : String × Body} (hb : b ∈ a.bodiesOf d)
    (hclass : d.isClass = false) :
    a.unitOf d b =
      { caller := b.1, file := d.file, body := b.2, owner := none, renderOwner := none } := by
  have hkind : a.kindOf d ≠ .classComponent := by
    intro h
    rw [a.isClass_of_classComponent hb h] at hclass
    cases hclass
  rw [unitOf, if_neg hkind, hclass]
  rfl

theorem exists_shape_of_isClass {d : Declaration} (h : d.isClass = true) :
    ∃ shape, d.shape = .classDecl shape := by
  unfold Declaration.isClass at h
  split at h
  · next shape hshape => exact ⟨shape, hshape⟩
  · cases h

theorem bodiesOf_of_not_class {d : Declaration} (h : d.isClass = false) :
    a.bodiesOf d = (a.registeredCallable? d).toList.map fun c => (d.name, c.body) := by
  match hshape : d.shape with
  | .classDecl shape =>
    rw [Declaration.isClass, hshape] at h
    cases h
  | .variable (some c) =>
    by_cases hkind : (a.kindOf d).isComponent ∨ (a.kindOf d).isHook
    · simp [bodiesOf, registeredCallable?, hshape, hkind]
    · simp [bodiesOf, registeredCallable?, hshape, hkind]
  | .function c | .defaultExport (.callable c) => simp [bodiesOf, registeredCallable?, hshape]
  | .variable none | .defaultExport (.identifier ..) | .interface | .enum =>
    simp [bodiesOf, registeredCallable?, hshape]

theorem units_eq (d : Declaration) : a.units d = (a.bodiesOf d).map (a.unitOf d) := by
  cases hclass : d.isClass with
  | true =>
    obtain ⟨shape, hshape⟩ := exists_shape_of_isClass hclass
    simp only [units, memberUnits, Declaration.members, bodiesOf, hshape, List.map_filterMap,
      Option.map_map]
    refine List.filterMap_congr fun m _ => Option.map_congr fun c _ => ?_
    simp only [Function.comp_apply, unitOf, hclass, if_true, Declaration.memberKey]
  | false =>
    have hunit : a.units d = (a.registeredCallable? d).toList.map fun c =>
        { caller := d.name, file := d.file, body := c.body, owner := none,
          renderOwner := none } := by
      unfold units
      split
      · next hshape =>
        rw [Declaration.isClass, hshape] at hclass
        cases hclass
      · rfl
    have hmap : (a.bodiesOf d).map (a.unitOf d) = (a.bodiesOf d).map fun b =>
        { caller := b.1, file := d.file, body := b.2, owner := none, renderOwner := none } :=
      List.map_congr_left fun b hb => a.unitOf_of_not_class hb hclass
    rw [hunit, hmap, a.bodiesOf_of_not_class hclass, List.map_map]
    rfl

theorem keys_registrations (d : Declaration) :
    (a.registrations d).map Registration.key = a.keysOf d := by
  unfold keysOf
  cases hclass : d.isClass with
  | true =>
    obtain ⟨shape, hshape⟩ := exists_shape_of_isClass hclass
    simp only [registrations, memberRegistrations, Declaration.members, bodiesOf, hshape,
      List.map_cons, List.map_filterMap, Option.map_map, if_true, List.singleton_append]
    rfl
  | false =>
    have hown : a.registrations d = (a.registeredCallable? d).toList.map fun _ =>
        { key := d.name, kind := a.kindOf d, location := d.location? } := by
      unfold registrations
      split
      · next hshape =>
        rw [Declaration.isClass, hshape] at hclass
        cases hclass
      · rfl
    rw [hown, a.bodiesOf_of_not_class hclass, List.map_map, List.map_map]
    rfl

/-! ## Sites of units -/

theorem reach_unitOf (d : Declaration) (b : String × Body) (t : CallTarget) :
    (a.unitOf d b).reach t = d.calleeOf t := by
  cases t with
  | name name =>
    simp only [ScanUnit.reach, Declaration.calleeOf]
    split <;> rfl
  | member object property =>
    simp only [ScanUnit.reach, Declaration.calleeOf, unitOf]
    cases d.isClass <;> by_cases hthis : object = "this" <;> simp [hthis]

theorem callSite?_unitOf (d : Declaration) (b : String × Body) (c : CallSite) :
    (a.unitOf d b).callSite? c =
      if c.isNew then none
      else some { caller := b.1, callee := (d.calleeOf c.target).1,
                  location := c.position.inFile d.file, kind := (d.calleeOf c.target).2 } := by
  rw [ScanUnit.callSite?, reach_unitOf]
  rfl

theorem dotted_ne (name member : String) : name ++ "." ++ member ≠ name := by
  intro h
  have hlength := congrArg String.length h
  simp only [String.length_append] at hlength
  have hdot : ".".length = 1 := by decide
  omega

theorem key_ne_of_class {d : Declaration} {b : String × Body} (hb : b ∈ a.bodiesOf d)
    (hclass : d.isClass = true) : b.1 ≠ d.name := by
  obtain ⟨shape, hshape⟩ := exists_shape_of_isClass hclass
  rw [bodiesOf, hshape] at hb
  obtain ⟨m, -, hm⟩ := List.mem_filterMap.mp hb
  obtain ⟨c, -, rfl⟩ := Option.map_eq_some_iff.mp hm
  exact dotted_ne d.name m.name

theorem renderers_unitOf {d : Declaration} {b : String × Body} (hb : b ∈ a.bodiesOf d) :
    (a.unitOf d b).renderers =
      if a.kindOf d = .classComponent then [b.1, d.name] else [b.1] := by
  unfold ScanUnit.renderers unitOf
  by_cases hkind : a.kindOf d = .classComponent
  · have hne := a.key_ne_of_class hb (a.isClass_of_classComponent hb hkind)
    simp [hkind, Ne.symm hne]
  · simp [hkind]

theorem sites_unitOf {d : Declaration} {b : String × Body} (hb : b ∈ a.bodiesOf d) :
    (a.unitOf d b).sites = d.callSites b.1 b.2 ++ a.elementSites d b.1 b.2 := by
  have hcalls : b.2.calls.flatMap (fun c => ((a.unitOf d b).callSite? c).toList) =
      d.callSites b.1 b.2 := by
    unfold Declaration.callSites
    induction b.2.calls with
    | nil => rfl
    | cons c cs ih =>
      rw [List.flatMap_cons, ih]
      cases hnew : c.isNew with
      | true => simp [callSite?_unitOf, hnew]
      | false => simp [callSite?_unitOf, hnew]
  have helements : b.2.markup.flatMap (a.unitOf d b).renderSites = a.elementSites d b.1 b.2 := by
    unfold elementSites
    induction b.2.markup with
    | nil => rfl
    | cons e es ih =>
      rw [List.flatMap_cons, ih, ScanUnit.renderSites, a.renderers_unitOf hb]
      cases hup : Naming.startsUpper e.tag with
      | true => simp [hup, unitOf]
      | false => simp [hup]
  exact congrArg₂ (· ++ ·) hcalls helements

theorem siteList_eq : a.scanUnits.flatMap ScanUnit.sites = a.siteList := by
  unfold scanUnits siteList sitesOf
  rw [List.flatMap_assoc]
  refine List.flatMap_congr fun d _ => ?_
  rw [units_eq, List.flatMap_map]
  exact List.flatMap_congr fun b hb => a.sites_unitOf hb

theorem caller_mem_registeredKeys {e : Edge} (he : e ∈ a.siteList) :
    e.caller ∈ a.registeredKeys := by
  obtain ⟨d, hd, hsite⟩ := List.mem_flatMap.mp he
  obtain ⟨b, hb, hsite⟩ := List.mem_flatMap.mp hsite
  have hbody : b.1 ∈ a.keysOf d := List.mem_append_right _ (List.mem_map_of_mem hb)
  refine List.mem_flatMap.mpr ⟨d, hd, ?_⟩
  rcases List.mem_append.mp hsite with hcall | helement
  · obtain ⟨c, -, rfl⟩ := List.mem_map.mp hcall
    exact hbody
  · obtain ⟨m, -, hrender⟩ := List.mem_flatMap.mp helement
    obtain ⟨caller, hcaller, rfl⟩ := List.mem_map.mp hrender
    split at hcaller
    · next hkind =>
      have hclass := a.isClass_of_classComponent hb hkind
      have hown : d.name ∈ a.keysOf d := by simp [keysOf, hclass]
      rcases List.mem_cons.mp hcaller with rfl | hcaller
      · exact hbody
      · rw [List.mem_singleton.mp hcaller]
        exact hown
    · rw [List.mem_singleton.mp hcaller]
      exact hbody

end Atlas
end SymbolAtlas
