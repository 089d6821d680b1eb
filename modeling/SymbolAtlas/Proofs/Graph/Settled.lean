/-
What the graph of a program knows of each symbol in the end.

A node may be made by a call that knows nothing of it, and learn its kind and place
later.  `Graph.notes` is what is known of a key, whether it is a node or not.  A
step of the scan tells something of a key only if it calls it as a hook or renders
it, and then it tells `lesson`, which depends on the key alone: a hook name is no
tag.  So what a run of steps leaves behind, `notes_foldl_take`, depends on which
steps are in it and not on their order, and `settledKind` reads it off the
registrations and the sites.
-/
import SymbolAtlas.Proofs.Graph.Discovery

namespace SymbolAtlas

/-! ## What is known of a key -/

namespace Graph

/-- The kind and place that are known of a key. -/
def notes (g : Graph) (key : String) : Option SymbolKind × Option Location :=
  match g.node? key with
  | some n => (n.kind, n.location)
  | none => (none, none)

theorem notes_of_node? {g : Graph} {key : String} {n : Node} (h : g.node? key = some n) :
    g.notes key = (n.kind, n.location) := by
  rw [notes, h]

theorem notes_ensureNode (g : Graph) (key k : String) (kind : Option SymbolKind)
    (location : Option Location) :
    (g.ensureNode key kind location).notes k =
      if k = key then ((g.notes key).1.or kind, (g.notes key).2.or location) else g.notes k := by
  unfold notes ensureNode
  rw [node?_touch]
  by_cases hk : k = key
  · rw [if_pos hk, if_pos hk]
    cases g.node? key <;> rfl
  · rw [if_neg hk, if_neg hk]

theorem notes_touch (g : Graph) {key : String} {f : Node → Node}
    (hf : ∀ n, (f n).kind = n.kind ∧ (f n).location = n.location) (k : String) :
    (g.touch key f).notes k = g.notes k := by
  unfold notes
  rw [node?_touch]
  by_cases hk : k = key
  · subst hk
    rw [if_pos rfl]
    cases g.node? k with
    | none => simp [hf]
    | some n => simp [hf]
  · rw [if_neg hk]

theorem notes_addSite (g : Graph) (e : Edge) (k : String) : (g.addSite e).notes k = g.notes k := by
  let linked := g.touch e.caller (·.addCallee e.callee)
  have hcallee : (g.addSite e).notes k = linked.notes k :=
    notes_touch linked (by intro n; exact ⟨rfl, rfl⟩) k
  rw [hcallee]
  exact notes_touch g (by intro n; exact ⟨rfl, rfl⟩) k

theorem notes_foldl_addSite (g : Graph) (es : List Edge) (k : String) :
    (es.foldl addSite g).notes k = g.notes k := by
  induction es generalizing g with
  | nil => rfl
  | cons e es ih => rw [List.foldl_cons, ih, notes_addSite]

end Graph

/-! ## What a step tells -/

/-- A hook call and an element tell something of the symbol that they go to. -/
def Edge.tells (e : Edge) (key : String) : Bool :=
  decide (e.callee = key) && (decide (e.kind = .hook) || decide (e.kind = .render))

/-- What becomes of notes by a lesson: it counts only where no kind is known. -/
def taught (known lesson : Option SymbolKind × Option Location) :
    Option SymbolKind × Option Location :=
  if known.1 = none then (lesson.1, known.2.or lesson.2) else known

theorem taught_of_kind {kind : SymbolKind} {place : Option Location}
    (lesson : Option SymbolKind × Option Location) :
    taught (some kind, place) lesson = (some kind, place) := rfl

theorem taught_of_nothing (lesson : Option SymbolKind × Option Location) :
    taught (none, none) lesson = lesson := by
  rw [taught, if_pos rfl, Option.none_or]

theorem taught_hook (known : Option SymbolKind × Option Location) :
    (known.1.or (some .hook), known.2.or none) = taught known (some .hook, none) := by
  obtain ⟨kind, place⟩ := known
  cases kind <;> cases place <;> rfl

/-- What a resolved tag tells is a lesson, because the notes of a node tell it nothing
new. -/
theorem taught_resolved (known lesson : Option SymbolKind × Option Location) :
    (known.1.or (if known.1 = none then lesson else known).1,
      known.2.or (if known.1 = none then lesson else known).2) = taught known lesson := by
  obtain ⟨kind, place⟩ := known
  cases kind with
  | none => rfl
  | some _ => cases place <;> rfl

/-- A lesson need not be told twice: without a kind it has no place either and changes
nothing. -/
theorem taught_taught {known lesson : Option SymbolKind × Option Location}
    (h : lesson.1 = none → lesson.2 = none) :
    taught (taught known lesson) lesson = taught known lesson := by
  obtain ⟨kind, place⟩ := known
  obtain ⟨newKind, newPlace⟩ := lesson
  cases kind with
  | some _ => rfl
  | none =>
    cases newKind with
    | some _ => rfl
    | none =>
      obtain rfl : newPlace = none := h rfl
      cases place <;> rfl

namespace Atlas

variable (a : Atlas)

/-- What a tag tells of a symbol of which nothing is known: the kind and place of the
declaration that it stands for, or else a guess. -/
def tagNotes (tag : String) : Option SymbolKind × Option Location :=
  match a.tagDeclaration? tag with
  | some d => (some (a.kindOf d), d.location?)
  | none => if Naming.isPascalCase tag then (some .potentialComponent, none) else (none, none)

def lesson (key : String) : Option SymbolKind × Option Location :=
  if Naming.isHookName key then (some .hook, none) else a.tagNotes key

theorem lesson_place {key : String} (h : (a.lesson key).1 = none) : (a.lesson key).2 = none := by
  unfold lesson tagNotes at h ⊢
  by_cases hhook : Naming.isHookName key = true
  · rw [if_pos hhook]
  · rw [if_neg hhook] at h ⊢
    cases hd : a.tagDeclaration? key with
    | some d =>
      rw [hd] at h
      cases h
    | none =>
      simp only
      split <;> rfl

theorem resolveTag_eq (g : Graph) (tag : String) :
    a.resolveTag g tag = if (g.notes tag).1 = none then a.tagNotes tag else g.notes tag := by
  unfold resolveTag tagNotes Graph.notes
  cases g.node? tag with
  | none => rfl
  | some n =>
    cases hkind : n.kind with
    | none => simp only [Option.filter, hkind]; rfl
    | some kind => simp [Option.filter, hkind]

theorem not_startsUpper_of_isHookName {name : String} (h : Naming.isHookName name = true) :
    Naming.startsUpper name = false := by
  unfold Naming.isHookName at h
  split at h
  · next hlist =>
    rw [Naming.startsUpper, hlist]
    show Char.isUpper 'u' = false
    decide
  · cases h

theorem lesson_of_startsUpper {tag : String} (h : Naming.startsUpper tag = true) :
    a.lesson tag = a.tagNotes tag := by
  have hhook : ¬ Naming.isHookName tag = true := fun hook => by
    rw [not_startsUpper_of_isHookName hook] at h
    cases h
  rw [lesson, if_neg hhook]

end Atlas

/-! ## Sites that tell -/

namespace ScanUnit

variable {u : ScanUnit}

/-- A call renders nothing, and it is a hook by the name of its callee. -/
theorem reach_tells (t : CallTarget) :
    (u.reach t).2 ≠ .render ∧
      ((u.reach t).2 = .hook → Naming.isHookName (u.reach t).1 = true) := by
  cases t with
  | name name =>
    simp only [reach]
    split
    · next hook => exact ⟨by simp, fun _ => hook⟩
    · exact ⟨by simp, by simp⟩
  | member object property =>
    simp only [reach]
    split
    · exact ⟨by simp, by simp⟩
    · split
      · next hook => exact ⟨by simp, fun _ => hook⟩
      · exact ⟨by simp, by simp⟩

theorem of_callSite? {c : CallSite} {e : Edge} (h : u.callSite? c = some e) :
    e.kind ≠ .render ∧ (e.kind = .hook → Naming.isHookName e.callee = true) := by
  unfold callSite? at h
  split at h
  · cases h
  · cases h
    exact reach_tells c.target

theorem of_mem_renderSites {m : Element} {e : Edge} (h : e ∈ u.renderSites m) :
    e.kind = .render ∧ e.callee = m.tag ∧ Naming.startsUpper m.tag = true := by
  unfold renderSites at h
  split at h
  · next hup =>
    obtain ⟨caller, -, rfl⟩ := List.mem_map.mp h
    exact ⟨rfl, rfl, hup⟩
  · cases h

/-- The sites of a capitalised element tell of its tag and of nothing else. -/
theorem any_tells_renderSites {m : Element} (hup : Naming.startsUpper m.tag = true)
    (k : String) : (u.renderSites m).any (·.tells k) = decide (k = m.tag) := by
  by_cases hk : k = m.tag
  · rw [decide_eq_true hk, List.any_eq_true, renderSites, if_pos hup]
    have hcaller : u.caller ∈ u.renderers := List.mem_of_mem_head? u.head?_renderers
    exact ⟨_, List.mem_map_of_mem hcaller, by simp [Edge.tells, hk]⟩
  · rw [decide_eq_false hk, List.any_eq_false]
    intro e he
    obtain ⟨-, htag, -⟩ := of_mem_renderSites he
    simp [Edge.tells, htag, Ne.symm hk]

end ScanUnit

theorem ScanStep.of_mem_sites {s : ScanStep} {e : Edge} (h : e ∈ s.sites) :
    (e.kind = .hook → Naming.isHookName e.callee = true) ∧
      (e.kind = .render → Naming.startsUpper e.callee = true) := by
  cases s with
  | call u c =>
    obtain ⟨hrender, hook⟩ := ScanUnit.of_callSite? (Option.mem_toList.mp h)
    exact ⟨hook, fun hr => absurd hr hrender⟩
  | element u m =>
    obtain ⟨hrender, htag, hup⟩ := ScanUnit.of_mem_renderSites h
    refine ⟨fun hook => ?_, fun _ => htag ▸ hup⟩
    rw [hrender] at hook
    cases hook

namespace Atlas

variable (a : Atlas)

theorem notes_scanCall (u : ScanUnit) (g : Graph) (c : CallSite) (k : String) :
    (scanCall u g c).notes k =
      if (u.callSite? c).toList.any (·.tells k) then taught (g.notes k) (a.lesson k)
      else g.notes k := by
  rw [scanCall_eq]
  cases hsite : u.callSite? c with
  | none => rfl
  | some e =>
    obtain ⟨hrender, hhook⟩ := ScanUnit.of_callSite? hsite
    have htells : (some e).toList.any (·.tells k) = e.tells k := by simp
    show ((announce g e).addSite e).notes k = _
    rw [Graph.notes_addSite, htells, announce]
    by_cases hook : e.kind = .hook
    · rw [if_pos hook, Graph.notes_ensureNode]
      by_cases hk : k = e.callee
      · subst hk
        have hlesson : a.lesson e.callee = (some .hook, none) := if_pos (hhook hook)
        rw [if_pos rfl, if_pos (by simp [Edge.tells, hook]), hlesson, taught_hook]
      · rw [if_neg hk, if_neg (by simp [Edge.tells, Ne.symm hk])]
    · rw [if_neg hook, if_neg (by simp [Edge.tells, hook, hrender])]

theorem notes_scanElement (u : ScanUnit) (g : Graph) (e : Element) (k : String) :
    (a.scanElement u g e).notes k =
      if (u.renderSites e).any (·.tells k) then taught (g.notes k) (a.lesson k)
      else g.notes k := by
  rw [scanElement_eq]
  by_cases hup : Naming.startsUpper e.tag = true
  · rw [if_pos hup, Graph.notes_foldl_addSite, Graph.notes_ensureNode,
      ScanUnit.any_tells_renderSites hup]
    by_cases hk : k = e.tag
    · subst hk
      rw [if_pos rfl, if_pos (by simp), a.lesson_of_startsUpper hup, resolveTag_eq,
        taught_resolved]
    · rw [if_neg hk, if_neg (by simp [hk])]
  · rw [if_neg hup, ScanUnit.renderSites, if_neg hup]
    rfl

theorem notes_take (g : Graph) (s : ScanStep) (k : String) :
    (a.take g s).notes k =
      if s.sites.any (·.tells k) then taught (g.notes k) (a.lesson k) else g.notes k := by
  cases s with
  | call u c => exact a.notes_scanCall u g c k
  | element u e => exact a.notes_scanElement u g e k

theorem notes_foldl_take (g : Graph) (order : List ScanStep) (k : String) :
    (order.foldl a.take g).notes k =
      if (order.flatMap ScanStep.sites).any (·.tells k) then taught (g.notes k) (a.lesson k)
      else g.notes k := by
  induction order generalizing g with
  | nil => rfl
  | cons s order ih =>
    rw [List.foldl_cons, ih, notes_take, List.flatMap_cons, List.any_append]
    cases s.sites.any (·.tells k) with
    | false => rfl
    | true =>
      cases (order.flatMap ScanStep.sites).any (·.tells k) with
      | false => rfl
      | true => exact taught_taught a.lesson_place

/-! ## Registrations -/

def registrationsOf (key : String) : List Registration :=
  (a.graphDeclarations.flatMap a.registrations).filter fun r => r.key = key

theorem notes_foldl_register (g : Graph) (rs : List Registration) (k : String) :
    (rs.foldl register g).notes k =
      ((g.notes k).1.or ((rs.filter fun r => r.key = k).head?.map Registration.kind),
        (g.notes k).2.or ((rs.filter fun r => r.key = k).findSome? Registration.location)) := by
  induction rs generalizing g with
  | nil => simp
  | cons r rs ih =>
    rw [List.foldl_cons, ih, register, Graph.notes_ensureNode]
    by_cases hk : k = r.key
    · rw [if_pos hk, List.filter_cons_of_pos (by simp [hk]), hk, List.head?_cons,
        List.findSome?_cons]
      cases (g.notes r.key) with
      | mk kind place => cases kind <;> cases place <;> cases r.location <;> simp
    · rw [if_neg hk, List.filter_cons_of_neg (by simp [Ne.symm hk])]

theorem notes_registered (k : String) :
    a.registered.notes k =
      ((a.registrationsOf k).head?.map Registration.kind,
        (a.registrationsOf k).findSome? Registration.location) :=
  notes_foldl_register .empty _ k

/-! ## The end of the scan -/

def isHookTarget (key : String) : Bool :=
  a.siteList.any fun e => decide (e.callee = key) && decide (e.kind = .hook)

def isRendered (key : String) : Bool :=
  a.siteList.any fun e => decide (e.callee = key) && decide (e.kind = .render)

/-- The kind of a symbol by its name alone. -/
def guessedKind (key : String) : Option SymbolKind :=
  if Naming.isPascalCase key then some .potentialComponent else none

/-- The kind of a symbol in the end: that of its first registration; else a hook, if it
is called as one; else, if it is rendered, that of the declaration that its tag stands
for; else a guess. -/
def settledKind (key : String) : Option SymbolKind :=
  match (a.registrationsOf key).head? with
  | some r => some r.kind
  | none =>
    if a.isHookTarget key then some .hook
    else if a.isRendered key then
      match a.tagDeclaration? key with
      | some d => some (a.kindOf d)
      | none => guessedKind key
    else guessedKind key

/-- The place of a symbol in the end: the first one known among its registrations; else,
if it is rendered, that of the declaration that its tag stands for. -/
def settledLocation (key : String) : Option Location :=
  match (a.registrationsOf key).head? with
  | some _ => (a.registrationsOf key).findSome? Registration.location
  | none =>
    if a.isRendered key then (a.tagDeclaration? key).bind Declaration.location? else none

theorem of_mem_siteList {e : Edge} (h : e ∈ a.siteList) :
    (e.kind = .hook → Naming.isHookName e.callee = true) ∧
      (e.kind = .render → Naming.startsUpper e.callee = true) := by
  rw [← sites_scanSteps] at h
  obtain ⟨s, -, hs⟩ := List.mem_flatMap.mp h
  exact ScanStep.of_mem_sites hs

theorem isHookName_of_isHookTarget {k : String} (h : a.isHookTarget k = true) :
    Naming.isHookName k = true := by
  obtain ⟨e, he, htells⟩ := List.any_eq_true.mp h
  simp only [Bool.and_eq_true, decide_eq_true_eq] at htells
  exact htells.1 ▸ (a.of_mem_siteList he).1 htells.2

theorem startsUpper_of_isRendered {k : String} (h : a.isRendered k = true) :
    Naming.startsUpper k = true := by
  obtain ⟨e, he, htells⟩ := List.any_eq_true.mp h
  simp only [Bool.and_eq_true, decide_eq_true_eq] at htells
  exact htells.1 ▸ (a.of_mem_siteList he).2 htells.2

/-- Which keys a run of all steps tells of does not depend on the order of the steps. -/
theorem any_tells_of_perm {order : List ScanStep} (h : order.Perm a.scanSteps) (k : String) :
    (order.flatMap ScanStep.sites).any (·.tells k) = (a.isHookTarget k || a.isRendered k) := by
  have hmem (e : Edge) : e ∈ order.flatMap ScanStep.sites ↔ e ∈ a.siteList := by
    rw [← sites_scanSteps, List.mem_flatMap, List.mem_flatMap]
    simp only [h.mem_iff]
  rw [Bool.eq_iff_iff, List.any_eq_true, Bool.or_eq_true, isHookTarget, isRendered,
    List.any_eq_true, List.any_eq_true, ← exists_or]
  refine exists_congr fun e => ?_
  rw [hmem, ← and_or_left]
  simp only [Edge.tells, Bool.and_eq_true, Bool.or_eq_true, and_or_left]

theorem notes_scanned {order : List ScanStep} (h : order.Perm a.scanSteps) (k : String) :
    (order.foldl a.take a.registered).notes k =
      if a.isHookTarget k || a.isRendered k then taught (a.registered.notes k) (a.lesson k)
      else a.registered.notes k := by
  rw [notes_foldl_take, a.any_tells_of_perm h]

/-- What is known at the end of the scan, up to a guess, is what the program says. -/
theorem settled_eq {order : List ScanStep} (h : order.Perm a.scanSteps) (k : String) :
    a.settledKind k = ((order.foldl a.take a.registered).notes k).1.or (guessedKind k) ∧
      a.settledLocation k = ((order.foldl a.take a.registered).notes k).2 := by
  rw [a.notes_scanned h, notes_registered, settledKind, settledLocation]
  cases hreg : (a.registrationsOf k).head? with
  | some r =>
    rw [Option.map_some, taught_of_kind, ite_self]
    exact ⟨rfl, rfl⟩
  | none =>
    rw [List.head?_eq_none_iff.mp hreg, Option.map_none, List.findSome?_nil, taught_of_nothing]
    cases hhook : a.isHookTarget k with
    | true =>
      -- A hook is not rendered, so the two lessons never compete for a key.
      have hname := a.isHookName_of_isHookTarget hhook
      have hrender : a.isRendered k = false := by
        rw [Bool.eq_false_iff]
        intro hr
        have hup := a.startsUpper_of_isRendered hr
        rw [not_startsUpper_of_isHookName hname] at hup
        cases hup
      simp [hrender, lesson, hname]
    | false =>
      cases hrender : a.isRendered k with
      | true =>
        rw [a.lesson_of_startsUpper (a.startsUpper_of_isRendered hrender), tagNotes]
        cases a.tagDeclaration? k with
        | some d => simp
        | none => cases hpascal : Naming.isPascalCase k <;> simp [guessedKind, hpascal]
      | false => simp

/-! ## The end of the build -/

theorem of_guessKind (n : Node) :
    (guessKind n).kind = n.kind.or (guessedKind n.key) ∧ (guessKind n).location = n.location := by
  unfold guessKind guessedKind
  cases hkind : n.kind with
  | none =>
    cases hpascal : Naming.isPascalCase n.key with
    | true => simp
    | false => simp [hkind]
  | some kind => simp [hkind]

theorem inStep_scanned (order : List ScanStep) : (order.foldl a.take a.registered).InStep := by
  have hregistered : a.registered.InStep :=
    List.foldlRecOn _ register Graph.inStep_empty fun _ h r _ => h.ensureNode r.key _ r.location
  refine List.foldlRecOn order a.take hregistered fun g h s _ => ?_
  cases s with
  | call u c => exact h.scanCall u c
  | element u e => exact h.scanElement a u e

theorem of_mem_callGraphBy {order : List ScanStep} (h : order.Perm a.scanSteps) {n : Node}
    (hn : n ∈ (a.callGraphBy order).nodeList) :
    n.kind = a.settledKind n.key ∧ n.location = a.settledLocation n.key := by
  have hscanned := a.inStep_scanned order
  have hnode := hscanned.guessKinds.node?_of_mem hn
  rw [Graph.node?_guessKinds, Option.map_eq_some_iff] at hnode
  obtain ⟨m, hm, hguess⟩ := hnode
  obtain ⟨hkind, hlocation⟩ := of_guessKind m
  obtain ⟨hsettled, hplace⟩ := a.settled_eq h n.key
  rw [Graph.notes_of_node? hm] at hsettled hplace
  rw [hguess, hscanned.node_key hm] at hkind
  rw [hguess] at hlocation
  exact ⟨hkind.trans hsettled.symm, hlocation.trans hplace.symm⟩

theorem contains_callGraphBy {order : List ScanStep} (h : order.Perm a.scanSteps) (k : String) :
    (a.callGraphBy order).contains k = a.callGraph.contains k := by
  have hmem : (a.callGraphBy order).contains k = true ↔ a.callGraph.contains k = true := by
    rw [← callGraphBy_scanSteps, Graph.contains_iff, Graph.contains_iff, nodeKeys_callGraphBy a h,
      nodeKeys_callGraphBy a (.refl _), mem_distinct, mem_distinct, List.mem_append,
      List.mem_append, (List.Perm.map _ (h.flatMap_right _)).mem_iff]
  exact Bool.eq_iff_iff.mpr hmem

theorem isPascalCase_of_settledKind {k : String} (h : a.settledKind k = none) :
    Naming.isPascalCase k = false := by
  have hguess : guessedKind k = none := by
    unfold settledKind at h
    split at h
    · cases h
    · split at h
      · cases h
      · split at h
        · split at h
          · cases h
          · exact h
        · exact h
  unfold guessedKind at hguess
  split at hguess
  · cases hguess
  · next hpascal => exact Bool.eq_false_iff.mpr hpascal

/-- In whatever order the calls and elements of a program are scanned, its graph has
the same nodes with the same kinds and places, which the registrations and the sites
determine.  No node that is named like a component is left without a kind. -/
theorem node_settled_in_any_order :
    a.callGraphBy a.scanSteps = a.callGraph ∧
      (∀ order : List ScanStep, order.Perm a.scanSteps →
        (∀ k, (a.callGraphBy order).contains k = a.callGraph.contains k) ∧
          ∀ n ∈ (a.callGraphBy order).nodeList,
            n.kind = a.settledKind n.key ∧ n.location = a.settledLocation n.key) ∧
      ∀ n ∈ a.callGraph.nodeList, ¬ (n.kind = none ∧ Naming.isPascalCase n.key = true) := by
  refine ⟨a.callGraphBy_scanSteps, ?_, ?_⟩
  · intro order h
    exact ⟨a.contains_callGraphBy h, fun n hn => a.of_mem_callGraphBy h hn⟩
  · intro n hn hunknown
    rw [← callGraphBy_scanSteps] at hn
    have hkind := (a.of_mem_callGraphBy (.refl _) hn).1
    rw [hunknown.1] at hkind
    have hpascal := a.isPascalCase_of_settledKind hkind.symm
    rw [hunknown.2] at hpascal
    cases hpascal

/-- An icon that is called before it is rendered. -/
def iconAtlas : Atlas :=
  .ofSettings (Workspace.ofSketches
    [{ path := "icons.ts", generated := false, items := [.variable "Icon"] },
     { path := "panel.ts", generated := false
       items := [.function "Panel" [.call "Icon", .call "useTheme", .render "Icon"]] }]).snapshot {}

theorem icon_settled_in_reverse :
    iconAtlas.scanSteps.reverse.Perm iconAtlas.scanSteps ∧
      ∃ n ∈ (iconAtlas.callGraphBy iconAtlas.scanSteps.reverse).nodeList,
        n.key = "Icon" ∧ n.kind = some .variable ∧
          n.location = some { file := "icons.ts", line := 1, column := 1 } := by
  have hperm := List.reverse_perm iconAtlas.scanSteps
  obtain ⟨hcontains, hsettled⟩ := iconAtlas.node_settled_in_any_order.2.1 _ hperm
  have hicon : iconAtlas.callGraph.contains "Icon" = true := by decide +kernel
  rw [← hcontains, Graph.contains] at hicon
  obtain ⟨n, hn⟩ := Option.isSome_iff_exists.mp hicon
  have hmem := Table.mem_values_of_get? hn
  have hkey : n.key = "Icon" := (iconAtlas.inStep_scanned _).guessKinds.node_key hn
  obtain ⟨hkind, hlocation⟩ := hsettled n hmem
  rw [hkey] at hkind hlocation
  have hvariable : iconAtlas.settledKind "Icon" = some .variable := by decide +kernel
  have hplace : iconAtlas.settledLocation "Icon" =
      some { file := "icons.ts", line := 1, column := 1 } := by decide +kernel
  exact ⟨hperm, n, hmem, hkey, hkind.trans hvariable, hlocation.trans hplace⟩

end Atlas
end SymbolAtlas
