/-
Callers, callees and edges stay in step.

A graph records each call three times: in the callee list of the caller, in the
caller list of the callee, and as an edge.  `InStep` says that the two lists are
read off the edges, in edge order.  It is stated for every key, with the empty
list for a key that is no node, so that a node may be created at any time
without touching the lists.  `InStep.apply` keeps it through one change and
`inStep_replay` through a log of them; `inStep_callGraph` follows the graph of a
program through registration, scanning and the guess of unknown kinds.

`Coherent` is what a reader of the graph may rely on, and it is a consequence.
-/
import SymbolAtlas.Proofs.Graph.Sites
import Mathlib.Data.List.Nodup

namespace SymbolAtlas

/-! ## Lists that grow at the end -/

theorem map_filter_addLast {α β : Type} [DecidableEq α] [DecidableEq β] (p : α → Bool)
    (f : α → β) {xs : List α} {x : α}
    (hinj : ∀ y ∈ xs, p y = true → p x = true → f y = f x → y = x) :
    ((addLast xs x).filter p).map f =
      if p x then addLast ((xs.filter p).map f) (f x) else (xs.filter p).map f := by
  unfold addLast
  by_cases hp : p x = true
  · rw [if_pos hp]
    by_cases hx : x ∈ xs
    · have hfx : f x ∈ (xs.filter p).map f :=
        List.mem_map_of_mem (List.mem_filter.mpr ⟨hx, hp⟩)
      rw [if_pos hx, if_pos hfx]
    · have hfx : f x ∉ (xs.filter p).map f := by
        intro hm
        obtain ⟨y, hy, hyx⟩ := List.mem_map.mp hm
        obtain ⟨hys, hyp⟩ := List.mem_filter.mp hy
        exact hx (hinj y hys hyp hp hyx ▸ hys)
      rw [if_neg hx, if_neg hfx, List.filter_append, List.map_append]
      simp [hp]
  · rw [if_neg hp]
    by_cases hx : x ∈ xs
    · rw [if_pos hx]
    · rw [if_neg hx, List.filter_append]
      simp [hp]

/-- Two pairs with the same caller are told apart by their callees. -/
theorem pair_eq_of_fst {key : String} {p q : String × String} (hp : decide (p.1 = key) = true)
    (hq : decide (q.1 = key) = true) (h : p.2 = q.2) : p = q :=
  Prod.ext ((of_decide_eq_true hp).trans (of_decide_eq_true hq).symm) h

theorem pair_eq_of_snd {key : String} {p q : String × String} (hp : decide (p.2 = key) = true)
    (hq : decide (q.2 = key) = true) (h : p.1 = q.1) : p = q :=
  Prod.ext h ((of_decide_eq_true hp).trans (of_decide_eq_true hq).symm)

namespace Graph

/-! ## What the nodes list -/

/-- The list that `f` gives the node under a key; nothing for a key that is no
node. -/
def listOf (g : Graph) (f : Node → List String) (key : String) : List String :=
  ((g.node? key).map f).getD []

def calleesOf (g : Graph) (key : String) : List String := g.listOf Node.callees key

def callersOf (g : Graph) (key : String) : List String := g.listOf Node.callers key

/-- Whether the callee list of `a` has `b`. -/
def Calls (g : Graph) (a b : String) : Prop := b ∈ g.calleesOf a

instance (g : Graph) (a b : String) : Decidable (g.Calls a b) :=
  inferInstanceAs (Decidable (b ∈ g.calleesOf a))

theorem listOf_of_node? {g : Graph} {key : String} {n : Node} (f : Node → List String)
    (h : g.node? key = some n) : g.listOf f key = f n := by
  rw [listOf, h, Option.map_some, Option.getD_some]

theorem exists_node_of_mem_listOf {g : Graph} {f : Node → List String} {key x : String}
    (h : x ∈ g.listOf f key) : ∃ n, g.node? key = some n ∧ x ∈ f n := by
  unfold listOf at h
  cases hn : g.node? key with
  | none =>
    rw [hn] at h
    cases h
  | some n =>
    rw [hn, Option.map_some, Option.getD_some] at h
    exact ⟨n, rfl, h⟩

theorem node?_touch (g : Graph) (key k : String) (f : Node → Node) :
    (g.touch key f).node? k =
      if k = key then some (f ((g.node? key).getD { key := key })) else g.node? k := by
  unfold touch node?
  rw [Table.get?_modify, Table.get?_addNew, Table.get?_addNew, if_pos rfl]
  by_cases hk : k = key
  · rw [if_pos hk, if_pos hk, Option.map_some]
  · rw [if_neg hk, if_neg hk, if_neg hk]

theorem nodeKeys_touch (g : Graph) (key : String) (f : Node → Node) :
    (g.touch key f).nodes.keys = addLast g.nodes.keys key := by
  unfold touch
  rw [Table.keys_modify, Table.keys_addNew]

theorem contains_iff {g : Graph} {key : String} : g.contains key = true ↔ key ∈ g.nodes.keys :=
  Table.mem_keys_iff.symm

theorem contains_touch {g : Graph} {key k : String} {f : Node → Node} :
    (g.touch key f).contains k = true ↔ g.contains k = true ∨ k = key := by
  rw [contains_iff, nodeKeys_touch, mem_addLast, contains_iff]

section Touch

variable (g : Graph) (l : Node → List String) {key : String} {f : Node → Node}

/-- A new node lists nothing, so a change of a node changes the list of its key
as if the node had been there. -/
theorem listOf_touch (grow : List String → List String) (hnew : l { key := key } = [])
    (hf : ∀ n, l (f n) = grow (l n)) (k : String) :
    (g.touch key f).listOf l k = if k = key then grow (g.listOf l key) else g.listOf l k := by
  unfold listOf
  rw [node?_touch]
  by_cases hk : k = key
  · rw [if_pos hk, if_pos hk, Option.map_some, Option.getD_some, hf]
    cases g.node? key with
    | none => rw [Option.getD_none, hnew, Option.map_none, Option.getD_none]
    | some n => rw [Option.getD_some, Option.map_some, Option.getD_some]
  · rw [if_neg hk, if_neg hk]

theorem listOf_touch_of_eq (hnew : l { key := key } = []) (hf : ∀ n, l (f n) = l n)
    (k : String) : (g.touch key f).listOf l k = g.listOf l k := by
  rw [listOf_touch g l id hnew hf, id]
  by_cases hk : k = key
  · rw [if_pos hk, hk]
  · rw [if_neg hk]

end Touch

section AddEdge

variable (g : Graph) (a b : String) (site : Location) (kind : EdgeKind)

theorem calleesOf_addEdge (k : String) : (g.addEdge a b site kind).calleesOf k =
    if k = a then addLast (g.calleesOf a) b else g.calleesOf k := by
  let linked := g.touch a (·.addCallee b)
  have hcallee : (g.addEdge a b site kind).calleesOf k = linked.listOf Node.callees k :=
    listOf_touch_of_eq linked Node.callees rfl (by intro n; rfl) k
  rw [hcallee]
  exact listOf_touch g Node.callees (addLast · b) rfl (by intro n; rfl) k

theorem callersOf_addEdge (k : String) : (g.addEdge a b site kind).callersOf k =
    if k = b then addLast (g.callersOf b) a else g.callersOf k := by
  let linked := g.touch a (·.addCallee b)
  have hkeep (x : String) : linked.listOf Node.callers x = g.callersOf x :=
    listOf_touch_of_eq g Node.callers rfl (by intro n; rfl) x
  have hcaller : (g.addEdge a b site kind).callersOf k =
      if k = b then addLast (linked.listOf Node.callers b) a
        else linked.listOf Node.callers k :=
    listOf_touch linked Node.callers (addLast · a) rfl (by intro n; rfl) k
  rw [hcaller, hkeep, hkeep]

theorem edgeKeys_addEdge :
    (g.addEdge a b site kind).edges.keys = addLast g.edges.keys (a, b) :=
  Table.keys_addNew g.edges (a, b) _

end AddEdge

/-! ## The invariant -/

structure InStep (g : Graph) : Prop where
  nodes_nodup : g.nodes.keys.Nodup
  edges_nodup : g.edges.keys.Nodup
  node_key : ∀ {key : String} {n : Node}, g.node? key = some n → n.key = key
  edge_key : ∀ {pair : String × String} {e : Edge},
    g.edges.get? pair = some e → (e.caller, e.callee) = pair
  endpoints : ∀ pair ∈ g.edges.keys, g.contains pair.1 = true ∧ g.contains pair.2 = true
  callees_eq : ∀ key,
    g.calleesOf key = (g.edges.keys.filter fun pair => pair.1 = key).map Prod.snd
  callers_eq : ∀ key,
    g.callersOf key = (g.edges.keys.filter fun pair => pair.2 = key).map Prod.fst

theorem inStep_empty : empty.InStep where
  nodes_nodup := List.nodup_nil
  edges_nodup := List.nodup_nil
  node_key h := by cases h
  edge_key h := by cases h
  endpoints _ h := by cases h
  callees_eq _ := rfl
  callers_eq _ := rfl

theorem node_key_touch {g : Graph} {key : String} {f : Node → Node}
    (h : ∀ {k n}, g.node? k = some n → n.key = k) (hf : ∀ n, (f n).key = n.key) {k : String}
    {n : Node} (hn : (g.touch key f).node? k = some n) : n.key = k := by
  rw [node?_touch] at hn
  by_cases hk : k = key
  · rw [if_pos hk] at hn
    cases hn
    rw [hf, hk]
    cases hold : g.node? key with
    | none => rfl
    | some m => exact h hold
  · rw [if_neg hk] at hn
    exact h hn

theorem InStep.ensureNode {g : Graph} (h : g.InStep) (key : String) (kind : Option SymbolKind)
    (location : Option Location) : (g.ensureNode key kind location).InStep where
  nodes_nodup := by
    show (g.touch key _).nodes.keys.Nodup
    rw [nodeKeys_touch]
    exact nodup_addLast h.nodes_nodup
  edges_nodup := h.edges_nodup
  node_key := node_key_touch h.node_key (by intro n; rfl)
  edge_key := h.edge_key
  endpoints pair hp :=
    ⟨contains_touch.mpr (Or.inl (h.endpoints pair hp).1),
      contains_touch.mpr (Or.inl (h.endpoints pair hp).2)⟩
  callees_eq k := by
    have hkept : (g.ensureNode key kind location).calleesOf k = g.calleesOf k :=
      listOf_touch_of_eq g Node.callees rfl (by intro n; rfl) k
    rw [hkept, edges_ensureNode]
    exact h.callees_eq k
  callers_eq k := by
    have hkept : (g.ensureNode key kind location).callersOf k = g.callersOf k :=
      listOf_touch_of_eq g Node.callers rfl (by intro n; rfl) k
    rw [hkept, edges_ensureNode]
    exact h.callers_eq k

theorem InStep.addEdge {g : Graph} (h : g.InStep) (a b : String) (site : Location)
    (kind : EdgeKind) : (g.addEdge a b site kind).InStep where
  nodes_nodup := by
    show ((g.touch a _).touch b _).nodes.keys.Nodup
    rw [nodeKeys_touch, nodeKeys_touch]
    exact nodup_addLast (nodup_addLast h.nodes_nodup)
  edges_nodup := by
    rw [edgeKeys_addEdge]
    exact nodup_addLast h.edges_nodup
  node_key := node_key_touch (node_key_touch h.node_key (by intro n; rfl)) (by intro n; rfl)
  edge_key {pair e} he := by
    change (g.edges.addNew (a, b) _).get? pair = some e at he
    rw [Table.get?_addNew] at he
    by_cases hp : pair = (a, b)
    · rw [if_pos hp, Option.some.injEq] at he
      subst hp he
      cases hold : g.edges.get? (a, b) with
      | none => rfl
      | some old => exact h.edge_key hold
    · rw [if_neg hp] at he
      exact h.edge_key he
  endpoints pair hp := by
    have hkept {k : String} (hk : g.contains k = true ∨ k = a ∨ k = b) :
        (g.addEdge a b site kind).contains k = true :=
      contains_touch.mpr (by rw [contains_touch]; tauto)
    rw [edgeKeys_addEdge, mem_addLast] at hp
    rcases hp with hold | rfl
    · exact ⟨hkept (Or.inl (h.endpoints pair hold).1), hkept (Or.inl (h.endpoints pair hold).2)⟩
    · exact ⟨hkept (Or.inr (Or.inl rfl)), hkept (Or.inr (Or.inr rfl))⟩
  callees_eq k := by
    rw [calleesOf_addEdge, edgeKeys_addEdge, map_filter_addLast, h.callees_eq, h.callees_eq]
    · by_cases hk : k = a
      · simp [hk]
      · simp [hk, Ne.symm hk]
    · intro pair _ hpair hab
      exact pair_eq_of_fst hpair hab
  callers_eq k := by
    rw [callersOf_addEdge, edgeKeys_addEdge, map_filter_addLast, h.callers_eq, h.callers_eq]
    · by_cases hk : k = b
      · simp [hk]
      · simp [hk, Ne.symm hk]
    · intro pair _ hpair hab
      exact pair_eq_of_snd hpair hab

theorem InStep.apply {g : Graph} (h : g.InStep) (c : Change) : (g.apply c).InStep := by
  cases c with
  | ensureNode key kind location => exact h.ensureNode key kind location
  | addEdge caller callee location kind => exact h.addEdge caller callee location kind
  | clear => exact inStep_empty

theorem inStep_replay (changes : List Change) : (replay changes).InStep :=
  List.foldlRecOn changes apply inStep_empty fun _ h c _ => h.apply c

/-! ## The graph of a program -/

theorem InStep.addSites {g : Graph} (h : g.InStep) (es : List Edge) :
    (es.foldl addSite g).InStep :=
  List.foldlRecOn es addSite h fun _ hg e _ => hg.addEdge e.caller e.callee e.location e.kind

theorem InStep.scanCall {g : Graph} (h : g.InStep) (u : ScanUnit) (c : CallSite) :
    (Atlas.scanCall u g c).InStep := by
  rw [Atlas.scanCall_eq]
  cases u.callSite? c with
  | none => exact h
  | some e =>
    have hknown : (Atlas.announce g e).InStep := by
      unfold Atlas.announce
      split
      · exact h.ensureNode e.callee (some .hook) none
      · exact h
    exact hknown.addSites [e]

theorem InStep.scanElement {g : Graph} (h : g.InStep) (a : Atlas) (u : ScanUnit)
    (e : Element) : (a.scanElement u g e).InStep := by
  rw [Atlas.scanElement_eq]
  split
  · exact (h.ensureNode e.tag _ _).addSites (u.renderSites e)
  · exact h

theorem InStep.scan {g : Graph} (h : g.InStep) (a : Atlas) (u : ScanUnit) :
    (a.scan g u).InStep := by
  have hcalls : (u.body.calls.foldl (Atlas.scanCall u) g).InStep :=
    List.foldlRecOn u.body.calls _ h fun _ hg c _ => hg.scanCall u c
  exact List.foldlRecOn u.body.markup _ hcalls fun _ hg e _ => hg.scanElement a u e

/-- A guess changes the kind of a node and nothing that the invariant reads. -/
theorem guessKind_keeps (n : Node) :
    (Atlas.guessKind n).key = n.key ∧ (Atlas.guessKind n).callees = n.callees ∧
      (Atlas.guessKind n).callers = n.callers := by
  unfold Atlas.guessKind
  split
  · exact ⟨rfl, rfl, rfl⟩
  · exact ⟨rfl, rfl, rfl⟩

theorem node?_guessKinds (g : Graph) (key : String) :
    (Atlas.guessKinds g).node? key = (g.node? key).map Atlas.guessKind :=
  Table.get?_mapValues g.nodes Atlas.guessKind key

theorem listOf_guessKinds (g : Graph) {l : Node → List String}
    (hl : ∀ n, l (Atlas.guessKind n) = l n) (key : String) :
    (Atlas.guessKinds g).listOf l key = g.listOf l key := by
  unfold listOf
  rw [node?_guessKinds]
  cases g.node? key with
  | none => rfl
  | some n => exact hl n

theorem contains_guessKinds (g : Graph) (key : String) :
    (Atlas.guessKinds g).contains key = g.contains key := by
  unfold contains
  rw [node?_guessKinds, Option.isSome_map]

theorem InStep.guessKinds {g : Graph} (h : g.InStep) : (Atlas.guessKinds g).InStep where
  nodes_nodup := by
    show (g.nodes.mapValues Atlas.guessKind).keys.Nodup
    rw [Table.keys_mapValues]
    exact h.nodes_nodup
  edges_nodup := h.edges_nodup
  node_key {key n} hn := by
    rw [node?_guessKinds, Option.map_eq_some_iff] at hn
    obtain ⟨m, hm, rfl⟩ := hn
    rw [(guessKind_keeps m).1, h.node_key hm]
  edge_key := h.edge_key
  endpoints pair hp := by
    rw [contains_guessKinds, contains_guessKinds]
    exact h.endpoints pair hp
  callees_eq key := by
    rw [calleesOf, listOf_guessKinds g fun n => (guessKind_keeps n).2.1]
    exact h.callees_eq key
  callers_eq key := by
    rw [callersOf, listOf_guessKinds g fun n => (guessKind_keeps n).2.2]
    exact h.callers_eq key

theorem inStep_callGraph (a : Atlas) : a.callGraph.InStep := by
  have hregistered : ((a.graphDeclarations.flatMap a.registrations).foldl
      Atlas.register empty).InStep :=
    List.foldlRecOn _ Atlas.register inStep_empty fun _ h r _ => h.ensureNode r.key _ r.location
  exact (List.foldlRecOn a.scanUnits a.scan hregistered fun _ h u _ => h.scan a u).guessKinds

/-! ## What a reader may rely on -/

/-- The three records of the calls agree. -/
structure Coherent (g : Graph) : Prop where
  /-- Each node stands under its own key. -/
  node_key : ∀ row ∈ g.nodes.rows, row.2.key = row.1
  /-- Each edge stands under its own pair. -/
  edge_pair : ∀ row ∈ g.edges.rows, (row.2.caller, row.2.callee) = row.1
  endpoints : ∀ e ∈ g.edgeList, g.contains e.caller = true ∧ g.contains e.callee = true
  callees_eq : ∀ n ∈ g.nodeList,
    n.callees = (g.edgeList.filter fun e => e.caller = n.key).map Edge.callee
  callers_eq : ∀ n ∈ g.nodeList,
    n.callers = (g.edgeList.filter fun e => e.callee = n.key).map Edge.caller
  mem_callees_iff : ∀ a b, b ∈ g.calleesOf a ↔ (g.edge? a b).isSome = true
  mem_callers_iff : ∀ a b, a ∈ g.callersOf b ↔ (g.edge? a b).isSome = true
  callees_nodup : ∀ n ∈ g.nodeList, n.callees.Nodup
  callers_nodup : ∀ n ∈ g.nodeList, n.callers.Nodup
  pairs_nodup : (g.edgeList.map fun e => (e.caller, e.callee)).Nodup

namespace InStep

variable {g : Graph} (h : g.InStep)
include h

theorem edge_pair {row : (String × String) × Edge} (hr : row ∈ g.edges.rows) :
    (row.2.caller, row.2.callee) = row.1 :=
  h.edge_key (Table.get?_of_mem_rows h.edges_nodup hr)

theorem edgeKeys_eq : g.edges.keys = g.edgeList.map fun e => (e.caller, e.callee) := by
  rw [edgeList, Table.values, List.map_map, Table.keys]
  exact List.map_congr_left fun row hr => (h.edge_pair hr).symm

theorem nodeKeys_eq : g.nodes.keys = g.nodeList.map Node.key := by
  rw [nodeList, Table.values, List.map_map, Table.keys]
  exact List.map_congr_left fun row hr =>
    (h.node_key (Table.get?_of_mem_rows h.nodes_nodup hr)).symm

theorem node?_of_mem {n : Node} (hn : n ∈ g.nodeList) : g.node? n.key = some n := by
  obtain ⟨row, hr, rfl⟩ := List.mem_map.mp hn
  have hfound : g.node? row.1 = some row.2 := Table.get?_of_mem_rows h.nodes_nodup hr
  rw [h.node_key hfound]
  exact hfound

theorem mem_calleesOf_iff (a b : String) : b ∈ g.calleesOf a ↔ (a, b) ∈ g.edges.keys := by
  rw [h.callees_eq]
  simp

theorem mem_callersOf_iff (a b : String) : a ∈ g.callersOf b ↔ (a, b) ∈ g.edges.keys := by
  rw [h.callers_eq]
  simp

theorem mem_callersOf_iff_calls {a b : String} : a ∈ g.callersOf b ↔ g.Calls a b := by
  rw [h.mem_callersOf_iff, Calls, h.mem_calleesOf_iff]

theorem nodup_calleesOf (key : String) : (g.calleesOf key).Nodup := by
  rw [h.callees_eq]
  refine List.Nodup.map_on ?_ (h.edges_nodup.filter _)
  intro p hp q hq
  exact pair_eq_of_fst (List.mem_filter.mp hp).2 (List.mem_filter.mp hq).2

theorem nodup_callersOf (key : String) : (g.callersOf key).Nodup := by
  rw [h.callers_eq]
  refine List.Nodup.map_on ?_ (h.edges_nodup.filter _)
  intro p hp q hq
  exact pair_eq_of_snd (List.mem_filter.mp hp).2 (List.mem_filter.mp hq).2

theorem coherent : g.Coherent where
  node_key row hr := h.node_key (Table.get?_of_mem_rows h.nodes_nodup hr)
  edge_pair row hr := h.edge_pair hr
  endpoints e he := by
    have hpair : (e.caller, e.callee) ∈ g.edges.keys := by
      rw [h.edgeKeys_eq]
      exact List.mem_map_of_mem he
    exact h.endpoints _ hpair
  callees_eq n hn := by
    have hlist : n.callees = g.calleesOf n.key :=
      (listOf_of_node? Node.callees (h.node?_of_mem hn)).symm
    rw [hlist, h.callees_eq, h.edgeKeys_eq, List.filter_map, List.map_map]
    rfl
  callers_eq n hn := by
    have hlist : n.callers = g.callersOf n.key :=
      (listOf_of_node? Node.callers (h.node?_of_mem hn)).symm
    rw [hlist, h.callers_eq, h.edgeKeys_eq, List.filter_map, List.map_map]
    rfl
  mem_callees_iff a b := by
    rw [h.mem_calleesOf_iff, Table.mem_keys_iff]
    rfl
  mem_callers_iff a b := by
    rw [h.mem_callersOf_iff, Table.mem_keys_iff]
    rfl
  callees_nodup n hn := by
    rw [← listOf_of_node? Node.callees (h.node?_of_mem hn)]
    exact h.nodup_calleesOf n.key
  callers_nodup n hn := by
    rw [← listOf_of_node? Node.callers (h.node?_of_mem hn)]
    exact h.nodup_callersOf n.key
  pairs_nodup := h.edgeKeys_eq ▸ h.edges_nodup

end InStep

/-- Whatever changes made a graph, and in the graph of whatever program, the lists
of callers and callees and the edges tell the same calls in the same order. -/
theorem coherent_replay_and_callGraph :
    (∀ changes : List Change, (replay changes).Coherent) ∧
      ∀ a : Atlas, a.callGraph.Coherent :=
  ⟨fun changes => (inStep_replay changes).coherent, fun a => (inStep_callGraph a).coherent⟩

end Graph
end SymbolAtlas
