/-
A graph is a function of its log.

Changes are applied one after the other, and what a change does depends on the graph it
meets: a call may make a node that a later change tells the kind of, and a second call
between the same two symbols adds nothing.  `ofLog` reads the graph off the log as a whole:
the keys by first mention, the first kind and the first place told of a key, and the first
call of each pair.  `nodeKeys_apply`, `notes_apply` and `edges_apply` say what one change
does to these three, and `nodeKeys_run`, `notes_run` and `edges_run` what a log of changes
does.  The lists of callers and callees follow, because they are in step with the edges.
-/
import SymbolAtlas.Proofs.Graph.Settled
import Mathlib.Data.List.DropRight

namespace SymbolAtlas
namespace Graph

/-! ## What a change says -/

namespace Change

def isClear : Change → Bool
  | .clear => true
  | _ => false

/-- The keys that a change mentions, the caller before the callee. -/
def keys : Change → List String
  | .ensureNode key _ _ => [key]
  | .addEdge caller callee _ _ => [caller, callee]
  | .clear => []

/-- The kind that a change tells of a key. -/
def kindFor? (key : String) : Change → Option SymbolKind
  | .ensureNode k kind _ => if k = key then kind else none
  | _ => none

/-- The place that a change tells of a key. -/
def locationFor? (key : String) : Change → Option Location
  | .ensureNode k _ location => if k = key then location else none
  | _ => none

def call? : Change → Option Edge
  | .addEdge caller callee location kind =>
    some { caller := caller, callee := callee, location := location, kind := kind }
  | _ => none

end Change

/-- The changes behind the last one that clears the graph. -/
def sinceClear (changes : List Change) : List Change := changes.rtakeWhile fun c => !c.isClear

/-! ## The graph of a log -/

/-- The calls of a log, only the first of each caller and callee. -/
def firstCalls (log : List Change) : List Edge :=
  distinctBy (fun e => (e.caller, e.callee)) (log.filterMap Change.call?)

/-- What a log says of a key.  Its kind and its place may come from different changes. -/
def nodeOf (log : List Change) (key : String) : Node :=
  { key := key
    kind := log.findSome? (Change.kindFor? key)
    location := log.findSome? (Change.locationFor? key)
    callers := ((firstCalls log).filter fun e => e.callee = key).map Edge.caller
    callees := ((firstCalls log).filter fun e => e.caller = key).map Edge.callee }

def ofLog (log : List Change) : Graph :=
  { nodes := { rows := (distinct (log.flatMap Change.keys)).map fun key => (key, nodeOf log key) }
    edges := { rows := (firstCalls log).map fun e => ((e.caller, e.callee), e) } }

/-- What is known in `g` is known in `h`, and nothing else is known in its place. -/
structure Outlasts (g h : Graph) : Prop where
  kind : ∀ key kind, (g.node? key).bind Node.kind = some kind →
    (h.node? key).bind Node.kind = some kind
  location : ∀ key place, (g.node? key).bind Node.location = some place →
    (h.node? key).bind Node.location = some place
  edge : ∀ caller callee e, g.edge? caller callee = some e → h.edge? caller callee = some e

/-! ## One change -/

section Apply

variable (g : Graph) {c : Change}

theorem nodeKeys_apply (h : c.isClear = false) :
    (g.apply c).nodes.keys = c.keys.foldl addLast g.nodes.keys := by
  cases c with
  | ensureNode key kind location => exact nodeKeys_touch g key _
  | addEdge caller callee location kind =>
    show ((g.touch caller _).touch callee _).nodes.keys = _
    rw [nodeKeys_touch, nodeKeys_touch]
    rfl
  | clear => cases h

theorem notes_apply (h : c.isClear = false) (key : String) :
    (g.apply c).notes key =
      ((g.notes key).1.or (c.kindFor? key), (g.notes key).2.or (c.locationFor? key)) := by
  cases c with
  | ensureNode k kind location =>
    rw [apply, notes_ensureNode]
    by_cases hk : key = k
    · simp [Change.kindFor?, Change.locationFor?, hk]
    · simp [Change.kindFor?, Change.locationFor?, hk, Ne.symm hk]
  | addEdge caller callee location kind =>
    have hsame : (g.apply (.addEdge caller callee location kind)).notes key = g.notes key :=
      g.notes_addSite ⟨caller, callee, location, kind⟩ key
    rw [hsame]
    simp [Change.kindFor?, Change.locationFor?]
  | clear => cases h

theorem edges_apply (h : c.isClear = false) :
    (g.apply c).edges = c.call?.toList.foldl keepFirst g.edges := by
  cases c with
  | ensureNode key kind location => rfl
  | addEdge caller callee location kind => rfl
  | clear => cases h

end Apply

/-! ## A log of changes -/

section Run

variable {log : List Change} (h : ∀ c ∈ log, c.isClear = false) (g : Graph)
include h

theorem nodeKeys_run :
    (log.foldl apply g).nodes.keys = (log.flatMap Change.keys).foldl addLast g.nodes.keys := by
  induction log generalizing g with
  | nil => rfl
  | cons c log ih =>
    rw [List.foldl_cons, ih fun d hd => h d (List.mem_cons_of_mem c hd),
      g.nodeKeys_apply (h c List.mem_cons_self), List.flatMap_cons, List.foldl_append]

theorem notes_run (key : String) :
    (log.foldl apply g).notes key =
      ((g.notes key).1.or (log.findSome? (Change.kindFor? key)),
        (g.notes key).2.or (log.findSome? (Change.locationFor? key))) := by
  induction log generalizing g with
  | nil => simp
  | cons c log ih =>
    rw [List.foldl_cons, ih fun d hd => h d (List.mem_cons_of_mem c hd),
      g.notes_apply (h c List.mem_cons_self), List.findSome?_cons, List.findSome?_cons,
      Option.or_assoc, Option.or_assoc]
    cases c.kindFor? key <;> cases c.locationFor? key <;> rfl

theorem edges_run :
    (log.foldl apply g).edges = (log.filterMap Change.call?).foldl keepFirst g.edges := by
  induction log generalizing g with
  | nil => rfl
  | cons c log ih =>
    rw [List.foldl_cons, ih fun d hd => h d (List.mem_cons_of_mem c hd),
      g.edges_apply (h c List.mem_cons_self), List.filterMap_cons]
    cases c.call? <;> rfl

end Run

/-! ## From the empty graph -/

theorem replay_sinceClear (changes : List Change) :
    replay (sinceClear changes) = replay changes := by
  induction changes using List.reverseRecOn with
  | nil => rfl
  | append_singleton changes c ih =>
    have hstep (cs : List Change) : replay (cs ++ [c]) = (replay cs).apply c := by
      rw [replay, List.foldl_append]
      rfl
    rw [sinceClear, List.rtakeWhile_concat, hstep]
    cases hclear : c.isClear with
    | true =>
      cases c with
      | clear => rfl
      | _ => cases hclear
    | false =>
      rw [Bool.not_false, if_pos rfl, hstep]
      exact congrArg (·.apply c) ih

theorem not_isClear_of_mem_sinceClear {changes : List Change} {c : Change}
    (h : c ∈ sinceClear changes) : c.isClear = false := by
  have hkept := List.mem_rtakeWhile_imp h
  rwa [Bool.not_eq_true'] at hkept

/-- The rows of a graph that is in step are its nodes and its edges. -/
theorem InStep.eq_of_lists {g : Graph} (h : g.InStep) :
    g = { nodes := { rows := g.nodeList.map fun n => (n.key, n) }
          edges := { rows := g.edgeList.map fun e => ((e.caller, e.callee), e) } } := by
  have hnodes : g.nodes.rows = g.nodeList.map fun n => (n.key, n) := by
    rw [nodeList, Table.values, List.map_map]
    refine (List.map_id g.nodes.rows).symm.trans (List.map_congr_left fun row hrow => ?_)
    exact Prod.ext (h.coherent.node_key row hrow).symm rfl
  have hedges : g.edges.rows = g.edgeList.map fun e => ((e.caller, e.callee), e) := by
    rw [edgeList, Table.values, List.map_map]
    refine (List.map_id g.edges.rows).symm.trans (List.map_congr_left fun row hrow => ?_)
    exact Prod.ext (h.edge_pair hrow).symm rfl
  rw [← hnodes, ← hedges]

section Replay

variable {log : List Change} (h : ∀ c ∈ log, c.isClear = false)
include h

theorem edgeList_replay : (replay log).edgeList = firstCalls log := by
  have hempty : ({} : Table (String × String) Edge).keys =
      ({} : Table (String × String) Edge).values.map fun e => (e.caller, e.callee) := rfl
  have hedges : (replay log).edges = (log.filterMap Change.call?).foldl keepFirst {} :=
    edges_run h empty
  rw [edgeList, hedges, values_foldl_keepFirst hempty, foldl_addLastBy]
  simp [Table.values, firstCalls]

theorem eq_nodeOf_of_mem {n : Node} (hn : n ∈ (replay log).nodeList) : n = nodeOf log n.key := by
  have hstep := inStep_replay log
  have hnotes := notes_run h empty n.key
  rw [show log.foldl apply empty = replay log from rfl,
    notes_of_node? (hstep.node?_of_mem hn)] at hnotes
  obtain ⟨hkind, hplace⟩ := Prod.mk.inj hnotes
  have hcallees := hstep.coherent.callees_eq n hn
  have hcallers := hstep.coherent.callers_eq n hn
  rw [edgeList_replay h] at hcallees hcallers
  obtain ⟨key, kind, place, callers, callees⟩ := n
  simp only at hkind hplace hcallees hcallers
  rw [nodeOf, ← hcallees, ← hcallers, hkind, hplace]
  rfl

theorem nodeList_replay :
    (replay log).nodeList = (distinct (log.flatMap Change.keys)).map (nodeOf log) := by
  have hkeys : (replay log).nodes.keys = distinct (log.flatMap Change.keys) :=
    (nodeKeys_run h empty).trans (foldl_addLast _)
  rw [← hkeys, (inStep_replay log).nodeKeys_eq, List.map_map]
  refine (List.map_id _).symm.trans (List.map_congr_left fun n hn => ?_)
  exact eq_nodeOf_of_mem h hn

theorem replay_eq_ofLog : replay log = ofLog log := by
  rw [(inStep_replay log).eq_of_lists, edgeList_replay h, nodeList_replay h, List.map_map]
  rfl

end Replay

/-! ## What lasts -/

theorem notes_eq (g : Graph) (key : String) :
    g.notes key = ((g.node? key).bind Node.kind, (g.node? key).bind Node.location) := by
  unfold notes
  cases g.node? key <;> rfl

theorem get?_foldl_keepFirst {edges : Table (String × String) Edge} {pair : String × String}
    {e : Edge} (h : edges.get? pair = some e) (es : List Edge) :
    (es.foldl keepFirst edges).get? pair = some e := by
  induction es generalizing edges with
  | nil => exact h
  | cons s es ih =>
    refine ih ?_
    rw [keepFirst, Table.get?_addNew]
    split
    · next hpair => rw [← hpair, h, Option.getD_some]
    · exact h

theorem outlasts_run {log : List Change} (h : ∀ c ∈ log, c.isClear = false) (g : Graph) :
    g.Outlasts (log.foldl apply g) := by
  have hnotes (key : String) := notes_run h g key
  simp only [notes_eq, Prod.mk.injEq] at hnotes
  refine ⟨fun key kind hkind => ?_, fun key place hplace => ?_, fun caller callee e he => ?_⟩
  · rw [(hnotes key).1, hkind, Option.some_or]
  · rw [(hnotes key).2, hplace, Option.some_or]
  · rw [edge?, edges_run h]
    exact get?_foldl_keepFirst he _

/-- A graph is what the log since it was last cleared says, and no more: its nodes are the
keys that are mentioned, in the order in which they come first, with the first kind and the
first place that is told of each, and its edges are the first calls.  So whatever is known
of a symbol or a call stays as it is until the graph is cleared. -/
theorem replay_eq_ofLog_and_outlasts (changes : List Change) :
    replay changes = ofLog (sinceClear changes) ∧
      ∀ more : List Change, (∀ c ∈ more, c.isClear = false) →
        (replay changes).Outlasts (replay (changes ++ more)) := by
  constructor
  · rw [← replay_sinceClear]
    exact replay_eq_ofLog fun c hc => not_isClear_of_mem_sinceClear hc
  · intro more hmore
    have happend : replay (changes ++ more) = more.foldl apply (replay changes) :=
      List.foldl_append
    rw [happend]
    exact outlasts_run hmore _

/-- A card that is called before it is known, whose place and kind are told apart, and
whose graph was cleared before. -/
def cardChanges : List Change :=
  [.ensureNode "Card" (some .hook) none, .clear,
   .addEdge "App" "Card" ⟨"app.tsx", 2, 1⟩ .render,
   .ensureNode "Card" none (some ⟨"card.tsx", 1, 1⟩),
   .ensureNode "Card" (some .functionComponent) (some ⟨"other.tsx", 5, 1⟩),
   .addEdge "Card" "Card" ⟨"card.tsx", 3, 1⟩ .render]

theorem card_outlasts_later_changes :
    let more : List Change :=
      [.ensureNode "Card" (some .plainClass) (some ⟨"late.tsx", 9, 1⟩),
       .addEdge "App" "Card" ⟨"app.tsx", 8, 1⟩ .call]
    (∀ c ∈ more, c.isClear = false) ∧
      ((replay (cardChanges ++ more)).node? "Card").bind Node.kind = some .functionComponent ∧
      ((replay (cardChanges ++ more)).node? "Card").bind Node.location =
        some ⟨"card.tsx", 1, 1⟩ ∧
      (replay (cardChanges ++ more)).edge? "App" "Card" =
        some ⟨"App", "Card", ⟨"app.tsx", 2, 1⟩, .render⟩ := by
  intro more
  have hmore : ∀ c ∈ more, c.isClear = false := by decide
  have hlasts := (replay_eq_ofLog_and_outlasts cardChanges).2 more hmore
  exact ⟨hmore, hlasts.kind _ _ (by decide), hlasts.location _ _ (by decide),
    hlasts.edge _ _ _ (by decide)⟩

end Graph
end SymbolAtlas
