/-
The search for all simple paths between two nodes.

A walk goes down one branch at a time.  It keeps the nodes on the branch, the
callees still to try at each of them, and the nodes that the branch may not meet
again; going back takes the last node off all three.  A node can therefore be
met again on another branch, and what bounds the search is neither the number of
nodes seen nor the length of the branch: `Walk.work` weighs each callee still to
try by the power of the nodes that are not yet on the branch.
-/
import SymbolAtlas.Graph.Basic

namespace SymbolAtlas

/-- A node on the branch, with the callees still to try. -/
structure Walk.Stop where
  key : String
  pending : List String

/-- The state of a search.  The branch and its stops are listed innermost first,
the paths found newest first. -/
structure Walk where
  branch : List String
  stops : List Walk.Stop
  visited : List String
  found : List (List String)

namespace Walk

variable (g : Graph) (target : String)

def start (key : String) (callees : List String) : Walk :=
  { branch := [key], stops := [{ key := key, pending := callees }], visited := [key],
    found := [] }

/-- Leave the innermost node. -/
def back (w : Walk) (outer : List Stop) : Walk :=
  match w.branch with
  | [] => { w with stops := outer }
  | done :: rest =>
    { w with branch := rest, stops := outer, visited := w.visited.erase done }

/-- Go on to a callee and to the callees of its own. -/
def enter (w : Walk) (key : String) (callees : List String) : Walk :=
  { w with
    branch := key :: w.branch
    stops := { key := key, pending := callees } :: w.stops
    visited := key :: w.visited }

def report (w : Walk) : Walk := { w with found := (target :: w.branch).reverse :: w.found }

/-- Try the next callee of the innermost node.  The search is over when no node
is left. -/
def step? (w : Walk) : Option Walk :=
  match w.stops with
  | [] => none
  | { key := _, pending := [] } :: outer => some (w.back outer)
  | { key := key, pending := callee :: rest } :: outer =>
    let tried := { w with stops := { key := key, pending := rest } :: outer }
    if callee ∈ w.visited then some tried
    else if callee = target then some (tried.report target)
    else
      match g.node? callee with
      | none => some tried
      | some child => some (tried.enter callee child.callees)

/-! ## Termination -/

/-- The branch, the stops and the nodes not to be met again are the same nodes
in the same order. -/
structure Aligned (w : Walk) : Prop where
  branch_eq : w.branch = w.stops.map Stop.key
  visited_eq : w.visited = w.branch

theorem aligned_start (key : String) (callees : List String) : (start key callees).Aligned :=
  ⟨rfl, rfl⟩

theorem Aligned.back {w : Walk} {s : Stop} {outer : List Stop} (h : w.Aligned)
    (hs : w.stops = s :: outer) : (w.back outer).Aligned := by
  have hb : w.branch = s.key :: outer.map Stop.key := by rw [h.branch_eq, hs]; rfl
  have hv : w.visited = s.key :: outer.map Stop.key := by rw [h.visited_eq, hb]
  constructor <;> simp [Walk.back, hb, hv]

theorem Aligned.enter {w : Walk} (h : w.Aligned) (key : String) (callees : List String) :
    (w.enter key callees).Aligned := by
  constructor <;> simp [Walk.enter, h.branch_eq, h.visited_eq]

theorem Aligned.tried {w : Walk} {s : Stop} {outer : List Stop} (h : w.Aligned)
    (hs : w.stops = s :: outer) (rest : List String) :
    { w with stops := { key := s.key, pending := rest } :: outer : Walk }.Aligned := by
  constructor
  · simp [h.branch_eq, hs]
  · exact h.visited_eq

theorem Aligned.step {w w' : Walk} (h : w.Aligned) (e : w.step? g target = some w') :
    w'.Aligned := by
  unfold step? at e
  split at e
  · cases e
  · next hs => cases e; exact h.back hs
  · next rest outer hs =>
    have ht := h.tried hs rest
    split at e
    · cases e; exact ht
    · split at e
      · cases e; exact ⟨ht.branch_eq, ht.visited_eq⟩
      · split at e
        · cases e; exact ht
        · cases e; exact ht.enter _ _

/-- The steps that the stops can still cause. -/
def work : List Stop → Nat
  | [] => 0
  | s :: outer =>
    1 + s.pending.length *
        Nat.pow (g.widest Node.callees + 2) (g.fresh (s.key :: outer.map Stop.key))
      + work outer

theorem work_try_lt {key callee : String} {rest : List String} {outer : List Stop} :
    work g ({ key := key, pending := rest } :: outer) <
      work g ({ key := key, pending := callee :: rest } :: outer) := by
  have hpos : 0 < Nat.pow (g.widest Node.callees + 2) (g.fresh (key :: outer.map Stop.key)) :=
    Nat.pow_pos (by omega)
  simp only [work, List.length_cons, Nat.succ_mul]
  omega

theorem work_enter_lt {key callee : String} {rest : List String} {outer : List Stop}
    {child : Node} (hn : g.node? callee = some child)
    (hv : callee ∉ key :: outer.map Stop.key) :
    work g ({ key := callee, pending := child.callees } ::
        { key := key, pending := rest } :: outer) <
      work g ({ key := key, pending := callee :: rest } :: outer) := by
  have hlt := Graph.fresh_cons_lt (g := g) (by rw [hn]; rfl) hv
  have hlen : child.callees.length ≤ g.widest Node.callees :=
    Graph.length_le_widest Node.callees hn
  simp only [work, List.length_cons, List.map_cons, Nat.succ_mul]
  generalize g.fresh (key :: outer.map Stop.key) = m at hlt ⊢
  generalize g.fresh (callee :: key :: outer.map Stop.key) = n at hlt ⊢
  generalize g.widest Node.callees = b at hlen ⊢
  obtain ⟨d, rfl⟩ : ∃ d, m = n + 1 + d := ⟨m - (n + 1), by omega⟩
  have hstep : Nat.pow (b + 2) (n + 1) ≤ Nat.pow (b + 2) (n + 1 + d) :=
    Nat.pow_le_pow_right (by omega) (by omega)
  have hpos : 0 < Nat.pow (b + 2) n := Nat.pow_pos (by omega)
  have hmul : child.callees.length * Nat.pow (b + 2) n ≤ b * Nat.pow (b + 2) n :=
    Nat.mul_le_mul_right _ hlen
  have hsucc : Nat.pow (b + 2) (n + 1) = b * Nat.pow (b + 2) n + 2 * Nat.pow (b + 2) n := by
    show Nat.pow (b + 2) n * (b + 2) = _
    rw [Nat.mul_comm, Nat.add_mul]
  omega

theorem work_step_lt {w w' : Walk} (h : w.Aligned) (e : w.step? g target = some w') :
    work g w'.stops < work g w.stops := by
  unfold step? at e
  split at e
  · cases e
  · next outer hs =>
    cases e
    have hstops : (w.back outer).stops = outer := by
      unfold back
      split <;> rfl
    rw [hstops, hs]
    simp only [work, List.length_nil, Nat.zero_mul]
    omega
  · next key callee rest outer hs =>
    have hvis : w.visited = key :: outer.map Stop.key := by
      rw [h.visited_eq, h.branch_eq, hs]; rfl
    rw [hs]
    split at e
    · cases e; exact work_try_lt g
    · next hnv =>
      split at e
      · cases e; exact work_try_lt g
      · split at e
        · cases e; exact work_try_lt g
        · next child hn =>
          cases e
          exact work_enter_lt g hn (hvis ▸ hnv)

/-- Take steps until the search is over, and list the paths in the order in
which they were found. -/
def run (w : Walk) (h : w.Aligned) : List (List String) :=
  match e : w.step? g target with
  | none => w.found.reverse
  | some w' => run w' (h.step g target e)
termination_by work g w.stops
decreasing_by exact work_step_lt g target h e

end Walk

/-- All simple paths from `source`, which is in the graph, to `target`, in
depth-first order.  A node has one path to itself. -/
def Graph.simplePaths (g : Graph) (source : Node) (target : String) : List (List String) :=
  if source.key = target then [[target]]
  else Walk.run g target (Walk.start source.key source.callees) (Walk.aligned_start _ _)

end SymbolAtlas
