/-
The search for the chains of callers that lead to a node.

A climb goes from a node to its callers until it meets a node that nothing calls.
Each chain carries the nodes it has met, and a caller among them is passed over,
so a branch that can only return to itself ends without a chain.
-/
import SymbolAtlas.Graph.Basic

namespace SymbolAtlas

/-- A chain on its way up, newest caller first, with the nodes it has met. -/
structure Climb where
  chain : List String
  visited : List String

namespace Climb

variable (g : Graph)

def extend (c : Climb) (caller : String) : Climb :=
  { chain := caller :: c.chain, visited := caller :: c.visited }

/-- The chains that are one caller longer. -/
def extensions (c : Climb) (callers : List String) : List Climb :=
  (callers.filter fun k => k ∉ c.visited).map c.extend

def top? (c : Climb) : Option Node :=
  match c.chain with
  | [] => none
  | key :: _ => g.node? key

/-- What is found at the first open chain, and the chains open after it. -/
def step (c : Climb) (rest : List Climb) : Option (List String) × List Climb :=
  match c.top? g with
  | none => (none, rest)
  | some node =>
    if node.isRoot then (some c.chain, rest)
    else (none, c.extensions node.callers ++ rest)

/-! ## Termination -/

/-- The steps that an open chain can still cause. -/
def weight (c : Climb) : Nat :=
  match c.top? g with
  | none => 1
  | some _ => Nat.pow (g.widest Node.callers + 1) (g.fresh c.visited + 1)

def work : List Climb → Nat
  | [] => 0
  | c :: cs => weight g c + work cs

theorem weight_pos (c : Climb) : 0 < weight g c := by
  unfold weight
  split
  · exact Nat.zero_lt_one
  · exact Nat.pow_pos (by omega)

theorem weight_extend_le (c : Climb) {caller : String} (h : caller ∉ c.visited) :
    weight g (c.extend caller) ≤ Nat.pow (g.widest Node.callers + 1) (g.fresh c.visited) := by
  unfold weight
  split
  · exact Nat.pow_pos (by omega)
  · next node hn =>
    have hlt : g.fresh (caller :: c.visited) < g.fresh c.visited :=
      Graph.fresh_cons_lt (by rw [show g.node? caller = some node from hn]; rfl) h
    exact Nat.pow_le_pow_right (by omega) hlt

theorem work_extensions_le (c : Climb) (callers : List String) :
    work g (c.extensions callers) ≤
      callers.length * Nat.pow (g.widest Node.callers + 1) (g.fresh c.visited) := by
  unfold extensions
  induction callers with
  | nil => exact Nat.zero_le _
  | cons k ks ih =>
    by_cases h : k ∈ c.visited
    · rw [List.filter_cons_of_neg (by simpa using h), List.length_cons, Nat.succ_mul]
      omega
    · rw [List.filter_cons_of_pos (by simpa using h), List.map_cons, work, List.length_cons,
        Nat.succ_mul]
      have := weight_extend_le g c h
      omega

theorem work_append (cs ds : List Climb) : work g (cs ++ ds) = work g cs + work g ds := by
  induction cs with
  | nil => simp [work]
  | cons c cs ih => rw [List.cons_append, work, work, ih, Nat.add_assoc]

theorem work_step_lt (c : Climb) (rest : List Climb) :
    work g (c.step g rest).2 < work g (c :: rest) := by
  have hpos := weight_pos g c
  have hcons : work g (c :: rest) = weight g c + work g rest := rfl
  unfold step
  split
  · simp only
    omega
  · next node hn =>
    split
    · simp only
      omega
    · simp only [work_append]
      have hlen : node.callers.length ≤ g.widest Node.callers := by
        unfold top? at hn
        split at hn
        · cases hn
        · exact Graph.length_le_widest Node.callers hn
      have hext := work_extensions_le g c node.callers
      have hmul :=
        Nat.mul_le_mul_right (Nat.pow (g.widest Node.callers + 1) (g.fresh c.visited)) hlen
      have hp : 0 < Nat.pow (g.widest Node.callers + 1) (g.fresh c.visited) :=
        Nat.pow_pos (by omega)
      have hw : weight g c = g.widest Node.callers *
            Nat.pow (g.widest Node.callers + 1) (g.fresh c.visited) +
          1 * Nat.pow (g.widest Node.callers + 1) (g.fresh c.visited) := by
        rw [← Nat.add_mul, Nat.mul_comm]
        simp only [weight, hn]
        rfl
      omega

/-- Climb until no chain is open, and list the finished ones in the order in
which they were found. -/
def run : List Climb → List (List String)
  | [] => []
  | c :: rest =>
    match (c.step g rest).1 with
    | none => run (c.step g rest).2
    | some chain => chain :: run (c.step g rest).2
termination_by cs => work g cs
decreasing_by
  · exact work_step_lt g c rest
  · exact work_step_lt g c rest

/-- The chains of two nodes that end at `target`. -/
def start (target : Node) : List Climb :=
  (target.callers.filter fun k => k ≠ target.key).map fun k =>
    { chain := [k, target.key], visited := [k, target.key] }

end Climb

/-- Every simple chain of callers that leads from a node without callers to
`target`, which is in the graph. -/
def Graph.callerChains (g : Graph) (target : Node) : List (List String) :=
  Climb.run g (Climb.start target)

end SymbolAtlas
