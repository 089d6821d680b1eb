/-
Tables that list their rows in the order in which the keys first came.
-/
import SymbolAtlas.Distinct

namespace SymbolAtlas

structure Table (κ ν : Type) where
  rows : List (κ × ν) := []

namespace Table

variable {κ ν : Type} [DecidableEq κ]

def empty : Table κ ν := { rows := [] }

def keys (t : Table κ ν) : List κ := t.rows.map Prod.fst

def values (t : Table κ ν) : List ν := t.rows.map Prod.snd

def size (t : Table κ ν) : Nat := t.rows.length

def find? (k : κ) : List (κ × ν) → Option ν
  | [] => none
  | r :: rs => if r.1 = k then some r.2 else find? k rs

def get? (t : Table κ ν) (k : κ) : Option ν := find? k t.rows

def change (k : κ) (f : ν → ν) : List (κ × ν) → List (κ × ν)
  | [] => []
  | r :: rs => if r.1 = k then (r.1, f r.2) :: rs else r :: change k f rs

/-- Change the value under a key that is there; do nothing for another key. -/
def modify (t : Table κ ν) (k : κ) (f : ν → ν) : Table κ ν := { rows := change k f t.rows }

def mapValues (t : Table κ ν) (f : ν → ν) : Table κ ν :=
  { rows := t.rows.map fun r => (r.1, f r.2) }

/-- Give the key a value unless it has one. -/
def addNew (t : Table κ ν) (k : κ) (v : ν) : Table κ ν :=
  match t.get? k with
  | some _ => t
  | none => { rows := t.rows ++ [(k, v)] }

/-! ## Rows, keys and values -/

theorem mem_keys_of_find? {k : κ} {v : ν} {rows : List (κ × ν)} (h : find? k rows = some v) :
    (k, v) ∈ rows := by
  induction rows with
  | nil => simp [find?] at h
  | cons r rs ih =>
    rw [find?] at h
    split at h
    · next hk =>
      cases h
      exact List.mem_cons.mpr (Or.inl (by rw [← hk]))
    · exact List.mem_cons_of_mem _ (ih h)

theorem find?_isSome_iff {k : κ} {rows : List (κ × ν)} :
    (find? k rows).isSome ↔ k ∈ rows.map Prod.fst := by
  induction rows with
  | nil => simp [find?]
  | cons r rs ih =>
    rw [find?]
    split
    · next hk => simp [hk]
    · next hk => simp [ih, Ne.symm hk]

theorem mem_keys_iff {t : Table κ ν} {k : κ} : k ∈ t.keys ↔ (t.get? k).isSome :=
  find?_isSome_iff.symm

theorem mem_values_of_get? {t : Table κ ν} {k : κ} {v : ν} (h : t.get? k = some v) :
    v ∈ t.values :=
  List.mem_map.mpr ⟨(k, v), mem_keys_of_find? h, rfl⟩

theorem change_keys (k : κ) (f : ν → ν) (rows : List (κ × ν)) :
    (change k f rows).map Prod.fst = rows.map Prod.fst := by
  induction rows with
  | nil => rfl
  | cons r rs ih =>
    rw [change]
    split <;> simp [ih]

theorem keys_modify (t : Table κ ν) (k : κ) (f : ν → ν) : (t.modify k f).keys = t.keys :=
  change_keys k f t.rows

theorem find?_change (k l : κ) (f : ν → ν) (rows : List (κ × ν)) :
    find? l (change k f rows) = if l = k then (find? k rows).map f else find? l rows := by
  induction rows with
  | nil => simp [change, find?]
  | cons r rs ih =>
    by_cases hk : r.1 = k
    · by_cases hl : l = k
      · subst hl
        simp [change, find?, hk]
      · simp [change, find?, hk, hl, Ne.symm hl]
    · by_cases hl : l = k
      · subst hl
        simp [change, find?, hk, ih]
      · simp [change, find?, hk, ih, hl]

theorem get?_modify (t : Table κ ν) (k l : κ) (f : ν → ν) :
    (t.modify k f).get? l = if l = k then (t.get? k).map f else t.get? l :=
  find?_change k l f t.rows

theorem find?_append (k : κ) (rows more : List (κ × ν)) :
    find? k (rows ++ more) = (find? k rows).or (find? k more) := by
  induction rows with
  | nil => rfl
  | cons r rs ih =>
    rw [List.cons_append, find?, find?]
    split
    · rfl
    · exact ih

theorem get?_addNew (t : Table κ ν) (k l : κ) (v : ν) :
    (t.addNew k v).get? l = if l = k then some ((t.get? k).getD v) else t.get? l := by
  unfold addNew
  split
  · next u hu =>
    by_cases hl : l = k
    · rw [if_pos hl, hl, hu, Option.getD_some]
    · rw [if_neg hl]
  · next hn =>
    have happ : get? { rows := t.rows ++ [(k, v)] } l =
        (t.get? l).or (find? l [(k, v)]) := find?_append l t.rows [(k, v)]
    rw [happ]
    by_cases hl : l = k
    · rw [if_pos hl, hl, hn]
      simp [find?]
    · rw [if_neg hl]
      simp [find?, Ne.symm hl]

theorem keys_addNew (t : Table κ ν) (k : κ) (v : ν) :
    (t.addNew k v).keys = addLast t.keys k := by
  unfold addNew addLast
  split
  · next u hu =>
    rw [if_pos (mem_keys_iff.mpr (by rw [hu]; rfl))]
  · next hn =>
    have hk : k ∉ t.keys := fun h => by simp [mem_keys_iff, hn] at h
    rw [if_neg hk]
    exact List.map_append

omit [DecidableEq κ] in
theorem keys_mapValues (t : Table κ ν) (f : ν → ν) : (t.mapValues f).keys = t.keys := by
  simp [keys, mapValues]

theorem get?_mapValues (t : Table κ ν) (f : ν → ν) (k : κ) :
    (t.mapValues f).get? k = (t.get? k).map f := by
  show find? k (t.rows.map fun r => (r.1, f r.2)) = (find? k t.rows).map f
  induction t.rows with
  | nil => rfl
  | cons r rs ih =>
    rw [List.map_cons, find?, find?]
    split
    · rfl
    · exact ih

/-- In a table without repeated keys every row is the one that its key finds. -/
theorem get?_of_mem_rows {t : Table κ ν} (h : t.keys.Nodup) {r : κ × ν} (hr : r ∈ t.rows) :
    t.get? r.1 = some r.2 := by
  obtain ⟨rows⟩ := t
  change (rows.map Prod.fst).Nodup at h
  show find? r.1 rows = some r.2
  induction rows with
  | nil => cases hr
  | cons q qs ih =>
    rw [List.map_cons, List.nodup_cons] at h
    rw [find?]
    rcases List.mem_cons.mp hr with rfl | hq
    · rw [if_pos rfl]
    · have hne : q.1 ≠ r.1 := fun e => h.1 (e ▸ List.mem_map_of_mem hq)
      rw [if_neg hne]
      exact ih hq h.2

end Table
end SymbolAtlas
