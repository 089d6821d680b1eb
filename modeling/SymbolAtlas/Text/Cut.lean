/-
Cutting a text at a separator.

Every function works on the list of characters by structural recursion, so that
the two halves and the place of the cut can be read off the definition.
-/

namespace SymbolAtlas
namespace Text

/-- What follows `lead` at the start of a text, if the text starts with it. -/
def dropLead? : List Char → List Char → Option (List Char)
  | [], s => some s
  | _ :: _, [] => none
  | p :: ps, c :: cs => if p = c then dropLead? ps cs else none

/-- The texts before and after the first place where `sep` stands. -/
def cutFirst? (sep : List Char) : List Char → Option (List Char × List Char)
  | [] => (dropLead? sep []).map fun rest => ([], rest)
  | c :: cs =>
    match dropLead? sep (c :: cs) with
    | some rest => some ([], rest)
    | none => (cutFirst? sep cs).map fun halves => (c :: halves.1, halves.2)

/-- The texts before and after the last `mark`. -/
def cutLast? (mark : Char) : List Char → Option (List Char × List Char)
  | [] => none
  | c :: cs =>
    match cutLast? mark cs with
    | some halves => some (c :: halves.1, halves.2)
    | none => if c = mark then some ([], cs) else none

/-- The texts between the marks.  There is one more piece than there are marks,
so the empty text has the empty text as its only piece. -/
def pieces (mark : Char) : List Char → List (List Char)
  | [] => [[]]
  | c :: cs =>
    match pieces mark cs with
    | [] => [[c]]
    | p :: ps => if c = mark then [] :: p :: ps else (c :: p) :: ps

def holds (part s : List Char) : Bool := (cutFirst? part s).isSome

/-- Whether the text ends in `tail`. -/
def endsIn (tail s : List Char) : Bool := (dropLead? tail.reverse s.reverse).isSome

theorem dropLead?_eq_some_iff {lead s rest : List Char} :
    dropLead? lead s = some rest ↔ s = lead ++ rest := by
  induction lead generalizing s with
  | nil => simp [dropLead?, eq_comm]
  | cons p ps ih =>
    cases s with
    | nil => simp [dropLead?]
    | cons c cs =>
      by_cases h : p = c
      · subst h
        simp [dropLead?, ih]
      · simp [dropLead?, h, eq_comm]

theorem dropLead?_eq_none_iff {lead s : List Char} : dropLead? lead s = none ↔ ¬ lead <+: s := by
  constructor
  · rintro h ⟨rest, hrest⟩
    rw [dropLead?_eq_some_iff.mpr hrest.symm] at h
    cases h
  · intro h
    rw [Option.eq_none_iff_forall_ne_some]
    exact fun rest hrest => h ⟨rest, (dropLead?_eq_some_iff.mp hrest).symm⟩

theorem append_of_cutFirst? {sep s a b : List Char} (h : cutFirst? sep s = some (a, b)) :
    s = a ++ sep ++ b := by
  induction s generalizing a b with
  | nil =>
    simp only [cutFirst?, Option.map_eq_some_iff] at h
    obtain ⟨rest, hr, heq⟩ := h
    cases heq
    simpa using dropLead?_eq_some_iff.mp hr
  | cons c cs ih =>
    rw [cutFirst?] at h
    split at h
    · next rest hr =>
      cases h
      simpa using dropLead?_eq_some_iff.mp hr
    · next hr =>
      obtain ⟨⟨a', b'⟩, hc, heq⟩ := Option.map_eq_some_iff.mp h
      cases heq
      simp [ih hc]

theorem cutFirst?_eq_none_iff {sep s : List Char} : cutFirst? sep s = none ↔ ¬ sep <:+: s := by
  induction s with
  | nil =>
    rw [cutFirst?, Option.map_eq_none_iff, dropLead?_eq_none_iff, List.prefix_nil, List.infix_nil]
  | cons c cs ih =>
    rw [cutFirst?, List.infix_cons_iff, not_or, ← dropLead?_eq_none_iff, ← ih]
    cases dropLead? sep (c :: cs) <;> simp

theorem holds_iff {part s : List Char} : holds part s = true ↔ part <:+: s := by
  rw [holds, ← Option.ne_none_iff_isSome, ne_eq, cutFirst?_eq_none_iff,
    Classical.not_not]

/-- The cut is at the first place, so there is none before it. -/
theorem not_infix_of_cutFirst? {sep s a b : List Char} (hsep : sep ≠ [])
    (h : cutFirst? sep s = some (a, b)) : ¬ sep <:+: a := by
  induction s generalizing a b with
  | nil =>
    obtain ⟨rest, -, heq⟩ := Option.map_eq_some_iff.mp h
    cases heq
    rwa [List.infix_nil]
  | cons c cs ih =>
    rw [cutFirst?] at h
    split at h
    · cases h
      rwa [List.infix_nil]
    · next hlead =>
      obtain ⟨⟨a', b'⟩, hcut, heq⟩ := Option.map_eq_some_iff.mp h
      cases heq
      rw [List.infix_cons_iff, not_or]
      refine ⟨fun hstart => dropLead?_eq_none_iff.mp hlead (hstart.trans ?_), ih hcut⟩
      rw [append_of_cutFirst? hcut, List.append_assoc]
      exact List.prefix_append (c :: a') (sep ++ b')

theorem cutFirst?_singleton_eq_none_iff {mark : Char} {s : List Char} :
    cutFirst? [mark] s = none ↔ mark ∉ s := by
  induction s with
  | nil => simp [cutFirst?, dropLead?]
  | cons c cs ih =>
    by_cases h : mark = c
    · simp [cutFirst?, dropLead?, h]
    · simp [cutFirst?, dropLead?, h, ih]

theorem cutFirst?_append {mark : Char} {a : List Char} (ha : mark ∉ a) (b : List Char) :
    cutFirst? [mark] (a ++ mark :: b) = some (a, b) := by
  induction a with
  | nil => simp [cutFirst?, dropLead?]
  | cons c cs ih =>
    rw [List.mem_cons, not_or] at ha
    rw [List.cons_append, cutFirst?, dropLead?, if_neg ha.1, ih ha.2]
    rfl

theorem cutLast?_eq_none_iff {mark : Char} {s : List Char} :
    cutLast? mark s = none ↔ mark ∉ s := by
  induction s with
  | nil => simp [cutLast?]
  | cons c cs ih =>
    rw [cutLast?, List.mem_cons, not_or, ← ih]
    cases cutLast? mark cs with
    | some halves => simp
    | none => simp [eq_comm]

theorem append_of_cutLast? {mark : Char} {s a b : List Char}
    (h : cutLast? mark s = some (a, b)) : s = a ++ mark :: b ∧ mark ∉ b := by
  induction s generalizing a b with
  | nil => simp [cutLast?] at h
  | cons c cs ih =>
    rw [cutLast?] at h
    split at h
    · next halves hc =>
      cases h
      obtain ⟨hs, hb⟩ := ih hc
      exact ⟨by simp [hs], hb⟩
    · next hc =>
      split at h
      · next heq =>
        cases h
        exact ⟨by rw [heq]; rfl, cutLast?_eq_none_iff.mp hc⟩
      · cases h

theorem cutLast?_append {mark : Char} {b : List Char} (a : List Char) (hb : mark ∉ b) :
    cutLast? mark (a ++ mark :: b) = some (a, b) := by
  induction a with
  | nil => rw [List.nil_append, cutLast?, cutLast?_eq_none_iff.mpr hb, if_pos rfl]
  | cons c cs ih => rw [List.cons_append, cutLast?, ih]

end Text
end SymbolAtlas
