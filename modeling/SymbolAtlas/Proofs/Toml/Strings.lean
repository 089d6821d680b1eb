/-
Strings that are read back as they were written.

The writer has four forms and takes one by what the text holds.  The two forms in double quotes can
show every text, because everything that has a meaning there is escaped; `TakesEscapes.escape` says
so of one character.  The two forms in single quotes know no escapes and show a text only if each
of its characters stands for itself, which is what the choice of the form looks at.

In the long forms the quotes at the end of a text run into the three that close it.  A run of raw
quotes inside is never longer than two, so the reader knows where it is: both proofs carry the
quotes that were just written in front of what is left to read.
-/
import SymbolAtlas.Toml.Quoted

namespace SymbolAtlas
namespace Toml
namespace Quoted

/-- What may follow a string: anything that is no quote. -/
def Apart (rest : List Char) : Prop := rest.head? ≠ some '"' ∧ rest.head? ≠ some '\''

/-- Put a text in front of what was read. -/
def putText (front : List Char) (r : Option (List Char × List Char)) :
    Option (List Char × List Char) :=
  r.map fun x => (front ++ x.1, x.2)

theorem putFront_some (c : Char) (r : Option (List Char × List Char)) :
    putFront (some c) r = putText [c] r := by
  cases r with
  | none => rfl
  | some x => rfl

theorem putText_putText (a b : List Char) (r : Option (List Char × List Char)) :
    putText a (putText b r) = putText (a ++ b) r := by
  cases r with
  | none => rfl
  | some x => simp [putText]

/-! ## Characters -/

theorem isCommentChar_of_plain {c : Char} (h : isControl c = false) (hn : c ≠ '\n') :
    isCommentChar c = true := by
  by_cases htab : c = '\t'
  · subst htab
    rfl
  · simp only [isControl, Bool.or_eq_false_iff, Bool.and_eq_false_iff, decide_eq_false_iff_not,
      bne_eq_false_iff_eq, beq_eq_false_iff_ne, htab, hn, or_false] at h
    obtain ⟨hlow, hdelete⟩ := h
    simp only [isCommentChar, isPrintable, isWide, Bool.or_eq_true, Bool.and_eq_true,
      decide_eq_true_eq]
    omega

theorem isBasicChar_of_plain {c : Char} (h : isControl c = false) (hn : c ≠ '\n') (hq : c ≠ '"')
    (hb : c ≠ '\\') : isBasicChar c = true := by
  simp [isBasicChar, isCommentChar_of_plain h hn, hq, hb]

theorem isLiteralChar_of_plain {c : Char} (h : isControl c = false) (hn : c ≠ '\n')
    (hq : c ≠ '\'') : isLiteralChar c = true := by
  simp [isLiteralChar, isCommentChar_of_plain h hn, hq]

theorem hexDigit?_upperHex : ∀ d < 16, hexDigit? (upperHex d) = some d := by decide

theorem codePoint?_upperHex {c : Char} (h : isControl c = true) :
    codePoint? ['0', '0', upperHex (c.toNat / 16), upperHex (c.toNat % 16)] = some c := by
  have hlt : c.toNat < 128 := by
    simp only [isControl, Bool.or_eq_true, Bool.and_eq_true, decide_eq_true_eq, beq_iff_eq] at h
    omega
  have hhigh := hexDigit?_upperHex (c.toNat / 16) (by omega)
  have hlow := hexDigit?_upperHex (c.toNat % 16) (by omega)
  have hzero : hexDigit? '0' = some 0 := by decide
  have hsum : 16 * (c.toNat / 16) + c.toNat % 16 = c.toNat := by omega
  have hvalid : c.toNat.isValidChar := c.valid
  simp [codePoint?, hexNumber?, hhigh, hlow, hzero, hsum, hvalid, Char.ofNat_toNat]

/-! ## Between double quotes -/

/-- How a reader between double quotes takes what the writer puts there: a letter or a code point
behind a backslash, and a character that stands for itself. -/
structure TakesEscapes (body : List Char → Option (List Char × List Char)) : Prop where
  short : ∀ {k c : Char} (rest : List Char), shortEscape? k = some c →
    body ('\\' :: k :: rest) = putFront (some c) (body rest)
  long : ∀ (a b c d : Char) (rest : List Char),
    body ('\\' :: 'u' :: a :: b :: c :: d :: rest) = putFront (codePoint? [a, b, c, d]) (body rest)
  plain : ∀ {c : Char} (rest : List Char), isBasicChar c = true →
    body (c :: rest) = putFront (some c) (body rest)

/-- What one character is written as is read as this character. -/
theorem TakesEscapes.escape {body : List Char → Option (List Char × List Char)}
    (h : TakesEscapes body) (c : Char) (rest : List Char) :
    body (escape c ++ rest) = putText [c] (body rest) := by
  rw [← putFront_some]
  unfold Quoted.escape
  split
  case h_8 hb ht hn hf hr hq hs =>
    split
    · next hcontrol => exact (h.long _ _ _ _ rest).trans (by rw [codePoint?_upperHex hcontrol])
    · next hplain =>
      exact h.plain rest (isBasicChar_of_plain (Bool.eq_false_iff.mpr hplain) hn hq hs)
  all_goals exact h.short rest rfl

theorem ne_of_isBasicChar {c : Char} (h : isBasicChar c = true) : c ≠ '"' ∧ c ≠ '\\' := by
  simp only [isBasicChar, Bool.and_eq_true, bne_iff_ne] at h
  exact ⟨h.1.2, h.2⟩

theorem takesEscapes_basicBody : TakesEscapes basicBody := by
  constructor
  · intro k c rest h
    unfold shortEscape? at h
    split at h
    case h_8 => cases h
    all_goals
      cases h
      rfl
  · intro a b c d rest
    rfl
  · intro c rest h
    obtain ⟨hq, hb⟩ := ne_of_isBasicChar h
    rw [basicBody, if_pos h]
    all_goals simp [hq, hb]

theorem takesEscapes_longBasicBody : TakesEscapes (longBasicBody .text) := by
  constructor
  · intro k c rest h
    unfold shortEscape? at h
    split at h
    case h_8 => cases h
    all_goals
      cases h
      rfl
  · intro a b c d rest
    rfl
  · intro c rest h
    obtain ⟨hq, hb⟩ := ne_of_isBasicChar h
    have hn : c ≠ '\n' := fun hc => absurd (hc ▸ h) (by decide)
    have hr : c ≠ '\r' := fun hc => absurd (hc ▸ h) (by decide)
    rw [longBasicBody, if_pos h]
    all_goals simp [hq, hb, hn, hr]

theorem basicBody_flatMap_escape (s rest : List Char) :
    basicBody (s.flatMap escape ++ '"' :: rest) = some (s, rest) := by
  induction s with
  | nil => rfl
  | cons c cs ih =>
    rw [List.flatMap_cons, List.append_assoc, takesEscapes_basicBody.escape, ih]
    rfl

/-- What stands for one character starts with a backslash if it is not the character. -/
theorem escape_cases (c : Char) : escape c = [c] ∨ ∃ u, escape c = '\\' :: u := by
  unfold escape
  split
  case h_8 =>
    split
    · exact .inr ⟨_, rfl⟩
    · exact .inl rfl
  all_goals exact .inr ⟨_, rfl⟩

theorem head?_escape_append (c : Char) (t : List Char) {d : Char} (hd : escape d ≠ [d])
    (hb : d ≠ '\\') : (escape c ++ t).head? ≠ some d := by
  intro h
  rcases escape_cases c with hc | ⟨u, hc⟩
  · rw [hc] at h
    obtain rfl : c = d := Option.some.inj h
    exact hd hc
  · rw [hc] at h
    exact hb (Option.some.inj h).symm

/-! ## Three quotes -/

/-- How the reader of a long form takes its quotes: three of them close the text, up to two right
before those belong to it, and so does every quote that two others do not follow. -/
structure TakesQuotes (k : Char) (body : List Char → Option (List Char × List Char)) : Prop where
  one : ∀ {t : List Char}, (∀ u, t ≠ k :: k :: u) → body (k :: t) = putText [k] (body t)
  close : ∀ {q : Nat} {rest : List Char}, q ≤ 2 → rest.head? ≠ some k →
    body (List.replicate q k ++ k :: k :: k :: rest) = some (List.replicate q k, rest)

theorem TakesQuotes.few {k : Char} {body : List Char → Option (List Char × List Char)}
    (h : TakesQuotes k body) {q : Nat} (hq : q ≤ 2) {t : List Char} (ht : t.head? ≠ some k) :
    body (List.replicate q k ++ t) = putText (List.replicate q k) (body t) := by
  have hone : body (k :: t) = putText [k] (body t) := h.one fun u hu => ht (by rw [hu]; rfl)
  match q with
  | 0 => simp [putText]
  | 1 => exact hone
  | 2 =>
    have htwo : body (k :: k :: t) = putText [k] (body (k :: t)) :=
      h.one fun u hu => ht (by rw [(List.cons.inj hu).2]; rfl)
    rw [hone, putText_putText] at htwo
    exact htwo

theorem takesQuotes_longBasicBody : TakesQuotes '"' (longBasicBody .text) := by
  constructor
  · intro t h
    rw [← putFront_some, longBasicBody]
    · exact fun u hu => h _ hu
    · exact fun u hu => h _ hu
    · exact fun u hu => h _ hu
    all_goals simp
  · intro q rest hq h
    have hrest : ∀ u, rest ≠ '"' :: u := fun u hu => h (by rw [hu]; rfl)
    match q with
    | 0 => rw [List.replicate_zero, List.nil_append, longBasicBody] <;> simp [hrest]
    | 1 =>
      simp only [List.replicate_succ, List.replicate_zero, List.nil_append, List.cons_append]
      rw [longBasicBody] <;> simp [hrest]
    | 2 => rfl

theorem takesQuotes_longLiteralBody : TakesQuotes '\'' longLiteralBody := by
  constructor
  · intro t h
    rw [← putFront_some, longLiteralBody]
    · exact fun u hu => h _ hu
    · exact fun u hu => h _ hu
    · exact fun u hu => h _ hu
  · intro q rest hq h
    have hrest : ∀ u, rest ≠ '\'' :: u := fun u hu => h (by rw [hu]; rfl)
    match q with
    | 0 => rw [List.replicate_zero, List.nil_append, longLiteralBody] <;> simp [hrest]
    | 1 =>
      simp only [List.replicate_succ, List.replicate_zero, List.nil_append, List.cons_append]
      rw [longLiteralBody]
      simp [hrest]
    | 2 => rfl

/-- The induction is along the text, with the `q` raw quotes that stand right before it. -/
theorem longBasicBody_escapeLong (s : List Char) {q : Nat} (hq : q ≤ 2) {rest : List Char}
    (h : Apart rest) :
    longBasicBody .text
        (List.replicate q '"' ++ (escapeLong q s ++ '"' :: '"' :: '"' :: rest)) =
      some (List.replicate q '"' ++ s, rest) := by
  induction s generalizing q with
  | nil =>
    rw [List.append_nil]
    exact takesQuotes_longBasicBody.close hq h.1
  | cons c cs ih =>
    have hclear : longBasicBody .text (escapeLong 0 cs ++ '"' :: '"' :: '"' :: rest) =
        some (cs, rest) := ih (Nat.zero_le 2)
    have hescape : longBasicBody .text (List.replicate q '"' ++
        (escape c ++ (escapeLong 0 cs ++ '"' :: '"' :: '"' :: rest))) =
        some (List.replicate q '"' ++ c :: cs, rest) := by
      rw [takesQuotes_longBasicBody.few hq (head?_escape_append c _ (by decide) (by decide)),
        takesEscapes_longBasicBody.escape, hclear]
      rfl
    by_cases hn : c = '\n'
    · subst hn
      have hline : longBasicBody .text ('\n' :: (escapeLong 0 cs ++ '"' :: '"' :: '"' :: rest)) =
          some ('\n' :: cs, rest) := by
        rw [longBasicBody, hclear]
        · rfl
        all_goals simp
      rw [escapeLong, List.cons_append, takesQuotes_longBasicBody.few hq (by simp), hline]
      rfl
    by_cases hquote : c = '"'
    · subst hquote
      by_cases hlt : q < 2
      · have hmore := ih (q := q + 1) (by omega)
        rw [escapeLong, if_pos hlt, List.cons_append]
        simpa [List.replicate_succ'] using hmore
      · rw [escapeLong, if_neg hlt]
        exact hescape
    · rw [escapeLong, List.append_assoc]
      · exact hescape
      · exact hn
      · exact hquote

/-! ## Between single quotes -/

theorem le_longestRun (k : Char) (n : Nat) (s : List Char) : n ≤ longestRun k n s := by
  induction s generalizing n with
  | nil => exact Nat.le_refl n
  | cons c cs ih =>
    rw [longestRun]
    split
    · exact Nat.le_trans (Nat.le_succ n) (ih (n + 1))
    · exact Nat.le_max_left n _

theorem literalBody_append {s : List Char} (h : ∀ c ∈ s, isLiteralChar c = true)
    (rest : List Char) : literalBody (s ++ '\'' :: rest) = some (s, rest) := by
  induction s with
  | nil => rfl
  | cons c cs ih =>
    have hc : isLiteralChar c = true := h c List.mem_cons_self
    have hquote : c ≠ '\'' := by
      simp only [isLiteralChar, Bool.and_eq_true, bne_iff_ne] at hc
      exact hc.2
    rw [List.cons_append, literalBody, if_pos hc,
      ih fun d hd => h d (List.mem_cons_of_mem c hd)]
    · rfl
    · exact hquote

theorem longLiteralBody_cons {c : Char} (h : isControl c = false) (hq : c ≠ '\'')
    (t : List Char) : longLiteralBody (c :: t) = putText [c] (longLiteralBody t) := by
  rw [← putFront_some]
  by_cases hn : c = '\n'
  · subst hn
    rw [longLiteralBody]
  · have hreturn : c ≠ '\r' := by
      intro hr
      subst hr
      exact absurd h (by decide)
    rw [longLiteralBody, if_pos (isLiteralChar_of_plain h hn hq)]
    all_goals simp [hq, hn, hreturn]

/-- The induction is along the text, with the `q` quotes that stand right before it. -/
theorem longLiteralBody_append {s : List Char} {q : Nat} (hplain : s.any isControl = false)
    (hrun : longestRun '\'' q s ≤ 2) {rest : List Char} (h : Apart rest) :
    longLiteralBody (List.replicate q '\'' ++ (s ++ '\'' :: '\'' :: '\'' :: rest)) =
      some (List.replicate q '\'' ++ s, rest) := by
  have hq : q ≤ 2 := Nat.le_trans (le_longestRun _ _ _) hrun
  induction s generalizing q with
  | nil =>
    rw [List.append_nil]
    exact takesQuotes_longLiteralBody.close hq h.2
  | cons c cs ih =>
    rw [List.any_cons, Bool.or_eq_false_iff] at hplain
    obtain ⟨hc, hcs⟩ := hplain
    by_cases hquote : c = '\''
    · subst hquote
      rw [longestRun, if_pos rfl] at hrun
      have hmore := ih hcs hrun (Nat.le_trans (le_longestRun _ _ _) hrun)
      simpa [List.replicate_succ'] using hmore
    · rw [longestRun, if_neg hquote] at hrun
      have hclear : longLiteralBody (cs ++ '\'' :: '\'' :: '\'' :: rest) = some (cs, rest) :=
        ih (q := 0) hcs (by omega) (Nat.zero_le 2)
      rw [List.cons_append, takesQuotes_longLiteralBody.few hq (by simpa using hquote),
        longLiteralBody_cons hc hquote, hclear]
      rfl

/-! ## Every form -/

theorem of_formOf_literal {s : List Char} (h : formOf s = .literal) :
    ∀ c ∈ s, isLiteralChar c = true := by
  simp only [formOf] at h
  intro c hc
  split at h
  · cases h
  split at h
  · next hform =>
    simp only [Bool.and_eq_true, Bool.not_eq_true', List.any_eq_false, List.contains_eq_mem,
      decide_eq_false_iff_not] at hform
    obtain ⟨⟨hplain, hline⟩, hquote⟩ := hform
    apply isLiteralChar_of_plain (Bool.eq_false_iff.mpr (hplain c hc))
    · rintro rfl
      exact hline hc
    · rintro rfl
      exact hquote hc
  split at h
  · cases h
  split at h
  · cases h
  split at h
  · cases h
  · cases h

theorem of_formOf_longLiteral {s : List Char} (h : formOf s = .longLiteral) :
    s.any isControl = false ∧ longestRun '\'' 0 s ≤ 2 := by
  simp only [formOf] at h
  split at h
  · cases h
  split at h
  · cases h
  split at h
  · cases h
  split at h
  · next hform => simpa using hform
  split at h
  · cases h
  · cases h

theorem dropNewline_opening {s t : List Char} (hn : '\n' ∉ s → t.head? ≠ some '\n')
    (hr : '\n' ∉ s → t.head? ≠ some '\r') : dropNewline (opening s ++ t) = t := by
  by_cases h : '\n' ∈ s
  · simp [opening, h, dropNewline, newline?]
  · have hline : newline? t = none := by
      rw [newline?]
      · exact fun u hu => hn h (by rw [hu]; rfl)
      · exact fun u hu => hr h (by rw [hu]; rfl)
    simp [opening, h, dropNewline, hline]

theorem read?_basic (s : List Char) {rest : List Char} (h : Apart rest) :
    read? ('"' :: (s.flatMap escape ++ '"' :: rest)) = some (s, rest) := by
  rw [read?, basicBody_flatMap_escape]
  -- Two quotes in a row are the whole of an empty text, and no third one follows.
  intro u hu
  cases s with
  | nil => exact h.1 (by rw [(List.cons.inj hu).2]; rfl)
  | cons c cs =>
    rw [List.flatMap_cons, List.append_assoc] at hu
    exact head?_escape_append c _ (d := '"') (by decide) (by decide) (by rw [hu]; rfl)

theorem read?_literal {s : List Char} (hs : ∀ c ∈ s, isLiteralChar c = true) {rest : List Char}
    (h : Apart rest) : read? ('\'' :: (s ++ '\'' :: rest)) = some (s, rest) := by
  rw [read?, literalBody_append hs]
  intro u hu
  cases s with
  | nil => exact h.2 (by rw [(List.cons.inj hu).2]; rfl)
  | cons c cs =>
    have hc : isLiteralChar c = true := hs c List.mem_cons_self
    rw [(List.cons.inj hu).1] at hc
    exact absurd hc (by decide)

theorem read?_longBasic (s : List Char) {rest : List Char} (h : Apart rest) :
    read? ('"' :: '"' :: '"' :: (opening s ++ (escapeLong 0 s ++ '"' :: '"' :: '"' :: rest))) =
      some (s, rest) := by
  have hhead : ∀ d, escape d ≠ [d] → d ≠ '\\' → d ≠ '"' → '\n' ∉ s →
      (escapeLong 0 s ++ '"' :: '"' :: '"' :: rest).head? ≠ some d := by
    intro d hd hb hq hn
    cases s with
    | nil => simpa [escapeLong] using hq.symm
    | cons c cs =>
      by_cases hquote : c = '"'
      · subst hquote
        simpa [escapeLong] using hq.symm
      · have hc : c ≠ '\n' := fun hc => hn (by simp [hc])
        rw [escapeLong, List.append_assoc]
        · exact head?_escape_append c _ hd hb
        · exact hc
        · exact hquote
  rw [read?, dropNewline_opening (hhead _ (by decide) (by decide) (by decide))
    (hhead _ (by decide) (by decide) (by decide))]
  exact longBasicBody_escapeLong s (Nat.zero_le 2) h

theorem read?_longLiteral {s : List Char} (hplain : s.any isControl = false)
    (hrun : longestRun '\'' 0 s ≤ 2) {rest : List Char} (h : Apart rest) :
    read? ('\'' :: '\'' :: '\'' :: (opening s ++ (s ++ '\'' :: '\'' :: '\'' :: rest))) =
      some (s, rest) := by
  rw [read?, dropNewline_opening]
  · exact longLiteralBody_append (q := 0) hplain hrun h
  · intro hn
    cases s with
    | nil => simp
    | cons c cs => simpa using fun hc => hn (by simp [hc])
  · intro _
    cases s with
    | nil => simp
    | cons c cs =>
      have hc : isControl c = false := by
        rw [List.any_cons, Bool.or_eq_false_iff] at hplain
        exact hplain.1
      intro hr
      rw [Option.some.inj hr] at hc
      exact absurd hc (by decide)

/-- A string is read back as it was written, whatever its text. -/
theorem read?_write (s : List Char) {rest : List Char} (h : Apart rest) :
    read? (write s ++ rest) = some (s, rest) := by
  cases hform : formOf s with
  | basic => simpa [write, hform] using read?_basic s h
  | literal => simpa [write, hform] using read?_literal (of_formOf_literal hform) h
  | longBasic => simpa [write, hform] using read?_longBasic s h
  | longLiteral =>
    obtain ⟨hplain, hrun⟩ := of_formOf_longLiteral hform
    simpa [write, hform] using read?_longLiteral hplain hrun h

end Quoted
end Toml
end SymbolAtlas
