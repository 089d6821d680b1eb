/-
Glob patterns: reading them.

A pattern is a list of tokens.  Two stars stand for directories and must be a
whole component of the path, so the reader looks at the character before them
and takes the slash behind them.
-/

namespace SymbolAtlas
namespace Glob

/-- One entry of a character class.  A range whose ends are in the wrong order
holds nothing. -/
inductive Span where
  | single (c : Char)
  | range (lo hi : Char)
deriving DecidableEq

def Span.holds (c : Char) : Span → Bool
  | .single d => c == d
  | .range lo hi => decide (lo ≤ c) && decide (c ≤ hi)

inductive Token where
  | char (c : Char)
  | anyChar
  | anyText
  | anyDirectories
  | oneOf (spans : List Span)
  | noneOf (spans : List Span)
deriving DecidableEq

/-- Why a text is no pattern. -/
inductive Flaw where
  | tooManyStars
  | starsInsideComponent
  | invalidRange
deriving DecidableEq

def Flaw.text : Flaw → String
  | .tooManyStars => "wildcards are either regular `*` or recursive `**`"
  | .starsInsideComponent => "recursive wildcards must form a single path component"
  | .invalidRange => "invalid range pattern"

structure PatternError where
  position : Nat
  flaw : Flaw
deriving DecidableEq

def PatternError.text (e : PatternError) : String :=
  "Pattern syntax error near position " ++ toString e.position ++ ": " ++ e.flaw.text

/-- The entries of a character class.  A hyphen between two characters makes a
range of them. -/
def spans : List Char → List Span
  | lo :: '-' :: hi :: rest => .range lo hi :: spans rest
  | c :: rest => .single c :: spans rest
  | [] => []

/-- The text up to the first closing bracket and the text behind it. -/
def untilBracket : List Char → Option (List Char × List Char)
  | [] => none
  | ']' :: rest => some ([], rest)
  | c :: rest => (untilBracket rest).map fun r => (c :: r.1, r.2)

/-- The inside of a character class and the text behind it.  The first character
inside stands for itself even if it is a closing bracket. -/
def classBody : List Char → Option (List Char × List Char)
  | [] => none
  | c :: rest => (untilBracket rest).map fun r => (c :: r.1, r.2)

/-- Read a character class behind its opening bracket. -/
def classToken : List Char → Option (Token × List Char)
  | '!' :: rest => (classBody rest).map fun r => (.noneOf (spans r.1), r.2)
  | s => (classBody s).map fun r => (.oneOf (spans r.1), r.2)

theorem length_untilBracket {s body rest : List Char} (h : untilBracket s = some (body, rest)) :
    s.length = body.length + rest.length + 1 := by
  induction s generalizing body with
  | nil => simp [untilBracket] at h
  | cons c cs ih =>
    rw [untilBracket.eq_def] at h
    split at h
    · contradiction
    · next heq =>
      cases heq
      cases h
      simp
    · next heq =>
      cases heq
      obtain ⟨⟨b, r⟩, hr, heq⟩ := Option.map_eq_some_iff.mp h
      cases heq
      have : cs.length = b.length + r.length + 1 := ih hr
      show cs.length + 1 = b.length + 1 + r.length + 1
      omega

theorem length_classBody_lt {s body rest : List Char} (h : classBody s = some (body, rest)) :
    rest.length < s.length := by
  cases s with
  | nil => simp [classBody] at h
  | cons c cs =>
    obtain ⟨⟨b, r⟩, hr, heq⟩ := Option.map_eq_some_iff.mp h
    cases heq
    have := length_untilBracket hr
    simp only [List.length_cons]
    omega

theorem length_classToken_lt {s rest : List Char} {t : Token}
    (h : classToken s = some (t, rest)) : rest.length < s.length := by
  unfold classToken at h
  split at h
  · obtain ⟨⟨b, r⟩, hr, heq⟩ := Option.map_eq_some_iff.mp h
    cases heq
    have := length_classBody_lt hr
    simp only [List.length_cons]
    omega
  · obtain ⟨⟨b, r⟩, hr, heq⟩ := Option.map_eq_some_iff.mp h
    cases heq
    exact length_classBody_lt hr

/-- Read the tokens of the text that starts at `position` behind the character
`before`. -/
def tokensFrom (position : Nat) (before : Option Char) :
    List Char → Except PatternError (List Token)
  | [] => .ok []
  | '*' :: '*' :: '*' :: _ => .error { position := position + 2, flaw := .tooManyStars }
  | '*' :: '*' :: rest =>
    if before ≠ none ∧ before ≠ some '/' then
      .error { position := position - 1, flaw := .starsInsideComponent }
    else
      match rest with
      | [] => .ok [.anyDirectories]
      | '/' :: rest => do
        let tokens ← tokensFrom (position + 3) (some '/') rest
        return .anyDirectories :: tokens
      | _ => .error { position := position + 2, flaw := .starsInsideComponent }
  | '*' :: rest => do
    let tokens ← tokensFrom (position + 1) (some '*') rest
    return .anyText :: tokens
  | '?' :: rest => do
    let tokens ← tokensFrom (position + 1) (some '?') rest
    return .anyChar :: tokens
  | '[' :: inner =>
    match h : classToken inner with
    | none => .error { position := position, flaw := .invalidRange }
    | some (token, rest) => do
      let tokens ← tokensFrom (position + 1 + (inner.length - rest.length)) (some ']') rest
      return token :: tokens
  | c :: rest => do
    let tokens ← tokensFrom (position + 1) (some c) rest
    return .char c :: tokens
termination_by s => s.length
decreasing_by
  all_goals simp only [List.length_cons]
  case _ => omega
  case _ => omega
  case _ => omega
  case _ =>
    have hlt := length_classToken_lt h
    omega
  case _ => omega

def parse (pattern : String) : Except PatternError (List Token) :=
  tokensFrom 0 none pattern.toList

end Glob
end SymbolAtlas
