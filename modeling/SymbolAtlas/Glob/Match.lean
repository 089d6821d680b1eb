/-
Glob patterns: matching.

Matching keeps the texts that may still follow, all of them ends of the text at
hand and the longest first.  Each token moves the whole list on, so a pattern
with many stars takes no longer than the product of its length and the square of
the text's.
-/
import SymbolAtlas.Fault
import SymbolAtlas.Glob.Pattern
import SymbolAtlas.Settings.Basic
import SymbolAtlas.Text.Path

namespace SymbolAtlas
namespace Glob

def ends : List Char → List (List Char)
  | [] => [[]]
  | c :: cs => (c :: cs) :: ends cs

/-- The ends of a text that start behind a slash. -/
def endsBehindSlash : List Char → List (List Char)
  | [] => []
  | c :: cs => if c = '/' then cs :: endsBehindSlash cs else endsBehindSlash cs

/-- What follows one character that satisfies `p`. -/
def afterChar (p : Char → Bool) : List Char → Option (List Char)
  | [] => none
  | c :: cs => if p c then some cs else none

/-- The texts that may follow behind a token, from those in front of it.
Directories are nothing, anything that ends in a slash, or all that is left. -/
def Token.advance (rests : List (List Char)) : Token → List (List Char)
  | .char c => rests.filterMap (afterChar (· == c))
  | .anyChar => rests.filterMap (afterChar fun _ => true)
  | .oneOf spans => rests.filterMap (afterChar fun c => spans.any (Span.holds c))
  | .noneOf spans => rests.filterMap (afterChar fun c => !spans.any (Span.holds c))
  | .anyText =>
    match rests with
    | [] => []
    | longest :: _ => ends longest
  | .anyDirectories =>
    match rests with
    | [] => []
    | longest :: _ => rests ++ endsBehindSlash longest ++ [[]]

/-- Whether the tokens match the whole text. -/
def isMatch (tokens : List Token) (text : List Char) : Bool :=
  (tokens.foldl Token.advance [text]).contains []

end Glob

/-- The patterns of files to leave out. -/
structure SkipList where
  patterns : List (List Glob.Token) := []

namespace SkipList

/-- A text that is no pattern matches nothing. -/
def ofPatterns (patterns : List String) : SkipList :=
  { patterns := patterns.filterMap fun p => (Glob.parse p).toOption }

/-- Whether a pattern matches the whole path or the file name alone. -/
def skips (s : SkipList) (path : String) : Bool :=
  let text := path.toList
  let name := (Text.fileName? text).getD text
  s.patterns.any fun p => Glob.isMatch p name || Glob.isMatch p text

end SkipList

def AnalysisSettings.skipList (s : AnalysisSettings) : SkipList :=
  .ofPatterns s.effectiveSkipPatterns

end SymbolAtlas
