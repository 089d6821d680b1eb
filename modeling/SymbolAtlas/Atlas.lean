/-
An atlas: a program and how to look at it.
-/
import SymbolAtlas.Glob.Match
import SymbolAtlas.Symbol.Classify

namespace SymbolAtlas

/-- A program with the rules that classify its symbols and the files to leave
out. -/
structure Atlas where
  source : Snapshot
  rules : Naming.Rules
  skip : SkipList
  checkMembers : Bool

namespace Atlas

def ofSettings (source : Snapshot) (s : Settings) : Atlas :=
  { source := source
    rules := .ofSettings s.analysis
    skip := s.analysis.skipList
    checkMembers := s.unused.effectiveCheckMembers }

variable (a : Atlas)

/-- The files that are looked at: neither generated nor skipped. -/
def files : List SourceFile :=
  a.source.files.filter fun f => !(f.generated || a.skip.skips f.path)

/-- The declarations of these files. -/
def declarations : List Declaration := a.files.flatMap fun f => a.source.declarations f.path

def kindOf (d : Declaration) : SymbolKind := a.rules.classifyIn a.source d

end Atlas
end SymbolAtlas
