/-
Settings of an analysis.

A list that is empty and a value that is absent both mean that nobody set them.
The `effective` functions give what is used then.
-/

namespace SymbolAtlas

/-- Which files are looked at, and which names mark components. -/
structure AnalysisSettings where
  skipPatterns : List String := []
  uiBaseClasses : List String := []
  uiNamespaces : List String := []
  lifecycleMethods : List String := []
deriving DecidableEq

structure OutputSettings where
  dir : Option String := none
deriving DecidableEq

structure UnusedSettings where
  checkMembers : Option Bool := none
deriving DecidableEq

structure Settings where
  analysis : AnalysisSettings := {}
  output : OutputSettings := {}
  unused : UnusedSettings := {}
deriving DecidableEq

def orDefaults (values defaults : List String) : List String :=
  if values = [] then defaults else values

namespace AnalysisSettings

/-- Files that hold declarations only or were written by a program. -/
def defaultSkipPatterns : List String := ["*.d.ts", "*.generated.*"]

def defaultUiBaseClasses : List String :=
  ["Component", "PureComponent", "React.Component", "React.PureComponent"]

def defaultUiNamespaces : List String := ["React.", "JSX."]

def defaultLifecycleMethods : List String :=
  ["render", "componentDidMount", "componentDidUpdate", "componentWillUnmount",
   "shouldComponentUpdate", "getSnapshotBeforeUpdate", "componentDidCatch",
   "getDerivedStateFromProps"]

def effectiveSkipPatterns (s : AnalysisSettings) : List String :=
  orDefaults s.skipPatterns defaultSkipPatterns

def effectiveUiBaseClasses (s : AnalysisSettings) : List String :=
  orDefaults s.uiBaseClasses defaultUiBaseClasses

def effectiveUiNamespaces (s : AnalysisSettings) : List String :=
  orDefaults s.uiNamespaces defaultUiNamespaces

def effectiveLifecycleMethods (s : AnalysisSettings) : List String :=
  orDefaults s.lifecycleMethods defaultLifecycleMethods

end AnalysisSettings

def OutputSettings.effectiveDir (s : OutputSettings) : String := s.dir.getD ".symgraph"

def UnusedSettings.effectiveCheckMembers (s : UnusedSettings) : Bool := s.checkMembers.getD true

end SymbolAtlas
