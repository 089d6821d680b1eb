/-
What names say about symbols.
-/
import SymbolAtlas.Settings.Basic
import SymbolAtlas.Text.Cut

namespace SymbolAtlas
namespace Naming

/-- `use` and a capital letter. -/
def isHookName (name : String) : Bool :=
  match name.toList with
  | 'u' :: 's' :: 'e' :: c :: _ => c.isUpper
  | _ => false

/-- A capital letter and only letters and digits behind it, all of them ASCII. -/
def isPascalCase (name : String) : Bool :=
  match name.toList with
  | c :: cs => c.isUpper && cs.all Char.isAlphanum
  | [] => false

def startsUpper (name : String) : Bool :=
  match name.toList with
  | c :: _ => c.isUpper
  | [] => false

/-- The names that mark components. -/
structure Rules where
  uiBaseClasses : List String
  uiNamespaces : List String
  lifecycleMethods : List String
  refCreationCalls : List String

namespace Rules

def ofSettings (s : AnalysisSettings) : Rules :=
  { uiBaseClasses := s.effectiveUiBaseClasses
    uiNamespaces := s.effectiveUiNamespaces
    lifecycleMethods := s.effectiveLifecycleMethods
    refCreationCalls := ["createRef", "React.createRef"] }

/-- The text behind the last dot. -/
def lastSegment (name : List Char) : List Char :=
  match Text.cutLast? '.' name with
  | some (_, last) => last
  | none => name

/-- A known base class, or one whose last segment ends in `Component`. -/
def isUiBase (r : Rules) (base : String) : Bool :=
  decide (base ∈ r.uiBaseClasses) || Text.endsIn "Component".toList (lastSegment base.toList)

def isLifecycleMethod (r : Rules) (name : String) : Bool := decide (name ∈ r.lifecycleMethods)

def isRefCreation (r : Rules) (call : String) : Bool := decide (call ∈ r.refCreationCalls)

/-- The text of a type that a component's parameter has. -/
def isPropsType (r : Rules) (type : String) : Bool :=
  Text.holds "Props".toList type.toList ||
    r.uiNamespaces.any fun ns => Text.holds ns.toList type.toList

end Rules
end Naming
end SymbolAtlas
