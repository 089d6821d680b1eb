/-
Kinds of symbols.
-/

namespace SymbolAtlas

/-- What a symbol is.  The component and hook kinds are guesses laid over the
kinds that the syntax gives. -/
inductive SymbolKind where
  | function
  | interface
  | plainClass
  | variable
  | method
  | property
  | enum
  | functionComponent
  | classComponent
  | potentialComponent
  | hook
deriving DecidableEq

namespace SymbolKind

def all : List SymbolKind :=
  [.function, .interface, .plainClass, .variable, .method, .property, .enum,
   .functionComponent, .classComponent, .potentialComponent, .hook]

def name : SymbolKind → String
  | .function => "function"
  | .interface => "interface"
  | .plainClass => "class"
  | .variable => "variable"
  | .method => "method"
  | .property => "property"
  | .enum => "enum"
  | .functionComponent => "function-component"
  | .classComponent => "class-component"
  | .potentialComponent => "potential-component"
  | .hook => "react-hook"

def ofName? (s : String) : Option SymbolKind := all.find? fun k => k.name = s

def isComponent : SymbolKind → Bool
  | .functionComponent | .classComponent | .potentialComponent => true
  | _ => false

def isHook : SymbolKind → Bool
  | .hook => true
  | _ => false

end SymbolKind
end SymbolAtlas
