/-
What can go wrong, by cause.

Each family of causes has a code for programs and a text for people.  `Fault`
joins the families where they are reported.
-/

namespace SymbolAtlas

/-- The codes under which faults are reported. -/
inductive FaultCode where
  | notFound
  | fileNotFound
  | malformedQuery
  | configError
deriving DecidableEq

def FaultCode.text : FaultCode → String
  | .notFound => "NOT_FOUND"
  | .fileNotFound => "FILE_NOT_FOUND"
  | .malformedQuery => "MALFORMED_QUERY"
  | .configError => "CONFIG_ERROR"

/-- A fault as it is shown next to its code. -/
def codedText (code : FaultCode) (text : String) : String := "[" ++ code.text ++ "] " ++ text

/-- A name without a definition. -/
inductive LookupError where
  | notFound (symbol guidance : String)
deriving DecidableEq

namespace LookupError

def usualGuidance : String :=
  "check the spelling, or make sure the file declaring it is part of the analyzed file set"

def missing (symbol : String) : LookupError := .notFound symbol usualGuidance

def symbol : LookupError → String
  | .notFound s _ => s

def code : LookupError → FaultCode
  | .notFound .. => .notFound

def text : LookupError → String
  | .notFound s g => "Symbol '" ++ s ++ "' not found: " ++ g

end LookupError

/-- A search that cannot start. -/
inductive SearchError where
  | notInGraph (symbol : String)
  | malformedQuery (query reason : String)
deriving DecidableEq

namespace SearchError

def code : SearchError → FaultCode
  | .notInGraph _ => .notFound
  | .malformedQuery .. => .malformedQuery

def text : SearchError → String
  | .notInGraph s => "Symbol '" ++ s ++ "' not found in call graph"
  | .malformedQuery q r => "Malformed trace query '" ++ q ++ "': " ++ r

end SearchError

/-- A check for unused symbols that has nothing to check. -/
inductive UnusedError where
  | fileNotFound (path : String)
  | lookup (cause : LookupError)
deriving DecidableEq

namespace UnusedError

def code : UnusedError → FaultCode
  | .fileNotFound _ => .fileNotFound
  | .lookup e => e.code

def text : UnusedError → String
  | .fileNotFound p => "File not found in source model: " ++ p
  | .lookup e => e.text

end UnusedError

/-- Settings that cannot be read or used. -/
inductive SettingsError where
  | fileNotFound (path : String)
  | unparsable (path reason : String)
  | invalidSkipPattern (pattern reason : String)
  | invalidValue (field reason : String)
deriving DecidableEq

namespace SettingsError

def code : SettingsError → FaultCode := fun _ => .configError

def text : SettingsError → String
  | .fileNotFound p => "Config file not found: " ++ p
  | .unparsable p r => "Config parse error in " ++ p ++ ": " ++ r
  | .invalidSkipPattern p r => "Invalid skip pattern '" ++ p ++ "': " ++ r
  | .invalidValue f r => "Invalid value for " ++ f ++ ": " ++ r

end SettingsError

inductive Fault where
  | lookup (cause : LookupError)
  | search (cause : SearchError)
  | unused (cause : UnusedError)
  | settings (cause : SettingsError)
deriving DecidableEq

namespace Fault

def code : Fault → FaultCode
  | .lookup e => e.code
  | .search e => e.code
  | .unused e => e.code
  | .settings e => e.code

/-- The text of the cause alone. -/
def causeText : Fault → String
  | .lookup e => e.text
  | .search e => e.text
  | .unused e => e.text
  | .settings e => e.text

/-- The text of the cause under the name of its family. -/
def text : Fault → String
  | .lookup e => "Resolve error: " ++ e.text
  | .search e => "Call graph error: " ++ e.text
  | .unused e => "Dead code error: " ++ e.text
  | .settings e => "Configuration error: " ++ e.text

/-- The exit status of a program that stops at the fault. -/
def exitStatus : Fault → Nat
  | .settings _ => 2
  | _ => 1

end Fault
end SymbolAtlas
