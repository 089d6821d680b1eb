/-
Settings as TOML documents.
-/
import SymbolAtlas.Fault
import SymbolAtlas.Settings.Basic
import SymbolAtlas.Toml.Document

namespace SymbolAtlas

/-! ## Reading

Keys that no setting has are passed over.  A section is a table as a rule; an
array gives its fields in their order, and a date or time sets none of them. -/

namespace Toml

/-- The values that a section gives to the fields with these names. -/
def Entries.fields (es : Entries) (names : List String) : List (Option Value) :=
  names.map es.find?

/-- The values of the fields of a section, or nothing if it cannot be one. -/
def Value.fields? (names : List String) : Value → Option (List (Option Value))
  | .table _ es => some (Entries.fields es names)
  | .array items => some ((List.range names.length).map fun i => items[i]?)
  | .tables ts =>
    some ((List.range names.length).map fun i => (ts[i]?).map (.table .header))
  | .moment _ => some (names.map fun _ => none)
  | _ => none

/-- The values of the fields of a section that may be missing. -/
def sectionFields? (root : Entries) (key : String) (names : List String) :
    Option (List (Option Value)) :=
  match root.find? key with
  | none => some (names.map fun _ => none)
  | some v => v.fields? names

def Value.string? : Value → Option String
  | .string s => some s
  | _ => none

def Value.boolean? : Value → Option Bool
  | .boolean b => some b
  | _ => none

def Value.strings? : Value → Option (List String)
  | .array items => items.mapM Value.string?
  | _ => none

end Toml

namespace Settings

open Toml

/-- The value of a field that may be missing. -/
def optional? {α : Type} (read : Value → Option α) : Option Value → Option (Option α)
  | none => some none
  | some v => (read v).map some

/-- A list that may be missing, which is an empty one. -/
def list? : Option Value → Option (List String)
  | none => some []
  | some v => v.strings?

def analysisNames : List String :=
  ["skip_patterns", "ui_base_classes", "ui_namespaces", "lifecycle_methods"]

def readAnalysis? (fields : List (Option Value)) : Option AnalysisSettings := do
  let [skip, bases, namespaces, lifecycle] := fields | none
  return { skipPatterns := ← list? skip, uiBaseClasses := ← list? bases,
           uiNamespaces := ← list? namespaces, lifecycleMethods := ← list? lifecycle }

def readOutput? (fields : List (Option Value)) : Option OutputSettings := do
  let [dir] := fields | none
  return { dir := ← optional? Value.string? dir }

def readUnused? (fields : List (Option Value)) : Option UnusedSettings := do
  let [checkMembers] := fields | none
  return { checkMembers := ← optional? Value.boolean? checkMembers }

def ofEntries? (root : Entries) : Option Settings := do
  let analysis ← (sectionFields? root "analysis" analysisNames).bind readAnalysis?
  let output ← (sectionFields? root "output" ["dir"]).bind readOutput?
  let unused ← (sectionFields? root "dead_code" ["check_members"]).bind readUnused?
  return { analysis := analysis, output := output, unused := unused }

def ofToml? (text : List Char) : Option Settings := (Toml.parse? text).bind ofEntries?

/-- The settings in the text of the file at `path`. -/
def parse (path text : String) : Except SettingsError Settings :=
  match ofToml? text.toList with
  | some s => .ok s
  | none => .error (.unparsable path "not a settings document")

/-! ## Writing -/

def arrayText (items : List String) : List Char :=
  match items with
  | [] => ['[', ']']
  | [one] => ['['] ++ Quoted.write one.toList ++ [']']
  | many =>
    ['[', '\n']
      ++ many.flatMap (fun s => [' ', ' ', ' ', ' '] ++ Quoted.write s.toList ++ [',', '\n'])
      ++ [']']

def booleanText : Bool → List Char
  | true => ['t', 'r', 'u', 'e']
  | false => ['f', 'a', 'l', 's', 'e']

def headerLine (name : String) : List Char := ['['] ++ name.toList ++ [']', '\n']

def fieldLine (name : String) (value : List Char) : List Char :=
  name.toList ++ [' ', '=', ' '] ++ value ++ ['\n']

def optionalLine (name : String) (value : Option (List Char)) : List Char :=
  match value with
  | some v => fieldLine name v
  | none => []

/-- The document of the settings: its three sections, each with the fields that
are set. -/
def toTomlChars (s : Settings) : List Char :=
  headerLine "analysis"
    ++ fieldLine "skip_patterns" (arrayText s.analysis.skipPatterns)
    ++ fieldLine "ui_base_classes" (arrayText s.analysis.uiBaseClasses)
    ++ fieldLine "ui_namespaces" (arrayText s.analysis.uiNamespaces)
    ++ fieldLine "lifecycle_methods" (arrayText s.analysis.lifecycleMethods)
    ++ ['\n'] ++ headerLine "output"
    ++ optionalLine "dir" (s.output.dir.map fun d => Quoted.write d.toList)
    ++ ['\n'] ++ headerLine "dead_code"
    ++ optionalLine "check_members" (s.unused.checkMembers.map booleanText)

def toToml (s : Settings) : String := String.ofList s.toTomlChars

end Settings
end SymbolAtlas
