/-
Where settings come from.

Settings are laid over each other: the user's file, the project's file, the
environment and the caller's overrides, each over those before it.  A layer
replaces only what it sets.
-/
import SymbolAtlas.Glob.Match
import SymbolAtlas.Settings.Document
import SymbolAtlas.Text.Blank
import SymbolAtlas.Text.Path

namespace SymbolAtlas

/-- What stands at a path that exists: something that can be read as text or not. -/
inductive FileContent where
  | text (text : String)
  | unreadable

/-- The values that a caller sets. -/
structure Overrides where
  outputDir : Option String := none
  skipPatterns : Option (List String) := none
  checkMembers : Option Bool := none

/-- The variables of the process that matter. -/
structure Environment where
  home : Option String := none
  userProfile : Option String := none
  outputDir : Option String := none
  skipPatterns : Option String := none
  checkMembers : Option String := none

namespace Settings

def orBase (base top : List String) : List String := if top = [] then base else top

/-- The settings `top` where they are set, and `base` elsewhere. -/
def overlay (base top : Settings) : Settings :=
  { analysis :=
      { skipPatterns := orBase base.analysis.skipPatterns top.analysis.skipPatterns
        uiBaseClasses := orBase base.analysis.uiBaseClasses top.analysis.uiBaseClasses
        uiNamespaces := orBase base.analysis.uiNamespaces top.analysis.uiNamespaces
        lifecycleMethods := orBase base.analysis.lifecycleMethods top.analysis.lifecycleMethods }
    output := { dir := top.output.dir.or base.output.dir }
    unused := { checkMembers := top.unused.checkMembers.or base.unused.checkMembers } }

/-- The patterns between commas that are not blank. -/
def splitPatterns (text : String) : List String :=
  (((Text.pieces ',' text.toList).map Text.trim).filter fun p => p ≠ []).map String.ofList

def boolean? : String → Option Bool
  | "true" => some true
  | "false" => some false
  | _ => none

/-- The settings that the environment makes. -/
def ofEnvironment (env : Environment) : Settings :=
  { analysis := { skipPatterns := (env.skipPatterns.map splitPatterns).getD [] }
    output := { dir := env.outputDir }
    unused := { checkMembers := env.checkMembers.bind boolean? } }

/-- An override counts even if it is an empty list. -/
def override (s : Settings) (o : Overrides) : Settings :=
  { analysis := { s.analysis with
      skipPatterns := o.skipPatterns.getD s.analysis.skipPatterns }
    output := { dir := o.outputDir.or s.output.dir }
    unused := { checkMembers := o.checkMembers.or s.unused.checkMembers } }

/-! ## Validation -/

def validateDir (s : Settings) : Except SettingsError Unit :=
  match s.output.dir with
  | some dir =>
    if Text.trim dir.toList = [] then .error (.invalidValue "output.dir" "must not be empty")
    else .ok ()
  | none => .ok ()

def validatePatterns : List String → Except SettingsError Unit
  | [] => .ok ()
  | p :: ps =>
    match Glob.parse p with
    | .error e => .error (.invalidSkipPattern p e.text)
    | .ok _ => validatePatterns ps

def validate (s : Settings) : Except SettingsError Unit := do
  validateDir s
  validatePatterns s.analysis.skipPatterns

/-! ## Loading -/

def projectFile : String := "symgraph.toml"

/-- The file with the user's settings. -/
def userFile? (env : Environment) : Option String :=
  (env.home.or env.userProfile).map fun home =>
    Text.joinPath (Text.joinPath home ".symgraph") "config.toml"

/-- Lay the settings of a file that exists over others. -/
def overlayFile (base : Settings) (path : String) : FileContent → Except SettingsError Settings
  | .unreadable => .error (.fileNotFound path)
  | .text text => (parse path text).map base.overlay

/-- The user's file is passed over if it is missing or cannot be read, but not if
it is no settings document. -/
def userLayer (files : String → Option FileContent) (env : Environment) :
    Except SettingsError Settings :=
  match (userFile? env).bind fun path => (files path).map fun content => (path, content) with
  | none => .ok {}
  | some (_, .unreadable) => .ok {}
  | some (path, content) => overlayFile {} path content

def projectLayer (files : String → Option FileContent) (root : String) (base : Settings) :
    Except SettingsError Settings :=
  let path := Text.joinPath root projectFile
  match files path with
  | none => .ok base
  | some content => overlayFile base path content

/-- The settings for the project in the directory `root`. -/
def load (files : String → Option FileContent) (env : Environment) (root : String)
    (overrides : Option Overrides) : Except SettingsError Settings := do
  let user ← userLayer files env
  let project ← projectLayer files root user
  let settings := (project.overlay (ofEnvironment env)).override (overrides.getD {})
  validate settings
  return settings

/-- Whether the file at that path is left out. -/
def isSkippedPath (s : Settings) (path : String) : Bool := s.analysis.skipList.skips path

end Settings
end SymbolAtlas
