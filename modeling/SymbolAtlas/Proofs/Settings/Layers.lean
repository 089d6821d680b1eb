/-
Which layer decides a setting.

Loading lays the layers over each other from the bottom up and checks the result at the
end.  Here each setting is read from the top down instead: `decided` takes the value of the
highest layer that sets it, where a list from a file or from the environment is set if it is
not empty, and an override is set whenever it is given.  `override_overlay_eq_decided` says
that the two readings agree.  What a file contributes depends only on whether it is there,
can be read and is a settings document, which is its `Layer`.

`load_by_layers` says when loading succeeds, what it returns, and that a setting which a
higher layer replaces is never the reason why it fails.
-/
import SymbolAtlas.Proofs.Text.Trim
import SymbolAtlas.Settings.Load
import Mathlib.Data.List.TakeWhile

namespace SymbolAtlas

namespace Text

theorem pieces_eq_splitOn (mark : Char) (s : List Char) : pieces mark s = s.splitOn mark := by
  induction s with
  | nil => rfl
  | cons c cs ih =>
    rw [pieces, ih, List.splitOn_eq_splitOnP, List.splitOn_eq_splitOnP,
      List.splitOnP_cons_eq_if_modifyHead]
    cases h : cs.splitOnP (· == mark) with
    | nil => exact absurd h (List.splitOnP_ne_nil _ _)
    | cons p ps => simp [List.modifyHead]

end Text

namespace Settings

/-! ## Files -/

/-- What a settings file amounts to. -/
inductive Layer where
  | absent
  | unreadable
  | unparsable
  | parsed (settings : Settings)

namespace Layer

def ofContent : Option FileContent → Layer
  | none => .absent
  | some .unreadable => .unreadable
  | some (.text text) =>
    match ofToml? text.toList with
    | some s => .parsed s
    | none => .unparsable

def user (files : String → Option FileContent) (env : Environment) : Layer :=
  ofContent ((userFile? env).bind files)

def project (files : String → Option FileContent) (root : String) : Layer :=
  ofContent (files (Text.joinPath root projectFile))

/-- What the file sets: nothing unless it is a settings document. -/
def settings : Layer → Settings
  | .parsed s => s
  | _ => {}

end Layer

/-! ## Settings from the top down -/

/-- The value of the first layer that has one. -/
def highest {α : Type} (layers : List (Option α)) : Option α := layers.findSome? id

/-- A list that counts as set unless it is empty. -/
def listed (xs : List String) : Option (List String) := if xs = [] then none else some xs

/-- The texts between commas without the blanks around them, empty ones left out. -/
def commaList (text : String) : List String :=
  (((text.toList.splitOn ',').map Text.trim).filter fun p => p ≠ []).map String.ofList

def exactBoolean (text : String) : Option Bool :=
  if text = "true" then some true else if text = "false" then some false else none

/-- Each setting by the highest layer that sets it. -/
def decided (user project : Settings) (env : Environment) (o : Overrides) : Settings :=
  { analysis :=
      { skipPatterns := (highest
          [o.skipPatterns, env.skipPatterns.bind fun text => listed (commaList text),
           listed project.analysis.skipPatterns, listed user.analysis.skipPatterns]).getD []
        uiBaseClasses := (highest
          [listed project.analysis.uiBaseClasses, listed user.analysis.uiBaseClasses]).getD []
        uiNamespaces := (highest
          [listed project.analysis.uiNamespaces, listed user.analysis.uiNamespaces]).getD []
        lifecycleMethods := (highest
          [listed project.analysis.lifecycleMethods,
           listed user.analysis.lifecycleMethods]).getD [] }
    output :=
      { dir := highest [o.outputDir, env.outputDir, project.output.dir, user.output.dir] }
    unused :=
      { checkMembers := highest
          [o.checkMembers, env.checkMembers.bind exactBoolean, project.unused.checkMembers,
           user.unused.checkMembers] } }

theorem highest_nil {α : Type} : highest ([] : List (Option α)) = none := rfl

theorem highest_cons {α : Type} (x : Option α) (layers : List (Option α)) :
    highest (x :: layers) = x.or (highest layers) := by
  cases x <;> rfl

theorem listed_nil : listed [] = none := rfl

theorem orBase_eq (base top : List String) : orBase base top = (listed top).getD base := by
  unfold orBase listed
  split
  · rfl
  · rfl

theorem splitPatterns_eq (text : String) : splitPatterns text = commaList text := by
  rw [splitPatterns, Text.pieces_eq_splitOn, commaList]

theorem boolean?_eq : boolean? = exactBoolean := by
  funext text
  unfold boolean? exactBoolean
  split
  · rfl
  · rfl
  · next htrue hfalse => rw [if_neg htrue, if_neg hfalse]

theorem listed_env (patterns : Option String) :
    listed ((patterns.map splitPatterns).getD []) =
      patterns.bind fun text => listed (commaList text) := by
  cases patterns with
  | none => rfl
  | some text => rw [Option.map_some, Option.getD_some, splitPatterns_eq]; rfl

/-- Laying the layers over each other gives each setting the value of its highest
layer. -/
theorem override_overlay_eq_decided (user project : Settings) (env : Environment)
    (o : Overrides) :
    (((({} : Settings).overlay user).overlay project).overlay (ofEnvironment env)).override o =
      decided user project env o := by
  simp only [overlay, override, ofEnvironment, decided, orBase_eq, listed_env, listed_nil,
    highest_cons, highest_nil, boolean?_eq, Option.getD_or, Option.getD_none, Option.or_none]

/-! ## What the files contribute -/

/-- A text is laid over the others if it is a settings document. -/
theorem overlayFile_text (base : Settings) (path text : String) :
    (∃ s, Layer.ofContent (some (.text text)) = .parsed s ∧
        overlayFile base path (.text text) = .ok (base.overlay s)) ∨
      Layer.ofContent (some (.text text)) = .unparsable ∧
        ∃ reason, overlayFile base path (.text text) = .error (.unparsable path reason) := by
  simp only [Layer.ofContent, overlayFile, parse]
  cases ofToml? text.toList with
  | some s => exact .inl ⟨s, rfl, rfl⟩
  | none => exact .inr ⟨rfl, _, rfl⟩

/-- The user's file fails loading only as an unparsable one. -/
theorem userLayer_cases (files : String → Option FileContent) (env : Environment) :
    (Layer.user files env ≠ .unparsable ∧
        userLayer files env = .ok (({} : Settings).overlay (Layer.user files env).settings)) ∨
      Layer.user files env = .unparsable ∧ ∃ path reason, userFile? env = some path ∧
        userLayer files env = .error (.unparsable path reason) := by
  unfold Layer.user userLayer
  -- A file that is passed over sets nothing, and nothing laid over settings keeps them.
  cases hpath : userFile? env with
  | none => exact .inl ⟨nofun, rfl⟩
  | some path =>
    rw [Option.bind_some, Option.bind_some]
    cases files path with
    | none => exact .inl ⟨nofun, rfl⟩
    | some content =>
      cases content with
      | unreadable => exact .inl ⟨nofun, rfl⟩
      | text text =>
        rcases overlayFile_text {} path text with ⟨s, hlayer, hover⟩ | ⟨hlayer, reason, hover⟩
        · rw [hlayer]
          exact .inl ⟨nofun, hover⟩
        · exact .inr ⟨hlayer, path, reason, rfl, hover⟩

/-- The project's file fails loading unless it is missing or a settings document. -/
theorem projectLayer_cases (files : String → Option FileContent) (root : String)
    (base : Settings) :
    ((Layer.project files root = .absent ∨ ∃ s, Layer.project files root = .parsed s) ∧
        projectLayer files root base =
          .ok (base.overlay (Layer.project files root).settings)) ∨
      (Layer.project files root = .unreadable ∧
        projectLayer files root base =
          .error (.fileNotFound (Text.joinPath root projectFile))) ∨
      Layer.project files root = .unparsable ∧ ∃ reason,
        projectLayer files root base =
          .error (.unparsable (Text.joinPath root projectFile) reason) := by
  simp only [Layer.project, projectLayer]
  cases files (Text.joinPath root projectFile) with
  | none => exact .inl ⟨.inl rfl, rfl⟩
  | some content =>
    cases content with
    | unreadable => exact .inr (.inl ⟨rfl, rfl⟩)
    | text text =>
      rcases overlayFile_text base (Text.joinPath root projectFile) text with
        ⟨s, hlayer, hover⟩ | ⟨hlayer, reason, hover⟩
      · rw [hlayer]
        exact .inl ⟨.inr ⟨s, rfl⟩, hover⟩
      · exact .inr (.inr ⟨hlayer, reason, hover⟩)

/-! ## What is checked -/

def Blank (text : String) : Prop := ∀ c ∈ text.toList, Text.isBlank c = true

/-- Settings that can be used. -/
structure Acceptable (s : Settings) : Prop where
  dir : ∀ dir, s.output.dir = some dir → ¬ Blank dir
  patterns : ∀ p ∈ s.analysis.skipPatterns, ∃ tokens, Glob.parse p = .ok tokens

/-- The errors that a value of the settings deserves. -/
inductive Refused (s : Settings) : SettingsError → Prop where
  | blankDir {dir : String} : s.output.dir = some dir → Blank dir →
      Refused s (.invalidValue "output.dir" "must not be empty")
  | badPattern {p : String} {flaw : Glob.PatternError} : p ∈ s.analysis.skipPatterns →
      Glob.parse p = .error flaw → Refused s (.invalidSkipPattern p flaw.text)

theorem validateDir_cases (s : Settings) :
    ((∀ dir, s.output.dir = some dir → ¬ Blank dir) ∧ validateDir s = .ok ()) ∨
      ∃ dir, s.output.dir = some dir ∧ Blank dir ∧
        validateDir s = .error (.invalidValue "output.dir" "must not be empty") := by
  unfold validateDir
  cases s.output.dir with
  | none => exact .inl ⟨nofun, rfl⟩
  | some dir =>
    dsimp only
    split
    · next hblank => exact .inr ⟨dir, rfl, Text.trim_eq_nil_iff.mp hblank, rfl⟩
    · next hink =>
      refine .inl ⟨?_, rfl⟩
      rintro _ ⟨rfl⟩ hblank
      exact hink (Text.trim_eq_nil_iff.mpr hblank)

theorem validatePatterns_cases (patterns : List String) :
    ((∀ p ∈ patterns, ∃ tokens, Glob.parse p = .ok tokens) ∧
        validatePatterns patterns = .ok ()) ∨
      ∃ p ∈ patterns, ∃ flaw, Glob.parse p = .error flaw ∧
        validatePatterns patterns = .error (.invalidSkipPattern p flaw.text) := by
  induction patterns with
  | nil => exact .inl ⟨nofun, rfl⟩
  | cons p ps ih =>
    rw [validatePatterns]
    cases hp : Glob.parse p with
    | error flaw => exact .inr ⟨p, List.mem_cons_self, flaw, hp, rfl⟩
    | ok tokens =>
      rcases ih with ⟨hall, hok⟩ | ⟨q, hq, flaw, hflaw, herr⟩
      · exact .inl ⟨List.forall_mem_cons.mpr ⟨⟨tokens, hp⟩, hall⟩, hok⟩
      · exact .inr ⟨q, List.mem_cons_of_mem _ hq, flaw, hflaw, herr⟩

theorem validate_cases (s : Settings) :
    (s.Acceptable ∧ validate s = .ok ()) ∨
      ¬ s.Acceptable ∧ ∃ e, s.Refused e ∧ validate s = .error e := by
  unfold validate
  rcases validateDir_cases s with ⟨hdir, hok⟩ | ⟨dir, hdir, hblank, herr⟩
  · rw [hok]
    rcases validatePatterns_cases s.analysis.skipPatterns with
      ⟨hpatterns, hall⟩ | ⟨p, hp, flaw, hflaw, herr⟩
    · exact .inl ⟨⟨hdir, hpatterns⟩, hall⟩
    · refine .inr ⟨fun haccept => ?_, _, .badPattern hp hflaw, herr⟩
      obtain ⟨tokens, htokens⟩ := haccept.patterns p hp
      rw [hflaw] at htokens
      cases htokens
  · rw [herr]
    exact .inr ⟨fun haccept => haccept.dir dir hdir hblank, _, .blankDir hdir hblank, rfl⟩

/-! ## Loading -/

section

variable (files : String → Option FileContent) (env : Environment) (root : String)
  (overrides : Option Overrides)

/-- The settings that the layers come to. -/
def merged : Settings :=
  decided (Layer.user files env).settings (Layer.project files root).settings env
    (overrides.getD {})

/-- Why loading fails: a file that cannot be used, or a value that stands at the end. -/
inductive LoadFault : SettingsError → Prop where
  | userUnparsable {path reason : String} : userFile? env = some path →
      Layer.user files env = .unparsable → LoadFault (.unparsable path reason)
  | projectUnreadable : Layer.project files root = .unreadable →
      LoadFault (.fileNotFound (Text.joinPath root projectFile))
  | projectUnparsable {reason : String} : Layer.project files root = .unparsable →
      LoadFault (.unparsable (Text.joinPath root projectFile) reason)
  | refused {e : SettingsError} : (merged files env root overrides).Refused e → LoadFault e

/-- Both files can be used. -/
def FilesUsable : Prop :=
  Layer.user files env ≠ .unparsable ∧
    (Layer.project files root = .absent ∨ ∃ s, Layer.project files root = .parsed s)

theorem load_cases :
    (FilesUsable files env root ∧ load files env root overrides =
        (validate (merged files env root overrides)).map
          fun _ => merged files env root overrides) ∨
      ¬ FilesUsable files env root ∧
        ∃ e, LoadFault files env root overrides e ∧ load files env root overrides = .error e := by
  rcases userLayer_cases files env with ⟨huser, hbase⟩ | ⟨huser, path, reason, hpath, herr⟩
  · rcases projectLayer_cases files root (({} : Settings).overlay (Layer.user files env).settings)
      with ⟨hproject, hok⟩ | ⟨hproject, herr⟩ | ⟨hproject, reason, herr⟩
    -- Both files are in place, and only validation is left.
    · refine .inl ⟨⟨huser, hproject⟩, ?_⟩
      rw [merged, ← override_overlay_eq_decided]
      simp only [load, hbase, hok, bind, Except.bind]
      rfl
    · refine .inr ⟨by simp [FilesUsable, hproject], _, .projectUnreadable hproject, ?_⟩
      simp only [load, hbase, herr, bind, Except.bind]
    · refine .inr ⟨by simp [FilesUsable, hproject], .unparsable _ reason,
        .projectUnparsable hproject, ?_⟩
      simp only [load, hbase, herr, bind, Except.bind]
  · refine .inr ⟨fun husable => husable.1 huser, .unparsable path reason,
      .userUnparsable hpath huser, ?_⟩
    simp only [load, herr, bind, Except.bind]

/-- Loading succeeds exactly if the user's file is not unparsable, the project's file is
missing or a settings document, and what the layers come to is acceptable.  It returns
what they come to, and if it fails the reason is a file or a value that no higher layer
replaces. -/
theorem load_by_layers :
    ((∃ s, load files env root overrides = .ok s) ↔
        Layer.user files env ≠ .unparsable ∧
          (Layer.project files root = .absent ∨ ∃ s, Layer.project files root = .parsed s) ∧
          (merged files env root overrides).Acceptable) ∧
      (∀ s, load files env root overrides = .ok s → s = merged files env root overrides) ∧
      ∀ e, load files env root overrides = .error e → LoadFault files env root overrides e := by
  rcases load_cases files env root overrides with ⟨husable, hload⟩ | ⟨hbroken, e, hfault, hload⟩
  · rcases validate_cases (merged files env root overrides) with
      ⟨haccept, hok⟩ | ⟨hrefused, e, hfault, herr⟩
    · rw [hload, hok]
      refine ⟨⟨fun _ => ⟨husable.1, husable.2, haccept⟩, fun _ => ⟨_, rfl⟩⟩, ?_, nofun⟩
      rintro s ⟨⟩
      rfl
    · rw [hload, herr]
      refine ⟨⟨nofun, fun h => absurd h.2.2 hrefused⟩, nofun, ?_⟩
      rintro _ ⟨⟩
      exact .refused hfault
  · rw [hload]
    refine ⟨⟨nofun, fun h => absurd ⟨h.1, h.2.1⟩ hbroken⟩, nofun, ?_⟩
    rintro _ ⟨⟩
    exact hfault

end

/-- A user whose patterns do not compile. -/
def brokenHome (path : String) : Option FileContent :=
  if path = "home/.symgraph/config.toml" then
    some (.text "[analysis]\nskip_patterns = [\"[\"]\n")
  else none

def patternEnvironment : Environment :=
  { home := some "home", skipPatterns := some " *.gen, ," }

/-- Patterns from the environment replace those of the user, which are not looked at
then. -/
theorem load_over_broken_patterns :
    Layer.user brokenHome patternEnvironment = .parsed { analysis := { skipPatterns := ["["] } } ∧
      load brokenHome patternEnvironment "root" none =
        .ok { analysis := { skipPatterns := ["*.gen"] } } := by
  have huser : Layer.user brokenHome patternEnvironment =
      .parsed { analysis := { skipPatterns := ["["] } } := rfl
  have hmerged : merged brokenHome patternEnvironment "root" none =
      { analysis := { skipPatterns := ["*.gen"] } } := rfl
  have hproject : Layer.project brokenHome "root" = .absent := rfl
  have hpattern : ∃ tokens, Glob.parse "*.gen" = .ok tokens := by
    have hok : (Glob.parse "*.gen").isOk = true := by decide +kernel
    cases hparse : Glob.parse "*.gen" with
    | ok tokens => exact ⟨tokens, rfl⟩
    | error e =>
      rw [hparse] at hok
      cases hok
  obtain ⟨hiff, hmerge, -⟩ := load_by_layers brokenHome patternEnvironment "root" none
  rw [huser, hproject, hmerged] at hiff
  obtain ⟨s, hs⟩ := hiff.mpr ⟨nofun, .inl rfl, nofun, List.forall_mem_singleton.mpr hpattern⟩
  rw [hs, hmerge s hs, hmerged]
  exact ⟨huser, rfl⟩

end Settings
end SymbolAtlas
