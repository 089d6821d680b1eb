/-
Settings that are written and read again are the same.

The document of the settings is three sections.  Each value in them reads as what was written: a
string in quotes by `Quoted.read?_write`, a list of strings by one step for each row of its array.
So the reader finds the tables that the settings stand for, with a key for each field that is set,
and takes the settings from them.
-/
import SymbolAtlas.Proofs.Settings.Lines
import SymbolAtlas.Proofs.Toml.Strings

namespace SymbolAtlas
namespace Settings

open Toml

/-! ## Values -/

theorem exists_write_eq (s : List Char) :
    ∃ t, Quoted.write s = '"' :: t ∨ Quoted.write s = '\'' :: t := by
  unfold Quoted.write
  split
  · exact ⟨_, .inl rfl⟩
  · exact ⟨_, .inr rfl⟩
  · exact ⟨_, .inl rfl⟩
  · exact ⟨_, .inr rfl⟩

/-- A string starts with a quote of one kind or the other. -/
theorem write_append_ne (s : List Char) {c : Char} (hd : c ≠ '"') (hs : c ≠ '\'')
    (t u : List Char) : Quoted.write s ++ t ≠ c :: u := by
  intro h
  obtain ⟨v, hv | hv⟩ := exists_write_eq s
  · rw [hv] at h
    exact hd (List.cons.inj h).1.symm
  · rw [hv] at h
    exact hs (List.cons.inj h).1.symm

theorem value?_write (depth : Nat) (s : String) {rest : List Char} (h : Quoted.Apart rest) :
    value? depth (Quoted.write s.toList ++ rest) = some (.string s, rest) := by
  have hscalar : value? depth (Quoted.write s.toList ++ rest) =
      (Quoted.read? (Quoted.write s.toList ++ rest)).map
        fun r => (.string (String.ofList r.1), r.2) := by
    obtain ⟨t, ht | ht⟩ := exists_write_eq s.toList
    · rw [ht]
      cases depth <;> rfl
    · rw [ht]
      cases depth <;> rfl
  rw [hscalar, Quoted.read?_write s.toList h, Option.map_some, String.ofList_toList]

/-- No blank stands in front of a string. -/
theorem skipBlank?_write (s rest : List Char) :
    skipBlank? false (Quoted.write s ++ rest) = some (Quoted.write s ++ rest) := by
  obtain ⟨t, ht | ht⟩ := exists_write_eq s
  · rw [ht]
    rfl
  · rw [ht]
    rfl

theorem shows_write (s : String) : Shows (Quoted.write s.toList) (.string s) := by
  constructor
  · intro rest
    obtain ⟨t, ht | ht⟩ := exists_write_eq s.toList
    · rw [ht]
      rfl
    · rw [ht]
      rfl
  · intro rest
    exact value?_write nestingLimit s (by simp [Quoted.Apart])

theorem shows_booleanText (b : Bool) : Shows (booleanText b) (.boolean b) := by
  cases b <;> exact ⟨fun _ => rfl, fun _ => rfl⟩

/-- An item of an array on a line of its own. -/
def row (s : String) : List Char :=
  [' ', ' ', ' ', ' '] ++ Quoted.write s.toList ++ [',', '\n']

theorem row_append (s : String) (rest : List Char) :
    row s ++ rest =
      ' ' :: ' ' :: ' ' :: ' ' :: (Quoted.write s.toList ++ ',' :: '\n' :: rest) := by
  simp [row]

/-- One row of an array: behind its comma the line ends, as it did before the row. -/
theorem arrayItems?_row (depth n : Nat) (s : String) (rest : List Char) :
    arrayItems? (value? depth) (n + 1) ('\n' :: (row s ++ rest)) =
      (arrayItems? (value? depth) n ('\n' :: rest)).map
        fun more => (.string s :: more.1, more.2) := by
  have hblank : skipBlank? false ('\n' :: (row s ++ rest)) =
      some (Quoted.write s.toList ++ ',' :: '\n' :: rest) := by
    rw [row_append]
    exact skipBlank?_write s.toList _
  have hitem : value? depth (Quoted.write s.toList ++ ',' :: '\n' :: rest) =
      some (.string s, ',' :: '\n' :: rest) := value?_write depth s (by simp [Quoted.Apart])
  rw [arrayItems?, hblank, Option.bind_some]
  split
  · next heq => exact absurd heq (write_append_ne s.toList (by decide) (by decide) _ _)
  · rw [hitem]
    rfl

theorem arrayItems?_rows (depth : Nat) (items : List String) (rest : List Char) {n : Nat}
    (hn : items.length < n) :
    arrayItems? (value? depth) n ('\n' :: (items.flatMap row ++ ']' :: rest)) =
      some (items.map .string, rest) := by
  induction items generalizing n with
  | nil =>
    match n with
    | n + 1 => rfl
  | cons s more ih =>
    match n with
    | n + 1 =>
      rw [List.flatMap_cons, List.append_assoc, arrayItems?_row, ih (by simpa using hn)]
      rfl

theorem length_le_flatMap_row (items : List String) :
    items.length ≤ (items.flatMap row).length := by
  induction items with
  | nil => exact Nat.le_refl 0
  | cons s more ih =>
    rw [List.flatMap_cons, List.length_append, List.length_cons]
    have hrow : 0 < (row s).length := by simp [row]
    omega

theorem arrayItems?_one (depth n : Nat) (s : String) (rest : List Char) :
    arrayItems? (value? depth) (n + 1) (Quoted.write s.toList ++ ']' :: rest) =
      some ([.string s], rest) := by
  rw [arrayItems?, skipBlank?_write, Option.bind_some]
  split
  · next heq => exact absurd heq (write_append_ne s.toList (by decide) (by decide) _ _)
  · rw [value?_write depth s (by simp [Quoted.Apart])]
    rfl

theorem value?_array {t rest : List Char} {items : List Value}
    (h : ∀ depth, arrayItems? (value? depth) (t.length + 1) t = some (items, rest)) :
    value? nestingLimit ('[' :: t) = some (.array items, rest) := by
  rw [nestingLimit, value?, h]
  rfl

theorem value?_rows (items : List String) (rest : List Char) :
    value? nestingLimit ('[' :: '\n' :: (items.flatMap row ++ ']' :: rest)) =
      some (.array (items.map .string), rest) := by
  apply value?_array
  intro depth
  apply arrayItems?_rows
  have hitems := length_le_flatMap_row items
  rw [List.length_cons, List.length_append]
  omega

theorem shows_arrayText (items : List String) :
    Shows (arrayText items) (.array (items.map .string)) := by
  constructor
  · intro rest
    match items with
    | [] => rfl
    | [_] => rfl
    | _ :: _ :: _ => rfl
  · intro rest
    match items with
    | [] => rfl
    | [one] =>
      rw [arrayText, List.append_assoc]
      exact value?_array fun depth => arrayItems?_one depth _ one ('\n' :: rest)
    | first :: second :: more =>
      rw [← value?_rows, arrayText, List.append_assoc, List.append_assoc]
      · rfl
      · simp
      · simp

/-! ## The document -/

def analysisSection (s : AnalysisSettings) : Toml.Section where
  name := "analysis"
  fields :=
    [⟨"skip_patterns", _, _, by decide, shows_arrayText s.skipPatterns⟩,
     ⟨"ui_base_classes", _, _, by decide, shows_arrayText s.uiBaseClasses⟩,
     ⟨"ui_namespaces", _, _, by decide, shows_arrayText s.uiNamespaces⟩,
     ⟨"lifecycle_methods", _, _, by decide, shows_arrayText s.lifecycleMethods⟩]
  bare := by decide
  nodup := by simp

def outputSection (s : OutputSettings) : Toml.Section where
  name := "output"
  fields := (s.dir.map fun d => ⟨"dir", _, _, by decide, shows_write d⟩).toList
  bare := by decide
  nodup := by cases s.dir <;> simp

def unusedSection (s : UnusedSettings) : Toml.Section where
  name := "dead_code"
  fields :=
    (s.checkMembers.map fun b => ⟨"check_members", _, _, by decide, shows_booleanText b⟩).toList
  bare := by decide
  nodup := by cases s.checkMembers <;> simp

theorem toTomlChars_eq (s : Settings) :
    s.toTomlChars = (analysisSection s.analysis).text ++
      '\n' :: ((outputSection s.output).text ++ '\n' :: (unusedSection s.unused).text) := by
  have hdir : optionalLine "dir" (s.output.dir.map fun d => Quoted.write d.toList) =
      (outputSection s.output).fields.flatMap Field.line := by
    cases hd : s.output.dir <;> simp [outputSection, optionalLine, Field.line, hd]
  have hmembers : optionalLine "check_members" (s.unused.checkMembers.map booleanText) =
      (unusedSection s.unused).fields.flatMap Field.line := by
    cases hc : s.unused.checkMembers <;> simp [unusedSection, optionalLine, Field.line, hc]
  rw [toTomlChars, hdir, hmembers]
  simp [Section.text, analysisSection, outputSection, unusedSection, Field.line]

/-- The tables that the settings stand for. -/
def tables (s : Settings) : Entries :=
  [(analysisSection s.analysis).entry, (outputSection s.output).entry,
   (unusedSection s.unused).entry]

theorem parse?_toTomlChars (s : Settings) : parse? s.toTomlChars = some s.tables := by
  have hanalysis := (analysisSection s.analysis).reaches {} rfl
    ('\n' :: ((outputSection s.output).text ++ '\n' :: (unusedSection s.unused).text))
  have houtput := (outputSection s.output).reaches
    { root := [(analysisSection s.analysis).entry], header := ["analysis"] } rfl
    ('\n' :: (unusedSection s.unused).text)
  have hunused := (unusedSection s.unused).reaches
    { root := [(analysisSection s.analysis).entry, (outputSection s.output).entry],
      header := ["output"] } rfl []
  rw [List.append_nil] at hunused
  have hall := (hanalysis.trans (.blank _ _)).trans ((houtput.trans (.blank _ _)).trans hunused)
  have hmark : dropMark s.toTomlChars = s.toTomlChars := rfl
  rw [parse?, hmark, toTomlChars_eq, hall.of_eq_nil]
  rfl

/-! ## Reading it back -/

theorem list?_strings (items : List String) :
    list? (some (.array (items.map .string))) = some items := by
  rw [list?, Value.strings?]
  induction items with
  | nil => rfl
  | cons s more ih => simp [Value.string?, ih]

theorem readAnalysis?_fields (s : AnalysisSettings) :
    readAnalysis? (Entries.fields (analysisSection s).entries analysisNames) = some s := by
  have hfields : Entries.fields (analysisSection s).entries analysisNames =
      [some (.array (s.skipPatterns.map .string)), some (.array (s.uiBaseClasses.map .string)),
        some (.array (s.uiNamespaces.map .string)),
        some (.array (s.lifecycleMethods.map .string))] := rfl
  rw [hfields, readAnalysis?]
  simp only [list?_strings, bind, pure, Option.bind_some]

theorem readOutput?_fields (s : OutputSettings) :
    readOutput? (Entries.fields (outputSection s).entries ["dir"]) = some s := by
  obtain ⟨dir⟩ := s
  cases dir with
  | none => rfl
  | some d => rfl

theorem readUnused?_fields (s : UnusedSettings) :
    readUnused? (Entries.fields (unusedSection s).entries ["check_members"]) = some s := by
  obtain ⟨checkMembers⟩ := s
  cases checkMembers with
  | none => rfl
  | some b => rfl

theorem ofEntries?_tables (s : Settings) : ofEntries? s.tables = some s := by
  have hanalysis : sectionFields? s.tables "analysis" analysisNames =
      some (Entries.fields (analysisSection s.analysis).entries analysisNames) := rfl
  have houtput : sectionFields? s.tables "output" ["dir"] =
      some (Entries.fields (outputSection s.output).entries ["dir"]) := rfl
  have hunused : sectionFields? s.tables "dead_code" ["check_members"] =
      some (Entries.fields (unusedSection s.unused).entries ["check_members"]) := rfl
  simp only [ofEntries?, hanalysis, houtput, hunused, Option.bind_some, readAnalysis?_fields,
    readOutput?_fields, readUnused?_fields, bind, pure]

/-- Reading the written settings gives them back: every string of every list with all its
characters, and what is absent or empty as it was. -/
theorem parse_toToml (path : String) (s : Settings) : parse path s.toToml = .ok s := by
  have hsettings : ofToml? s.toTomlChars = some s := by
    rw [ofToml?, parse?_toTomlChars, Option.bind_some, ofEntries?_tables]
  rw [parse, toToml, String.toList_ofList, hsettings]

end Settings
end SymbolAtlas
