/-
What the reader of documents makes of the lines that settings are written in.

Reading goes line by line, so each kind of line has its lemma: a header opens an empty table, a
field is added to the table that was opened last, and a blank line changes nothing.
`Reading.Reaches` joins them.  It hides the bound on the number of lines, which the text that is
left never uses up, because each line takes at least one character.

A field is written under a bare key, and its text reads as its value in front of a line end;
`Field` and `Section` hold these facts, so that a section can be read without looking at what its
values are.
-/
import SymbolAtlas.Settings.Document

namespace SymbolAtlas
namespace Toml

/-! ## Tables -/

namespace Entries

theorem find?_append (es more : Entries) (key : String) :
    find? (es ++ more) key = (find? es key).or (find? more key) := by
  induction es with
  | nil => rfl
  | cons e rest ih =>
    rw [List.cons_append, find?, find?]
    by_cases h : e.1 = key
    · rw [if_pos h, if_pos h]
      rfl
    · rw [if_neg h, if_neg h, ih]

theorem replace_append {es : Entries} {key : String} (h : find? es key = none) (more : Entries)
    (v : Value) : replace (es ++ more) key v = es ++ replace more key v := by
  induction es with
  | nil => rfl
  | cons e rest ih =>
    rw [find?] at h
    by_cases hkey : e.1 = key
    · rw [if_pos hkey] at h
      cases h
    · rw [if_neg hkey] at h
      rw [List.cons_append, replace, if_neg hkey, ih h, List.cons_append]

/-- A change under a header is one of the last table, if the header's name is new. -/
theorem within?_last {done : Entries} {name : String} (h : find? done name = none) (es : Entries)
    (f : Entries → Option Entries) :
    within? (done ++ [(name, .table .header es)]) [name] f =
      (f es).map fun es => done ++ [(name, .table .header es)] := by
  have hfind : find? (done ++ [(name, .table .header es)]) name = some (.table .header es) := by
    rw [find?_append, h]
    simp [find?]
  have hreplace : ∀ v, replace (done ++ [(name, .table .header es)]) name v =
      done ++ [(name, v)] := by
    intro v
    rw [replace_append h]
    simp [replace]
  simp [within?, hfind, hreplace]

end Entries

/-! ## Bare keys -/

def IsBare (key : String) : Prop := key.toList ≠ [] ∧ key.toList.all isBareKeyChar = true

instance (key : String) : Decidable (IsBare key) := inferInstanceAs (Decidable (_ ∧ _))

/-- A line or a key that starts with a bare key starts with none of the marks. -/
theorem IsBare.append_ne {key : String} (h : IsBare key) {mark : Char}
    (hmark : isBareKeyChar mark = false) (t u : List Char) : key.toList ++ t ≠ mark :: u := by
  intro heq
  obtain ⟨hne, hall⟩ := h
  cases hkey : key.toList with
  | nil => exact hne hkey
  | cons c cs =>
    rw [hkey, List.cons_append] at heq
    rw [hkey, List.all_cons, (List.cons.inj heq).1, hmark] at hall
    cases hall

theorem skipSpace_cons {c : Char} (h : isSpace c = false) (t : List Char) :
    skipSpace (c :: t) = c :: t := by
  simp [skipSpace, h]

theorem skipSpace_bare {key : String} (h : IsBare key) (t : List Char) :
    skipSpace (key.toList ++ t) = key.toList ++ t := by
  cases hline : key.toList ++ t with
  | nil => rfl
  | cons c cs =>
    have hspace : c ≠ ' ' := fun hc => h.append_ne (by decide) t cs (hc ▸ hline)
    have htab : c ≠ '\t' := fun hc => h.append_ne (by decide) t cs (hc ▸ hline)
    exact skipSpace_cons (by simp [isSpace, hspace, htab]) cs

theorem keyPart?_bare {key : String} (h : IsBare key) {c : Char} (hc : isBareKeyChar c = false)
    (t : List Char) : keyPart? (key.toList ++ c :: t) = some (key, c :: t) := by
  have hall : ∀ x ∈ key.toList, isBareKeyChar x = true := List.all_eq_true.mp h.2
  have htake : (key.toList ++ c :: t).takeWhile isBareKeyChar = key.toList := by
    rw [List.takeWhile_append_of_pos hall]
    simp [hc]
  have hdrop : (key.toList ++ c :: t).dropWhile isBareKeyChar = c :: t := by
    rw [List.dropWhile_append_of_pos hall]
    simp [hc]
  rw [keyPart?, htake, hdrop, if_neg h.1, String.ofList_toList]
  · exact fun u => h.append_ne (by decide) _ u
  · exact fun u => h.append_ne (by decide) _ u

theorem key?_bare {key : String} (h : IsBare key) {c : Char} (hc : isBareKeyChar c = false)
    {t : List Char} (hdot : (skipSpace (c :: t)).head? ≠ some '.') :
    key? nestingLimit (key.toList ++ c :: t) = some ([key], skipSpace (c :: t)) := by
  rw [nestingLimit, key?, skipSpace_bare h, keyPart?_bare h hc, Option.bind_some]
  split
  · next rest hrest => exact absurd (by rw [hrest]; rfl) hdot
  · rfl

/-! ## Lines -/

/-- In front of `s` the reader is at `d`, and it comes to `rest` at `d'`. -/
def Reading.Reaches (d : Reading) (s : List Char) (d' : Reading) (rest : List Char) : Prop :=
  ∀ n, s.length < n → ∃ m, rest.length < m ∧ lines? n d s = lines? m d' rest

namespace Reading

theorem Reaches.refl (d : Reading) (s : List Char) : Reaches d s d s :=
  fun n hn => ⟨n, hn, rfl⟩

theorem Reaches.trans {d d' d'' : Reading} {s s' s'' : List Char} (h : Reaches d s d' s')
    (h' : Reaches d' s' d'' s'') : Reaches d s d'' s'' := by
  intro n hn
  obtain ⟨m, hm, heq⟩ := h n hn
  obtain ⟨k, hk, heq'⟩ := h' m hm
  exact ⟨k, hk, heq.trans heq'⟩

theorem Reaches.blank (d : Reading) (rest : List Char) : Reaches d ('\n' :: rest) d rest := by
  intro n hn
  match n with
  | n + 1 => exact ⟨n, by simpa using hn, rfl⟩

/-- A line that is not blank leaves less of the text. -/
theorem Reaches.line {d d' : Reading} {s rest : List Char} (hspace : skipSpace s = s)
    (hblank : newline? s = none) (h : line? d s = some (d', rest))
    (hlen : rest.length < s.length) : Reaches d s d' rest := by
  intro n hn
  match n with
  | n + 1 =>
    refine ⟨n, by omega, ?_⟩
    rw [lines?, hspace]
    cases s with
    | nil => exact absurd hlen (Nat.not_lt_zero _)
    | cons c t => simp [hblank, h]

theorem Reaches.of_eq_nil {d d' : Reading} {s : List Char} (h : Reaches d s d' []) :
    lines? (s.length + 1) d s = some d' := by
  obtain ⟨m, hm, heq⟩ := h (s.length + 1) (Nat.lt_succ_self _)
  rw [heq]
  match m with
  | m + 1 => rfl

/-- The tables that are done, and the one under the last header. -/
def inTable (done : Entries) (name : String) (es : Entries) : Reading :=
  { root := done ++ [(name, .table .header es)], header := [name] }

theorem line?_headerLine {name : String} (h : IsBare name) (d : Reading)
    (hnew : d.root.find? name = none) (rest : List Char) :
    line? d (Settings.headerLine name ++ rest) = some (inTable d.root name [], rest) := by
  have hkeys : headerKeys? [']'] (name.toList ++ ']' :: '\n' :: rest) = some ([name], rest) := by
    rw [headerKeys?, key?_bare h (by decide) (by simp [skipSpace, isSpace])]
    rfl
  have hopen : d.openWith [name] Entries.openTable? = some (inTable d.root name []) := by
    simp [openWith, splitKey, Entries.within?, Entries.openTable?, hnew, inTable]
  have hline : line? d ('[' :: (name.toList ++ ']' :: '\n' :: rest)) =
      some (inTable d.root name [], rest) := by
    rw [line?, hkeys, Option.bind_some, hopen]
    · rfl
    · exact fun u hu => h.append_ne (by decide) _ u hu
  simpa [Settings.headerLine] using hline

theorem Reaches.header {name : String} (h : IsBare name) (d : Reading)
    (hnew : d.root.find? name = none) (rest : List Char) :
    Reaches d (Settings.headerLine name ++ rest) (inTable d.root name []) rest := by
  apply Reaches.line
  · rfl
  · rfl
  · exact line?_headerLine h d hnew rest
  · simp [Settings.headerLine]
    omega

end Reading

open Reading

/-! ## Fields and sections -/

/-- At the end of a line, the text reads as the value. -/
structure Shows (text : List Char) (v : Value) : Prop where
  skipSpace_append : ∀ rest, skipSpace (text ++ rest) = text ++ rest
  value?_append : ∀ rest, value? nestingLimit (text ++ '\n' :: rest) = some (v, '\n' :: rest)

structure Field where
  key : String
  text : List Char
  value : Value
  bare : IsBare key
  shows : Shows text value

namespace Field

def line (f : Field) : List Char := Settings.fieldLine f.key f.text

def entry (f : Field) : String × Value := (f.key, f.value)

theorem line_append (f : Field) (rest : List Char) :
    f.line ++ rest = f.key.toList ++ ' ' :: '=' :: ' ' :: (f.text ++ '\n' :: rest) := by
  simp [line, Settings.fieldLine]

theorem append_ne (f : Field) {mark : Char} (h : isBareKeyChar mark = false)
    (rest u : List Char) : f.line ++ rest ≠ mark :: u := by
  rw [line_append]
  exact f.bare.append_ne h _ u

theorem pair?_line (f : Field) (rest : List Char) :
    pair? (value? nestingLimit) (f.line ++ rest) = some (([f.key], f.value), '\n' :: rest) := by
  have hkey : key? nestingLimit (f.key.toList ++ ' ' :: '=' :: ' ' :: (f.text ++ '\n' :: rest)) =
      some ([f.key], '=' :: ' ' :: (f.text ++ '\n' :: rest)) :=
    key?_bare f.bare (by decide) (by simp [skipSpace, isSpace])
  have hvalue : skipSpace (' ' :: (f.text ++ '\n' :: rest)) = f.text ++ '\n' :: rest :=
    f.shows.skipSpace_append _
  rw [pair?, line_append, hkey]
  simp only [Option.bind_some, hvalue, f.shows.value?_append]
  rfl

theorem put_inTable (f : Field) {done es : Entries} {name : String}
    (hname : done.find? name = none) (hkey : es.find? f.key = none) :
    (inTable done name es).put [f.key] f.value = some (inTable done name (es ++ [f.entry])) := by
  simp [put, inTable, splitKey, Entries.within?_last hname, Entries.put?, Entries.add?, hkey,
    entry]

theorem line?_line (f : Field) {done es : Entries} {name : String}
    (hname : done.find? name = none) (hkey : es.find? f.key = none) (rest : List Char) :
    line? (inTable done name es) (f.line ++ rest) =
      some (inTable done name (es ++ [f.entry]), rest) := by
  rw [line?, pair?_line, Option.bind_some]
  · have hend : endLine? ('\n' :: rest) = some rest := rfl
    rw [hend, Option.bind_some, put_inTable f hname hkey]
    rfl
  · exact fun u => f.append_ne (by decide) _ u
  · exact fun u => f.append_ne (by decide) _ _
  · exact fun u => f.append_ne (by decide) _ u

theorem reaches (f : Field) {done es : Entries} {name : String} (hname : done.find? name = none)
    (hkey : es.find? f.key = none) (rest : List Char) :
    Reaches (inTable done name es) (f.line ++ rest) (inTable done name (es ++ [f.entry])) rest := by
  apply Reaches.line
  · rw [f.line_append]
    exact skipSpace_bare f.bare _
  · rw [newline?]
    · exact fun u => f.append_ne (by decide) _ u
    · exact fun u => f.append_ne (by decide) _ _
  · exact f.line?_line hname hkey rest
  · simp [line_append]
    omega

/-- The fields of a table are read one after the other.  `es` holds those before them. -/
theorem reaches_all {done : Entries} {name : String} (hname : done.find? name = none)
    (fields : List Field) (es : Entries) (hnodup : (fields.map key).Nodup)
    (hnew : ∀ f ∈ fields, es.find? f.key = none) (rest : List Char) :
    Reaches (inTable done name es) (fields.flatMap line ++ rest)
      (inTable done name (es ++ fields.map entry)) rest := by
  induction fields generalizing es with
  | nil =>
    rw [List.map_nil, List.append_nil]
    exact Reaches.refl _ _
  | cons f fs ih =>
    rw [List.map_cons, List.nodup_cons] at hnodup
    obtain ⟨hfirst, hrest⟩ := hnodup
    have hlater : ∀ g ∈ fs, (es ++ [f.entry]).find? g.key = none := by
      intro g hg
      have hne : f.key ≠ g.key := fun heq => hfirst (heq ▸ List.mem_map_of_mem hg)
      rw [Entries.find?_append, hnew g (List.mem_cons_of_mem f hg)]
      simp [Entries.find?, entry, hne]
    have hone := f.reaches hname (hnew f List.mem_cons_self) (fs.flatMap line ++ rest)
    have hmore := ih (es ++ [f.entry]) hrest hlater
    rw [List.append_assoc] at hmore
    rw [List.flatMap_cons, List.append_assoc]
    exact hone.trans hmore

end Field

structure Section where
  name : String
  fields : List Field
  bare : IsBare name
  nodup : (fields.map Field.key).Nodup

namespace Section

def text (s : Section) : List Char := Settings.headerLine s.name ++ s.fields.flatMap Field.line

def entries (s : Section) : Entries := s.fields.map Field.entry

def entry (s : Section) : String × Value := (s.name, .table .header s.entries)

/-- Reading a section adds its table to those before it. -/
theorem reaches (s : Section) (d : Reading) (hnew : d.root.find? s.name = none)
    (rest : List Char) :
    Reaches d (s.text ++ rest) { root := d.root ++ [s.entry], header := [s.name] } rest := by
  have hheader := Reaches.header s.bare d hnew (s.fields.flatMap Field.line ++ rest)
  have hfields := Field.reaches_all hnew s.fields [] s.nodup (fun _ _ => rfl) rest
  rw [text, List.append_assoc]
  exact hheader.trans hfields

end Section

end Toml
end SymbolAtlas
