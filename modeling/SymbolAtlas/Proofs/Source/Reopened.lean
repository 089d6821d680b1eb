/-
Declarations in the order of their places.

Within one opening of a file each declaration takes a line below all lines that were taken before,
and another opening goes on below the last line that something is mentioned on.  So the places of
the declarations of a file are the `openedLines` of its openings, whatever else the program has,
and they ascend just if these keep clear of each other.

A function that is exported by default and has no name is declared on a line that nothing is
mentioned on, so the next opening may declare something at its place.
-/
import SymbolAtlas.Proofs.Lookup.Ascending
import SymbolAtlas.Proofs.Source.Openings

namespace SymbolAtlas

/-! ## One opening of a program -/

/-- The file of a declaration and its place there. -/
def Heading.place (x : Heading) : String × Option Position := (x.file, x.position)

/-- The start of a line of a file. -/
def startOf (file : String) (line : Nat) : String × Option Position :=
  (file, some { line := line, column := 1 })

theorem lineBelow_of_lt {n count : Nat} (h : n + count < placeLimit) :
    lineBelow n count = n + count := by
  induction count generalizing n with
  | zero => rfl
  | succ count ih =>
    rw [lineBelow, wrapPlace_of_lt (by omega), ih (by omega)]
    omega

namespace Draft

/-- The place that an item gets, if it declares something. -/
theorem place_heading? {d : Draft} (hd : d.hidePosition = false) {i : FileItem}
    (hroom : d.line + i.lines.length < placeLimit) :
    (d.heading? i).toList.map Heading.place =
      (if i.declares then [d.line + 1] else []).map (startOf d.path) := by
  rw [heading?, FileItem.declares]
  cases hname : i.declaredName? with
  | none => rfl
  | some name =>
    obtain ⟨l, ls, hlines, -⟩ := FileItem.lines_of_declares (by rw [FileItem.declares, hname]; rfl)
    rw [hlines, List.length_cons] at hroom
    have hline : d.newLine.here = { line := d.line + 1, column := 1 } := by
      rw [here, newLine, wrapPlace_of_lt (by omega)]
    simp [newHeading, Heading.place, startOf, hd, hline]

theorem places_items {d : Draft} (hd : d.hidePosition = false) {is : List FileItem}
    (hplain : ∀ i ∈ is, i.isPlaced = false ∧ i.hidesPosition = false)
    (hroom : d.line + (is.flatMap FileItem.lines).length < placeLimit) :
    (is.foldl item d).workspace.headings.map Heading.place =
      d.workspace.headings.map Heading.place ++
        (declaredLines d.line is).map (startOf d.path) := by
  induction is generalizing d with
  | nil => exact (List.append_nil _).symm
  | cons i is ih =>
    obtain ⟨⟨hplaced, hhides⟩, hrest⟩ := List.forall_mem_cons.mp hplain
    rw [List.flatMap_cons, List.length_append] at hroom
    have hline : (d.item i).line = d.line + i.lines.length :=
      (d.fills_item i hplaced).line_eq.trans (lineBelow_of_lt (by omega))
    have hhide : (d.item i).hidePosition = false := by simp [hidePosition_item, hhides, hd]
    rw [List.foldl_cons, ih hhide hrest (by rw [hline]; omega), headings_item, List.map_append,
      place_heading? hd (by omega), hline, path_item, declaredLines, List.map_append,
      List.append_assoc]

end Draft

theorem foldl_max_const {α : Type} (n : Nat) (xs : List α) :
    (xs.map fun _ => n).foldl max n = n := by
  induction xs with
  | nil => rfl
  | cons x xs ih => rw [List.map_cons, List.foldl_cons, Nat.max_self, ih]

/-- Of lines below line `n` the last one with a name is remembered. -/
theorem foldl_max_sightingsBelow (file : String) {n : Nat} {ls : List Line}
    (hroom : n + ls.length < placeLimit) :
    ((sightingsBelow file n ls).map fun x => x.position.line).foldl max n =
      n + (ls.rdropWhile Line.isBlank).length := by
  induction ls using List.reverseRecOn with
  | nil => simp [sightingsBelow]
  | append_singleton ls l ih =>
    rw [List.length_append, List.length_singleton] at hroom
    have hle := (List.rdropWhile_prefix Line.isBlank ls).length_le
    rw [sightingsBelow_append, lineBelow_of_lt (by omega), List.map_append, List.foldl_append,
      ih (by omega), sightingsBelow, sightingsBelow, List.append_nil,
      wrapPlace_of_lt (by omega), Line.sightings, List.map_map, List.rdropWhile_concat]
    cases hwords : l.words with
    | nil => simp [Line.isBlank, hwords]
    | cons word words =>
      have hmax : max (n + (ls.rdropWhile Line.isBlank).length) (n + ls.length + 1) =
          n + ls.length + 1 := by omega
      have hconst := foldl_max_const (n + ls.length + 1) words
      simp only [Line.isBlank, hwords, List.isEmpty_cons, Bool.false_eq_true, if_false,
        List.length_append, List.length_singleton, List.map_cons, List.foldl_cons]
      rw [Nat.add_assoc] at hmax hconst ⊢
      exact (congrArg (List.foldl max · _) hmax).trans hconst

theorem file_of_mem_sightingsBelow {file : String} {n : Nat} {ls : List Line} {x : Sighting}
    (hx : x ∈ sightingsBelow file n ls) : x.file = file := by
  induction ls generalizing n with
  | nil => cases hx
  | cons l ls ih =>
    rcases List.mem_append.mp hx with hfirst | hrest
    · obtain ⟨word, -, rfl⟩ := List.mem_map.mp hfirst
      rfl
    · exact ih hrest

namespace Workspace

variable {w : Workspace} {s : FileSketch} {path : String}

theorem lastLine_eq (w : Workspace) (path : String) :
    w.lastLine path =
      ((w.sightings.filter fun x => x.file = path).map fun x => x.position.line).foldl max 0 := by
  rw [lastLine, mentionsIn, sightings, List.filter_map, List.map_map]
  rfl

theorem lastLine_add (hw : w.Tidy) (hs : ∀ i ∈ s.items, i.isPlaced = false)
    (hroom : w.lastLine s.path + s.lines.length < placeLimit) :
    (w.add s).lastLine s.path = w.lastLine s.path + s.height := by
  have hown : (sightingsBelow s.path (w.lastLine s.path) s.lines).filter
      (fun x => x.file = s.path) = sightingsBelow s.path (w.lastLine s.path) s.lines := by
    rw [List.filter_eq_self]
    exact fun x hx => decide_eq_true (file_of_mem_sightingsBelow hx)
  rw [lastLine_eq, (sightings_add hw s hs).2, List.filter_append, hown, List.map_append,
    List.foldl_append, ← lastLine_eq]
  exact foldl_max_sightingsBelow s.path hroom

theorem lastLine_add_of_ne (hw : w.Tidy) (hs : ∀ i ∈ s.items, i.isPlaced = false)
    (hne : s.path ≠ path) : (w.add s).lastLine path = w.lastLine path := by
  have hnone : (sightingsBelow s.path (w.lastLine s.path) s.lines).filter
      (fun x => x.file = path) = [] := by
    rw [List.filter_eq_nil_iff]
    intro x hx
    rw [file_of_mem_sightingsBelow hx, decide_eq_true_eq]
    exact hne
  rw [lastLine_eq, (sightings_add hw s hs).2, List.filter_append, hnone, List.append_nil,
    ← lastLine_eq]

/-- The places of the declarations of a file. -/
def placesIn (w : Workspace) (path : String) : List (Option Position) :=
  (w.declarationsIn path).map Declaration.position

theorem placesIn_eq (w : Workspace) (path : String) :
    w.placesIn path = ((w.headings.map Heading.place).filter fun x => x.1 = path).map Prod.snd := by
  rw [placesIn, declarationsIn, headings, List.map_map, List.filter_map, List.map_map]
  rfl

theorem placesIn_add (hs : ∀ i ∈ s.items, i.isPlaced = false ∧ i.hidesPosition = false)
    (hroom : w.lastLine s.path + s.lines.length < placeLimit) :
    (w.add s).placesIn s.path = w.placesIn s.path ++
      (declaredLines (w.lastLine s.path) s.items).map fun line =>
        some { line := line, column := 1 } := by
  have hplaces := Draft.places_items (d := w.openFile s.path s.generated) rfl hs hroom
  have hopen : (w.openFile s.path s.generated).workspace.headings = w.headings :=
    w.headings_addFile s.path s.generated
  have hadd : (w.add s).headings.map Heading.place = w.headings.map Heading.place ++
      (declaredLines (w.lastLine s.path) s.items).map (startOf s.path) := by
    rw [← hopen]
    exact hplaces
  have hown : ((declaredLines (w.lastLine s.path) s.items).map (startOf s.path)).filter
      (fun x => x.1 = s.path) =
      (declaredLines (w.lastLine s.path) s.items).map (startOf s.path) := by
    rw [List.filter_eq_self]
    intro x hx
    obtain ⟨line, -, rfl⟩ := List.mem_map.mp hx
    exact decide_eq_true rfl
  rw [placesIn_eq, hadd, List.filter_append, hown, List.map_append, ← placesIn_eq, List.map_map]
  rfl

/-! ## Programs -/

/-- The openings of one file. -/
def openings (path : String) (sketches : List FileSketch) : List FileSketch :=
  sketches.filter fun s => s.path = path

/-- The declarations of a file are on its opened lines. -/
theorem placesIn_foldl_add (path : String) (hw : w.Tidy) {sketches : List FileSketch}
    (hplain : ∀ s ∈ sketches, ∀ i ∈ s.items, i.isPlaced = false ∧ i.hidesPosition = false)
    (hroom : w.lastLine path + ((openings path sketches).flatMap FileSketch.lines).length <
      placeLimit) :
    (sketches.foldl add w).placesIn path = w.placesIn path ++
      (openedLines (w.lastLine path) (openings path sketches)).map fun line =>
        some { line := line, column := 1 } := by
  induction sketches generalizing w with
  | nil => exact (List.append_nil _).symm
  | cons s ss ih =>
    obtain ⟨hs, hss⟩ := List.forall_mem_cons.mp hplain
    have hunplaced : ∀ i ∈ s.items, i.isPlaced = false := fun i hi => (hs i hi).1
    have htidy := (sightings_add hw s hunplaced).1
    rw [List.foldl_cons]
    by_cases hpath : s.path = path
    · subst hpath
      have hopen : openings s.path (s :: ss) = s :: openings s.path ss :=
        List.filter_cons_of_pos (decide_eq_true rfl)
      rw [hopen, List.flatMap_cons, List.length_append] at hroom
      have hheight := s.height_le
      have hlast := lastLine_add hw hunplaced (by omega)
      rw [ih htidy hss (by rw [hlast]; omega), placesIn_add hs (by omega), hlast, hopen,
        openedLines, List.map_append, List.append_assoc]
    · have hopen : openings path (s :: ss) = openings path ss :=
        List.filter_cons_of_neg (by simpa using hpath)
      have hlast := lastLine_add_of_ne hw hunplaced hpath
      have hkept : (w.add s).placesIn path = w.placesIn path := by
        rw [placesIn, (grows_add w s).declarationsIn_eq hpath]
        rfl
      rw [hopen] at hroom ⊢
      rw [ih htidy hss (by rw [hlast]; exact hroom), hkept, hlast]

/-- Where no item gives a place of its own or takes one away and the file has room for all lines,
all its declarations have places, in the order in which they are declared, and the places ascend
just if the openings of the file keep clear of the lines that earlier ones have left without a
name. -/
theorem declarations_ascend_iff (sketches : List FileSketch) (path : String)
    (hplain : ∀ s ∈ sketches, ∀ i ∈ s.items, i.isPlaced = false ∧ i.hidesPosition = false)
    (hroom : ((openings path sketches).flatMap FileSketch.lines).length < placeLimit) :
    ∃ places : List Position,
      ((ofSketches sketches).declarationsIn path).map Declaration.position = places.map some ∧
      (places.Pairwise (· < ·) ↔ KeepsClear (openings path sketches)) := by
  have hempty : ({} : Workspace).lastLine path = 0 := rfl
  have hplaces := placesIn_foldl_add path tidy_empty hplain (by rwa [hempty, Nat.zero_add])
  refine ⟨(openedLines 0 (openings path sketches)).map fun line => { line := line, column := 1 },
    ?_, ?_⟩
  · rw [List.map_map]
    exact hplaces
  · rw [List.pairwise_map, ← pairwise_openedLines_iff 0]
    refine ⟨fun h => h.imp ?_, fun h => h.imp ?_⟩
    · intro a b hlt
      rcases hlt with hline | ⟨-, hcolumn⟩
      · exact hline
      · exact absurd hcolumn (Nat.lt_irrefl 1)
    · exact fun hlt => Or.inl hlt

/-- Two functions without a name are left, and the file goes on with two imports before it
declares a variable. -/
def clearSketches : List FileSketch :=
  [{ path := "cart.ts", generated := false
     items := [.classDecl "Cart" [.method "add" [.call "log"]],
       .defaultExportFunction none [.param "item" none], .defaultExportFunction none []] },
   { path := "cart.ts", generated := false, items := [.importName "log"] },
   { path := "main.ts", generated := false, items := [.function "main" []] },
   { path := "cart.ts", generated := false, items := [.importName "Item", .variable "limit"] }]

theorem declarations_ascend_clear :
    (∀ s ∈ clearSketches, ∀ i ∈ s.items, i.isPlaced = false ∧ i.hidesPosition = false) ∧
    ((openings "cart.ts" clearSketches).flatMap FileSketch.lines).length < placeLimit ∧
    KeepsClear (openings "cart.ts" clearSketches) ∧
    ∃ places : List Position,
      ((ofSketches clearSketches).declarationsIn "cart.ts").map Declaration.position =
        places.map some ∧ places.Pairwise (· < ·) := by
  have hplain : ∀ s ∈ clearSketches, ∀ i ∈ s.items,
      i.isPlaced = false ∧ i.hidesPosition = false := by decide
  have hroom : ((openings "cart.ts" clearSketches).flatMap FileSketch.lines).length <
      placeLimit := by decide +kernel
  have hclear : KeepsClear (openings "cart.ts" clearSketches) := by decide +kernel
  obtain ⟨places, hplaces, hascend⟩ :=
    declarations_ascend_iff clearSketches "cart.ts" hplain hroom
  exact ⟨hplain, hroom, hclear, places, hplaces, hascend.mpr hclear⟩

/-- A function without a name and the class of the next opening are declared at one place. -/
theorem declarations_share_place :
    let w := ofSketches [{ path := "cart.ts", generated := false
                           items := [.defaultExportFunction none []] },
      { path := "cart.ts", generated := false, items := [.classDecl "Cart" []] }]
    ((w.declarationsIn "cart.ts").map fun x => (x.name, x.position)) =
      [("default", some { line := 1, column := 1 }), ("Cart", some { line := 1, column := 1 })] :=
  rfl

end Workspace
end SymbolAtlas
