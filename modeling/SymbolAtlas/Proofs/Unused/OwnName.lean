/-
Under which name a member is looked up.

A member is found by what stands behind the first dot of a name, and its occurrences are
looked up by what stands behind the last one.  Both cuts leave the same name behind unless
the name of the member has a dot itself, as a quoted name may.  Then neither the search for
references nor the report on a file looks for the member: both look for the last part of
its name, `calledName`.  `name_of_findDefinition?` says by which names a member is found,
and `lookupName_own_iff_plain` which programs have a member that is looked up under a name
other than its own.
-/
import SymbolAtlas.Proofs.Lookup.Precedence
import SymbolAtlas.Proofs.Unused.Reported

namespace SymbolAtlas

/-! ## The last part of a name -/

theorem not_mem_calledName (name : String) : '.' ∉ (calledName name).toList := by
  rw [calledName, String.toList_ofList, Naming.Rules.lastSegment]
  cases hcut : Text.cutLast? '.' name.toList with
  | none => exact Text.cutLast?_eq_none_iff.mp hcut
  | some halves => exact (Text.append_of_cutLast? hcut).2

theorem calledName_eq_self_iff {name : String} : calledName name = name ↔ '.' ∉ name.toList := by
  refine ⟨fun h => ?_, calledName_of_plain⟩
  have hplain := not_mem_calledName name
  rwa [h] at hplain

/-- A class in front of a name does not change its last part. -/
theorem calledName_behind (owner name : String) :
    calledName (owner ++ "." ++ name) = calledName name := by
  by_cases hdot : '.' ∈ name.toList
  · have hsome : Text.cutLast? '.' name.toList ≠ none := fun hnone =>
      Text.cutLast?_eq_none_iff.mp hnone hdot
    obtain ⟨⟨front, last⟩, hcut⟩ := Option.ne_none_iff_exists'.mp hsome
    obtain ⟨hname, hlast⟩ := Text.append_of_cutLast? hcut
    have hwhole : (owner ++ "." ++ name).toList =
        (owner.toList ++ '.' :: front) ++ '.' :: last := by
      rw [toList_dotted, hname, List.append_assoc, List.cons_append]
    rw [calledName, calledName, Naming.Rules.lastSegment, Naming.Rules.lastSegment, hwhole, hcut,
      Text.cutLast?_append _ hlast]
  · rw [calledName_dotted owner hdot, calledName_of_plain hdot]

theorem exists_owner_of_dotted {name : String} (h : '.' ∈ name.toList) :
    ∃ owner member, name = owner ++ "." ++ member ∧ '.' ∉ owner.toList := by
  obtain ⟨front, back, hname, hfront⟩ := List.eq_append_cons_of_mem h
  refine ⟨String.ofList front, String.ofList back, ?_, by rwa [String.toList_ofList]⟩
  rw [← String.toList_inj, toList_dotted, String.toList_ofList, String.toList_ofList, hname]

namespace Atlas

variable {a : Atlas} {name : String} {o : Declaration} {m : Member}

/-! ## The names of a member -/

/-- A member is found by its own name, if that has no dot, or behind the name of its class,
if that has none. -/
theorem name_of_findDefinition? (h : a.findDefinition? name = some (.member o m)) :
    o ∈ a.declarations ∧ m ∈ o.members ∧
      ((name = m.name ∧ '.' ∉ m.name.toList) ∨
        (name = o.name ++ "." ++ m.name ∧ '.' ∉ o.name.toList)) := by
  by_cases hdot : '.' ∈ name.toList
  · obtain ⟨owner, member, rfl, howner⟩ := exists_owner_of_dotted hdot
    rw [findDefinition?_dotted howner] at h
    obtain ⟨o', ho, m', hm, heq, hname, hclass⟩ := of_findMember? h
    cases heq
    rw [hname, hclass owner rfl]
    exact ⟨ho, hm, Or.inr ⟨rfl, howner⟩⟩
  · rw [findDefinition?_plain hdot] at h
    rcases Option.or_eq_some_iff.mp h with hmodule | ⟨-, hmember⟩
    · obtain ⟨x, -, hx⟩ := Option.map_eq_some_iff.mp hmodule
      cases hx
    · obtain ⟨o', ho, m', hm, heq, hname, -⟩ := of_findMember? hmember
      cases heq
      rw [← hname] at hdot
      exact ⟨ho, hm, Or.inl ⟨hname.symm, hdot⟩⟩

theorem lookupName_of_findDefinition?_member
    (h : a.findDefinition? name = some (.member o m)) :
    (Definition.member o m).lookupName name = calledName m.name := by
  rw [lookupName_member]
  obtain ⟨-, -, ⟨rfl, -⟩ | ⟨rfl, -⟩⟩ := name_of_findDefinition? h
  · rfl
  · exact calledName_behind o.name m.name

/-- A class without a dot in its name leads to some member of each name that it has. -/
theorem exists_findDefinition_member (ho : o ∈ a.declarations) (hplain : '.' ∉ o.name.toList)
    (hm : m ∈ o.members) :
    ∃ o' m', a.findDefinition (o.name ++ "." ++ m.name) = .ok (.member o' m') ∧
      m'.name = m.name := by
  have hmember : (.member o m) ∈ a.members :=
    List.mem_flatMap.mpr ⟨o, ho, List.mem_map_of_mem hm⟩
  have hsome : a.findMember? (some o.name) m.name ≠ none := fun hnone =>
    findMember?_eq_none_iff.mp hnone _ hmember ⟨rfl, fun _ => id⟩
  obtain ⟨s, hs⟩ := Option.ne_none_iff_exists'.mp hsome
  obtain ⟨o', -, m', -, rfl, hname, -⟩ := of_findMember? hs
  refine ⟨o', m', ?_, hname⟩
  rw [findDefinition_eq_ok_iff, findDefinition?_dotted hplain, hs]

/-! ## What is looked for -/

/-- The occurrences of a word, as they are listed for a definition. -/
def occurrencesOfWord (a : Atlas) (word : String) (d : Definition) (internal : Bool) :
    List Occurrence :=
  (a.files.filter fun f => internal || f.path ≠ d.file).flatMap fun f =>
    (a.source.occurrences f.path word).map (a.judged d f.path)

theorem allOccurrences_eq_occurrencesOfWord (a : Atlas) (name : String) (d : Definition)
    (internal : Bool) :
    a.allOccurrences name d internal = a.occurrencesOfWord (d.lookupName name) d internal := rfl

/-- By whatever name a member is found, its occurrences are looked up by the last part of
its own name, and so they are for the report on a file.  That is its name if there is no dot
in it, so the search for references is right for the members of a program just if no class
whose name has no dot has a member with a dot in its name, and the report on a file just if
no member that it checks has one. -/
theorem lookupName_own_iff_plain (a : Atlas) :
    (∀ name o m, a.findDefinition name = .ok (.member o m) → ∀ internal,
      a.allOccurrences name (.member o m) internal =
        a.occurrencesOfWord (calledName m.name) (.member o m) internal) ∧
    ((∀ name o m, a.findDefinition name = .ok (.member o m) →
        (Definition.member o m).lookupName name = m.name) ↔
      ∀ o ∈ a.declarations, '.' ∉ o.name.toList → ∀ m ∈ o.members, '.' ∉ m.name.toList) ∧
    ∀ path,
      (∀ p o m, a.ChecksAt path p (.member o m) →
        a.allOccurrences m.name (.member o m) false =
          a.occurrencesOfWord (calledName m.name) (.member o m) false) ∧
      ((∀ p o m, a.ChecksAt path p (.member o m) →
          (Definition.member o m).lookupName m.name = m.name) ↔
        ∀ p o m, a.ChecksAt path p (.member o m) → '.' ∉ m.name.toList) := by
  refine ⟨fun name o m h internal => ?_, ⟨fun hown o ho hplain m hm => ?_, ?_⟩,
    fun path => ⟨fun p o m _ => ?_, ?_⟩⟩
  · rw [allOccurrences_eq_occurrencesOfWord,
      lookupName_of_findDefinition?_member (findDefinition_eq_ok_iff.mp h)]
  · obtain ⟨o', m', hfound, hname⟩ := exists_findDefinition_member ho hplain hm
    have hlookup := hown _ _ _ hfound
    rw [lookupName_of_findDefinition?_member (findDefinition_eq_ok_iff.mp hfound),
      calledName_eq_self_iff] at hlookup
    rwa [← hname]
  · intro hplain name o m h
    have hfound := findDefinition_eq_ok_iff.mp h
    rw [lookupName_of_findDefinition?_member hfound, calledName_eq_self_iff]
    obtain ⟨ho, hm, ⟨-, hdot⟩ | ⟨-, howner⟩⟩ := name_of_findDefinition? hfound
    · exact hdot
    · exact hplain o ho howner m hm
  · rw [allOccurrences_eq_occurrencesOfWord, lookupName_member]
  · simp only [lookupName_member, calledName_eq_self_iff]

end Atlas

/-- The class of a member with a dot in its name, and the file that calls it: no occurrence
of the member is found, neither by the name of its class and its own nor for the report. -/
theorem lookupName_misses_bag_member :
    ∃ o m, (Atlas.ofSketches bagSketches {}).findDefinition "Bag.a.b" = .ok (.member o m) ∧
      m.name = "a.b" ∧ (Definition.member o m).lookupName "Bag.a.b" = "b" ∧
      (Atlas.ofSketches bagSketches {}).allOccurrences "Bag.a.b" (.member o m) true = [] ∧
      ((Atlas.ofSketches bagSketches {}).occurrencesOfWord "a.b" (.member o m) true).length = 2 ∧
      (∃ p, (Atlas.ofSketches bagSketches {}).ChecksAt "src/bag.ts" p (.member o m)) ∧
      (Definition.member o m).lookupName m.name = "b" := by
  let a := Atlas.ofSketches bagSketches {}
  have hfound : ∃ d ∈ a.findDefinition? "Bag.a.b", d.name = "a.b" ∧
      d.lookupName "Bag.a.b" = "b" ∧ d.lookupName "a.b" = "b" ∧
      a.allOccurrences "Bag.a.b" d true = [] ∧ (a.occurrencesOfWord "a.b" d true).length = 2 ∧
      d ∈ a.checkedSymbols "src/bag.ts" := by decide +kernel
  obtain ⟨d, hd, hname, hasked, hown, hnone, htwo, hchecked⟩ := hfound
  obtain ⟨o, m, rfl⟩ := Atlas.exists_member_of_dotted (by decide) hd
  refine ⟨o, m, Atlas.findDefinition_eq_ok_iff.mpr hd, hname, hasked, hnone, htwo, ?_, ?_⟩
  · exact (Atlas.listed_checkedSymbols a "src/bag.ts").mem_iff.mp hchecked
  · rwa [show m.name = "a.b" from hname]

end SymbolAtlas
