/-
Where the rest of a program decides a kind.

The kind of a declaration can be read off its shape, `classify`, or asked for within a program,
`classifyIn`.  Both go by the same rules.  The second one also knows the types of parameters
that are written without one, and it takes the kind of an exported name from what the name
stands for.  Types that are not written can only add to the signs of a component, and they are
asked last: so they make components of functions and variables and change no other kind,
`classifyIn_against_classify`.
-/
import SymbolAtlas.Source.Draft
import SymbolAtlas.Symbol.Classify

namespace SymbolAtlas

/-- The callable that a declaration gives a name to. -/
def Shape.value? : Shape → Option Callable
  | .function c => some c
  | .defaultExport (.callable c) => some c
  | .variable initializer => initializer
  | _ => none

/-- Whether it is a default export of a name. -/
def Declaration.exportsName (d : Declaration) : Bool :=
  match d.shape with
  | .defaultExport (.identifier ..) => true
  | _ => false

theorem Declaration.exportsName_iff {d : Declaration} :
    d.exportsName = true ↔ ∃ name wrapper, d.shape = .defaultExport (.identifier name wrapper) := by
  unfold exportsName
  constructor
  · intro h
    split at h
    · next name wrapper hshape => exact ⟨name, wrapper, hshape⟩
    · cases h
  · rintro ⟨name, wrapper, hshape⟩
    rw [hshape]

namespace Naming.Rules

variable (r : Rules)

/-- Nothing that is written in a callable is a sign of a component. -/
structure Unmarked (c : Callable) : Prop where
  markup : c.body.markup = []
  calls : ∀ call ∈ c.body.calls, isHookName call.target.callee = false
  names : ∀ p ∈ c.params, p.name ≠ "props"
  types : ∀ p ∈ c.params, ∀ type ∈ p.writtenType, r.isPropsType type = false

/-- The program gives a parameter without a written type the type of a component's. -/
def InfersProps (s : Snapshot) (c : Callable) : Prop :=
  ∃ p ∈ c.params, p.writtenType = none ∧ ∃ type ∈ s.typeText p.handle, r.isPropsType type = true

/-- A declaration that is a component by a type that is not written, and by nothing else. -/
def ComponentByType (s : Snapshot) (d : Declaration) : Prop :=
  ∃ c ∈ d.shape.value?, isHookName d.name = false ∧ r.Unmarked c ∧ r.InfersProps s c

variable {r : Rules} {s : Snapshot} {c : Callable} {d : Declaration}

/-! ## Signs of a component -/

theorem isPropsParam_writtenType_eq_false_iff {p : Parameter} :
    r.isPropsParam Parameter.writtenType p = false ↔
      p.name ≠ "props" ∧ ∀ type ∈ p.writtenType, r.isPropsType type = false := by
  cases htype : p.writtenType with
  | none => simp [isPropsParam, htype]
  | some type => simp [isPropsParam, htype]

theorem unmarked_iff : r.Unmarked c ↔ r.hasComponentSignal Parameter.writtenType c = false := by
  simp only [hasComponentSignal, Bool.or_eq_false_iff, Bool.not_eq_eq_eq_not, Bool.not_false,
    List.isEmpty_iff, List.any_eq_false, Bool.not_eq_true, isPropsParam_writtenType_eq_false_iff]
  constructor
  · intro h
    exact ⟨⟨h.markup, h.calls⟩, fun p hp => ⟨h.names p hp, h.types p hp⟩⟩
  · rintro ⟨⟨hmarkup, hcalls⟩, hparams⟩
    exact ⟨hmarkup, hcalls, fun p hp => (hparams p hp).1, fun p hp => (hparams p hp).2⟩

/-- A type that is written is the type of the parameter, whatever the program says. -/
theorem isPropsParam_paramType_iff {p : Parameter} :
    r.isPropsParam (paramType s) p = true ↔
      r.isPropsParam Parameter.writtenType p = true ∨
        (p.writtenType = none ∧ ∃ type ∈ s.typeText p.handle, r.isPropsType type = true) := by
  cases htype : p.writtenType with
  | none => simp [isPropsParam, paramType, htype, Option.any_eq_true]
  | some type => simp [isPropsParam, paramType, htype]

theorem hasComponentSignal_paramType_iff :
    r.hasComponentSignal (paramType s) c = true ↔
      r.hasComponentSignal Parameter.writtenType c = true ∨ r.InfersProps s c := by
  have hparams : c.params.any (r.isPropsParam (paramType s)) = true ↔
      c.params.any (r.isPropsParam Parameter.writtenType) = true ∨ r.InfersProps s c := by
    simp only [List.any_eq_true, isPropsParam_paramType_iff, InfersProps, and_or_left, exists_or]
  rw [hasComponentSignal, hasComponentSignal, Bool.or_eq_true, Bool.or_eq_true (_ || _), hparams,
    or_assoc]

instance (r : Rules) (c : Callable) : Decidable (r.Unmarked c) :=
  decidable_of_iff _ unmarked_iff.symm

instance (r : Rules) (s : Snapshot) (c : Callable) : Decidable (r.InfersProps s c) :=
  inferInstanceAs (Decidable (∃ p ∈ c.params, p.writtenType = none ∧
    ∃ type ∈ s.typeText p.handle, r.isPropsType type = true))

instance (r : Rules) (s : Snapshot) (d : Declaration) : Decidable (r.ComponentByType s d) :=
  inferInstanceAs (Decidable (∃ c ∈ d.shape.value?, isHookName d.name = false ∧
    r.Unmarked c ∧ r.InfersProps s c))

/-! ## Kinds -/

/-- A callable under a hook's name is a hook and one with signs of a component is a component,
so only what is left shows whether it is a function or the value of a variable. -/
theorem classifyWith_of_value (h : d.shape.value? = some c) :
    ∃ plain, (plain = .function ∨ plain = .variable) ∧
      ∀ typeOf, r.classifyWith typeOf d = r.classifyCallable typeOf d.name c plain := by
  unfold classifyWith
  unfold Shape.value? at h
  split at h
  · next hshape =>
    cases h
    exact ⟨.function, Or.inl rfl, fun typeOf => by rw [hshape]⟩
  · next hshape =>
    cases h
    exact ⟨.function, Or.inl rfl, fun typeOf => by rw [hshape]⟩
  · next hshape =>
    rw [h] at hshape
    exact ⟨.variable, Or.inr rfl, fun typeOf => by rw [hshape]⟩
  · cases h

theorem classifyWith_of_no_value (h : d.shape.value? = none)
    (typeOf typeOf' : Parameter → Option String) :
    r.classifyWith typeOf d = r.classifyWith typeOf' d := by
  unfold classifyWith
  unfold Shape.value? at h
  split at h
  · cases h
  · cases h
  · next hshape => rw [hshape, h]
  · next hfunction hexport hvariable =>
    split
    · rfl
    · next hshape => exact absurd hshape (hfunction _)
    · next hshape => exact absurd hshape (hexport _)
    · next hshape => exact absurd hshape (hvariable _)
    all_goals rfl

section Callables

variable {name : String} (plain : SymbolKind)

theorem classifyCallable_of_inferred (hname : isHookName name = false) (hunmarked : r.Unmarked c)
    (hprops : r.InfersProps s c) :
    r.classifyCallable Parameter.writtenType name c plain = plain ∧
      r.classifyCallable (paramType s) name c plain = .functionComponent := by
  have hwritten := unmarked_iff.mp hunmarked
  have hsignal := hasComponentSignal_paramType_iff.mpr (Or.inr hprops)
  simp [classifyCallable, hname, hwritten, hsignal]

/-- A hook stays a hook and a component stays one, and without a type that says so nothing
becomes one. -/
theorem classifyCallable_of_not_inferred
    (h : isHookName name = false → r.Unmarked c → ¬ r.InfersProps s c) :
    r.classifyCallable (paramType s) name c plain =
      r.classifyCallable Parameter.writtenType name c plain := by
  cases hname : isHookName name with
  | true => simp [classifyCallable, hname]
  | false =>
    have hsignal : r.hasComponentSignal (paramType s) c =
        r.hasComponentSignal Parameter.writtenType c := by
      rw [Bool.eq_iff_iff, hasComponentSignal_paramType_iff]
      refine ⟨fun hor => hor.elim id fun hprops => ?_, Or.inl⟩
      cases hwritten : r.hasComponentSignal Parameter.writtenType c with
      | true => rfl
      | false => exact absurd hprops (h hname (unmarked_iff.mpr hwritten))
    rw [classifyCallable, classifyCallable, hsignal]

end Callables

/-! ## Declarations -/

theorem classifyWith_of_componentByType (h : r.ComponentByType s d) :
    (r.classify d = .function ∨ r.classify d = .variable) ∧
      r.classifyWith (paramType s) d = .functionComponent := by
  obtain ⟨c, hc, hname, hunmarked, hprops⟩ := h
  obtain ⟨plain, hplain, hkind⟩ := classifyWith_of_value (r := r) hc
  have hcallable := classifyCallable_of_inferred plain hname hunmarked hprops
  rw [classify, hkind, hkind, hcallable.1, hcallable.2]
  exact ⟨hplain, rfl⟩

theorem classifyWith_of_not_componentByType (h : ¬ r.ComponentByType s d) :
    r.classifyWith (paramType s) d = r.classify d := by
  cases hvalue : d.shape.value? with
  | none => exact classifyWith_of_no_value hvalue _ _
  | some c =>
    obtain ⟨plain, -, hkind⟩ := classifyWith_of_value (r := r) hvalue
    rw [classify, hkind, hkind]
    apply classifyCallable_of_not_inferred
    intro hname hunmarked hprops
    exact h ⟨c, hvalue, hname, hunmarked, hprops⟩

theorem classifyIn_of_not_exportsName (h : d.exportsName = false) :
    r.classifyIn s d = r.classifyWith (paramType s) d := by
  unfold classifyIn
  split
  · next hshape =>
    have hexports : d.exportsName = true := Declaration.exportsName_iff.mpr ⟨_, _, hshape⟩
    rw [h] at hexports
    cases hexports
  · rfl

theorem classifyIn_of_exportsName (h : d.exportsName = true) :
    r.classifyIn s d = ((s.exportTarget d).map (r.classifyWith (paramType s))).getD .variable := by
  obtain ⟨name, wrapper, hshape⟩ := Declaration.exportsName_iff.mp h
  rw [classifyIn, hshape]
  cases s.exportTarget d <;> rfl

theorem classifyWith_of_exportsName (h : d.exportsName = true)
    (typeOf : Parameter → Option String) : r.classifyWith typeOf d = .variable := by
  obtain ⟨name, wrapper, hshape⟩ := Declaration.exportsName_iff.mp h
  rw [classifyWith, hshape]

/-- Within a program a declaration has the kind that its shape gives it, except that a type
which is not written makes a component of a function or a variable; and a default export of a
name, by its shape a variable, has the kind of what the name stands for. -/
theorem classifyIn_against_classify (r : Rules) (s : Snapshot) (d : Declaration) :
    (d.exportsName = false →
      ((r.classify d = .function ∨ r.classify d = .variable) ∧
        r.classifyIn s d = .functionComponent ↔ r.ComponentByType s d) ∧
      (¬ r.ComponentByType s d → r.classifyIn s d = r.classify d)) ∧
    (d.exportsName = true →
      r.classify d = .variable ∧
      (s.exportTarget d = none → r.classifyIn s d = .variable) ∧
      ∀ target, s.exportTarget d = some target →
        (target.exportsName = false → r.classifyIn s d = r.classifyIn s target) ∧
        (target.exportsName = true → r.classifyIn s d = .variable)) := by
  refine ⟨fun hd => ?_, fun hd => ?_⟩
  · rw [classifyIn_of_not_exportsName hd]
    refine ⟨⟨?_, classifyWith_of_componentByType⟩, classifyWith_of_not_componentByType⟩
    rintro ⟨hplain, hcomponent⟩
    by_cases htype : r.ComponentByType s d
    · exact htype
    · rw [classifyWith_of_not_componentByType htype] at hcomponent
      rw [hcomponent] at hplain
      exact absurd hplain (by decide)
  · rw [classifyIn_of_exportsName hd]
    refine ⟨classifyWith_of_exportsName hd _, fun hnone => by rw [hnone]; rfl, ?_⟩
    intro target htarget
    rw [htarget]
    refine ⟨fun hplain => ?_, fun hexport => classifyWith_of_exportsName hexport _⟩
    rw [classifyIn_of_not_exportsName hplain]
    rfl

/-- A function is a component by the type of its parameter, and so is the export of its name. -/
theorem classifyIn_of_inferred_card :
    let w := Workspace.ofSketches
      [{ path := "card.tsx", generated := false,
         items := [.function "Card" [.paramInferred "p" "CardProps", .call "format"],
           .defaultExport "Card" (some "memo")] }]
    let r := Rules.ofSettings {}
    ∃ card ∈ w.declarations, ∃ given ∈ w.declarations,
      card.exportsName = false ∧ r.ComponentByType w.snapshot card ∧
      r.classifyIn w.snapshot card = .functionComponent ∧
      given.exportsName = true ∧ w.exportTarget given = some card ∧
      r.classifyIn w.snapshot given = .functionComponent := by
  intro w r
  have hfound : ∃ card ∈ w.declarations, ∃ given ∈ w.declarations,
      card.exportsName = false ∧ r.ComponentByType w.snapshot card ∧
      given.exportsName = true ∧ w.exportTarget given = some card := by decide +kernel
  obtain ⟨card, hcard, given, hgiven, hplain, htype, hexport, htarget⟩ := hfound
  have hkind := (((classifyIn_against_classify r w.snapshot card).1 hplain).1.mpr htype).2
  have hsame := (((classifyIn_against_classify r w.snapshot given).2 hexport).2.2 card
    htarget).1 hplain
  exact ⟨card, hcard, given, hgiven, hplain, htype, hkind, hexport, htarget, hsame.trans hkind⟩

end Naming.Rules
end SymbolAtlas
