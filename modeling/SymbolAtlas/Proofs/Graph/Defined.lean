/-
The node of a symbol and its definition.

The graph enters its symbols in the order of the files, and the first to come under
a key gives its node a kind; a search for a definition goes by the shapes of
declarations and follows default exports.  Two symbols share a key only if they have
one name and one owner, as long as no name has a dot: `key_eq_iff`.  So where a name
has one symbol, all registrations under its key are the same, the scan teaches the
node nothing more, and the search arrives at the symbol that the node is made for.
-/
import SymbolAtlas.Proofs.Graph.Settled
import SymbolAtlas.Proofs.Lookup.Sole

namespace SymbolAtlas

/-! ## Keys -/

/-- The key of a symbol in the graph. -/
def Definition.key : Definition → String
  | .declaration d => d.name
  | .member o m => o.memberKey m

theorem Definition.toList_key_member (o : Declaration) (m : Member) :
    (Definition.member o m).key.toList = o.name.toList ++ '.' :: m.name.toList :=
  toList_dotted o.name m.name

theorem Definition.key_member_ne {name : String} (h : '.' ∉ name.toList) (o : Declaration)
    (m : Member) : (Definition.member o m).key ≠ name := by
  rintro rfl
  rw [toList_key_member] at h
  exact h (List.mem_append_right _ List.mem_cons_self)

/-- A symbol with no dot in its name and none in the name of its owner. -/
def Definition.Plain (s : Definition) : Prop :=
  '.' ∉ s.name.toList ∧ ∀ o, s.owner? = some o → '.' ∉ o.toList

theorem Definition.key_eq_iff {s t : Definition} (hs : s.Plain) (ht : t.Plain) :
    s.key = t.key ↔ s.owner? = t.owner? ∧ s.name = t.name := by
  cases s with
  | declaration d =>
    cases t with
    | declaration e => simp [key, owner?, name]
    | member o m =>
      constructor
      · intro h
        exact absurd h.symm (key_member_ne hs.1 o m)
      · rintro ⟨howner, -⟩
        cases howner
  | member o m =>
    cases t with
    | declaration e =>
      constructor
      · intro h
        exact absurd h (key_member_ne ht.1 o m)
      · rintro ⟨howner, -⟩
        cases howner
    | member p n =>
      constructor
      · intro h
        -- Both keys are cut at the same dot.
        have hcut := congrArg (fun k : String => Text.cutFirst? ['.'] k.toList) h
        simp only [toList_key_member] at hcut
        rw [Text.cutFirst?_append (hs.2 _ rfl), Text.cutFirst?_append (ht.2 _ rfl)] at hcut
        simp only [Option.some.injEq, Prod.mk.injEq, String.toList_inj] at hcut
        exact ⟨congrArg some hcut.1, hcut.2⟩
      · rintro ⟨howner, hname⟩
        have ho : o.name = p.name := Option.some.inj howner
        have hm : m.name = n.name := hname
        simp only [key, Declaration.memberKey, ho, hm]

/-! ## Registered symbols -/

namespace Atlas

variable (a : Atlas)

/-- The symbols that a declaration brings into the graph. -/
def symbolsRegistered (d : Declaration) : List Definition :=
  match d.shape with
  | .classDecl _ => .declaration d :: (d.members.filter (·.callable.isSome)).map (.member d)
  | _ => (a.registeredCallable? d).toList.map fun _ => .declaration d

/-- The symbols that the graph is built from, in order. -/
def registeredSymbols : List Definition := a.graphDeclarations.flatMap a.symbolsRegistered

def registration (s : Definition) : Registration :=
  { key := s.key, kind := a.symbolKind s, location := s.location? }

theorem memberRegistrations_eq (d : Declaration) :
    memberRegistrations d =
      ((d.members.filter (·.callable.isSome)).map (.member d)).map a.registration := by
  rw [memberRegistrations, List.map_map, ← List.filterMap_eq_map, List.filterMap_filter]
  refine List.filterMap_congr fun m _ => ?_
  cases m.callable with
  | none => rfl
  | some c => rfl

theorem registrations_eq (d : Declaration) :
    a.registrations d = (a.symbolsRegistered d).map a.registration := by
  cases hshape : d.shape with
  | classDecl shape =>
    simp only [registrations, symbolsRegistered, hshape, a.memberRegistrations_eq d]
    rfl
  | _ =>
    simp only [registrations, symbolsRegistered, hshape, List.map_map]
    rfl

theorem flatMap_registrations :
    a.graphDeclarations.flatMap a.registrations = a.registeredSymbols.map a.registration := by
  rw [registeredSymbols, List.map_flatMap]
  exact List.flatMap_congr fun d _ => a.registrations_eq d

theorem registrationsOf_eq (key : String) :
    a.registrationsOf key =
      (a.registeredSymbols.filter fun s => s.key = key).map a.registration := by
  rw [registrationsOf, flatMap_registrations, List.filter_map]
  rfl

theorem registeredKeys_eq : a.registeredKeys = a.registeredSymbols.map Definition.key := by
  have hkeys := congrArg (List.map Registration.key) a.flatMap_registrations
  rw [List.map_flatMap, List.map_map] at hkeys
  simp only [keys_registrations] at hkeys
  exact hkeys

variable {a}

theorem of_mem_symbolsRegistered {d : Declaration} {s : Definition}
    (h : s ∈ a.symbolsRegistered d) :
    s = .declaration d ∨ ∃ m ∈ d.members, s = .member d m := by
  unfold symbolsRegistered at h
  split at h
  · rcases List.mem_cons.mp h with rfl | h
    · exact Or.inl rfl
    · obtain ⟨m, hm, rfl⟩ := List.mem_map.mp h
      exact Or.inr ⟨m, (List.mem_filter.mp hm).1, rfl⟩
  · obtain ⟨c, -, rfl⟩ := List.mem_map.mp h
    exact Or.inl rfl

theorem of_mem_registeredSymbols {w : Workspace} (ha : a.source = w.snapshot) {s : Definition}
    (h : s ∈ a.registeredSymbols) :
    s ∈ w.symbols ∧ a.LooksAt s.file ∧
      ∃ d, .declaration d ∈ w.symbols ∧ d.isModuleScope = true ∧
        (s = .declaration d ∨ ∃ m, s = .member d m) := by
  obtain ⟨d, hd, hs⟩ := List.mem_flatMap.mp h
  obtain ⟨hdecl, hkept⟩ := List.mem_filter.mp hd
  rw [Bool.and_eq_true, Bool.not_eq_true'] at hkept
  have hw := mem_workspace_of_mem_declarations ha hdecl
  have hlook := looksAt_of_mem_declarations ha hdecl
  have hown := Workspace.declaration_mem_symbols_iff.mpr ⟨hw, hkept.2⟩
  rcases of_mem_symbolsRegistered hs with rfl | ⟨m, hm, rfl⟩
  · exact ⟨hown, hlook, d, hown, hkept.1, Or.inl rfl⟩
  · exact ⟨Workspace.member_mem_symbols_iff.mpr ⟨hw, hm⟩, hlook, d, hown, hkept.1,
      Or.inr ⟨m, rfl⟩⟩

theorem plain_of_mem_registeredSymbols {w : Workspace} (ha : a.source = w.snapshot)
    (hplain : ∀ t ∈ w.symbols, '.' ∉ t.name.toList) {s : Definition}
    (h : s ∈ a.registeredSymbols) : s.Plain := by
  obtain ⟨hs, -, d, hd, -, hshape⟩ := of_mem_registeredSymbols ha h
  refine ⟨hplain s hs, fun o ho => ?_⟩
  rcases hshape with rfl | ⟨m, rfl⟩
  · cases ho
  · obtain rfl : d.name = o := Option.some.inj ho
    exact hplain _ hd

/-! ## Nodes -/

theorem exists_node_settled {key : String} (h : key ∈ a.registeredKeys) :
    ∃ n, a.callGraph.node? key = some n ∧ n.kind = a.settledKind key ∧
      n.location = a.settledLocation key := by
  rw [← callGraphBy_scanSteps]
  have hkey : (a.callGraphBy a.scanSteps).contains key = true := by
    rw [Graph.contains_iff, nodeKeys_callGraphBy a (.refl _), mem_distinct]
    exact List.mem_append_left _ h
  obtain ⟨n, hn⟩ := Option.isSome_iff_exists.mp hkey
  have hown : n.key = key := (a.inStep_scanned a.scanSteps).guessKinds.node_key hn
  have hsettled := a.of_mem_callGraphBy (.refl _) (Table.mem_values_of_get? hn)
  rw [hown] at hsettled
  exact ⟨n, hn, hsettled⟩

theorem settled_of_sole_registration {s : Definition} (hs : s ∈ a.registeredSymbols)
    (hsole : ∀ t ∈ a.registeredSymbols, t.key = s.key → t = s) :
    a.settledKind s.key = some (a.symbolKind s) ∧ a.settledLocation s.key = s.location? := by
  -- Every registration under the key is that of the symbol.
  let sharing := a.registeredSymbols.filter fun t => t.key = s.key
  have hmem : s ∈ sharing := List.mem_filter.mpr ⟨hs, decide_eq_true rfl⟩
  have hall : ∀ t ∈ sharing, t = s := by
    intro t ht
    obtain ⟨htmem, htkey⟩ := List.mem_filter.mp ht
    exact hsole t htmem (of_decide_eq_true htkey)
  have hpos : sharing.length ≠ 0 := (List.length_pos_of_mem hmem).ne'
  have hregs : a.registrationsOf s.key =
      List.replicate sharing.length (a.registration s) := by
    rw [a.registrationsOf_eq, ← List.map_replicate]
    exact congrArg _ (List.eq_replicate_of_mem hall)
  constructor
  · rw [settledKind, hregs, List.head?_replicate, if_neg hpos]
    rfl
  · rw [settledLocation, hregs, List.head?_replicate, if_neg hpos]
    simp only [List.findSome?_replicate, if_neg hpos]
    rfl

/-- The node of a key that is registered for one symbol only has what is known of that
symbol, whatever calls and renders it. -/
theorem node?_of_sole_registration {s : Definition} (hs : s ∈ a.registeredSymbols)
    (hsole : ∀ t ∈ a.registeredSymbols, t.key = s.key → t = s) :
    ∃ n, a.callGraph.node? s.key = some n ∧ n.kind = some (a.symbolKind s) ∧
      n.location = s.location? := by
  have hkey : s.key ∈ a.registeredKeys := by
    rw [registeredKeys_eq]
    exact List.mem_map_of_mem hs
  obtain ⟨n, hn, hkind, hlocation⟩ := exists_node_settled hkey
  obtain ⟨hsettled, hplace⟩ := settled_of_sole_registration hs hsole
  exact ⟨n, hn, hkind.trans hsettled, hlocation.trans hplace⟩

theorem findDefinition?_of_sole {w : Workspace} (ha : a.source = w.snapshot)
    (hplain : ∀ t ∈ w.symbols, '.' ∉ t.name.toList) {s : Definition}
    (hs : s ∈ a.registeredSymbols)
    (hsole : ∀ t ∈ w.symbols, t.owner? = s.owner? → t.name = s.name → t = s) :
    a.findDefinition? s.key = some s := by
  obtain ⟨hmem, hlook, d, hd, hscope, rfl | ⟨m, rfl⟩⟩ := of_mem_registeredSymbols ha hs
  · exact findDefinition?_of_sole_declaration ha hd hscope hlook (hplain _ hd) hsole
  · exact findDefinition?_of_sole_member ha hmem hlook (hplain _ hd) hsole

end Atlas

/-- In a program whose names have no dots, take a symbol of the graph that is the only
declaration of its name, or the only member of its name in classes named like its own.
A search for its key finds it, and its node has its kind and its place. -/
theorem definition_and_node_of_sole_symbol (sketches : List FileSketch) (settings : Settings)
    (s : Definition)
    (hplain : ∀ t ∈ (Workspace.ofSketches sketches).symbols, '.' ∉ t.name.toList)
    (hs : s ∈ (Atlas.ofSketches sketches settings).registeredSymbols)
    (hsole : ∀ t ∈ (Workspace.ofSketches sketches).symbols,
      t.owner? = s.owner? → t.name = s.name → t = s) :
    (Atlas.ofSketches sketches settings).findDefinition s.key = .ok s ∧
      ∃ n, (Atlas.ofSketches sketches settings).callGraph.node? s.key = some n ∧
        n.kind = some ((Atlas.ofSketches sketches settings).symbolKind s) ∧
        n.location = s.location? := by
  let w := Workspace.ofSketches sketches
  have ha : (Atlas.ofSketches sketches settings).source = w.snapshot := rfl
  constructor
  · exact Atlas.findDefinition_eq_ok_iff.mpr (Atlas.findDefinition?_of_sole ha hplain hs hsole)
  · refine Atlas.node?_of_sole_registration hs fun t ht hkey => ?_
    have hsplain := Atlas.plain_of_mem_registeredSymbols ha hplain hs
    have htplain := Atlas.plain_of_mem_registeredSymbols ha hplain ht
    obtain ⟨howner, hname⟩ := (Definition.key_eq_iff htplain hsplain).mp hkey
    exact hsole t (Atlas.of_mem_registeredSymbols ha ht).1 howner hname

/-- A class without a position that another file exports by default, renders and calls
before the class is declared. -/
def cartSketches : List FileSketch :=
  [{ path := "app.tsx", generated := false
     items := [.defaultExport "Cart" none,
       .function "App" [.render "Cart", .call "useCart", .callMember "Cart" "add"]] },
   { path := "cart.tsx", generated := false
     items := [.withoutPosition,
       .classDecl "Cart" [.base "Component", .method "add" [], .method "render" [.callThis "add"]],
       .function "useCart" []] }]

theorem definition_and_node_of_cart :
    (Atlas.ofSketches cartSketches {}).registeredSymbols.map Definition.key =
      ["App", "Cart", "Cart.add", "Cart.render", "useCart"] ∧
    ∀ s ∈ (Atlas.ofSketches cartSketches {}).registeredSymbols,
      (Atlas.ofSketches cartSketches {}).findDefinition s.key = .ok s ∧
        ∃ n, (Atlas.ofSketches cartSketches {}).callGraph.node? s.key = some n ∧
          n.kind = some ((Atlas.ofSketches cartSketches {}).symbolKind s) ∧
          n.location = s.location? := by
  have hplain : ∀ t ∈ (Workspace.ofSketches cartSketches).symbols, '.' ∉ t.name.toList := by
    decide +kernel
  have hsole : ∀ s ∈ (Atlas.ofSketches cartSketches {}).registeredSymbols,
      ∀ t ∈ (Workspace.ofSketches cartSketches).symbols,
        t.owner? = s.owner? → t.name = s.name → t = s := by decide +kernel
  exact ⟨by decide +kernel, fun s hs =>
    definition_and_node_of_sole_symbol cartSketches {} s hplain hs (hsole s hs)⟩

end SymbolAtlas
