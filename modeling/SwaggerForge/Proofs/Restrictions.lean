import SwaggerForge.Proofs.Options
import SwaggerForge.Proofs.Sightings

/-!
# Values that are allowed in some sighting

A property may restrict its values, and one parameter may stand for properties that restrict
them differently, or not at all. Where all of them do, the parameter allows what any of them
allows. Where one of them does not, the parameter should allow everything.

It does not always: merging keeps the values of the first descriptor when a later one has none.
So what counts is the sighting that comes first (`Flattening.SightedFirst`). A parameter is
restricted if that one is, and then to the values of all that are restricted, whether there are
others or not (`Flattening.Built.enum_exact`).
-/

namespace SwaggerForge.Flattening

variable (f : Flattening)

/-! ## Restrictions -/

/-- **The values that a sighting allows**, if it does not allow all: the variants at a
discriminator, and at a property its own values or, if it has none and is the one to sort by,
the values to sort by. -/
def restriction (orderBy : Option EnumValues) (s : Seen) : Option EnumValues :=
  match s.stop with
  | .discriminator => some (.ofVariants (f.variantsOf s.place.name))
  | .input p =>
    match p.shape with
    | .value _ _ _ enum => enum.or (if p.name = orderByName then orderBy else none)
    | .reference _ | .referenceArray _ => none

variable {f}

/-- **The values of a descriptor** are those that its sighting allows. -/
theorem enum_descriptor (orderBy : Option EnumValues) (s : Seen) :
    (f.descriptor orderBy s).enum = f.restriction orderBy s := by
  obtain ⟨place, stop, condition⟩ := s
  cases stop with
  | discriminator => rfl
  | input p =>
    unfold descriptor restriction input
    dsimp only
    cases p.shape with
    | reference target => rfl
    | referenceArray target => rfl
    | value type items default enum => rfl

variable (f) in
/-- **The first sighting of a leaf** of a class: the way to it comes before all others. -/
def SightedFirst (name leaf : String) (s : Seen) : Prop :=
  ∃ way, f.Sights ⟨name, ""⟩ none way s ∧ s.leaf = leaf ∧
    ∀ way' s', f.Sights ⟨name, ""⟩ none way' s' → s'.leaf = leaf →
      (way' = way ∧ s' = s) ∨ way < way'

variable (f) in
/-- **The value is allowed in some sighting** of a leaf that is restricted. -/
def AllowedIn (name leaf : String) (j : Json) : Prop :=
  ∃ way s o, f.Sights ⟨name, ""⟩ none way s ∧ s.leaf = leaf ∧
    f.restriction (f.declarations.orderBy? name) s = some o ∧ j ∈ o.values

variable (f) in
/-- **A parameter that forbids no value which some sighting allows**: if it is restricted, then
so is every sighting of it, and its values are those that any of them allows. -/
def AllowsAll (name : String) (p : FlatParameter) : Prop :=
  ∀ enum, p.enum = some enum →
    (∀ way s, f.Sights ⟨name, ""⟩ none way s → s.leaf = p.name →
      f.restriction (f.declarations.orderBy? name) s ≠ none) ∧
    ∀ j, j ∈ enum.values ↔ f.AllowedIn name p.name j

namespace Built

variable (hb : f.Built)
include hb

/-- The variants that a class is listed with are those of its declaration. -/
theorem exists_variantsOf_eq {name : String} (hn : name ∈ f.hierarchy.names) :
    ∃ c ∈ f.hierarchy.classes, c.name = name ∧ f.variantsOf name = f.declarations.variants c := by
  obtain ⟨d, hd⟩ := Declarations.exists_definition hb hn
  obtain ⟨c, hc, hname, hdef⟩ := (Declarations.get?_eq_some_iff hb).1 hd
  refine ⟨c, hc, hname, ?_⟩
  unfold variantsOf
  rw [hd]
  exact f.declarations.variants_eq hdef

/-- **What a sighting allows**, the declarations supply. -/
theorem supplies_of_restriction {start : Place} {condition : Option ShowCondition}
    {way : List Nat} {s : Seen} (h : f.Sights start condition way s)
    (hk : f.hierarchy.isKnown start.name = true) {name : String} {o : EnumValues}
    (ho : f.restriction (f.declarations.orderBy? name) s = some o) :
    f.declarations.Supplies o := by
  obtain ⟨enters, -, c, hstop⟩ := h.mem_stops
  have hknown := hb.isKnown_of_sights h hk
  obtain ⟨place, stop, sc⟩ := s
  cases stop with
  | discriminator =>
    have hn := (f.hierarchy.isKnown_iff.1 hknown).resolve_left fun hroot =>
      enters.1 (hroot.trans hb.root_eq.symm)
    obtain ⟨cls, -, -, hvariants⟩ := hb.exists_variantsOf_eq hn
    rw [← Option.some.inj ho]
    show f.declarations.Supplies (.ofVariants (f.variantsOf place.name))
    rw [hvariants]
    exact .variants cls
  | input p =>
    obtain ⟨member, -, hp⟩ := input_mem_agenda.1 (f.mem_agenda_of_mem_stops hstop)
    obtain ⟨cls, -, d, hdef, hmem⟩ := hb.exists_define_of_mem_inputsOf hp
    unfold restriction at ho
    dsimp only at ho
    cases hshape : p.shape with
    | reference target =>
      rw [hshape] at ho
      cases ho
    | referenceArray target =>
      rw [hshape] at ho
      cases ho
    | value type items default enum =>
      rw [hshape] at ho
      cases enum with
      | some own =>
        obtain rfl := Option.some.inj ho
        exact (Declarations.supplies_of_mem_properties hdef hmem hshape).2 _ rfl
      | none =>
        change (if p.name = orderByName then f.declarations.orderBy? name else none) = some o at ho
        split at ho
        · exact Declarations.supplies_of_orderBy? ho
        · cases ho

variable {name : String} (hk : f.hierarchy.isKnown name = true)
include hk

/-- **What a sighting allows**, the parameter allows that it is merged into. -/
theorem mem_enum_of_sights {p : FlatParameter}
    (hp : p ∈ (summarize (f.sightings name)).parameters) {enum : EnumValues}
    (henum : p.enum = some enum) {way : List Nat} {s : Seen}
    (hs : f.Sights ⟨name, ""⟩ none way s) (hleaf : s.leaf = p.name) {o : EnumValues}
    (ho : f.restriction (f.declarations.orderBy? name) s = some o)
    (hlen : o.labels.length = o.values.length) {j : Json} (hoption : j.IsOption)
    (hj : j ∈ o.values) : j ∈ enum.values := by
  obtain ⟨first, later, -, hseen, hfold⟩ := hb.exists_sighted hk hp
  rw [hfold, FlatParameter.enum_foldl_merge, enum_descriptor] at henum
  obtain ⟨e, he, rfl⟩ := Option.map_eq_some_iff.1 henum
  rcases List.mem_cons.1 ((hseen way s).2 ⟨hs, hleaf⟩) with rfl | hlater
  · obtain rfl := Option.some.inj (he.symm.trans ho)
    exact EnumValues.mem_values_foldl_union_left hj
  · refine EnumValues.mem_values_foldl_union_right hoption ?_ hlen hj
    refine List.mem_filterMap.2 ⟨_, List.mem_map_of_mem hlater, ?_⟩
    rw [enum_descriptor, ho]

variable {decls : List EnumDecl} (henums : EnumCatalog.ofDecls decls = .ok f.declarations.enums)
include henums

/-- **The values of a parameter**, if it has some, are in order and are those that any sighting
allows which is restricted. Whether it has some, its first sighting decides. -/
theorem exists_first {p : FlatParameter}
    (hp : p ∈ (summarize (f.sightings name)).parameters) :
    ∃ s, f.SightedFirst name p.name s ∧
      (p.enum = none ↔ f.restriction (f.declarations.orderBy? name) s = none) ∧
      ∀ enum, p.enum = some enum →
        enum.values.Nodup ∧ ∀ j, j ∈ enum.values ↔ f.AllowedIn name p.name j := by
  have hkinds := EnumCatalog.ofKinds_of_ofDecls henums
  obtain ⟨first, later, hsorted, hseen, hfold⟩ := hb.exists_sighted hk hp
  have henum : p.enum = _ := congrArg FlatParameter.enum hfold
  rw [FlatParameter.enum_foldl_merge, enum_descriptor] at henum
  obtain ⟨hs, hleaf⟩ := (hseen first.1 first.2).1 List.mem_cons_self
  refine ⟨first.2, ⟨first.1, hs, hleaf, fun way s hs hleaf => ?_⟩, ?_, fun enum he => ⟨?_, ?_⟩⟩
  · rcases List.mem_cons.1 ((hseen way s).2 ⟨hs, hleaf⟩) with rfl | hmem
    · exact Or.inl ⟨rfl, rfl⟩
    · exact Or.inr ((List.pairwise_cons.1 hsorted).1 _ hmem)
  · rw [henum, Option.map_eq_none_iff]
  · have hlabelled : enum.Labelled := hb.forall_mem_enums (fun _ _ => .union)
      (fun _ h => h.labelled hkinds) hk (hb.expand_eq hk) p hp enum he
    exact hlabelled.nodup
  · intro j
    constructor
    · intro hj
      rw [he] at henum
      obtain ⟨o, ho, rfl⟩ := Option.map_eq_some_iff.1 henum.symm
      rcases EnumValues.mem_or_exists_of_mem_values_foldl_union hj with hj | ⟨o', ho', hj⟩
      · exact ⟨first.1, first.2, o, hs, hleaf, ho, hj⟩
      · obtain ⟨q, hq, hqo⟩ := List.mem_filterMap.1 ho'
        obtain ⟨⟨way, s⟩, hmem, rfl⟩ := List.mem_map.1 hq
        rw [enum_descriptor] at hqo
        obtain ⟨hs, hleaf⟩ := (hseen way s).1 (List.mem_cons_of_mem _ hmem)
        exact ⟨way, s, o', hs, hleaf, hqo, hj⟩
    · rintro ⟨way, s, o', hs', hleaf', ho', hj⟩
      have hlabelled := (hb.supplies_of_restriction hs' hk ho').labelled hkinds
      exact hb.mem_enum_of_sights hk hp he hs' hleaf' ho' hlabelled.length_eq
        (hlabelled.options j hj) hj

/-- **What the parameters of a class are restricted to**, whatever the bound. A parameter is
restricted if the first sighting of it is, and then to the values that any sighting allows which
is restricted, each once. So it forbids none that some sighting allows exactly if the first
sighting is not restricted, or all of them are. -/
theorem enum_exact :
    ∃ e, f.expand name = .ok e ∧ ∀ p ∈ e.parameters, ∃ s, f.SightedFirst name p.name s ∧
      (p.enum = none ↔ f.restriction (f.declarations.orderBy? name) s = none) ∧
      (∀ enum, p.enum = some enum →
        enum.values.Nodup ∧ ∀ j, j ∈ enum.values ↔ f.AllowedIn name p.name j) ∧
      (f.AllowsAll name p ↔ f.restriction (f.declarations.orderBy? name) s = none ∨
        ∀ way s', f.Sights ⟨name, ""⟩ none way s' → s'.leaf = p.name →
          f.restriction (f.declarations.orderBy? name) s' ≠ none) := by
  refine ⟨_, hb.expand_eq hk, fun p hp => ?_⟩
  obtain ⟨s, hfirst, hnone, hvalues⟩ := hb.exists_first hk henums hp
  refine ⟨s, hfirst, hnone, hvalues, ?_⟩
  rw [← hnone]
  cases henum : p.enum with
  | none => exact ⟨fun _ => Or.inl rfl, fun _ enum he => nomatch henum.symm.trans he⟩
  | some enum =>
    constructor
    · exact fun h => Or.inr (h enum henum).1
    · rintro (h | h)
      · cases h
      · exact fun enum' he => ⟨h, (hvalues enum' he).2⟩

end Built

/-! ## An example

Something is searched by a condition, which compares either a level, and there are two of them,
or a text. -/

/-- The classes of the example. -/
def conditions : Hierarchy where
  root := "Object"
  classes := [
    { name := "Condition", base := some "Object", abstract := true },
    { name := "LevelCondition", base := some "Condition",
      properties := [{ name := "value", type := "string", enumType := some "Level" }] },
    { name := "TextCondition", base := some "Condition",
      properties := [{ name := "value", type := "string" }] }]
  names_nodup := by decide
  root_not_mem := by decide
  base_mem := by decide

/-- The enumerations of the example. -/
def levels : List EnumDecl := [{
  name := "Level"
  kind := .string
  constants := [{ name := "LOW", value := "low" }, { name := "HIGH", value := "high" }] }]

/-- The levels as values. -/
def levelValues : EnumValues := ⟨some "Level", [.string "low", .string "high"], ["LOW", "HIGH"]⟩

/-- The walk over the example. -/
def conditionWalk : Flattening where
  declarations := ⟨conditions, ⟨Table.ofList [("Level",
    ⟨.string, [⟨.string "low", "LOW"⟩, ⟨.string "high", "HIGH"⟩]⟩)]⟩⟩
  definitions := {
    root := "Object"
    definitions := Table.ofList [
      ("Condition", {
        name := "Condition"
        base := some "Object"
        abstract := true
        description := some "`abstract`"
        properties := [{
          name := "objectType"
          shape := .value .string none none
            (some (.ofVariants ["LevelCondition", "TextCondition"]))
          discriminator := true }]
        variants := ["LevelCondition", "TextCondition"] }),
      ("LevelCondition", {
        name := "LevelCondition"
        base := some "Condition"
        abstract := false
        description := none
        properties := [{
          name := "value"
          shape := .value .string none none (some levelValues)
          description := some "Enum Type: `Level`" }]
        variants := [] }),
      ("TextCondition", {
        name := "TextCondition"
        base := some "Condition"
        abstract := false
        description := none
        properties := [{ name := "value", shape := .value .string none none none }]
        variants := [] })] }
  maxDepth := 4

theorem built_conditionWalk : conditionWalk.Built := by
  have hbelow : conditions.descendants "Condition" = ["LevelCondition", "TextCondition"] ∧
      conditions.descendants "LevelCondition" = [] ∧
      conditions.descendants "TextCondition" = [] := by
    refine ⟨?_, ?_, ?_⟩ <;> cbv
  obtain ⟨hcondition, hlevel, htext⟩ := hbelow
  have hclasses : conditions.classes = [
    { name := "Condition", base := some "Object", abstract := true },
    { name := "LevelCondition", base := some "Condition",
      properties := [{ name := "value", type := "string", enumType := some "Level" }] },
    { name := "TextCondition", base := some "Condition",
      properties := [{ name := "value", type := "string" }] }] := rfl
  show (Declarations.mk conditions conditionWalk.declarations.enums).defineAll.result
    = .ok conditionWalk.definitions
  unfold Declarations.defineAll Declarations.define Declarations.variants
    Hierarchy.concreteDescendants
  rw [hclasses]
  simp only [List.mapM_cons, List.mapM_nil, hcondition, hlevel, htext]
  decide +kernel

/-- The level that a condition compares with. -/
def levelProperty : DefinedProperty :=
  { name := "value", shape := .value .string none none (some levelValues),
    description := some "Enum Type: `Level`" }

/-- The text that a condition compares with. -/
def textProperty : DefinedProperty :=
  { name := "value", shape := .value .string none none none }

theorem stops_conditionWalk : conditionWalk.stops "Condition" "" none = [
    (.discriminator, none),
    (.input levelProperty, some (variantCondition "" "LevelCondition")),
    (.input textProperty, some (variantCondition "" "TextCondition"))] := by
  have hbelow : conditionWalk.hierarchy.concreteDescendants "Condition"
      = ["LevelCondition", "TextCondition"] := by
    show conditions.concreteDescendants "Condition" = _
    cbv
  have habove : conditions.ancestors "Condition" = [] ∧
      conditions.ancestors "LevelCondition" = ["Condition"] ∧
      conditions.ancestors "TextCondition" = ["Condition"] := by
    refine ⟨?_, ?_, ?_⟩ <;> cbv
  obtain ⟨hcondition, hlevel, htext⟩ := habove
  have hline (name : String) : conditionWalk.lineageInputs name
      = (conditions.ancestors name ++ [name]).flatMap conditionWalk.inputsOf := rfl
  unfold stops
  rw [hbelow]
  simp only [List.flatMap_cons, List.flatMap_nil, hline, hcondition, hlevel, htext]
  decide +kernel

/-- **The levels are what the value may be**, also where it is a text. -/
theorem not_allowsAll_conditionWalk :
    conditionWalk.Built ∧ EnumCatalog.ofDecls levels = .ok conditionWalk.declarations.enums ∧
      conditionWalk.hierarchy.isKnown "Condition" = true ∧
      ∃ e, conditionWalk.expand "Condition" = .ok e ∧ ∃ p ∈ e.parameters,
        p.name = "[value]" ∧ ¬ conditionWalk.AllowsAll "Condition" p := by
  have henums : EnumCatalog.ofDecls levels = .ok conditionWalk.declarations.enums := by
    decide +kernel
  have hknown : conditionWalk.hierarchy.isKnown "Condition" = true := by decide
  obtain ⟨e, he, hall⟩ := built_conditionWalk.enum_exact hknown henums
  have hsightings : conditionWalk.sightings "Condition" = [
      .parameter (discriminatorAt "" none ["LevelCondition", "TextCondition"]),
      .parameter {
        name := "[value]"
        enum := some levelValues
        description := some "Enum Type: `Level`"
        condition := some (variantCondition "" "LevelCondition") },
      .parameter {
        name := "[value]"
        condition := some (variantCondition "" "TextCondition") }] := by
    unfold sightings
    rw [built_conditionWalk.visit_full (by decide) (by decide)]
    show (conditionWalk.stops "Condition" "" none).flatMap _ = _
    rw [stops_conditionWalk]
    rfl
  have hexpand := built_conditionWalk.expand_eq hknown
  rw [hsightings] at hexpand
  obtain rfl := Except.ok.inj (he.symm.trans hexpand)
  obtain ⟨s, -, hnone, -, hiff⟩ := hall _ (List.mem_cons_of_mem _ List.mem_cons_self)
  refine ⟨built_conditionWalk, henums, hknown, _, he, _,
    List.mem_cons_of_mem _ List.mem_cons_self, rfl, fun hallows => ?_⟩
  rcases hiff.1 hallows with hfirst | hrestricted
  · exact nomatch hnone.2 hfirst
  · have htext : conditionWalk.Sights ⟨"Condition", ""⟩ none [2] ⟨⟨"Condition", ""⟩,
        .input textProperty, some (variantCondition "" "TextCondition")⟩ := by
      refine .here ⟨by decide, by decide⟩ ?_ fun _ h => nomatch h
      rw [stops_conditionWalk]
      rfl
    exact hrestricted [2] _ htext rfl rfl

end SwaggerForge.Flattening
