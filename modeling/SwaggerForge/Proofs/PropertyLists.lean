import SwaggerForge.Proofs.Polymorphism

/-!
# Which properties a definition lists

The properties of a definition come in three parts: the discriminator, the property that a filter
sorts by, and the declared ones. Whether the first two are there is decided by looking elsewhere,
at the classes below and at the names of the enumerations, and the second reaches into the third:
a declared `orderBy` without an enumeration of its own gets that of the filter, and none is added.

`ClassDecl.Listing` describes the list by the declarations alone, for every combination of these
circumstances. What counts of an enumeration is said by `EnumDecl.Offers`, and which one a filter
sorts by is said by `ClassDecl.SortedBy`. `Declarations.properties_exact` is the result: the
registry has one definition for each class, in order of declaration, and each of them lists what
the description of its class says.
-/

namespace SwaggerForge

/-! ## Enumerations by name -/

/-- What is in front of an ending, and the ending, are the whole text. -/
theorem textBefore?_eq_some_iff {ending text front : String} :
    textBefore? ending text = some front ↔ text = front ++ ending := by
  unfold textBefore?
  rw [Option.ite_none_right_eq_some, List.isSuffixOf_iff_suffix]
  constructor
  · rintro ⟨⟨start, hstart⟩, hfront⟩
    rw [← hstart, List.length_append, Nat.add_sub_cancel, List.take_left] at hfront
    rw [← Option.some.inj hfront, ← String.toList_inj, String.toList_append, String.toList_ofList,
      hstart]
  · rintro rfl
    rw [String.toList_append]
    refine ⟨List.suffix_append _ _, ?_⟩
    rw [List.length_append, Nat.add_sub_cancel, List.take_left, String.ofList_toList]

/-- **A filter is sorted by orders of its name.** -/
theorem orderByEnum?_eq_some_iff {className name : String} :
    orderByEnum? className = some name ↔
      ∃ stem, className = stem ++ "Filter" ∧ name = stem ++ "OrderBy" := by
  unfold orderByEnum?
  simp only [Option.map_eq_some_iff, textBefore?_eq_some_iff, eq_comm (b := name)]

/-- **What an enumeration offers**: the canonical options of the declaration that stands last
under its name. -/
def EnumDecl.Offers (decls : List EnumDecl) (name : String) (options : List EnumOption) : Prop :=
  ∃ d entry, decls.reverse.find? (·.name == name) = some d ∧ d.entry = .ok entry ∧
    options = entry.canonical

theorem EnumDecl.Offers.declared {decls : List EnumDecl} {name : String}
    {options : List EnumOption} (h : Offers decls name options) : name ∈ decls.map (·.name) := by
  obtain ⟨d, -, hd, -⟩ := h
  have hname : d.name = name := by simpa using List.find?_some hd
  exact List.mem_map.2 ⟨d, List.mem_reverse.1 (List.mem_of_find?_eq_some hd), hname⟩

namespace EnumCatalog

variable {decls : List EnumDecl} {enums : EnumCatalog} (h : ofDecls decls = .ok enums)
  {name : String}
include h

theorem canonical?_eq_some_iff {options : List EnumOption} :
    enums.canonical? name = some options ↔ EnumDecl.Offers decls name options := by
  obtain ⟨entries, hentries, rfl⟩ := ofDecls_eq_ok h
  have hlast := rel_find?_of_forall₂ (List.forall₂_reverse_iff.2 hentries)
    (p := (·.name == name)) (q := (·.1 == name)) fun d e he => by rw [he.1]
  show ((Table.ofList entries).get? name).map EnumEntry.canonical = _ ↔ _
  rw [Table.get?_ofList]
  unfold EnumDecl.Offers
  generalize decls.reverse.find? (·.name == name) = last at hlast ⊢
  generalize entries.reverse.find? (·.1 == name) = found at hlast ⊢
  cases hlast with
  | none => exact iff_of_false (fun heq => nomatch heq) fun ⟨_, _, hd, _⟩ => nomatch hd
  | @some d e hde =>
    constructor
    · exact fun heq => ⟨d, e.2, rfl, hde.2, (Option.some.inj heq).symm⟩
    · rintro ⟨d', entry, hd', hentry, rfl⟩
      obtain rfl := Option.some.inj hd'
      rw [← Except.ok.inj (hde.2.symm.trans hentry)]
      rfl

theorem values?_eq_some_iff {e : EnumValues} : enums.values? name = some e ↔
    ∃ options, EnumDecl.Offers decls name options ∧ e = .ofOptions name options := by
  unfold values?
  simp only [Option.map_eq_some_iff, canonical?_eq_some_iff h, eq_comm (b := e)]

theorem values?_eq_none_iff : enums.values? name = none ↔ name ∉ decls.map (·.name) := by
  unfold values? canonical?
  rw [Option.map_eq_none_iff, Option.map_eq_none_iff, ← contains_iff_of_ofDecls h]
  exact Table.get?_eq_none_iff.trans (not_congr Table.contains_iff).symm

end EnumCatalog

/-! ## What is listed -/

namespace ClassDecl

variable (h : Hierarchy) (decls : List EnumDecl) (c : ClassDecl)

/-- **The enumeration that a filter sorts by**: it is named like the class, with `OrderBy` for
`Filter`, and declared. -/
structure SortedBy (name : String) : Prop where
  renamed : ∃ stem, c.name = stem ++ "Filter" ∧ name = stem ++ "OrderBy"
  declared : name ∈ decls.map (·.name)

/-- **The values that a declared property allows**, as a value of a primitive type. -/
inductive Allows (p : Property) : Option EnumValues → Prop
  /-- They are those of an enumeration of its own. -/
  | own {name : String} {options : List EnumOption} (named : p.enumType = some name)
      (offered : EnumDecl.Offers decls name options) : Allows p (some (.ofOptions name options))
  /-- It has none, and is what a filter sorts by. -/
  | orders {name : String} {options : List EnumOption}
      (bare : ∀ own ∈ p.enumType, own ∉ decls.map (·.name)) (sorts : p.name = orderByName)
      (sorted : c.SortedBy decls name) (offered : EnumDecl.Offers decls name options) :
      Allows p (some (EnumValues.ofOptions name options).toStrings)
  /-- It has none, and nothing is sorted by it. -/
  | any (bare : ∀ own ∈ p.enumType, own ∉ decls.map (·.name))
      (other : p.name = orderByName → ∀ name, ¬ c.SortedBy decls name) : Allows p none

/-- **What a declared property is listed as.** -/
inductive ListsDeclared (p : Property) : DefinedProperty → Prop
  /-- An object of another class. -/
  | reference (object : Primitive.isName p.type = false) :
      ListsDeclared p { name := p.name, shape := .reference p.type, readOnly := p.readOnly }
  /-- A list of objects of another class. -/
  | referenceArray {element : String} (objects : p.HoldsObjects)
      (elements : p.arrayType = some element) :
      ListsDeclared p { name := p.name, shape := .referenceArray element, readOnly := p.readOnly }
  /-- A value of a primitive type. -/
  | value {type : Primitive} {items : Option Primitive} {default : Option Json}
      {enum : Option EnumValues} {description : Option String}
      (primitive : Primitive.ofName? p.type = some type) (noObjects : ¬ p.HoldsObjects)
      (allowed : c.Allows decls p enum) :
      ListsDeclared p {
        name := p.name, shape := .value type items default enum, readOnly := p.readOnly,
        description }

/-- **The discriminator** is listed exactly if something concrete is below. -/
inductive ListsVariants : List DefinedProperty → Prop
  | discriminator (below : h.HasConcrete c.name) : ListsVariants [{
      name := discriminatorName
      shape := .value .string none none (some (.ofVariants (h.lineup c)))
      discriminator := true }]
  | none (nothingBelow : ¬ h.HasConcrete c.name) : ListsVariants []

/-- **The property to sort by** is added exactly if the class is sorted and declares none. -/
inductive ListsOrders : List DefinedProperty → Prop
  | orderBy {name : String} {options : List EnumOption} (sorted : c.SortedBy decls name)
      (offered : EnumDecl.Offers decls name options)
      (undeclared : ∀ p ∈ c.properties, p.name ≠ orderByName) : ListsOrders [{
        name := orderByName
        shape := .value .string none none (some (EnumValues.ofOptions name options).toStrings) }]
  | none (noneNeeded : (∀ name, ¬ c.SortedBy decls name) ∨
      ∃ p ∈ c.properties, p.name = orderByName) : ListsOrders []

/-- **The properties of a class**: the discriminator, the property to sort by, and one for each
declared property, in order. -/
inductive Listing : List DefinedProperty → Prop
  | mk {variants orders declared : List DefinedProperty} (told : c.ListsVariants h variants)
      (sorted : c.ListsOrders decls orders)
      (each : List.Forall₂ (c.ListsDeclared decls) c.properties declared) :
      Listing (variants ++ orders ++ declared)

end ClassDecl

/-! ## What a definition is made of -/

namespace Declarations

variable {env : Declarations} {decls : List EnumDecl} {c : ClassDecl}

theorem listsVariants_discriminator :
    c.ListsVariants env.hierarchy (discriminator (env.variants c)) := by
  by_cases hbelow : env.hierarchy.HasConcrete c.name
  · have hne := env.hierarchy.hasConcrete_iff.1 hbelow
    have hvariants := variants_eq_lineup hne
    cases hlineup : env.hierarchy.lineup c with
    | nil => exact absurd (env.variants_eq_nil_iff.1 (hvariants.trans hlineup)) hne
    | cons v vs =>
      rw [hvariants, hlineup]
      have h := ClassDecl.ListsVariants.discriminator hbelow
      rwa [hlineup] at h
  · rw [env.variants_eq_nil_iff.2 (not_not.1 (mt env.hierarchy.hasConcrete_iff.2 hbelow))]
    exact .none hbelow

section Catalogue

variable (he : EnumCatalog.ofDecls decls = .ok env.enums)
include he

/-- **A filter has values to sort by** exactly if its orders are declared. -/
theorem orderBy?_eq_some_iff {e : EnumValues} : env.orderBy? c.name = some e ↔
    ∃ name options, c.SortedBy decls name ∧ EnumDecl.Offers decls name options ∧
      e = (EnumValues.ofOptions name options).toStrings := by
  unfold orderBy? EnumCatalog.stringValues?
  simp only [Option.bind_eq_some_iff, orderByEnum?_eq_some_iff, Option.map_eq_some_iff,
    EnumCatalog.values?_eq_some_iff he]
  constructor
  · rintro ⟨name, hrenamed, _, ⟨options, hoffers, rfl⟩, rfl⟩
    exact ⟨name, options, ⟨hrenamed, hoffers.declared⟩, hoffers, rfl⟩
  · rintro ⟨name, options, hsorted, hoffers, rfl⟩
    exact ⟨name, hsorted.renamed, _, ⟨options, hoffers, rfl⟩, rfl⟩

theorem orderBy?_eq_none_iff :
    env.orderBy? c.name = none ↔ ∀ name, ¬ c.SortedBy decls name := by
  unfold orderBy? EnumCatalog.stringValues?
  simp only [Option.bind_eq_none_iff, orderByEnum?_eq_some_iff, Option.map_eq_none_iff,
    EnumCatalog.values?_eq_none_iff he]
  exact forall_congr' fun name =>
    ⟨fun h hsorted => h hsorted.renamed hsorted.declared, fun h hrenamed hmem => h ⟨hrenamed, hmem⟩⟩

theorem listsOrders_addedOrderBy :
    c.ListsOrders decls (addedOrderBy c (env.orderBy? c.name)) := by
  have hdeclares : c.properties.any (·.name == orderByName) = true
      ↔ ∃ p ∈ c.properties, p.name = orderByName := by simp
  cases horder : env.orderBy? c.name with
  | none => exact .none (Or.inl ((orderBy?_eq_none_iff he).1 horder))
  | some values =>
    obtain ⟨name, options, hsorted, hoffers, rfl⟩ := (orderBy?_eq_some_iff he).1 horder
    unfold addedOrderBy
    dsimp only
    split
    · next hany => exact .none (Or.inr (hdeclares.1 hany))
    · next hnone =>
      exact .orderBy hsorted hoffers fun p hp hname => hnone (hdeclares.2 ⟨p, hp, hname⟩)

/-- **A declared value allows** the values of its own enumeration, if it has one that is declared,
and else those that the filter gives it. -/
theorem listsDeclared_value {p : Property} {type : Primitive}
    (hty : Primitive.ofName? p.type = some type) (hobjects : ¬ p.HoldsObjects)
    (items : Option Primitive) (default : Option Json) (description : Option String) :
    c.ListsDeclared decls p (withOrderBy (env.orderBy? c.name) {
      name := p.name
      shape := .value type items default (p.enumType.bind env.enums.values?)
      readOnly := p.readOnly
      description }) := by
  cases henum : p.enumType.bind env.enums.values? with
  | some e =>
    obtain ⟨name, hnamed, hvalues⟩ := Option.bind_eq_some_iff.1 henum
    obtain ⟨options, hoffers, rfl⟩ := (EnumCatalog.values?_eq_some_iff he).1 hvalues
    exact .value hty hobjects (.own hnamed hoffers)
  | none =>
    have hbare : ∀ own ∈ p.enumType, own ∉ decls.map (·.name) := fun own hown =>
      (EnumCatalog.values?_eq_none_iff he).1 (Option.bind_eq_none_iff.1 henum own hown)
    by_cases hsorts : p.name = orderByName
    · have hgiven : c.Allows decls p (env.orderBy? c.name) := by
        cases horder : env.orderBy? c.name with
        | none => exact .any hbare fun _ => (orderBy?_eq_none_iff he).1 horder
        | some values =>
          obtain ⟨name, options, hsorted, hoffers, rfl⟩ := (orderBy?_eq_some_iff he).1 horder
          exact .orders hbare hsorts hsorted hoffers
      unfold withOrderBy
      dsimp only
      rw [if_pos hsorts]
      exact .value hty hobjects hgiven
    · rw [withOrderBy_of_ne hsorts]
      exact .value hty hobjects (.any hbare fun h => absurd h hsorts)

theorem DefinedAs.listsDeclared {p : Property} {q : DefinedProperty} (h : env.DefinedAs c p q) :
    c.ListsDeclared decls p (withOrderBy (env.orderBy? c.name) q) := by
  cases h with
  | @reference target type =>
    have hobject := (env.hierarchy.exists_reference_iff type).1 ⟨target, rfl⟩
    obtain rfl := env.hierarchy.eq_of_resolve type
    exact .reference hobject
  | @referenceArray ty target type element =>
    have hty := env.hierarchy.ofName?_of_resolve type
    have hobjects := (env.exists_elementOf_iff hty element).1 ⟨target, rfl⟩
    obtain ⟨-, name, hname, hmeant⟩ := elementOf_eq_some element
    obtain rfl := env.hierarchy.eq_of_resolve hmeant
    exact .referenceArray hobjects hname
  | @value ty element default type items noReference literal =>
    have hty := env.hierarchy.ofName?_of_resolve type
    have hobjects : ¬ p.HoldsObjects := fun h => by
      obtain ⟨target, htarget⟩ := (env.exists_elementOf_iff hty items).2 h
      exact noReference target htarget
    exact listsDeclared_value he hty hobjects (itemType? element) default _

/-- **The definition of a class** lists what the class says. -/
theorem listing_of_define {d : Definition} (hd : (env.define c).result = .ok d) :
    d.name = c.name ∧ c.Listing env.hierarchy decls d.properties := by
  obtain ⟨declared, hdeclared, rfl⟩ := env.define_eq_ok hd
  refine ⟨rfl, .mk listsVariants_discriminator (listsOrders_addedOrderBy he) ?_⟩
  exact List.forall₂_map_right_iff.2 (hdeclared.imp fun p q hpq => hpq.listsDeclared he)

end Catalogue

/-- **Definitions list exactly the right properties.** The registry has one definition for each
class, in order of declaration, and its properties are the discriminator if something concrete is
below the class, the property to sort by if the class is a sorted filter that declares none, and
those declared, with the values that they allow. -/
theorem properties_exact {root : String} {classes : List ClassDecl} {hierarchy : Hierarchy}
    {enums : EnumCatalog} {defs : DefinitionSet}
    (hh : Hierarchy.ofClasses root classes = .ok hierarchy)
    (he : EnumCatalog.ofDecls decls = .ok enums)
    (hdefs : (Declarations.mk hierarchy enums).defineAll.result = .ok defs) :
    List.Forall₂ (fun c e => e.1 = c.name ∧ e.2.name = c.name ∧
      c.Listing hierarchy decls e.2.properties) classes defs.definitions.entries := by
  obtain ⟨-, entries, hentries, htable⟩ := defineAll_eq_ok hdefs
  have hnames : (entries.map Prod.fst).Nodup := by
    rw [names_of_forall₂ hentries]
    exact hierarchy.names_nodup
  rw [htable, Table.ofList_of_nodup hnames, ← (Hierarchy.root_and_classes_of_ofClasses hh).2]
  exact hentries.imp fun c e hce => ⟨hce.1, listing_of_define he hce.2⟩

/-! ## An example

Images are searched with a filter of their own, which refines that for all media. It declares what
it is sorted by, and the other one does not. -/

/-- The filters of the example. -/
def filters : Hierarchy where
  root := "Object"
  classes := [
    { name := "MediaFilter", properties := [{ name := "title", type := "string" }] },
    { name := "ImageFilter", base := some "MediaFilter",
      properties := [{ name := "orderBy", type := "string", enumType := some "Missing" }] }]
  names_nodup := by decide
  root_not_mem := by decide
  base_mem := by decide

/-- Their orders. -/
def filterOrders : List EnumDecl := [
  { name := "MediaOrderBy", constants := [{ name := "BY_NAME", value := "+name" }] },
  { name := "ImageOrderBy", kind := .int, constants := [{ name := "BY_SIZE", value := "1" }] }]

theorem properties_exact_filters : ∃ enums defs,
    Hierarchy.ofClasses "Object" filters.classes = .ok filters ∧
    EnumCatalog.ofDecls filterOrders = .ok enums ∧
    (Declarations.mk filters enums).defineAll.result = .ok defs ∧
    List.Forall₂ (fun c e => e.1 = c.name ∧ e.2.name = c.name ∧
      c.Listing filters filterOrders e.2.properties) filters.classes defs.definitions.entries := by
  have hh : Hierarchy.ofClasses "Object" filters.classes = .ok filters := rfl
  obtain ⟨enums, he⟩ : Passes (EnumCatalog.ofDecls filterOrders) :=
    EnumCatalog.passes_ofDecls.2 (by decide)
  obtain ⟨defs, hdefs⟩ : Passes (Declarations.mk filters enums).defineAll.result := by
    refine (passes_defineAll _).2 ?_
    show ∀ c ∈ filters.classes, ∀ p ∈ c.properties, p.WellTyped (filters.isKnown · = true)
    decide
  exact ⟨enums, defs, hh, he, hdefs, properties_exact hh he hdefs⟩

end Declarations

end SwaggerForge
