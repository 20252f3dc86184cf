import SwaggerForge.Proofs.Acceptance
import SwaggerForge.Proofs.FileTypes

/-!
# Polymorphism in definitions

A class with a concrete class below it is polymorphic: an object of its type may be of
several classes, its **lineup** – the class itself unless it is abstract, and the concrete
classes below it. The definition of the class names the lineup twice, in the references
under `anyOf` and in the values of the discriminator property, and a reader who has only
the document relies on both being the same list, without repetition and without a name that
has no definition.

`Declarations.variants_exact` says that this is so, for the registry of definitions and for
the finished document, up to one exception which it makes exact. The properties of a
definition are written by name into one object, the discriminator before the declared ones.
A declared property of its name takes its place, and the values agree only if that property
happens to restate them.
-/

namespace SwaggerForge

/-! ## Lineups -/

namespace Hierarchy

variable (h : Hierarchy)

/-- **The lineup of a class**: itself unless it is abstract, and the concrete classes below
it. -/
def lineup (c : ClassDecl) : List String :=
  (if c.abstract then [] else [c.name]) ++ h.concreteDescendants c.name

theorem nodup_lineup (c : ClassDecl) : (h.lineup c).Nodup := by
  obtain ⟨hself, hbelow⟩ := List.nodup_cons.1 (h.nodup_descendants c.name)
  unfold lineup
  split
  · exact hbelow.filter _
  · exact List.nodup_cons.2
      ⟨fun hmem => hself (h.mem_descendants_of_mem_concrete hmem), hbelow.filter _⟩

/-- **A lineup names classes.** -/
theorem mem_names_of_mem_lineup {c : ClassDecl} (hc : c ∈ h.classes) {v : String}
    (hv : v ∈ h.lineup c) : v ∈ h.names := by
  rcases List.mem_append.1 hv with hself | hbelow
  · split at hself
    · cases hself
    · rw [List.mem_singleton.1 hself]
      exact List.mem_map.2 ⟨c, hc, rfl⟩
  · exact h.mem_names_of_mem_concrete hbelow

end Hierarchy

/-! ## What schemas show -/

namespace Json

/-- **A schema that tells variants apart**, and names them. -/
structure TellsApart (s : Json) (abstract : Bool) (variants : List String) : Prop where
  discriminator : s.field? "discriminator" = some (.string discriminatorName)
  anyOf : s.field? "anyOf" = some (.array (variants.map definitionRef))
  abstract : s.field? "x-abstract" = some (.bool abstract)

/-- The fields of a schema that say that there are variants. -/
def variantKeys : List String := ["discriminator", "anyOf", "x-abstract"]

/-- **A schema whose discriminator takes the names of variants**: it is a string, and they
are its values. -/
def OffersVariants (s : Json) (variants : List String) : Prop :=
  ∃ p, (s.field? "properties").bind (·.field? discriminatorName) = some p ∧
    p.field? "type" = some Primitive.string.toJson ∧ p.field? "enum" = some (.strings variants)

end Json

open Json

theorem Primitive.toJson_inj {ty ty' : Primitive} : ty.toJson = ty'.toJson ↔ ty = ty' := by
  refine ⟨fun h => ?_, congrArg toJson⟩
  have hkeyword : ty.keyword = ty'.keyword := Json.string.inj h
  cases ty <;> cases ty' <;> first | rfl | exact absurd hkeyword (by decide)

namespace Definition

variable {d : Definition}

theorem tellsApart_toJson (h : d.isPolymorphic = true) :
    d.toJson.TellsApart d.abstract d.variants := by
  unfold toJson
  rw [if_pos h]
  cases d.base <;> exact ⟨rfl, rfl, rfl⟩

theorem field?_toJson_eq_none (h : d.isPolymorphic = false) {key : String}
    (hkey : key ∈ variantKeys) : d.toJson.field? key = none := by
  have hnames : ∀ e ∈ [("title", Json.string d.name), ("type", Primitive.object.toJson),
      ("properties", .object (Table.ofList (d.properties.map fun p => (p.name, p.toJson))))]
      ++ optional "allOf" (d.base.map fun b => .array [definitionRef b])
      ++ optional "description" (d.description.map .string),
      e.1 ∈ ["title", "type", "properties", "allOf", "description"] := by
    simp only [List.forall_mem_append, List.forall_mem_cons, forall_mem_optional]
    exact ⟨⟨⟨by decide, by decide, by decide, List.forall_mem_nil _⟩, fun _ _ => by simp⟩,
      fun _ _ => by simp⟩
  have hfree : key ∉ ["title", "type", "properties", "allOf", "description"] := by
    have hall : ∀ key ∈ variantKeys,
        key ∉ ["title", "type", "properties", "allOf", "description"] := by decide
    exact hall key hkey
  unfold toJson
  rw [if_neg (Bool.eq_false_iff.1 h), List.append_nil]
  exact field?_fields_eq_none hnames hfree

/-- **Under a name stands the last property that has it.** -/
theorem field?_properties_toJson (d : Definition) (name : String) :
    (d.toJson.field? "properties").bind (·.field? name)
      = (d.properties.reverse.find? (·.name == name)).map DefinedProperty.toJson := by
  show (Table.ofList (d.properties.map fun p => (p.name, p.toJson))).get? name = _
  rw [Table.get?_ofList, ← List.map_reverse, List.find?_map, Option.map_map]
  rfl

end Definition

namespace DefinedProperty

variable {q : DefinedProperty} {vs : List String} {shown : Primitive → Primitive}

/-- **A property that takes the names of variants**, its type being shown as a string. -/
def Offers (shown : Primitive → Primitive) (q : DefinedProperty) (vs : List String) : Prop :=
  ∃ ty items default e, q.shape = .value ty items default (some e) ∧ shown ty = .string ∧
    e.values = vs.map .string

theorem field?_toJson_of_value {ty : Primitive} {items : Option Primitive}
    {default : Option Json} {enum : Option EnumValues}
    (hq : q.shape = .value ty items default enum) :
    q.toJson.field? "type" = some ty.toJson ∧
      q.toJson.field? "enum" = (enum.bind fun e =>
        if q.discriminator ∨ e.values ≠ [] then some (.array e.values) else none) := by
  unfold toJson
  rw [hq]
  refine ⟨rfl, ?_⟩
  dsimp only
  cases enum with
  | none => cases items <;> cases q.readOnly <;> cases default <;> cases q.description <;> rfl
  | some e =>
    dsimp only [Option.bind_some]
    by_cases hdisc : q.discriminator = true
    · rw [if_pos hdisc, if_pos (Or.inl hdisc)]
      cases items <;> cases q.readOnly <;> cases default <;> rfl
    · rw [if_neg hdisc]
      unfold EnumValues.fields
      by_cases hvalues : e.values = []
      · rw [if_pos hvalues, if_neg (not_or.2 ⟨hdisc, not_not.2 hvalues⟩)]
        cases items <;> cases q.readOnly <;> cases default <;> cases e.enumType <;>
          cases q.description <;> rfl
      · rw [if_neg hvalues, if_pos (Or.inr hvalues)]
        cases items <;> cases q.readOnly <;> cases default <;> rfl

/-- **What is written of a property takes the names of variants** exactly when the property
does. -/
theorem offers_iff {f : Json → Json} (hf : ∀ ty : Primitive, f ty.toJson = (shown ty).toJson)
    (hvs : vs ≠ []) :
    ((q.toJson.field? "type").map f = some Primitive.string.toJson ∧
      q.toJson.field? "enum" = some (.strings vs)) ↔ q.Offers shown vs := by
  constructor
  · rintro ⟨htype, henum⟩
    cases hshape : q.shape with
    | reference target =>
      unfold toJson at henum
      rw [hshape] at henum
      cases henum
    | referenceArray target =>
      unfold toJson at henum
      rw [hshape] at henum
      cases henum
    | value ty items default enum =>
      obtain ⟨hty, he⟩ := field?_toJson_of_value hshape
      rw [hty] at htype
      rw [he] at henum
      obtain ⟨e, rfl, hvalues⟩ := Option.bind_eq_some_iff.1 henum
      refine ⟨ty, items, default, e, hshape, ?_, ?_⟩
      · exact Primitive.toJson_inj.1 ((hf ty).symm.trans (Option.some.inj htype))
      · split at hvalues
        · exact Json.array.inj (Option.some.inj hvalues)
        · cases hvalues
  · rintro ⟨ty, items, default, e, hshape, hshown, hvalues⟩
    obtain ⟨hty, he⟩ := field?_toJson_of_value hshape
    have hne : e.values ≠ [] := by rwa [hvalues, ne_eq, List.map_eq_nil_iff]
    rw [hty, he, Option.bind_some, if_pos (Or.inr hne), hvalues, Option.map_some, hf, hshown]
    exact ⟨rfl, rfl⟩

end DefinedProperty

/-! ## What a class shows -/

/-- The declared property that stands last under a name. -/
def ClassDecl.lastDeclared? (c : ClassDecl) (name : String) : Option Property :=
  c.properties.reverse.find? (·.name == name)

namespace Declarations

variable (env : Declarations) (shown : Primitive → Primitive)

/-- **A declared property that restates variants**: its type is shown as a string, and the
values of its enumeration are their names. -/
def Restates (p : Property) (vs : List String) : Prop :=
  ∃ ty e, Primitive.ofName? p.type = some ty ∧ shown ty = .string ∧
    p.enumType.bind env.enums.values? = some e ∧ e.values = vs.map .string

/-- **What a schema shows of the classes below a class.** It tells variants apart exactly
where something concrete is below, and then its discriminator takes their names unless a
declared property of that name stands in its place that does not restate them. -/
structure Shows (c : ClassDecl) (s : Json) : Prop where
  tellsApart : env.hierarchy.HasConcrete c.name →
    s.TellsApart c.abstract (env.hierarchy.lineup c)
  plain : ¬ env.hierarchy.HasConcrete c.name → ∀ key ∈ variantKeys, s.field? key = none
  offers : env.hierarchy.HasConcrete c.name →
    (s.OffersVariants (env.hierarchy.lineup c) ↔ ∀ p,
      c.lastDeclared? discriminatorName = some p →
        env.Restates shown p (env.hierarchy.lineup c))

variable {env shown}

theorem DefinedAs.offers_iff (harray : shown .array ≠ .string) {c : ClassDecl} {p : Property}
    {q : DefinedProperty} (h : env.DefinedAs c p q) {vs : List String} :
    q.Offers shown vs ↔ env.Restates shown p vs := by
  cases h with
  | reference type =>
    refine ⟨fun ⟨_, _, _, _, hshape, _⟩ => (nomatch hshape), fun ⟨ty, _, hty, _⟩ => ?_⟩
    have hnone := (env.hierarchy.isReference_iff.1 (env.hierarchy.isReference_of_resolve type)).1
    rw [env.hierarchy.eq_of_resolve type, hty] at hnone
    cases hnone
  | @referenceArray ty' target type element =>
    refine ⟨fun ⟨_, _, _, _, hshape, _⟩ => (nomatch hshape), fun ⟨ty, _, hty, hshown, _⟩ => ?_⟩
    rw [env.hierarchy.ofName?_of_resolve type] at hty
    obtain rfl := Option.some.inj hty
    obtain ⟨rfl, -⟩ := elementOf_eq_some element
    exact absurd hshown harray
  | @value ty' element default type items noReference literal =>
    have hty := env.hierarchy.ofName?_of_resolve type
    constructor
    · rintro ⟨ty, _, _, e, hshape, hshown, hvalues⟩
      obtain ⟨rfl, -, -, he⟩ := Shape.value.inj hshape
      exact ⟨ty', e, hty, hshown, he, hvalues⟩
    · rintro ⟨ty, e, hty', hshown, he, hvalues⟩
      obtain rfl := Option.some.inj (hty.symm.trans hty')
      exact ⟨ty', itemType? element, default, e, congrArg _ he, hshown, hvalues⟩

theorem withOrderBy_of_ne {orderBy : Option EnumValues} {q : DefinedProperty}
    (h : q.name ≠ orderByName) : withOrderBy orderBy q = q := by
  unfold withOrderBy
  split
  · rw [if_neg h]
  · rfl

theorem variants_eq_lineup {c : ClassDecl}
    (hne : env.hierarchy.concreteDescendants c.name ≠ []) :
    env.variants c = env.hierarchy.lineup c := by
  unfold variants Hierarchy.lineup
  cases h : env.hierarchy.concreteDescendants c.name with
  | nil => exact absurd h hne
  | cons d below => rfl

/-- **The property that stands under the name of the discriminator** is the declared one, if
there is one, and else the discriminator. -/
theorem find?_discriminator {c : ClassDecl} {d : Definition}
    (hd : (env.define c).result = .ok d) :
    (∃ p q, c.lastDeclared? discriminatorName = some p ∧ env.DefinedAs c p q ∧
      d.properties.reverse.find? (·.name == discriminatorName) = some q) ∨
    c.lastDeclared? discriminatorName = none ∧
      d.properties.reverse.find? (·.name == discriminatorName)
        = (discriminator (env.variants c)).reverse.find? (·.name == discriminatorName) := by
  obtain ⟨declared, hdec, rfl⟩ := env.define_eq_ok hd
  have hlast := rel_find?_of_forall₂ (List.forall₂_reverse_iff.2 hdec)
    (p := (·.name == discriminatorName)) (q := (·.name == discriminatorName))
    fun p q hpq => by rw [hpq.name_eq]
  have hmapped : (declared.map (withOrderBy (env.orderBy? c.name))).reverse.find?
        (·.name == discriminatorName)
      = (declared.reverse.find? (·.name == discriminatorName)).map
          (withOrderBy (env.orderBy? c.name)) := by
    rw [← List.map_reverse, List.find?_map]
    refine congrArg (fun f => (declared.reverse.find? f).map _) (funext fun q => ?_)
    rw [Function.comp_apply, name_withOrderBy]
  have hadded : (addedOrderBy c (env.orderBy? c.name)).reverse.find?
      (·.name == discriminatorName) = none := by
    refine List.find?_eq_none.2 fun q hq => ?_
    rw [name_of_mem_addedOrderBy (List.mem_reverse.1 hq)]
    decide
  show (∃ p q, c.properties.reverse.find? _ = some p ∧ _ ∧
      (_ ++ _ ++ declared.map _).reverse.find? _ = some q) ∨
    c.properties.reverse.find? _ = none ∧ (_ ++ _ ++ declared.map _).reverse.find? _ = _
  rw [List.reverse_append, List.reverse_append, List.find?_append, List.find?_append, hmapped,
    hadded]
  generalize hp : c.properties.reverse.find? (·.name == discriminatorName) = last at hlast ⊢
  generalize hq : declared.reverse.find? (·.name == discriminatorName) = found at hlast ⊢
  cases hlast with
  | none => exact Or.inr ⟨rfl, rfl⟩
  | @some p q hpq =>
    have hname : q.name = discriminatorName := by simpa using List.find?_some hq
    have hne : q.name ≠ orderByName := by
      rw [hname]
      decide
    refine Or.inl ⟨p, q, rfl, hpq, ?_⟩
    rw [Option.map_some, withOrderBy_of_ne hne]
    rfl

section Pass

variable {c : ClassDecl} {d : Definition} {s : Json} {f g : Json → Json}
  (hf : ∀ ty : Primitive, f ty.toJson = (shown ty).toJson)
  (hproperty : (s.field? "properties").bind (·.field? discriminatorName)
    = ((d.toJson.field? "properties").bind (·.field? discriminatorName)).map g)
  (htype : ∀ j, (g j).field? "type" = (j.field? "type").map f)
  (henum : ∀ j, (g j).field? "enum" = j.field? "enum")
include hf hproperty htype henum

/-- What a schema offers is what the property offers that stands under the name of the
discriminator. -/
theorem offersVariants_iff {q : DefinedProperty}
    (hq : d.properties.reverse.find? (·.name == discriminatorName) = some q) {vs : List String}
    (hvs : vs ≠ []) : s.OffersVariants vs ↔ q.Offers shown vs := by
  unfold OffersVariants
  rw [hproperty, d.field?_properties_toJson, hq, ← DefinedProperty.offers_iff hf hvs]
  constructor
  · rintro ⟨p, hp, hboth⟩
    obtain rfl := Option.some.inj hp
    rwa [htype, henum] at hboth
  · intro hboth
    refine ⟨g q.toJson, rfl, ?_⟩
    rwa [htype, henum]

/-- **The definition of a class**, passed through a pass that keeps the fields for variants
and changes no more of a property than its type, shows what is below the class. -/
theorem shows_of_define (hd : (env.define c).result = .ok d) (harray : shown .array ≠ .string)
    (hstring : shown .string = .string)
    (hkeys : ∀ key ∈ variantKeys, s.field? key = d.toJson.field? key) : env.Shows shown c s := by
  have hpoly : d.isPolymorphic = true ↔ env.hierarchy.HasConcrete c.name := by
    unfold Definition.isPolymorphic
    rw [env.variants_eq hd, Bool.not_eq_true', List.isEmpty_eq_false_iff, ne_eq,
      env.variants_eq_nil_iff, env.hierarchy.hasConcrete_iff]
  refine ⟨fun hbelow => ?_, fun hbelow key hkey => ?_, fun hbelow => ?_⟩
  · have htells := Definition.tellsApart_toJson (hpoly.2 hbelow)
    rw [env.variants_eq hd, variants_eq_lineup (env.hierarchy.hasConcrete_iff.1 hbelow)]
      at htells
    have habstract : d.abstract = c.abstract := by
      obtain ⟨declared, -, rfl⟩ := env.define_eq_ok hd
      rfl
    rw [habstract] at htells
    exact ⟨(hkeys _ (by decide)).trans htells.discriminator,
      (hkeys _ (by decide)).trans htells.anyOf, (hkeys _ (by decide)).trans htells.abstract⟩
  · rw [hkeys key hkey]
    exact Definition.field?_toJson_eq_none (Bool.eq_false_iff.2 (mt hpoly.1 hbelow)) hkey
  · have hne := env.hierarchy.hasConcrete_iff.1 hbelow
    have hlineup : env.hierarchy.lineup c ≠ [] := by
      rw [← variants_eq_lineup hne, ne_eq, env.variants_eq_nil_iff]
      exact hne
    rcases find?_discriminator hd with ⟨p, q, hp, hpq, hq⟩ | ⟨hp, hq⟩
    · rw [offersVariants_iff hf hproperty htype henum hq hlineup, hp, hpq.offers_iff harray]
      exact ⟨fun h p' hp' => Option.some.inj hp' ▸ h, fun h => h p rfl⟩
    · rw [hp]
      refine iff_of_true ?_ fun p hp => nomatch hp
      unfold discriminator at hq
      rw [variants_eq_lineup hne] at hq
      split at hq
      · next hnil => exact absurd hnil hlineup
      · exact (offersVariants_iff hf hproperty htype henum hq hlineup).2
          ⟨.string, none, none, _, rfl, hstring, rfl⟩

end Pass

/-! ## The registry and the finished document -/

theorem nodup_keys_definitions {defs : DefinitionSet} (h : env.defineAll.result = .ok defs) :
    defs.definitions.keys.Nodup := by
  obtain ⟨-, entries, -, hdefs⟩ := defineAll_eq_ok h
  rw [hdefs]
  exact Table.nodup_keys_ofList entries

/-- **The section of definitions holds the definition of every class.** -/
theorem get?_toTable {defs : DefinitionSet} (h : env.defineAll.result = .ok defs)
    {c : ClassDecl} (hc : c ∈ env.hierarchy.classes) :
    ∃ d, (env.define c).result = .ok d ∧ defs.toTable.get? c.name = some d.toJson := by
  obtain ⟨d, hget⟩ := exists_definition h (List.mem_map.2 ⟨c, hc, rfl⟩)
  obtain ⟨c', hc', hname, hd⟩ := (get?_eq_some_iff h).1 hget
  obtain rfl := List.inj_on_of_nodup_map env.hierarchy.names_nodup hc' hc hname
  refine ⟨d, hd, Table.get?_insertAll_of_mem ?_ (List.mem_cons_of_mem _ ?_)⟩
  · show (defs.root :: (defs.definitions.map Definition.toJson).keys).Nodup
    rw [Table.keys_map]
    refine List.nodup_cons.2 ⟨fun hroot => ?_, nodup_keys_definitions h⟩
    rw [keys_definitions h, root_eq h] at hroot
    exact env.hierarchy.root_not_mem hroot
  · exact Table.mem_entries_map.2 ⟨d, Table.mem_entries_of_get? hget, rfl⟩

end Declarations

/-- **The envelope takes no definition away.** -/
theorem get?_definitionSection {config : Config} {apiVersion : String} {defs : DefinitionSet}
    {t : Table Json} (h : definitionSection config apiVersion defs = .ok t) {name : String}
    (hname : name ∈ defs.toTable.keys) : t.get? name = defs.toTable.get? name := by
  unfold definitionSection at h
  dsimp only at h
  split at h
  · rw [← Except.ok.inj h]
  · split at h
    · cases h
    · next hfree =>
      have hne : name ≠ envelopeName := fun e => hfree (Table.contains_iff.2 (e ▸ hname))
      rw [← Except.ok.inj h, Table.get?_insert, if_neg hne]

/-- **A finished definition** has no uploads in it and its hints on it. -/
theorem Document.get?_definitions_finish (d : Document) (config : Config) (name : String) :
    (d.finish config).definitions.get? name = (d.definitions.get? name).map fun j =>
      Hint.nested (Hint.sources config d.removeFileTypes.promoteUploads.paths) j.withoutFiles := by
  show ((d.definitions.map withoutFiles).map (Hint.nested _)).get? name = _
  rw [Table.get?_map, Table.get?_map, Option.map_map]
  rfl

namespace Declarations

open Hint in
/-- What is shown of variants is still shown when uploads are removed and hints are put on. -/
theorem shows_finished {env : Declarations} {c : ClassDecl} {d : Definition}
    (hd : (env.define c).result = .ok d) (sources : List Source) :
    env.Shows Primitive.valueType c (nested sources d.toJson.withoutFiles) := by
  have hother : ∀ key ∈ variantKeys, key ≠ "items" ∧ key ≠ "properties" ∧ key ∉ schemaKeys := by
    decide
  have hsame : fieldWithoutFiles "enum" = id := rfl
  refine shows_of_define (f := fieldWithoutFiles "type")
    (g := fun j => hinted sources none discriminatorName j.withoutFiles)
    (fun ty => ?_) ?_ (fun j => ?_) (fun j => ?_) hd (by decide) rfl fun key hkey => ?_
  · cases ty <;> rfl
  · rw [field?_nested, field?_withoutFiles]
    cases d.toJson.field? "properties" with
    | none => rfl
    | some x =>
      show (properties sources none (propertiesWithoutFiles x)).field? discriminatorName = _
      rw [field?_properties, field?_propertiesWithoutFiles, Option.map_map]
      rfl
  · rw [field?_hinted sources none (by decide), field?_withoutFiles]
  · rw [field?_hinted sources none (by decide), field?_withoutFiles, hsame, Option.map_id]
    rfl
  · obtain ⟨hitems, hproperties, hschema⟩ := hother key hkey
    rw [field?_nested, field?_withoutFiles, schemaField_eq_id sources none hitems hproperties,
      fieldWithoutFiles_eq_id hschema, Option.map_id]
    rfl

/-- **Variants are shown consistently**, in the registry of definitions and in the finished
document, for every class of a schema. The lineup has no repetition and every name in it a
definition, `anyOf` refers to exactly the lineup, and so does the discriminator – where no
declared property takes its place. -/
theorem variants_exact {config : Config} {schema : Schema} {hierarchy : Hierarchy}
    {enums : EnumCatalog} {defs : DefinitionSet}
    (hh : Hierarchy.ofClasses config.rootClass schema.classes = .ok hierarchy)
    (he : EnumCatalog.ofDecls schema.enums = .ok enums)
    (hdefs : (Declarations.mk hierarchy enums).defineAll.result = .ok defs)
    {c : ClassDecl} (hc : c ∈ schema.classes) :
    (hierarchy.lineup c).Nodup ∧
    (∀ v ∈ hierarchy.lineup c, v ∈ defs.toTable.keys) ∧
    (∃ s, defs.toTable.get? c.name = some s ∧
      (Declarations.mk hierarchy enums).Shows id c s) ∧
    ∀ d, (compile config schema).result = .ok d →
      (∀ v ∈ hierarchy.lineup c, v ∈ d.definitions.keys) ∧
      ∃ s, d.definitions.get? c.name = some s ∧
        (Declarations.mk hierarchy enums).Shows Primitive.valueType c s := by
  rw [← (Hierarchy.root_and_classes_of_ofClasses hh).2] at hc
  obtain ⟨definition, hd, hget⟩ := get?_toTable hdefs hc
  have hkeys : ∀ v ∈ hierarchy.lineup c, v ∈ defs.toTable.keys := fun v hv =>
    (mem_keys_toTable hdefs).2
      (hierarchy.isKnown_of_mem_names (hierarchy.mem_names_of_mem_lineup hc hv))
  refine ⟨hierarchy.nodup_lineup c, hkeys, ⟨_, hget, ?_⟩, fun d hok => ?_⟩
  · have hid {α : Type} (x : Option α) : x = x.map id := (congrFun Option.map_id x).symm
    exact shows_of_define (f := id) (g := id) (fun _ => rfl) (hid _) (fun _ => hid _)
      (fun _ => rfl) hd (by decide) rfl fun _ _ => rfl
  · obtain ⟨ctx, definitions, operations, hctx, hsection, -, rfl⟩ := compile_eq_ok hok
    have hof := OperationContext.of_ofSchema hctx
    have hsame : ctx.declarations = ⟨hierarchy, enums⟩ := by
      show Declarations.mk ctx.hierarchy ctx.declarations.enums = _
      rw [Except.ok.inj (hof.hierarchy.symm.trans hh), Except.ok.inj (hof.enums.symm.trans he)]
    have hbuilt := hof.built
    rw [hsame, hdefs] at hbuilt
    rw [← Except.ok.inj hbuilt] at hsection
    have hin (name : String) (hname : name ∈ defs.toTable.keys) : name ∈ definitions.keys := by
      rw [Table.mem_keys_iff_get?, get?_definitionSection hsection hname]
      exact Table.mem_keys_iff_get?.1 hname
    have hfinished := Document.get?_definitions_finish
      (SwaggerForge.assemble schema ctx definitions operations) config c.name
    change _ = (definitions.get? c.name).map _ at hfinished
    rw [get?_definitionSection hsection (Table.mem_keys_iff_get?.2 ⟨_, hget⟩), hget,
      Option.map_some] at hfinished
    refine ⟨fun v hv => ?_, _, hfinished, shows_finished hd _⟩
    rw [Document.keys_definitions_finish]
    exact hin v (hkeys v hv)

/-! ## An example

An animal keeps a number under the name of the discriminator, and a dog is an animal. -/

/-- The animal of the example. -/
def numberedAnimal : ClassDecl where
  name := "Animal"
  properties := [{ name := "objectType", type := "int" }]

/-- The classes of the example. -/
def kennel : Hierarchy where
  root := "Object"
  classes := [numberedAnimal, { name := "Dog", base := some "Animal" }]
  names_nodup := by decide
  root_not_mem := by decide
  base_mem := by decide

theorem concreteDescendants_kennel : kennel.concreteDescendants "Animal" = ["Dog"] := by
  have hbelow : kennel.descendants "Animal" = ["Dog"] := by cbv
  unfold Hierarchy.concreteDescendants
  rw [hbelow]
  rfl

/-- **The number takes the place of the discriminator**: the definition of the animal refers
to both variants, and no property has their names for values. -/
theorem not_offersVariants_kennel : ∃ defs s,
    Hierarchy.ofClasses "Object" kennel.classes = .ok kennel ∧
    (Declarations.mk kennel ⟨∅⟩).defineAll.result = .ok defs ∧
    defs.toTable.get? "Animal" = some s ∧
    s.TellsApart false ["Animal", "Dog"] ∧ ¬ s.OffersVariants ["Animal", "Dog"] := by
  have hh : Hierarchy.ofClasses "Object" kennel.classes = .ok kennel := rfl
  obtain ⟨defs, hdefs⟩ : Passes (Declarations.mk kennel ⟨∅⟩).defineAll.result := by
    refine (passes_defineAll _).2 ?_
    show ∀ c ∈ kennel.classes, ∀ p ∈ c.properties, p.WellTyped (kennel.isKnown · = true)
    decide
  obtain ⟨-, -, ⟨s, hget, hshows⟩, -⟩ := @variants_exact { rootClass := "Object" }
    { apiVersion := "1.0", classes := kennel.classes } kennel ⟨∅⟩ defs hh rfl hdefs
    numberedAnimal List.mem_cons_self
  have hconcrete : kennel.HasConcrete numberedAnimal.name := by
    refine kennel.hasConcrete_iff.2 ?_
    show kennel.concreteDescendants "Animal" ≠ []
    rw [concreteDescendants_kennel]
    exact List.cons_ne_nil _ _
  have hlineup : kennel.lineup numberedAnimal = ["Animal", "Dog"] := by
    show ["Animal"] ++ kennel.concreteDescendants "Animal" = _
    rw [concreteDescendants_kennel]
    rfl
  have htells := hshows.tellsApart hconcrete
  have hoffers := hshows.offers hconcrete
  rw [hlineup] at htells hoffers
  refine ⟨defs, s, hh, hdefs, hget, htells, fun h => ?_⟩
  obtain ⟨ty, e, -, -, henum, -⟩ := hoffers.1 h _ rfl
  cases henum

end Declarations

end SwaggerForge
