import SwaggerForge.Definition.OfClass
import SwaggerForge.Proofs.Kinship
import SwaggerForge.Proofs.Literals

/-!
# What definitions are made of

When the classes of a hierarchy have definitions, each definition can be traced
back to its class: its properties are those the compiler adds and then one for
each declared property (`Declarations.define_eq_ok`), and a declared property
is one of three things, a reference, a list of references or a value
(`Declarations.DefinedAs`). The registry has exactly one definition for each
class (`Declarations.get?_eq_some_iff`), so every name that a definition refers
to is that of a class, which has a definition itself, or of the root.
-/

namespace SwaggerForge

/-- The class that a shape refers to. -/
def Shape.target? : Shape → Option String
  | .reference target | .referenceArray target => some target
  | .value _ _ _ _ => none

/-- The primitive type of the elements of a shape, if it has one. -/
def Shape.items? : Shape → Option Primitive
  | .reference _ | .referenceArray _ => none
  | .value _ items _ _ => items

/-- **A shape with plain values**: its default and its options are. -/
def Shape.Plain : Shape → Prop
  | .reference _ | .referenceArray _ => True
  | .value _ _ default enum =>
    (∀ j, default = some j → j.IsLiteral) ∧ ∀ e, enum = some e → e.Plain

namespace Declarations

variable (env : Declarations)

/-! ## Properties -/

/-- **The values of a named enumeration** are those of the catalogue; a name
that is not declared there leaves them open. -/
theorem result_enumValues (enumName : Option String) (context : String) :
    (env.enumValues enumName context).result = .ok (enumName.bind env.enums.values?) := by
  cases enumName with
  | none => rfl
  | some name =>
    unfold enumValues
    rw [Option.bind_some]
    dsimp only
    cases h : env.enums.values? name with
    | none => rfl
    | some e => rfl

/-- The primitive type of the elements of an array, if they have one. -/
def itemType? : Option Denotation → Option Primitive
  | some (.primitive item) => some item
  | _ => none

/-- **What a declared property is defined as.** -/
inductive DefinedAs (c : ClassDecl) (p : Property) : DefinedProperty → Prop
  /-- Its type is a class. -/
  | reference {target : String}
      (type : env.hierarchy.resolve p.type s!"{c.name}.{p.name}" = .ok (.reference target)) :
      DefinedAs c p { name := p.name, shape := .reference target, readOnly := p.readOnly }
  /-- It is an array with elements of a class. -/
  | referenceArray {ty : Primitive} {target : String}
      (type : env.hierarchy.resolve p.type s!"{c.name}.{p.name}" = .ok (.primitive ty))
      (element : env.elementOf ty p.arrayType s!"{c.name}.{p.name}"
        = .ok (some (.reference target))) :
      DefinedAs c p { name := p.name, shape := .referenceArray target, readOnly := p.readOnly }
  /-- It is a value. -/
  | value {ty : Primitive} {element : Option Denotation} {default : Option Json}
      (type : env.hierarchy.resolve p.type s!"{c.name}.{p.name}" = .ok (.primitive ty))
      (items : env.elementOf ty p.arrayType s!"{c.name}.{p.name}" = .ok element)
      (noReference : ∀ target, element ≠ some (.reference target))
      (literal : ty.parseDefault p.default s!"{c.name}.{p.name}" = .ok default) :
      DefinedAs c p {
        name := p.name
        shape := .value ty (itemType? element) default (p.enumType.bind env.enums.values?)
        readOnly := p.readOnly
        description := joinParagraphs [flagBadges p.flagNames, p.enumType.map enumRemark,
          cleanDescription p.description] }

/-- **A declared property that has a definition** is defined as one of three
things. -/
theorem definedAs_of_defineProperty {c : ClassDecl} {p : Property} {q : DefinedProperty}
    (hq : (env.defineProperty c p).result = .ok q) : env.DefinedAs c p q := by
  unfold defineProperty at hq
  obtain ⟨meant, hden, hq⟩ := Report.result_bind_eq_ok.1 hq
  rw [Report.result_liftM] at hden
  cases meant with
  | reference target =>
    cases hq
    exact .reference hden
  | primitive ty =>
    obtain ⟨element, hel, hq⟩ := Report.result_bind_eq_ok.1 hq
    rw [Report.result_liftM] at hel
    -- the two kinds of values differ in whether their elements have a type
    have hvalue (noReference : ∀ target, element ≠ some (.reference target))
        (h : (do
          let default ← ty.parseDefault p.default s!"{c.name}.{p.name}"
          let enum ← env.enumValues p.enumType s!"{c.name}.{p.name}"
          return {
            name := p.name, shape := .value ty (itemType? element) default enum,
            readOnly := p.readOnly,
            description := joinParagraphs [flagBadges p.flagNames, p.enumType.map enumRemark,
              cleanDescription p.description] } : Report DefinedProperty).result = .ok q) :
        env.DefinedAs c p q := by
      obtain ⟨default, hdef, h⟩ := Report.result_bind_eq_ok.1 h
      obtain ⟨enum, henum, h⟩ := Report.result_bind_eq_ok.1 h
      rw [result_enumValues] at henum
      cases henum
      cases h
      exact .value hden hel noReference hdef
    match element with
    | some (.reference target) =>
      cases hq
      exact .referenceArray hden hel
    | some (.primitive item) => exact hvalue (fun _ h => nomatch h) hq
    | none => exact hvalue (fun _ h => nomatch h) hq

section DefinedAs

variable {env} {c : ClassDecl} {p : Property} {q : DefinedProperty} (h : env.DefinedAs c p q)
include h

theorem DefinedAs.name_eq : q.name = p.name := by
  cases h <;> rfl

theorem DefinedAs.readOnly_eq : q.readOnly = p.readOnly := by
  cases h <;> rfl

theorem DefinedAs.discriminator_eq : q.discriminator = false := by
  cases h <;> rfl

/-- **A property refers to a class** exactly when its type is a reference. -/
theorem DefinedAs.shape_eq_reference {target : String} :
    q.shape = .reference target ↔ env.hierarchy.isReference p.type = true ∧ target = p.type := by
  have hvalue {ty : Primitive}
      (type : env.hierarchy.resolve p.type s!"{c.name}.{p.name}" = .ok (.primitive ty)) :
      ¬ env.hierarchy.isReference p.type = true := by
    rw [env.hierarchy.isReference_iff, env.hierarchy.ofName?_of_resolve type]
    exact fun hr => nomatch hr.1
  cases h with
  | @reference meant type =>
    obtain rfl := env.hierarchy.eq_of_resolve type
    rw [Shape.reference.injEq]
    exact ⟨fun he => ⟨env.hierarchy.isReference_of_resolve type, he.symm⟩, fun he => he.2.symm⟩
  | referenceArray type element =>
    exact ⟨fun he => (nomatch he), fun he => absurd he.1 (hvalue type)⟩
  | value type items noReference literal =>
    exact ⟨fun he => (nomatch he), fun he => absurd he.1 (hvalue type)⟩

end DefinedAs

/-! ## Classes -/

/-- The definition of a class whose declared properties are defined as given. -/
def definitionOf (c : ClassDecl) (declared : List DefinedProperty) : Definition where
  name := c.name
  base := c.base
  abstract := c.abstract
  description := joinParagraphs [flagBadges (if c.abstract then ["abstract"] else []),
    cleanDescription c.description]
  properties := discriminator (env.variants c) ++ addedOrderBy c (env.orderBy? c.name)
    ++ declared.map (withOrderBy (env.orderBy? c.name))
  variants := env.variants c

/-- The definition of a class, without the note that may come in front of it. -/
def defineDeclared (c : ClassDecl) : Report Definition := do
  let declared ← c.properties.mapM (env.defineProperty c)
  if let some b := c.base then
    let _ ← env.hierarchy.resolve b c.name
  return env.definitionOf c declared

/-- A class is defined with or without a note in front. -/
theorem define_cases (c : ClassDecl) :
    env.define c = env.defineDeclared c ∨
      ∃ context, env.define c = (do
        Report.note (.missing .concreteSubclass c.name context)
        env.defineDeclared c) := by
  unfold define
  dsimp only
  split
  · exact Or.inr ⟨_, rfl⟩
  · exact Or.inl rfl

/-- **The note changes nothing** in the result. -/
theorem result_define (c : ClassDecl) : (env.define c).result = (env.defineDeclared c).result := by
  rcases env.define_cases c with h | ⟨context, h⟩
  · rw [h]
  · rw [h, Report.result_bind]
    rfl

/-- **The definition of a class, opened up**: its declared properties are
defined, and the rest is as the class has it. -/
theorem define_eq_ok {c : ClassDecl} {d : Definition} (hd : (env.define c).result = .ok d) :
    ∃ declared, List.Forall₂ (env.DefinedAs c) c.properties declared ∧
      d = env.definitionOf c declared := by
  rw [env.result_define] at hd
  obtain ⟨declared, hdec, hd⟩ := Report.result_bind_eq_ok.1 hd
  refine ⟨declared, ?_, ?_⟩
  · exact (Report.result_mapM_eq_ok.1 hdec).imp fun _ _ => env.definedAs_of_defineProperty
  · cases hb : c.base with
    | none =>
      rw [hb] at hd
      exact (Except.ok.inj hd).symm
    | some b =>
      rw [hb] at hd
      obtain ⟨-, -, hd⟩ := Report.result_bind_eq_ok.1 hd
      exact (Except.ok.inj hd).symm

/-- **The properties of a definition** are the discriminator, the property to
sort by, and the declared ones. -/
theorem mem_properties {c : ClassDecl} {d : Definition} (hd : (env.define c).result = .ok d)
    {q : DefinedProperty} (hq : q ∈ d.properties) :
    q ∈ discriminator (env.variants c) ∨ q ∈ addedOrderBy c (env.orderBy? c.name)
      ∨ ∃ p ∈ c.properties, ∃ r, env.DefinedAs c p r ∧ q = withOrderBy (env.orderBy? c.name) r := by
  obtain ⟨declared, hdec, rfl⟩ := env.define_eq_ok hd
  rcases List.mem_append.1 hq with hadded | hdeclared
  · exact (List.mem_append.1 hadded).imp_right Or.inl
  · obtain ⟨r, hr, rfl⟩ := List.mem_map.1 hdeclared
    obtain ⟨p, hp, hpr⟩ := exists_left_of_forall₂ hdec hr
    exact Or.inr (Or.inr ⟨p, hp, r, hpr, rfl⟩)

/-- Every declared property has its own in the definition. -/
theorem exists_mem_properties {c : ClassDecl} {d : Definition}
    (hd : (env.define c).result = .ok d) {p : Property} (hp : p ∈ c.properties) :
    ∃ r, env.DefinedAs c p r ∧ withOrderBy (env.orderBy? c.name) r ∈ d.properties := by
  obtain ⟨declared, hdec, rfl⟩ := env.define_eq_ok hd
  obtain ⟨r, hr, hpr⟩ := exists_right_of_forall₂ hdec hp
  exact ⟨r, hpr, List.mem_append_right _ (List.mem_map.2 ⟨r, hr, rfl⟩)⟩

theorem variants_eq {c : ClassDecl} {d : Definition} (hd : (env.define c).result = .ok d) :
    d.variants = env.variants c := by
  obtain ⟨declared, -, rfl⟩ := env.define_eq_ok hd
  rfl

theorem base_eq {c : ClassDecl} {d : Definition} (hd : (env.define c).result = .ok d) :
    d.base = c.base := by
  obtain ⟨declared, -, rfl⟩ := env.define_eq_ok hd
  rfl

/-- A class has variants exactly when a concrete class is below it. -/
theorem variants_eq_nil_iff {c : ClassDecl} :
    env.variants c = [] ↔ env.hierarchy.concreteDescendants c.name = [] := by
  unfold variants
  cases h : env.hierarchy.concreteDescendants c.name with
  | nil => exact ⟨fun _ => rfl, fun _ => rfl⟩
  | cons d rest =>
    refine ⟨fun hv => ?_, fun hv => nomatch hv⟩
    rw [List.append_eq_nil_iff] at hv
    exact hv.2

/-- The variants of a class are the class itself or concrete classes below. -/
theorem mem_variants {c : ClassDecl} {v : String} (hv : v ∈ env.variants c) :
    v = c.name ∨ v ∈ env.hierarchy.concreteDescendants c.name := by
  unfold variants at hv
  split at hv
  · cases hv
  · next below =>
    rcases List.mem_append.1 hv with hself | hbelow
    · split at hself
      · cases hself
      · exact Or.inl (List.mem_singleton.1 hself)
    · exact Or.inr hbelow

/-! ## The property to sort by

It gets values and stays what it is in all else. -/

section WithOrderBy

variable (orderBy : Option EnumValues) (q : DefinedProperty)

@[simp] theorem name_withOrderBy : (withOrderBy orderBy q).name = q.name := by
  unfold withOrderBy
  split
  · split <;> rfl
  · rfl

@[simp] theorem readOnly_withOrderBy : (withOrderBy orderBy q).readOnly = q.readOnly := by
  unfold withOrderBy
  split
  · split <;> rfl
  · rfl

@[simp] theorem discriminator_withOrderBy :
    (withOrderBy orderBy q).discriminator = q.discriminator := by
  unfold withOrderBy
  split
  · split <;> rfl
  · rfl

/-- Only a value gets values. -/
theorem shape_withOrderBy : (withOrderBy orderBy q).shape = q.shape ∨
    ∃ type items default, q.shape = .value type items default none ∧
      (withOrderBy orderBy q).shape = .value type items default orderBy := by
  unfold withOrderBy
  split
  · next type items default hshape =>
    split
    · exact Or.inr ⟨type, items, default, hshape, rfl⟩
    · exact Or.inl rfl
  · exact Or.inl rfl

@[simp] theorem target?_withOrderBy :
    (withOrderBy orderBy q).shape.target? = q.shape.target? := by
  rcases shape_withOrderBy orderBy q with h | ⟨type, items, default, hq, h⟩
  · rw [h]
  · rw [h, hq]
    rfl

@[simp] theorem items?_withOrderBy :
    (withOrderBy orderBy q).shape.items? = q.shape.items? := by
  rcases shape_withOrderBy orderBy q with h | ⟨type, items, default, hq, h⟩
  · rw [h]
  · rw [h, hq]
    rfl

theorem shape_withOrderBy_eq_reference {target : String} :
    (withOrderBy orderBy q).shape = .reference target ↔ q.shape = .reference target := by
  rcases shape_withOrderBy orderBy q with h | ⟨type, items, default, hq, h⟩
  · rw [h]
  · rw [h, hq]
    exact ⟨fun he => (nomatch he), fun he => (nomatch he)⟩

end WithOrderBy

/-! ## What properties refer to -/

variable {env}

/-- **What tells variants apart** is a text with their names for values. -/
theorem eq_of_mem_discriminator {variants : List String} {q : DefinedProperty}
    (hq : q ∈ discriminator variants) : q = {
      name := discriminatorName
      shape := .value .string none none (some (.ofVariants variants))
      discriminator := true } := by
  unfold discriminator at hq
  split at hq
  · cases hq
  · exact List.mem_singleton.1 hq

/-- **What a filter sorts by** if it declares no such property is a text with the values of
its orders. -/
theorem eq_of_mem_addedOrderBy {c : ClassDecl} {orderBy : Option EnumValues}
    {q : DefinedProperty} (hq : q ∈ addedOrderBy c orderBy) : ∃ values, orderBy = some values ∧
      q = { name := orderByName, shape := .value .string none none (some values) } := by
  unfold addedOrderBy at hq
  split at hq
  · cases hq
  · next values =>
    split at hq
    · cases hq
    · exact ⟨values, rfl, List.mem_singleton.1 hq⟩

theorem name_of_mem_discriminator {variants : List String} {q : DefinedProperty}
    (hq : q ∈ discriminator variants) : q.name = discriminatorName := by
  rw [eq_of_mem_discriminator hq]

theorem name_of_mem_addedOrderBy {c : ClassDecl} {orderBy : Option EnumValues}
    {q : DefinedProperty} (hq : q ∈ addedOrderBy c orderBy) : q.name = orderByName := by
  obtain ⟨values, -, rfl⟩ := eq_of_mem_addedOrderBy hq
  rfl

theorem target?_discriminator {variants : List String} {q : DefinedProperty}
    (hq : q ∈ discriminator variants) : q.shape.target? = none := by
  rw [eq_of_mem_discriminator hq]
  rfl

theorem target?_addedOrderBy {c : ClassDecl} {orderBy : Option EnumValues} {q : DefinedProperty}
    (hq : q ∈ addedOrderBy c orderBy) : q.shape.target? = none := by
  obtain ⟨values, -, rfl⟩ := eq_of_mem_addedOrderBy hq
  rfl

/-- **Elements that mean something** are those of an array. -/
theorem elementOf_eq_some {ty : Primitive} {arrayType : Option String} {context : String}
    {meant : Denotation} (h : env.elementOf ty arrayType context = .ok (some meant)) :
    ty = .array ∧
      ∃ element, arrayType = some element ∧ env.hierarchy.resolve element context = .ok meant := by
  unfold elementOf at h
  split at h
  · next element =>
    obtain ⟨m, hm, hsome⟩ := map_eq_ok.1 h
    obtain rfl := Option.some.inj hsome
    exact ⟨rfl, element, rfl, hm⟩
  · cases h

theorem DefinedAs.isKnown_target {c : ClassDecl} {p : Property} {q : DefinedProperty}
    (h : env.DefinedAs c p q) {target : String} (ht : q.shape.target? = some target) :
    env.hierarchy.isKnown target = true := by
  cases h with
  | reference type =>
    obtain rfl := Option.some.inj ht
    exact env.hierarchy.isKnown_of_resolve type
  | referenceArray type element =>
    obtain rfl := Option.some.inj ht
    obtain ⟨-, name, -, hmeant⟩ := elementOf_eq_some element
    exact env.hierarchy.isKnown_of_resolve hmeant
  | value => cases ht

/-- **A definition refers only to known classes.** -/
theorem isKnown_target {c : ClassDecl} {d : Definition} (hd : (env.define c).result = .ok d)
    {q : DefinedProperty} (hq : q ∈ d.properties) {target : String}
    (ht : q.shape.target? = some target) : env.hierarchy.isKnown target = true := by
  rcases env.mem_properties hd hq with hdisc | horder | ⟨p, -, r, hr, rfl⟩
  · rw [target?_discriminator hdisc] at ht
    cases ht
  · rw [target?_addedOrderBy horder] at ht
    cases ht
  · rw [target?_withOrderBy] at ht
    exact hr.isKnown_target ht

/-- **Only the compiler makes discriminators.** -/
theorem mem_discriminator_of_eq_true {c : ClassDecl} {d : Definition}
    (hd : (env.define c).result = .ok d) {q : DefinedProperty} (hq : q ∈ d.properties)
    (hdisc : q.discriminator = true) : q ∈ discriminator (env.variants c) := by
  rcases env.mem_properties hd hq with hmem | horder | ⟨p, -, r, hr, rfl⟩
  · exact hmem
  · obtain ⟨values, -, rfl⟩ := eq_of_mem_addedOrderBy horder
    cases hdisc
  · rw [discriminator_withOrderBy, hr.discriminator_eq] at hdisc
    cases hdisc

/-- A property that refers to a class is no discriminator. -/
theorem discriminator_of_target? {c : ClassDecl} {d : Definition}
    (hd : (env.define c).result = .ok d) {q : DefinedProperty} (hq : q ∈ d.properties)
    {target : String} (ht : q.shape.target? = some target) : q.discriminator = false := by
  cases hdisc : q.discriminator with
  | false => rfl
  | true =>
    rw [target?_discriminator (mem_discriminator_of_eq_true hd hq hdisc)] at ht
    cases ht

/-! ## What properties offer -/

/-- **The sets of values that declarations supply**: the names of the variants of a class, the
values of an enumeration, and their texts. -/
inductive Supplies (env : Declarations) : EnumValues → Prop
  | variants (c : ClassDecl) : Supplies env (.ofVariants (env.variants c))
  | values {name : String} {e : EnumValues} (named : env.enums.values? name = some e) :
      Supplies env e
  | texts {name : String} {e : EnumValues} (named : env.enums.stringValues? name = some e) :
      Supplies env e

theorem Supplies.plain (hp : env.enums.Plain) {e : EnumValues} (h : env.Supplies e) :
    e.Plain := by
  cases h with
  | variants c => exact EnumValues.plain_ofVariants _
  | values named => exact hp.values? named
  | texts named => exact EnumCatalog.plain_stringValues? named

theorem supplies_of_enumType {enumType : Option String} {e : EnumValues}
    (h : enumType.bind env.enums.values? = some e) : env.Supplies e := by
  obtain ⟨name, -, hname⟩ := Option.bind_eq_some_iff.1 h
  exact .values hname

theorem supplies_of_orderBy? {className : String} {e : EnumValues}
    (h : env.orderBy? className = some e) : env.Supplies e := by
  obtain ⟨name, -, hname⟩ := Option.bind_eq_some_iff.1 h
  exact .texts hname

/-- A declared property offers a default of its type and the values of its enumeration. -/
theorem DefinedAs.of_value {c : ClassDecl} {p : Property} {q : DefinedProperty}
    (h : env.DefinedAs c p q) {type : Primitive} {items : Option Primitive}
    {default : Option Json} {enum : Option EnumValues}
    (hshape : q.shape = .value type items default enum) :
    (∀ j, default = some j → type.HasValue j) ∧ ∀ e, enum = some e → env.Supplies e := by
  cases h with
  | reference => cases hshape
  | referenceArray => cases hshape
  | value named elements noReference literal =>
    obtain ⟨rfl, -, rfl, rfl⟩ := Shape.value.inj hshape
    refine ⟨?_, fun e => supplies_of_enumType⟩
    rintro j rfl
    exact Primitive.hasValue_of_parseDefault literal

/-- **What the properties of a definition offer**: defaults of their types, and sets of values
that the declarations supply. -/
theorem supplies_of_mem_properties {c : ClassDecl} {d : Definition}
    (hd : (env.define c).result = .ok d) {q : DefinedProperty} (hq : q ∈ d.properties)
    {type : Primitive} {items : Option Primitive} {default : Option Json}
    {enum : Option EnumValues} (hshape : q.shape = .value type items default enum) :
    (∀ j, default = some j → type.HasValue j) ∧ ∀ e, enum = some e → env.Supplies e := by
  -- the properties that the compiler adds have no default and one set of values
  have hadded {e : EnumValues} (he : env.Supplies e)
      (h : Shape.value .string none none (some e) = .value type items default enum) :
      (∀ j, default = some j → type.HasValue j) ∧ ∀ e, enum = some e → env.Supplies e := by
    obtain ⟨-, -, rfl, rfl⟩ := Shape.value.inj h
    refine ⟨fun j hj => (nomatch hj), fun e' he' => ?_⟩
    rwa [← Option.some.inj he']
  rcases env.mem_properties hd hq with hdisc | horder | ⟨p, -, r, hr, rfl⟩
  · rw [eq_of_mem_discriminator hdisc] at hshape
    exact hadded (.variants c) hshape
  · obtain ⟨values, hvalues, rfl⟩ := eq_of_mem_addedOrderBy horder
    exact hadded (supplies_of_orderBy? hvalues) hshape
  · rcases shape_withOrderBy (env.orderBy? c.name) r with h | ⟨type', items', default', hr', h⟩
    · exact hr.of_value (h.symm.trans hshape)
    · obtain ⟨rfl, rfl, rfl, rfl⟩ := Shape.value.inj (h.symm.trans hshape)
      exact ⟨(hr.of_value hr').1, fun e => supplies_of_orderBy?⟩

/-- **The values in a definition are plain.** -/
theorem plain_of_mem_properties (hp : env.enums.Plain) {c : ClassDecl} {d : Definition}
    (hd : (env.define c).result = .ok d) {q : DefinedProperty} (hq : q ∈ d.properties) :
    q.shape.Plain := by
  cases hshape : q.shape with
  | reference => trivial
  | referenceArray => trivial
  | value type items default enum =>
    obtain ⟨hdefault, henum⟩ := supplies_of_mem_properties hd hq hshape
    exact ⟨fun j hj => Primitive.isLiteral_of_hasValue (hdefault j hj),
      fun e he => (henum e he).plain hp⟩

/-! ## What arrays hold -/

theorem items?_discriminator {variants : List String} {q : DefinedProperty}
    (hq : q ∈ discriminator variants) : q.shape.items? = none := by
  rw [eq_of_mem_discriminator hq]
  rfl

theorem items?_addedOrderBy {c : ClassDecl} {orderBy : Option EnumValues} {q : DefinedProperty}
    (hq : q ∈ addedOrderBy c orderBy) : q.shape.items? = none := by
  obtain ⟨values, -, rfl⟩ := eq_of_mem_addedOrderBy hq
  rfl

theorem array_of_elementOf {ty item : Primitive} {arrayType : Option String} {context : String}
    (h : env.elementOf ty arrayType context = .ok (some (.primitive item))) :
    ty = .array ∧ arrayType.bind Primitive.ofName? = some item := by
  obtain ⟨rfl, element, rfl, hmeant⟩ := elementOf_eq_some h
  exact ⟨rfl, env.hierarchy.ofName?_of_resolve hmeant⟩

theorem DefinedAs.array_of_items? {c : ClassDecl} {p : Property} {q : DefinedProperty}
    (h : env.DefinedAs c p q) {item : Primitive} (hitem : q.shape.items? = some item) :
    Primitive.ofName? p.type = some .array ∧ p.arrayType.bind Primitive.ofName? = some item := by
  cases h with
  | reference => cases hitem
  | referenceArray => cases hitem
  | @value ty element _ type items =>
    change itemType? element = some item at hitem
    unfold itemType? at hitem
    split at hitem
    · obtain rfl := Option.some.inj hitem
      obtain ⟨rfl, harray⟩ := array_of_elementOf items
      exact ⟨env.hierarchy.ofName?_of_resolve type, harray⟩
    · cases hitem

/-- **Elements of a primitive type** are those of a declared array. -/
theorem exists_array_of_items? {c : ClassDecl} {d : Definition}
    (hd : (env.define c).result = .ok d) {q : DefinedProperty} (hq : q ∈ d.properties)
    {item : Primitive} (hitem : q.shape.items? = some item) :
    ∃ p ∈ c.properties, Primitive.ofName? p.type = some .array ∧
      p.arrayType.bind Primitive.ofName? = some item := by
  rcases env.mem_properties hd hq with hdisc | horder | ⟨p, hp, r, hr, rfl⟩
  · rw [items?_discriminator hdisc] at hitem
    cases hitem
  · rw [items?_addedOrderBy horder] at hitem
    cases hitem
  · rw [items?_withOrderBy] at hitem
    exact ⟨p, hp, hr.array_of_items? hitem⟩

/-! ## The registry -/

variable {defs : DefinitionSet}

/-- **The registry has one definition for each class**, and the root of the
hierarchy. -/
theorem defineAll_eq_ok (h : env.defineAll.result = .ok defs) :
    defs.root = env.hierarchy.root ∧ ∃ entries,
      List.Forall₂ (fun c e => e.1 = c.name ∧ (env.define c).result = .ok e.2)
        env.hierarchy.classes entries ∧
      defs.definitions = Table.ofList entries := by
  unfold defineAll at h
  obtain ⟨entries, hentries, h⟩ := Report.result_bind_eq_ok.1 h
  obtain rfl := (Except.ok.inj h).symm
  refine ⟨rfl, entries, (Report.result_mapM_eq_ok.1 hentries).imp fun c e he => ?_, rfl⟩
  obtain ⟨d, hd, he⟩ := Report.result_bind_eq_ok.1 he
  obtain rfl := (Except.ok.inj he).symm
  exact ⟨rfl, hd⟩

theorem root_eq (h : env.defineAll.result = .ok defs) : defs.root = env.hierarchy.root :=
  (defineAll_eq_ok h).1

theorem names_of_forall₂ {classes : List ClassDecl} {entries : List (String × Definition)}
    (h : List.Forall₂ (fun c e => e.1 = c.name ∧ (env.define c).result = .ok e.2)
      classes entries) : entries.map Prod.fst = classes.map (·.name) := by
  induction h with
  | nil => rfl
  | cons hd _ ih => rw [List.map_cons, List.map_cons, ih, hd.1]

theorem keys_definitions (h : env.defineAll.result = .ok defs) (name : String) :
    name ∈ defs.definitions.keys ↔ name ∈ env.hierarchy.names := by
  obtain ⟨-, entries, hentries, hdefs⟩ := defineAll_eq_ok h
  rw [hdefs, Table.mem_keys_ofList, names_of_forall₂ hentries]
  exact Iff.rfl

/-- **Every definition is that of a class**, and every class has its own. -/
theorem get?_eq_some_iff (h : env.defineAll.result = .ok defs) {name : String} {d : Definition} :
    defs.get? name = some d
      ↔ ∃ c ∈ env.hierarchy.classes, c.name = name ∧ (env.define c).result = .ok d := by
  obtain ⟨-, entries, hentries, hdefs⟩ := defineAll_eq_ok h
  unfold DefinitionSet.get?
  rw [hdefs]
  constructor
  · intro hget
    have hmem := Table.mem_entries_ofList (Table.mem_entries_of_get? hget)
    obtain ⟨c, hc, hname, hd⟩ := exists_left_of_forall₂ hentries hmem
    exact ⟨c, hc, hname.symm, hd⟩
  · rintro ⟨c, hc, rfl, hd⟩
    obtain ⟨⟨name, d'⟩, he, hname, hd'⟩ := exists_right_of_forall₂ hentries hc
    obtain rfl : d' = d := Except.ok.inj (hd'.symm.trans hd)
    obtain rfl : name = c.name := hname
    refine Table.get?_ofList_of_mem ?_ he
    rw [names_of_forall₂ hentries]
    exact env.hierarchy.names_nodup

theorem exists_definition (h : env.defineAll.result = .ok defs) {name : String}
    (hn : name ∈ env.hierarchy.names) : ∃ d, defs.get? name = some d :=
  Table.mem_keys_iff_get?.1 ((keys_definitions h name).2 hn)

theorem mem_names_of_get? (h : env.defineAll.result = .ok defs) {name : String} {d : Definition}
    (hd : defs.get? name = some d) : name ∈ env.hierarchy.names :=
  (keys_definitions h name).1 (Table.mem_keys_iff_get?.2 ⟨d, hd⟩)

/-- **A registered definition is polymorphic** exactly when a concrete class is
below its class. -/
theorem isPolymorphic_iff (h : env.defineAll.result = .ok defs) {name : String} {d : Definition}
    (hd : defs.get? name = some d) :
    d.isPolymorphic = true ↔ env.hierarchy.concreteDescendants name ≠ [] := by
  obtain ⟨c, -, rfl, hdef⟩ := (get?_eq_some_iff h).1 hd
  unfold Definition.isPolymorphic
  rw [env.variants_eq hdef, Bool.not_eq_true', List.isEmpty_eq_false_iff, ne_eq,
    env.variants_eq_nil_iff]

/-- **The section of definitions** has exactly the known names. -/
theorem mem_keys_toTable (h : env.defineAll.result = .ok defs) {name : String} :
    name ∈ defs.toTable.keys ↔ env.hierarchy.isKnown name = true := by
  unfold DefinitionSet.toTable
  rw [Table.mem_keys_insertAll, List.map_cons, List.mem_cons, env.hierarchy.isKnown_iff, root_eq h]
  refine (or_iff_right List.not_mem_nil).trans (or_congr_right ?_)
  show name ∈ (defs.definitions.map Definition.toJson).keys ↔ _
  rw [Table.keys_map, keys_definitions h]

end Declarations

end SwaggerForge
