import SwaggerForge.Proofs.Mirroring

/-!
# A scalar is described alike in a body and in a query

A parameter of a primitive type, arrays and uploads apart, is made by one function as a property of
the body and by another as a parameter in the query. Both look up the same default and the same
values (`OperationContext.constraints`), so both note the same and fail alike, and what they write
of the value is the same. They differ in what else they write: the one stands under a name that the
body may list as required, the other carries its name, its place and whether it is required itself.

`OperationContext.scalar_alike` says so for every parameter of every action, from the two functions
each reduced to the look-up that they share.
-/

namespace SwaggerForge

open Json

/-! ## What is written of a value -/

/-- **The fields that describe a value**: its type, its default and its allowed values. -/
def ValueSchema.describingKeys : List String := "type" :: constraintKeys

/-- A schema of an object that lists a property as required. -/
def Json.Requires (schema : Json) (name : String) : Prop :=
  ∃ names, schema.field? "required" = some (.strings names) ∧ name ∈ names

/-- The fields for default and allowed values, read among fields of other names. -/
theorem ValueSchema.lookup_among (v : ValueSchema) {front behind : List (String × Json)}
    {key : String} (hfront : front.lookup key = none) (hbehind : behind.lookup key = none) :
    (front ++ v.constraintFields ++ behind).lookup key = v.constraintFields.lookup key := by
  rw [List.lookup_append, List.lookup_append, hfront, hbehind, Option.none_or, Option.or_none]

/-- **A value is described alike** as a property and as a parameter of its own. -/
theorem ValueSchema.field?_describing {v w : ValueSchema} (htype : v.type = w.type)
    (hfields : v.constraintFields = w.constraintFields) (name : String) (required : Bool)
    {key : String} (hkey : key ∈ describingKeys) :
    (BodyProperty.value v none).toJson.field? key
      = (InlineParameter.mk name required w).toJson.field? key := by
  rcases List.mem_cons.1 hkey with rfl | hkey
  · show some v.type.toJson = some w.type.toJson
    rw [htype]
  · have hapart : ∀ key ∈ constraintKeys, key ∉ ["name", "in", "type", "required"] ∧
        key ≠ "description" := by decide
    obtain ⟨hother, hne⟩ := hapart key hkey
    have hfront {es : List (String × Json)}
        (hes : ∀ e ∈ es, e.1 ∈ ["name", "in", "type", "required"]) : es.lookup key = none :=
      field?_fields_eq_none hes hother
    have hproperty : [("type", v.type.toJson)].lookup key = none := hfront (by simp)
    calc (BodyProperty.value v none).toJson.field? key
        = v.constraintFields.lookup key :=
          v.lookup_among hproperty (lookup_optional_of_ne hne _)
      _ = w.constraintFields.lookup key := by rw [hfields]
      _ = (InlineParameter.mk name required w).toJson.field? key :=
          (w.lookup_among (hfront (by simp)) (lookup_optional_of_ne hne _)).symm

/-! ## The two functions -/

/-- A report that is packed leaves the cache alone. -/
theorem Cached.run_liftReport_bind_pure {α β : Type} (r : Report α) (f : α → β)
    (cache : ExpansionCache) :
    ((liftM r : Cached α) >>= fun x => pure (f x)).run cache = (f <$> r, cache) := by
  obtain ⟨notes, result⟩ := r
  cases result <;> rfl

namespace OperationContext

variable (ctx : OperationContext) (a : Action) {p : Parameter} {type : Primitive}

/-- A parameter of a primitive type, described in a body. -/
def propertyOf (p : Parameter) (type : Primitive) (c : Option Json × Option EnumValues) :
    BodyProperty :=
  .value { type, default := c.1, enum := c.2, description := cleanDescription p.description } none

/-- A parameter of a primitive type, described in a query. -/
def inlineOf (p : Parameter) (type : Primitive) (c : Option Json × Option EnumValues) :
    InlineParameter where
  name := p.name
  required := !p.optional
  value := { type, default := c.1, enum := c.2, description := inlineDescription p c.2 }

section Scalar

variable (htype : Primitive.ofName? p.type = some type) (harray : type ≠ .array)
include htype harray

/-- **A scalar in a body** takes no more than its default and its values. -/
theorem bodyProperty_of_scalar : ctx.bodyProperty a p
    = propertyOf p type <$> ctx.constraints p type (parameterContext a p) := by
  unfold bodyProperty
  dsimp only
  rw [ctx.declarations.hierarchy.resolve_of_ofName? htype]
  cases type <;> first | exact absurd rfl harray | rfl

/-- **And so does a scalar in a query**, which leaves the cache alone. -/
theorem run_queryPart_of_scalar (cache : ExpansionCache) : (ctx.queryPart a p).run cache
    = ((fun c => .inline (inlineOf p type c)) <$> ctx.constraints p type (parameterContext a p),
      cache) := by
  have hpart : ctx.queryPart a p
      = (liftM (inlineOf p type <$> ctx.constraints p type (parameterContext a p))
          : Cached InlineParameter) >>= fun q => pure (.inline q) := by
    unfold queryPart
    dsimp only
    rw [ctx.declarations.hierarchy.resolve_of_ofName? htype]
    cases type <;> first | exact absurd rfl harray | rfl
  rw [hpart, Cached.run_liftReport_bind_pure, Functor.map_map]

end Scalar

end OperationContext

/-! ## What a body requires -/

theorem Body.requires_iff (b : Body) {schema : Json}
    (h : b.toJson.field? "schema" = some schema) {name : String} :
    schema.Requires name ↔ name ∈ b.required := by
  obtain ⟨s, hs, -⟩ := b.exists_schema
  obtain rfl := Option.some.inj (hs.symm.trans h)
  have hrequired : (object s).field? "required" = _ := b.get?_required hs
  unfold Requires
  rw [hrequired]
  split
  · next hnone =>
    rw [hnone]
    exact iff_of_false (fun ⟨_, h, _⟩ => nomatch h) List.not_mem_nil
  · constructor
    · rintro ⟨names, hstrings, hmem⟩
      have hnames := List.map_injective_iff.2 (fun _ _ => Json.string.inj)
        (Json.array.inj (Option.some.inj hstrings))
      rwa [hnames]
    · exact fun hmem => ⟨_, rfl, hmem⟩

namespace OperationContext

variable {ctx : OperationContext} {a : Action}

/-- **What is required** are the parameters that are not optional. -/
theorem mem_requiredNames (hnames : (a.parameters.map (·.name)).Nodup) {p : Parameter}
    (hp : p ∈ a.parameters) : p.name ∈ requiredNames a ↔ p.optional = false := by
  unfold requiredNames
  rw [List.mem_map]
  constructor
  · rintro ⟨p', hp', hname⟩
    obtain ⟨hmem, hneeded⟩ := List.mem_filter.1 hp'
    obtain rfl : p' = p := List.inj_on_of_nodup_map hnames hmem hp hname
    simpa using hneeded
  · intro hneeded
    exact ⟨p, List.mem_filter.2 ⟨hp, by simpa using hneeded⟩, rfl⟩

/-- **What becomes of a scalar in either style**: the same failure, or two descriptions that
agree. -/
inductive DescribedAlike (ctx : OperationContext) (a : Action) (p : Parameter) :
    Except Failure BodyProperty → Except Failure QueryPart → Prop
  | failed (e : Failure) : DescribedAlike ctx a p (.error e) (.error e)
  | made {q : BodyProperty} {r : InlineParameter}
      -- It is a parameter of its own in the query.
      (name : r.name = p.name) (location : r.toJson.field? "in" = some (.string "query"))
      -- What is written of the value is the same.
      (fields : ∀ key ∈ ValueSchema.describingKeys, q.toJson.field? key = r.toJson.field? key)
      -- A body of the action requires it exactly if it is required in the query.
      (required : ∀ b schema, (ctx.body a).result = .ok b →
        b.toJson.field? "schema" = some schema →
          (schema.Requires p.name ↔ r.toJson.field? "required" = some (.bool true))) :
      DescribedAlike ctx a p (.ok q) (.ok (.inline r))

/-- **Both styles describe a scalar alike.** Made as a property of the body and as a parameter in
the query, a parameter of a primitive type that is no array and no upload notes the same and fails
alike, and what is made is of the same type and has the same default and values. The body requires
it exactly if the query does. -/
theorem scalar_alike (ctx : OperationContext) {a : Action}
    (hnames : (a.parameters.map (·.name)).Nodup) {p : Parameter} (hp : p ∈ a.parameters)
    {type : Primitive} (htype : Primitive.ofName? p.type = some type) (harray : type ≠ .array)
    (hfile : type ≠ .file) (cache : ExpansionCache) :
    ((ctx.queryPart a p).run cache).2 = cache ∧
    (ctx.bodyProperty a p).notes = ((ctx.queryPart a p).run cache).1.notes ∧
    DescribedAlike ctx a p (ctx.bodyProperty a p).result
      ((ctx.queryPart a p).run cache).1.result := by
  rw [ctx.bodyProperty_of_scalar a htype harray, ctx.run_queryPart_of_scalar a htype harray]
  obtain ⟨notes, result⟩ := ctx.constraints p type (parameterContext a p)
  cases result with
  | error e => exact ⟨rfl, rfl, .failed e⟩
  | ok c =>
    refine ⟨rfl, rfl, .made (q := propertyOf p type c) (r := inlineOf p type c) rfl ?_ ?_ ?_⟩
    · show some (Json.string (if type = .file then "formData" else "query")) = _
      rw [if_neg hfile]
    · intro key hkey
      unfold propertyOf inlineOf
      refine ValueSchema.field?_describing ?_ ?_ p.name (!p.optional) hkey
      · rfl
      · rfl
    · intro b schema hb hschema
      have hrequired : b.required = requiredNames a := by
        cases ctx.bodyOf_of_body hb
        rfl
      rw [b.requires_iff hschema, hrequired, mem_requiredNames hnames hp]
      show _ ↔ some (Json.bool (!p.optional)) = _
      cases p.optional <;> simp

/-! ### An example

An animal is fed a meal of one of two sizes, a small one unless it is said otherwise. -/

/-- The parameter of the example. -/
def meal : Parameter :=
  { name := "meal", type := "int", enumType := some "Meal", default := some " 1", optional := true }

/-- The action of the example. -/
def feedPet : Action := { name := "feed", parameters := [{ name := "pet", type := "string" }, meal] }

/-- The schema of the example. -/
def feedSchema : Schema where
  apiVersion := "1.0"
  enums := [{
    name := "Meal"
    kind := .int
    constants := [{ name := "SMALL", value := "1" }, { name := "LARGE", value := "2" }] }]

theorem scalar_alike_feedPet : ∃ ctx q,
    (OperationContext.ofSchema {} feedSchema).result = .ok ctx ∧
    (feedPet.parameters.map (·.name)).Nodup ∧ meal ∈ feedPet.parameters ∧
    Primitive.ofName? meal.type = some .integer ∧
    (ctx.bodyProperty feedPet meal).result = .ok q ∧
    q.toJson.field? "default" = some (.int 1) ∧
    q.toJson.field? "enum" = some (.array [.int 1, .int 2]) ∧
    q.toJson.field? "x-enumLabels" = some (.strings ["SMALL", "LARGE"]) ∧
    DescribedAlike ctx feedPet meal (.ok q) ((ctx.queryPart feedPet meal).run ∅).1.result := by
  have hproperty : ∃ ctx q, (OperationContext.ofSchema {} feedSchema).result = .ok ctx ∧
      (ctx.bodyProperty feedPet meal).result = .ok q ∧
      q.toJson.field? "default" = some (.int 1) ∧
      q.toJson.field? "enum" = some (.array [.int 1, .int 2]) ∧
      q.toJson.field? "x-enumLabels" = some (.strings ["SMALL", "LARGE"]) :=
    ⟨_, _, rfl, rfl, rfl, rfl, rfl⟩
  obtain ⟨ctx, q, hctx, hq, hdefault, henum, hlabels⟩ := hproperty
  have hnames : (feedPet.parameters.map (·.name)).Nodup := by decide
  have hmem : meal ∈ feedPet.parameters := List.mem_cons_of_mem _ (List.mem_singleton.2 rfl)
  have halike := (scalar_alike ctx hnames hmem rfl (by decide) (by decide) ∅).2.2
  rw [hq] at halike
  exact ⟨ctx, q, hctx, hnames, hmem, rfl, hq, hdefault, henum, hlabels, halike⟩

end OperationContext

end SwaggerForge
