import SwaggerForge.Proofs.Descriptions

/-!
# Defaults are of their types

A default is read as a literal of the type that it stands beside, wherever it is declared:
at a property of a class, at a parameter in a query, or at one in a body. What the compiler
adds itself has a default in two places only, the client's tag and the version in the
envelope, and both are texts.

So what is written of definitions, of shared parameters and of what operations list has
defaults that agree with their types (`Json.DefaultAgrees`).
-/

namespace SwaggerForge

open Json

namespace Json

/-- **A default that agrees** with the type beside it. -/
def DefaultAgrees (j : Json) : Prop :=
  ∀ type x, j.field? "type" = some type → j.field? "default" = some x →
    ∃ ty : Primitive, type = ty.toJson ∧ ty.HasValue x

/-- A schema with properties whose defaults agree, save those with exempt names. -/
def PropertiesAgree (exempt : String → Prop) (s : Json) : Prop :=
  ∀ ps, s.field? "properties" = some (.object ps) →
    ∀ e ∈ ps.entries, ¬ exempt e.1 → e.2.DefaultAgrees

variable {j j' : Json}

theorem defaultAgrees_of (ty : Primitive) (htype : j.field? "type" = some ty.toJson)
    (hdefault : ∀ x, j.field? "default" = some x → ty.HasValue x) : j.DefaultAgrees :=
  fun _ x ht hx => ⟨ty, Option.some.inj (ht.symm.trans htype), hdefault x hx⟩

theorem defaultAgrees_of_eq_none (h : j.field? "default" = none) : j.DefaultAgrees :=
  fun _ _ _ hx => nomatch h.symm.trans hx

theorem DefaultAgrees.congr (h : j.DefaultAgrees) (htype : j'.field? "type" = j.field? "type")
    (hdefault : j'.field? "default" = j.field? "default") : j'.DefaultAgrees := by
  unfold DefaultAgrees
  rw [htype, hdefault]
  exact h

end Json

/-! ## What is written -/

/-- A shape whose default is one of its type. -/
def Shape.Typed : Shape → Prop
  | .value type _ default _ => ∀ x, default = some x → type.HasValue x
  | _ => True

theorem EnumValues.lookup_default (e : EnumValues) : e.fields.lookup "default" = none :=
  field?_fields_eq_none e.mem_fieldNames (by decide)

/-- The default of a value is written behind fields of other names. -/
theorem ValueSchema.lookup_default (v : ValueSchema) {front behind : List (String × Json)}
    (hfront : front.lookup "default" = none) (hbehind : behind.lookup "default" = none) :
    (front ++ v.constraintFields ++ behind).lookup "default" = v.default := by
  unfold constraintFields
  rw [List.lookup_append, List.lookup_append, List.lookup_append, hfront, hbehind]
  cases v.default with
  | some x => rfl
  | none =>
    cases v.enum with
    | none => rfl
    | some e =>
      show ((none.or (none.or (e.fields.lookup "default"))).or none) = none
      rw [e.lookup_default]
      rfl

theorem InlineParameter.defaultAgrees_toJson {env : Declarations} {p : InlineParameter}
    (h : p.value.Offered env) : p.toJson.DefaultAgrees := by
  have hdefault : p.toJson.field? "default" = p.value.default := by
    refine p.value.lookup_default rfl ?_
    cases p.value.description <;> rfl
  exact defaultAgrees_of p.value.type rfl fun x hx => h.default x (hdefault.symm.trans hx)

/-- A value is no reference. -/
theorem BodyProperty.field?_ref (v : ValueSchema) (items : Option TypeSchema) :
    (BodyProperty.value v items).toJson.field? "$ref" = none :=
  BodyProperty.field?_toJson_eq_none v items (by decide)

theorem BodyProperty.defaultAgrees_toJson {env : Declarations} {q : BodyProperty}
    (h : ∀ v items, q = .value v items → v.Offered env) : q.toJson.DefaultAgrees := by
  cases q with
  | reference target => exact defaultAgrees_of_eq_none rfl
  | value v items =>
    have hdefault : (BodyProperty.value v items).toJson.field? "default" = v.default := by
      refine v.lookup_default ?_ ?_
      · cases items <;> rfl
      · cases v.description <;> rfl
    exact defaultAgrees_of v.type rfl fun x hx => (h v items rfl).default x (hdefault.symm.trans hx)

/-- The default of a defined property is that of its shape. -/
theorem DefinedProperty.field?_default {q : DefinedProperty} {type : Primitive}
    {items : Option Primitive} {default : Option Json} {enum : Option EnumValues}
    (hshape : q.shape = .value type items default enum) :
    q.toJson.field? "default" = default := by
  unfold toJson
  rw [hshape]
  show List.lookup "default" ([("type", type.toJson)] ++ optional "items" _ ++ flag "readOnly" _
    ++ optional "default" default ++ _ ++ optional "description" _) = _
  rw [List.lookup_append, List.lookup_append, List.lookup_append]
  have hfront : ([("type", type.toJson)] ++ optional "items" (items.map Primitive.itemSchema)
      ++ flag "readOnly" q.readOnly).lookup "default" = none := by
    cases items <;> cases q.readOnly <;> rfl
  have hdescription : (optional "description" (q.description.map .string)).lookup "default"
      = none := by
    cases q.description <;> rfl
  have hwritten : (optional "default" default).lookup "default" = default := by
    cases default <;> rfl
  rw [hfront, hdescription, hwritten]
  cases enum with
  | none => cases default <;> rfl
  | some e =>
    have henum : (if q.discriminator then [("enum", Json.array e.values)]
        else e.fields).lookup "default" = none := by
      split
      · rfl
      · exact e.lookup_default
    show ((none.or default).or (List.lookup "default" (if q.discriminator then _ else _))).or _ = _
    rw [henum]
    cases default <;> rfl

theorem DefinedProperty.defaultAgrees_toJson {q : DefinedProperty} (h : q.shape.Typed) :
    q.toJson.DefaultAgrees := by
  cases hshape : q.shape with
  | reference target =>
    unfold toJson
    rw [hshape]
    exact defaultAgrees_of_eq_none rfl
  | referenceArray target =>
    unfold toJson
    rw [hshape]
    exact defaultAgrees_of_eq_none rfl
  | value type items default enum =>
    rw [hshape] at h
    refine defaultAgrees_of type (field?_toJson_of_value hshape).1 fun x hx => h x ?_
    exact (field?_default hshape).symm.trans hx

theorem RequestParameters.EntryOf.defaultAgrees {settings : List RequestSetting}
    {e : String × Json} (h : EntryOf settings e) : e.2.DefaultAgrees := by
  cases h with
  | session => exact defaultAgrees_of_eq_none rfl
  | format => exact defaultAgrees_of_eq_none rfl
  | setting => exact defaultAgrees_of_eq_none rfl
  | clientTag =>
    refine defaultAgrees_of .string rfl fun x hx => ?_
    rw [← Option.some.inj hx]
    trivial

/-! ## What is declared -/

namespace Declarations

variable {env : Declarations}

/-- **The defaults in a definition** are of their types. -/
theorem typed_of_mem_properties {c : ClassDecl} {d : Definition}
    (hd : (env.define c).result = .ok d) {q : DefinedProperty} (hq : q ∈ d.properties) :
    q.shape.Typed := by
  cases hshape : q.shape with
  | reference => trivial
  | referenceArray => trivial
  | value type items default enum => exact (supplies_of_mem_properties hd hq hshape).1

/-- **A property in a definition** is in agreement. -/
theorem WritesProperty.defaultAgrees {apiVersion : String} {x : Json}
    (h : env.WritesProperty apiVersion x) : x.DefaultAgrees := by
  cases h with
  | defined hd hq => exact DefinedProperty.defaultAgrees_toJson (typed_of_mem_properties hd hq)
  | credential => exact defaultAgrees_of_eq_none rfl
  | version =>
    refine defaultAgrees_of .string rfl fun x hx => ?_
    rw [← Option.some.inj hx]
    trivial

end Declarations

/-- **The defaults of shared parameters** agree with their types; flattened ones have none. -/
theorem OperationContext.defaultAgrees_sharedParameters {ctx : OperationContext} {config : Config} {schema : Schema}
    (hctx : OperationContext.Of config schema ctx) {actions : List (Service × Action)}
    {key : String} {p : Json} (hp : (ctx.sharedParameters actions).get? key = some p) :
    p.DefaultAgrees := by
  rcases mem_sharedParameters (Table.mem_entries_of_get? hp) with h | ⟨x, -, flat, -, rfl⟩
  · exact ((RequestParameters.valid_of_ofSettings hctx.requestParameters).entries _ h).defaultAgrees
  · exact defaultAgrees_of_eq_none (flat.field?_toJson_eq_none (by decide))

theorem OperationParameter.defaultAgrees_toJson {env : Declarations} {p : OperationParameter}
    (h : p.Offered env) : p.toJson.DefaultAgrees := by
  cases p with
  | shared key => exact defaultAgrees_of_eq_none rfl
  | inline p => exact InlineParameter.defaultAgrees_toJson h
  | body b => exact defaultAgrees_of_eq_none rfl

end SwaggerForge
