import Mathlib
import SwaggerForge.Proofs.Descriptions
import SwaggerForge.Proofs.NewOptions

/-!
# Options and their labels

Where a document allows only certain values, it lists the values under `enum` and their labels
under `x-enumLabels`, and a reader pairs the two lists by position. So they have to be of one
length, and no value may be listed twice.

Sets of labelled values are made in four ways. The options of an enumeration lose those whose
value was there before; their texts are taken where a text is sorted by; the names of variants
label themselves; and where several ways lead to one flattened parameter, their sets are united.
Each way leaves a set in order (`EnumValues.Labelled`). Texts are the delicate one: they are taken
after repetitions are gone, and none comes back only because the values of an enumeration are all
integers or all texts, and distinct integers have distinct texts.

What is written keeps the order, and the passes leave both fields alone. So it holds of all that
a compiled document describes (`labelled_compile`). A set without values is written by its labels
alone, and there are none.
-/

namespace SwaggerForge

open Json

/-! ## Values of options -/

/-- **A value that an option can have**: an integer or a text. -/
def Json.IsOption (j : Json) : Prop := ∃ kind : EnumKind, kind.HasValue j

/-- Options are the same only if they are equal. -/
theorem Json.IsOption.same_iff {v w : Json} (hw : w.IsOption) : v.same w = true ↔ v = w := by
  obtain ⟨kind, hkind⟩ := hw
  cases w with
  | int n => cases v <;> simp [same]
  | string s => cases v <;> simp [same]
  | _ => cases kind <;> exact hkind.elim

theorem Json.isOption_int (n : Int) : (int n).IsOption := ⟨.int, trivial⟩

theorem Json.isOption_string (s : String) : (string s).IsOption := ⟨.string, trivial⟩

/-- Among options no two are the same if no two are equal. -/
theorem Json.pairwise_not_same_iff {vs : List Json} (h : ∀ v ∈ vs, v.IsOption) :
    vs.Pairwise (fun v w => ¬ v.same w = true) ↔ vs.Nodup :=
  List.Pairwise.iff_of_mem fun _ hw => not_congr (h _ hw).same_iff

/-! ## Sets of labelled values -/

namespace EnumValues

/-- **A set of values in order**: there is a label for each value, no value is there twice, and
all are integers or texts. -/
structure Labelled (e : EnumValues) : Prop where
  length_eq : e.labels.length = e.values.length
  nodup : e.values.Nodup
  options : ∀ v ∈ e.values, v.IsOption

/-- **The names of variants** label themselves. -/
theorem labelled_ofVariants {variants : List String} (h : variants.Nodup) :
    (ofVariants variants).Labelled where
  length_eq := (List.length_map _).symm
  nodup := h.map fun _ _ => string.inj
  options := by
    intro v hv
    obtain ⟨name, -, rfl⟩ := List.mem_map.1 hv
    exact isOption_string name

/-- **A union of sets in order** is in order. -/
theorem Labelled.union {e other : EnumValues} (h : e.Labelled) (hother : other.Labelled) :
    (e.union other).Labelled := by
  have hoptions : ∀ v ∈ e.values ++ (newOptions e.values other.options).map (·.value),
      v.IsOption := by
    refine List.forall_mem_append.2 ⟨h.options, List.forall_mem_map.2 fun o ho => ?_⟩
    exact hother.options _ (value_mem_of_mem_options (mem_of_mem_newOptions ho))
  rw [union_eq]
  refine ⟨?_, (pairwise_not_same_iff hoptions).1 ?_, hoptions⟩
  · simp only [List.length_append, List.length_map, h.length_eq]
  · exact pairwise_newOptions ((pairwise_not_same_iff h.options).2 h.nodup)

/-! ### What is in a union -/

section Unions

variable {e o : EnumValues} {others : List EnumValues} {j : Json}

theorem mem_values_union_left (h : j ∈ e.values) : j ∈ (e.union o).values := by
  rw [union_eq]
  exact List.mem_append_left _ h

/-- **A value with a label** is in every union with its set. -/
theorem mem_values_union_right (hj : j.IsOption) (hlen : o.labels.length = o.values.length)
    (h : j ∈ o.values) : j ∈ (e.union o).values := by
  have haligned : o.Aligned := hlen
  rw [← haligned.values_options] at h
  obtain ⟨v, hv, hsame⟩ := covers_newOptions e.values o.options j h j (hj.same_iff.2 rfl)
  rwa [union_eq, ← hj.same_iff.1 hsame]

/-- **Nothing else is in a union.** -/
theorem mem_or_mem_of_mem_values_union (h : j ∈ (e.union o).values) :
    j ∈ e.values ∨ j ∈ o.values := by
  rw [union_eq] at h
  refine (List.mem_append.1 h).imp_right fun h => ?_
  obtain ⟨x, hx, rfl⟩ := List.mem_map.1 h
  exact value_mem_of_mem_options (mem_of_mem_newOptions hx)

/-- **In a union of many sets** are the values of the first one. -/
theorem mem_values_foldl_union_left (h : j ∈ e.values) :
    j ∈ (others.foldl union e).values := by
  induction others generalizing e with
  | nil => exact h
  | cons o rest ih => exact ih (mem_values_union_left h)

/-- In a union of many sets are the labelled values of each of the others. -/
theorem mem_values_foldl_union_right (hj : j.IsOption) (ho : o ∈ others)
    (hlen : o.labels.length = o.values.length) (h : j ∈ o.values) :
    j ∈ (others.foldl union e).values := by
  induction others generalizing e with
  | nil => cases ho
  | cons o' rest ih =>
    rcases List.mem_cons.1 ho with rfl | ho
    · rw [List.foldl_cons]
      exact mem_values_foldl_union_left (mem_values_union_right hj hlen h)
    · exact ih ho

/-- Nothing else is in a union of many sets. -/
theorem mem_or_exists_of_mem_values_foldl_union (h : j ∈ (others.foldl union e).values) :
    j ∈ e.values ∨ ∃ o ∈ others, j ∈ o.values := by
  induction others generalizing e with
  | nil => exact Or.inl h
  | cons o rest ih =>
    rcases ih h with h | ⟨o', ho', h⟩
    · exact (mem_or_mem_of_mem_values_union h).imp_right fun h => ⟨o, List.mem_cons_self, h⟩
    · exact Or.inr ⟨o', List.mem_cons_of_mem _ ho', h⟩

end Unions

/-- **Values of one kind have distinct texts**, so a set of them stays in order when each is
replaced by its text. -/
theorem Labelled.toStrings {e : EnumValues} (h : e.Labelled) {kind : EnumKind}
    (hkind : ∀ v ∈ e.values, kind.HasValue v) : e.toStrings.Labelled := by
  constructor
  · show e.labels.length = (e.values.map _).length
    rw [List.length_map]
    exact h.length_eq
  · refine h.nodup.map_on fun v hv w hw heq => ?_
    have hv := hkind v hv
    have hw := hkind w hw
    cases kind with
    | int =>
      cases v with
      | int n =>
        cases w with
        | int m =>
          have htext : "" ++ toString n = "" ++ toString m := string.inj heq
          rw [String.empty_append, String.empty_append, Int.toString_eq_repr,
            Int.toString_eq_repr] at htext
          rw [Int.repr_injective htext]
        | _ => exact hw.elim
      | _ => exact hv.elim
    | string =>
      cases v with
      | string s =>
        cases w with
        | string t => exact heq
        | _ => exact hw.elim
      | _ => exact hv.elim
  · intro v hv
    obtain ⟨x, -, rfl⟩ := List.mem_map.1 hv
    split
    · exact isOption_string _
    · exact isOption_string _

end EnumValues

/-! ## Options of enumerations -/

/-- **No two canonical options** have the same value. -/
theorem nodup_canonical {os : List EnumOption} (h : ∀ o ∈ os, o.value.IsOption) :
    ((newOptions [] os).map (·.value)).Nodup := by
  refine (pairwise_not_same_iff (List.forall_mem_map.2 fun o ho => ?_)).1 ?_
  · exact h o (mem_of_mem_newOptions ho)
  · have hpairwise : ([] ++ (newOptions [] os).map (·.value) : List Json).Pairwise
        fun v w => ¬ v.same w = true := pairwise_newOptions .nil
    exact hpairwise

namespace EnumCatalog

variable {c : EnumCatalog} {name : String} {e : EnumValues}

theorem OfKinds.values? (h : c.OfKinds) (he : c.values? name = some e) :
    ∃ kind : EnumKind, ∀ v ∈ e.values, kind.HasValue v := by
  obtain ⟨options, ho, rfl⟩ := Option.map_eq_some_iff.1 he
  obtain ⟨entry, hentry, rfl⟩ := Option.map_eq_some_iff.1 ho
  refine ⟨entry.kind, fun v hv => ?_⟩
  obtain ⟨o, hmem, rfl⟩ := List.mem_map.1 hv
  exact h _ (Table.mem_entries_of_get? hentry) o (mem_of_mem_newOptions hmem)

/-- **The values of an enumeration** are in order. -/
theorem labelled_values? (h : c.OfKinds) (he : c.values? name = some e) : e.Labelled := by
  obtain ⟨kind, hkind⟩ := h.values? he
  obtain ⟨options, ho, rfl⟩ := Option.map_eq_some_iff.1 he
  obtain ⟨entry, hentry, rfl⟩ := Option.map_eq_some_iff.1 ho
  constructor
  · show (entry.canonical.map _).length = (entry.canonical.map _).length
    rw [List.length_map, List.length_map]
  · exact nodup_canonical fun o ho => ⟨_, h _ (Table.mem_entries_of_get? hentry) o ho⟩
  · exact fun v hv => ⟨kind, hkind v hv⟩

/-- **And so are their texts.** -/
theorem labelled_stringValues? (h : c.OfKinds) (he : c.stringValues? name = some e) :
    e.Labelled := by
  obtain ⟨values, hvalues, rfl⟩ := Option.map_eq_some_iff.1 he
  obtain ⟨kind, hkind⟩ := h.values? hvalues
  exact (labelled_values? h hvalues).toStrings hkind

end EnumCatalog

/-- No variant is named twice. -/
theorem Declarations.nodup_variants (env : Declarations) (c : ClassDecl) :
    (env.variants c).Nodup := by
  by_cases hbelow : env.hierarchy.concreteDescendants c.name = []
  · rw [env.variants_eq_nil_iff.2 hbelow]
    exact List.nodup_nil
  · rw [variants_eq_lineup hbelow]
    exact env.hierarchy.nodup_lineup c

/-- **Every set of values that declarations supply** is in order. -/
theorem Declarations.Supplies.labelled {env : Declarations} (h : env.enums.OfKinds)
    {e : EnumValues} (he : env.Supplies e) : e.Labelled := by
  cases he with
  | variants c => exact EnumValues.labelled_ofVariants (env.nodup_variants c)
  | values named => exact EnumCatalog.labelled_values? h named
  | texts named => exact EnumCatalog.labelled_stringValues? h named

/-! ## What is written -/

namespace Json

/-- **Labels that go with values**: beside labels there are as many values, at least one and none
of them twice, each an integer or a text; or there are no values, and then no labels either. -/
def Labelled (j : Json) : Prop :=
  ∀ labels, j.field? "x-enumLabels" = some labels →
    (j.field? "enum" = none ∧ labels = strings []) ∨
    ∃ values texts, j.field? "enum" = some (array values) ∧ labels = strings texts ∧
      texts.length = values.length ∧ values ≠ [] ∧ values.Nodup ∧ ∀ v ∈ values, v.IsOption

variable {j j' : Json}

/-- **A set in order is written in order.** -/
theorem labelled_enumFields {e : EnumValues} (h : e.Labelled) : (fields e.fields).Labelled := by
  intro labels hlabels
  change e.fields.lookup "x-enumLabels" = some labels at hlabels
  show (e.fields.lookup "enum" = none ∧ _) ∨ ∃ values texts, e.fields.lookup "enum" = _ ∧ _
  unfold EnumValues.fields at hlabels ⊢
  by_cases hvalues : e.values = []
  · rw [if_pos hvalues] at hlabels ⊢
    have hnone : e.labels = [] := by
      rw [← List.length_eq_zero_iff, h.length_eq, hvalues]
      rfl
    refine Or.inl ⟨?_, ?_⟩
    · cases e.enumType <;> rfl
    · rw [← hnone]
      exact (Option.some.inj hlabels).symm
  · rw [if_neg hvalues] at hlabels ⊢
    exact Or.inr ⟨e.values, e.labels, rfl, (Option.some.inj hlabels).symm, h.length_eq, hvalues,
      h.nodup, h.options⟩

theorem labelled_of_eq_none (h : j.field? "x-enumLabels" = none) : j.Labelled :=
  fun _ hlabels => nomatch h.symm.trans hlabels

theorem Labelled.congr (h : j.Labelled) (henum : j'.field? "enum" = j.field? "enum")
    (hlabels : j'.field? "x-enumLabels" = j.field? "x-enumLabels") : j'.Labelled := by
  unfold Labelled
  rw [henum, hlabels]
  exact h

/-- And so it is among other fields. -/
theorem labelled_fields {front written behind : List (String × Json)} {enum : Option EnumValues}
    (h : ∀ e, enum = some e → e.Labelled) (hwritten : written = enum.elim [] EnumValues.fields)
    (hfront : ∀ f ∈ front, f.1 ∉ EnumValues.fieldNames)
    (hbehind : ∀ f ∈ behind, f.1 ∉ EnumValues.fieldNames) :
    (fields (front ++ written ++ behind)).Labelled := by
  have hother {es : List (String × Json)} (hes : ∀ f ∈ es, f.1 ∉ EnumValues.fieldNames)
      {key : String} (hkey : key ∈ EnumValues.fieldNames) : es.lookup key = none :=
    List.lookup_eq_none_iff.2 fun f hf => bne_iff_ne.2 fun heq => hes f hf (heq ▸ hkey)
  have hget {key : String} (hkey : key ∈ EnumValues.fieldNames) :
      (fields (front ++ written ++ behind)).field? key
        = (enum.elim [] EnumValues.fields).lookup key := by
    show List.lookup key (front ++ written ++ behind) = _
    rw [List.lookup_append, List.lookup_append, hother hfront hkey, hother hbehind hkey,
      Option.none_or, Option.or_none, hwritten]
  cases enum with
  | none => exact labelled_of_eq_none (hget (by decide))
  | some e => exact (labelled_enumFields (h e rfl)).congr (hget (by decide)) (hget (by decide))

end Json

theorem ValueSchema.labelled_fields {v : ValueSchema} (h : ∀ e, v.enum = some e → e.Labelled)
    {front behind : List (String × Json)} (hfront : ∀ f ∈ front, f.1 ∉ EnumValues.fieldNames)
    (hbehind : ∀ f ∈ behind, f.1 ∉ EnumValues.fieldNames) :
    (Json.fields (front ++ v.constraintFields ++ behind)).Labelled := by
  unfold constraintFields
  rw [← List.append_assoc]
  refine Json.labelled_fields h ?_ (List.forall_mem_append.2 ⟨hfront, ?_⟩) hbehind
  · cases v.enum <;> rfl
  · simp [EnumValues.fieldNames, -Prod.forall]

theorem InlineParameter.labelled_toJson {p : InlineParameter}
    (h : ∀ e, p.value.enum = some e → e.Labelled) : p.toJson.Labelled := by
  refine ValueSchema.labelled_fields h ?_ ?_
  · simp [EnumValues.fieldNames]
  · simp [EnumValues.fieldNames, -Prod.forall]

theorem BodyProperty.labelled_toJson {q : BodyProperty}
    (h : ∀ v items, q = .value v items → ∀ e, v.enum = some e → e.Labelled) :
    q.toJson.Labelled := by
  cases q with
  | reference target => exact labelled_of_eq_none rfl
  | value v items =>
    refine ValueSchema.labelled_fields (h v items rfl) ?_ ?_
    · simp [EnumValues.fieldNames, -Prod.forall]
    · simp [EnumValues.fieldNames, -Prod.forall]

theorem FlatParameter.labelled_toJson {p : FlatParameter}
    (h : ∀ e, p.enum = some e → e.Labelled) : p.toJson.Labelled := by
  unfold toJson
  rw [List.append_assoc, List.append_assoc]
  refine Json.labelled_fields h ?_ ?_ ?_
  · cases p.enum <;> rfl
  · simp [EnumValues.fieldNames, or_imp, forall_and, -Prod.forall]
  · simp [EnumValues.fieldNames, or_imp, forall_and, -Prod.forall]

/-- A discriminator is written without labels. -/
theorem DefinedProperty.labelled_toJson {q : DefinedProperty}
    (h : ∀ type items default e, q.shape = .value type items default (some e) → e.Labelled) :
    q.toJson.Labelled := by
  unfold toJson
  cases hshape : q.shape with
  | reference target => exact labelled_of_eq_none rfl
  | referenceArray target => exact labelled_of_eq_none rfl
  | value type items default enum =>
    have henum : ∀ e, enum = some e → e.Labelled := fun e he => h type items default e (he ▸ hshape)
    cases hdisc : q.discriminator with
    | false =>
      refine Json.labelled_fields henum ?_ ?_ ?_
      · cases enum <;> rfl
      · simp [EnumValues.fieldNames, or_imp, forall_and, -Prod.forall]
      · simp [EnumValues.fieldNames, -Prod.forall]
    | true =>
      have hother : "x-enumLabels" ∉ ["type", "items", "readOnly", "default", "enum",
          "description"] := by decide
      refine labelled_of_eq_none (field?_fields_eq_none ?_ hother)
      cases enum <;> simp [or_imp, forall_and, -Prod.forall]

/-- **The choice of the format** of the response is the only request-wide parameter with
options. -/
theorem RequestParameters.EntryOf.labelled {settings : List RequestSetting} {e : String × Json}
    (h : EntryOf settings e) : e.2.Labelled := by
  cases h with
  | session => exact labelled_of_eq_none rfl
  | clientTag => exact labelled_of_eq_none rfl
  | setting => exact labelled_of_eq_none rfl
  | format =>
    intro labels hlabels
    refine Or.inr ⟨_, _, rfl, (Option.some.inj hlabels).symm, rfl, List.cons_ne_nil _ _,
      by decide, ?_⟩
    simp only [List.forall_mem_cons]
    exact ⟨isOption_int 1, isOption_int 2, isOption_int 3, List.forall_mem_nil _⟩

section Written

variable {ctx : OperationContext} (hkinds : ctx.declarations.enums.OfKinds)
include hkinds

/-- **Shared parameters** have labels that go with their values, however many sightings they
were merged from. -/
theorem OperationContext.labelled_sharedParameters {config : Config} {schema : Schema}
    (hctx : OperationContext.Of config schema ctx) {actions : List (Service × Action)}
    {key : String} {p : Json} (hp : (ctx.sharedParameters actions).get? key = some p) :
    p.Labelled := by
  rcases mem_sharedParameters (Table.mem_entries_of_get? hp) with h | ⟨x, -, flat, hflat, rfl⟩
  · exact ((RequestParameters.valid_of_ofSettings hctx.requestParameters).entries _ h).labelled
  · obtain ⟨-, q, -, hknown, e, he, leaf, hleaf, rfl⟩ := exists_expand_of_mem_sharedBy hflat
    have hb : ctx.flattening.Built := hctx.built
    exact FlatParameter.labelled_toJson (hb.forall_mem_enums (fun _ _ => .union)
      (fun _ h => h.labelled hkinds) hknown he leaf hleaf)

theorem OperationParameter.labelled_toJson {p : OperationParameter}
    (h : p.Offered ctx.declarations) : p.toJson.Labelled := by
  cases p with
  | shared key => exact labelled_of_eq_none rfl
  | inline p => exact InlineParameter.labelled_toJson fun e he => (h.enum e he).labelled hkinds
  | body b => exact labelled_of_eq_none rfl

/-- **A property in a definition** has labels that go with its values. -/
theorem Declarations.WritesProperty.labelled {apiVersion : String} {x : Json}
    (h : ctx.declarations.WritesProperty apiVersion x) : x.Labelled := by
  cases h with
  | defined hd hq =>
    exact DefinedProperty.labelled_toJson fun type items default e hshape =>
      ((supplies_of_mem_properties hd hq hshape).2 e rfl).labelled hkinds
  | credential => exact labelled_of_eq_none rfl
  | version => exact labelled_of_eq_none rfl

end Written

/-! ## What is finished -/

/-- **Finishing passes leave options alone.** -/
theorem Json.Labelled.withoutFiles {j : Json} (h : j.Labelled) : j.withoutFiles.Labelled := by
  have hsame {key : String} (hkey : key ∈ ["enum", "x-enumLabels"]) :
      j.withoutFiles.field? key = j.field? key := by
    have hother : ∀ key ∈ ["enum", "x-enumLabels"], key ∉ schemaKeys := by decide
    rw [field?_withoutFiles, fieldWithoutFiles_eq_id (hother key hkey), Option.map_id]
    rfl
  exact h.congr (hsame (by decide)) (hsame (by decide))

theorem Hint.labelled_hinted (sources : List Source) (scope : Option String) (name : String)
    {j : Json} (h : j.Labelled) : (hinted sources scope name j).Labelled :=
  h.congr (field?_hinted sources scope (by decide) name j)
    (field?_hinted sources scope (by decide) name j)

theorem Hint.labelled_parameter (sources : List Source) (scope : Option String) {p : Json}
    (h : p.Labelled) : (parameter sources scope p).Labelled :=
  h.congr (field?_parameter sources scope (by decide) (by decide) p)
    (field?_parameter sources scope (by decide) (by decide) p)

/-- **A document whose labels go with its values**: in the properties of its definitions, in
shared parameters, and in what operations list, inline or as properties of a body. -/
structure Document.Labelled (d : Document) : Prop where
  definitions : ∀ name s ps, d.definitions.get? name = some s →
    s.field? "properties" = some (.object ps) → ∀ e ∈ ps.entries, e.2.Labelled
  shared : ∀ key p, d.parameters.get? key = some p → p.Labelled
  inline : ∀ path p, d.Lists path p → p.Labelled
  body : ∀ path p s ps, d.Lists path p → p.field? "schema" = some s →
    s.field? "properties" = some (.object ps) → ∀ e ∈ ps.entries, e.2.Labelled

/-- **Labels go with values** in every compiled document. -/
theorem labelled_compile {config : Config} {schema : Schema} {d : Document}
    (h : (compile config schema).result = .ok d) : d.Labelled := by
  obtain ⟨ctx, definitions, operations, hof, hdefs, hops, rfl⟩ := compile_eq_ok h
  have hctx := OperationContext.of_ofSchema hof
  have hkinds := EnumCatalog.ofKinds_of_ofDecls hctx.enums
  constructor
  · intro name s ps hs hps e he
    obtain ⟨sources, x, hx, heq⟩ := exists_written_of_definition hctx.built hdefs hs hps he
    rw [heq]
    exact Hint.labelled_hinted sources none e.1 (hx.labelled hkinds).withoutFiles
  · intro key p hp
    obtain ⟨sources, q, hq, j, hj, rfl⟩ := exists_written_of_shared hops hp
    have hshared := OperationContext.labelled_sharedParameters hkinds hctx hq
    exact Hint.labelled_parameter sources none
      (hshared.congr (hj _ (by decide)) (hj _ (by decide)))
  · intro path p hp
    obtain ⟨sources, s, a, o, hof, q, hq, j, hj, rfl⟩ := exists_passed_of_lists hops hp
    have hlisted := OperationParameter.labelled_toJson hkinds
      (OperationContext.offered_parameters hof q hq)
    exact Hint.labelled_parameter sources _
      (hlisted.congr (hj.field? _ (by decide)) (hj.field? _ (by decide)))
  · intro path p s ps hp hs hps e he
    obtain ⟨sources, s', a, o, b, hof, hb, q, hq, heq⟩ :=
      exists_written_of_body hops hp hs hps he
    have hoffered := OperationContext.offered_parameters hof _ hb
    rw [heq]
    exact Hint.labelled_hinted sources _ e.1 (BodyProperty.labelled_toJson
      fun v items hvalue x hx => ((hoffered _ hq v items hvalue).enum x hx).labelled hkinds)

/-- The schema of an API for tickets, which are sorted by numbers. Two of its orders have one
number, so that one label is left out, and the texts of the numbers are what a filter sorts by. -/
def ticketSchema : Schema where
  apiVersion := "1.0"
  classes := [{ name := "TicketFilter", properties := [{ name := "title", type := "string" }] }]
  enums := [{
    name := "TicketOrderBy"
    kind := .int
    constants := [{ name := "OLDEST", value := "1" }, { name := "FIRST", value := " 1" },
      { name := "NEWEST", value := "-1" }] }]
  services := [{
    id := "ticket"
    name := "ticket"
    actions := [{
      name := "list"
      parameters := [{ name := "filter", type := "TicketFilter" },
        { name := "order", type := "int", enumType := some "TicketOrderBy" }] }] }]

theorem labelled_compile_ticketSchema :
    ∃ d, (compile { style := .query } ticketSchema).result = .ok d ∧ d.Labelled := by
  have hwell : ticketSchema.WellFormed { style := .query } :=
    { names_nodup := by decide
      root_not_mem := by decide
      envelope := by decide
      bases := by decide
      constants := by decide
      toResolved := by decide }
  obtain ⟨d, hd⟩ := Schema.passes_compile.2 hwell.accepted
  exact ⟨d, hd, labelled_compile hd⟩

end SwaggerForge
