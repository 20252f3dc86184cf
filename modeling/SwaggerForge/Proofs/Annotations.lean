import SwaggerForge.Proofs.References

/-!
# Hints are annotations

Hints are put into a document at three places: the parameters of operations, shared parameters,
and definitions. From each they go down into schemas, to properties and to the properties inside
them. What they may change is told beside this walk: a relation between a document before and
one after, which follows parameters, schemas and properties and lets nothing change on its way
but fields that are hints (`Document.Annotated`).

The relations go by what a value is for. The fields of a schema have meanings, its properties
have names, and so a property may be called `items` or `$ref` without being taken for one. What
carries a reference is related to itself only. The default of an expiry is no annotation, so
a flag says where it is allowed: at the parameters of the operation that starts a session, and at
the first level of its body.
-/

namespace SwaggerForge

open Json

namespace Hint

/-! ## Fields that are written -/

/-- **Hints are written to an object**, and nothing else; a default is among them only if it is
one of an expiry. -/
def Written (expiry : Bool) (t t' : Table Json) : Prop :=
  ∃ hints, (∀ e ∈ hints, IsHint e ∧ (e.1 = "default" → expiry = true)) ∧ t' = t.insertAll hints

section Fields

variable (sources : List Source) (scope : Option String) {name : String} {type : Option Json}
  {e : String × Json}

theorem ne_default_of_mem_offered (he : e ∈ offered sources scope name type) :
    e.1 ≠ "default" := by
  unfold offered at he
  split at he
  · cases he
  · rcases List.mem_cons.1 he with rfl | he
    · exact (by decide : "x-dynamicEnum" ≠ "default")
    · rw [List.mem_singleton.1 he]
      exact (by decide : "x-inputType" ≠ "default")

/-- A hint that is written for something is no default unless it is written for an expiry. -/
theorem of_default_mem_ite {is : Prop} [Decidable is] {e' : String × Json}
    (he : e ∈ if is then [e'] else []) (hkey : e.1 = "default") : is ∧ e'.1 = "default" := by
  split at he
  · next h => exact ⟨h, List.mem_singleton.1 he ▸ hkey⟩
  · cases he

/-- **A property gets a default** only as an expiry. -/
theorem isExpiry_of_default_mem_propertyHints (he : e ∈ propertyHints sources scope name type)
    (hkey : e.1 = "default") : isExpiry name scope = true := by
  rcases List.mem_append.1 he with he | he
  · exact absurd hkey (ne_default_of_mem_offered sources scope he)
  · split at he
    · rw [List.mem_singleton.1 he] at hkey
      exact absurd hkey (by decide)
    · split at he
      · rw [List.mem_singleton.1 he] at hkey
        exact absurd hkey (by decide)
      · exact (of_default_mem_ite he hkey).1

/-- **A parameter gets a default** only as an expiry. -/
theorem isExpiry_of_default_mem_parameterHints (he : e ∈ parameterHints sources scope name type)
    (hkey : e.1 = "default") : isExpiry name scope = true := by
  rcases List.mem_append.1 he with he | he
  · rcases List.mem_append.1 he with he | he
    · rcases List.mem_append.1 he with he | he
      · exact absurd (of_default_mem_ite he hkey).2 (by decide)
      · exact absurd (of_default_mem_ite he hkey).2 (by decide)
    · exact absurd hkey (ne_default_of_mem_offered sources scope he)
  · exact (of_default_mem_ite he hkey).1

theorem written_annotateProperty (name : String) (t : Table Json) :
    Written (isExpiry name scope) t (annotateProperty sources name scope t) :=
  ⟨_, fun _ he => ⟨isHint_of_mem_propertyHints sources scope he,
    isExpiry_of_default_mem_propertyHints sources scope he⟩, annotateProperty_eq ..⟩

theorem written_annotateParameter (name : String) (t : Table Json) :
    Written (isExpiry name scope) t (annotateParameter sources name scope t) :=
  ⟨_, fun _ he => ⟨isHint_of_mem_parameterHints sources scope he,
    isExpiry_of_default_mem_parameterHints sources scope he⟩, annotateParameter_eq ..⟩

end Fields

/-! ## Schemas -/

mutual

/-- **A schema before and after**: only what is inside an object may change. The flag tells the
body that starts a session. -/
inductive InSchema : Bool → Json → Json → Prop
  | same {start : Bool} (j : Json) : InSchema start j j
  | object {start : Bool} {t t' : Table Json} (inside : InFields start t.entries t'.entries) :
      InSchema start (.object t) (.object t')

/-- **The fields of a schema before and after**, by key: items are schemas, and properties have
names. All others stay. -/
inductive InFields : Bool → List (String × Json) → List (String × Json) → Prop
  | nil {start : Bool} : InFields start [] []
  | other {start : Bool} {es es' : List (String × Json)} (e : String × Json)
      (rest : InFields start es es') : InFields start (e :: es) (e :: es')
  | items {start : Bool} {es es' : List (String × Json)} {x x' : Json} (inside : InSchema false x x')
      (rest : InFields start es es') : InFields start (("items", x) :: es) (("items", x') :: es')
  | properties {start : Bool} {es es' : List (String × Json)} {ps ps' : Table Json}
      (inside : InProperties start ps.entries ps'.entries) (rest : InFields start es es') :
      InFields start (("properties", .object ps) :: es) (("properties", .object ps') :: es')

/-- **Properties before and after**, by name: hints are written to those that are objects and
carry no reference. -/
inductive InProperties : Bool → List (String × Json) → List (String × Json) → Prop
  | nil {start : Bool} : InProperties start [] []
  | same {start : Bool} {es es' : List (String × Json)} (e : String × Json)
      (rest : InProperties start es es') : InProperties start (e :: es) (e :: es')
  | hinted {start : Bool} {es es' : List (String × Json)} {name : String} {t between t' : Table Json}
      (plain : t.get? "$ref" = none) (inside : InFields false t.entries between.entries)
      (written : Written (start && name == expiryName) between t')
      (rest : InProperties start es es') :
      InProperties start ((name, .object t) :: es) ((name, .object t') :: es')

end

/-- Whether a scope is that of the operation that starts a session. -/
def isStart (scope : Option String) : Bool := scope == some sessionStartPath

section Schemas

variable (sources : List Source)

/-- The fields of a schema go by what is inside them. -/
theorem inFields_mapEntries (scope : Option String) {es : List (String × Json)}
    (h : ∀ e ∈ es, ∀ t, e.2 = .object t →
      InFields false t.entries (t.mapEntries (schemaField sources none)).entries ∧
      ∀ scope, InProperties (isStart scope) t.entries
        (t.mapEntries (hinted sources scope)).entries) :
    InFields (isStart scope) es ((Table.mk es).mapEntries (schemaField sources scope)).entries := by
  induction es with
  | nil => exact .nil
  | cons e rest ih =>
    obtain ⟨key, x⟩ := e
    obtain ⟨hx, hrest⟩ := List.forall_mem_cons.1 h
    have hbehind := ih hrest
    show InFields _ _ ((key, schemaField sources scope key x) :: _)
    by_cases hobject : ∃ t, x = .object t
    · obtain ⟨t, rfl⟩ := hobject
      obtain ⟨hnested, hproperties⟩ := hx t rfl
      by_cases hitems : key = "items"
      · subst hitems
        show InFields _ _ (("items", nested sources (.object t)) :: _)
        rw [nested_object]
        exact .items (.object hnested) hbehind
      · by_cases hprops : key = "properties"
        · subst hprops
          show InFields _ _ (("properties", properties sources scope (.object t)) :: _)
          rw [properties_object]
          exact .properties (hproperties scope) hbehind
        · rw [schemaField_eq_id sources scope hitems hprops]
          exact .other _ hbehind
    · -- what is no object stays, whatever its key
      have hsame : schemaField sources scope key x = x := by
        have hnot : ∀ t, x ≠ .object t := fun t ht => hobject ⟨t, ht⟩
        unfold schemaField
        rw [nested_eq_self sources hnot, properties_eq_self sources scope hnot, ite_self, ite_self]
      rw [hsame]
      exact .other _ hbehind

/-- Properties go by what is inside them. -/
theorem inProperties_mapEntries (scope : Option String) {es : List (String × Json)}
    (h : ∀ e ∈ es, ∀ t, e.2 = .object t →
      InFields false t.entries (t.mapEntries (schemaField sources none)).entries) :
    InProperties (isStart scope) es
      ((Table.mk es).mapEntries (hinted sources scope)).entries := by
  induction es with
  | nil => exact .nil
  | cons e rest ih =>
    obtain ⟨name, x⟩ := e
    obtain ⟨hx, hrest⟩ := List.forall_mem_cons.1 h
    show InProperties _ _ ((name, hinted sources scope name x) :: _)
    rcases hinted_cases sources scope name x with hsame | ⟨t, rfl, plain, hannotated⟩
    · rw [hsame]
      exact .same _ (ih hrest)
    · rw [hannotated]
      exact .hinted plain (hx t rfl) (written_annotateProperty sources scope name _) (ih hrest)

/-- **Hints inside an object**, whether it is a schema or holds properties. -/
theorem inFields_and_inProperties (j : Json) : ∀ t, j = .object t →
    InFields false t.entries (t.mapEntries (schemaField sources none)).entries ∧
    ∀ scope, InProperties (isStart scope) t.entries
      (t.mapEntries (hinted sources scope)).entries := by
  induction j using object_induction with
  | other j hother => exact fun t ht => absurd ht (hother t)
  | object t ih =>
    rintro _ ⟨⟩
    exact ⟨inFields_mapEntries sources none ih, fun scope =>
      inProperties_mapEntries sources scope fun e he s hs => (ih e he s hs).1⟩

/-- **A schema gets hints** in its properties and nowhere else. -/
theorem inFields_schema (scope : Option String) (t : Table Json) :
    InFields (isStart scope) t.entries (schema sources scope t).entries := by
  rw [schema_eq]
  exact inFields_mapEntries sources scope fun e _ => inFields_and_inProperties sources e.2

theorem inSchema_nested (j : Json) : InSchema false j (nested sources j) := by
  by_cases hobject : ∃ t, j = .object t
  · obtain ⟨t, rfl⟩ := hobject
    rw [nested_object]
    exact .object (inFields_and_inProperties sources _ t rfl).1
  · rw [nested_eq_self sources fun t ht => hobject ⟨t, ht⟩]
    exact .same j

end Schemas

/-! ## Parameters and operations -/

/-- **A parameter before and after**: hints are written to its schema or, if it has none, by its
name; none if it carries a reference. -/
inductive InParameter (start : Bool) : Json → Json → Prop
  | same (p : Json) : InParameter start p p
  | body {t s s' : Table Json} (plain : t.get? "$ref" = none)
      (schema : t.get? "schema" = some (.object s)) (inside : InFields start s.entries s'.entries) :
      InParameter start (.object t) (.object (t.insert "schema" (.object s')))
  | hinted {t t' : Table Json} {name : String} (plain : t.get? "$ref" = none)
      (named : t.get? "name" = some (.string name))
      (written : Written (start && name == expiryName) t t') :
      InParameter start (.object t) (.object t')

/-- **An operation before and after**: only the parameters that it lists may change, one by one. -/
inductive InOperation (start : Bool) : Json → Json → Prop
  | same (o : Json) : InOperation start o o
  | parameters {t : Table Json} {ps ps' : List Json}
      (listed : t.get? "parameters" = some (.array ps))
      (each : List.Forall₂ (InParameter start) ps ps') :
      InOperation start (.object t) (.object (t.insert "parameters" (.array ps')))

section Operations

variable (sources : List Source) (scope : Option String)

/-- **A parameter gets hints** as it may. -/
theorem inParameter_parameter (p : Json) :
    InParameter (isStart scope) p (parameter sources scope p) := by
  have hplain {t : Table Json} (href : t.contains "$ref" = false) : t.get? "$ref" = none := by
    rw [Table.contains_eq_isSome_get?] at href
    exact Option.isSome_eq_false_iff.1 href |> Option.isNone_iff_eq_none.1
  rcases parameter_cases sources scope p with
    hsame | ⟨t, s, rfl, href, hs, hbody⟩ | ⟨t, name, rfl, href, -, hname, hhinted⟩
  · rw [hsame]
    exact .same p
  · rw [hbody]
    exact .body (hplain href) hs (inFields_schema sources scope s)
  · rw [hhinted]
    exact .hinted (hplain href) hname (written_annotateParameter sources scope name t)

/-- **An operation gets hints** on the parameters that it lists. -/
theorem inOperation_operation (path : String) (o : Json) :
    InOperation (isStart (some path)) o (operation sources path o) := by
  cases o with
  | object t =>
    show InOperation _ _ (.object (t.modify "parameters" _))
    by_cases hlisted : ∃ ps, t.get? "parameters" = some (.array ps)
    · obtain ⟨ps, hps⟩ := hlisted
      rw [Table.modify_eq_insert hps]
      refine .parameters hps (List.forall₂_map_right_iff.2 (List.forall₂_same.2 fun p _ => ?_))
      exact inParameter_parameter sources (some path) p
    · -- parameters that are no list stay
      rw [Table.modify_eq_self fun v hv => ?_]
      · exact .same _
      · cases v with
        | array ps => exact absurd ⟨ps, hv⟩ hlisted
        | _ => rfl
  | _ => exact .same _

/-- **Of an operation only the parameters change.** -/
theorem InOperation.field?_eq {start : Bool} {o o' : Json} (h : InOperation start o o')
    {key : String} (hkey : key ≠ "parameters") : o'.field? key = o.field? key := by
  cases h with
  | same => rfl
  | @parameters t ps ps' listed each =>
    show (t.insert "parameters" _).get? key = t.get? key
    rw [Table.get?_insert, if_neg hkey]

end Operations

end Hint

/-! ## Documents -/

/-- **Entry by entry**: the keys stay where they are, and values are related. -/
def Table.EachRelated (r : String → Json → Json → Prop) (t t' : Table Json) : Prop :=
  List.Forall₂ (fun e e' => e.1 = e'.1 ∧ r e.1 e.2 e'.2) t.entries t'.entries

namespace Table.EachRelated

variable {r : String → Json → Json → Prop} {t t' : Table Json}

theorem mapEntries {f : String → Json → Json} (h : ∀ e ∈ t.entries, r e.1 e.2 (f e.1 e.2)) :
    t.EachRelated r (t.mapEntries f) :=
  List.forall₂_map_right_iff.2 (List.forall₂_same.2 fun e he => ⟨rfl, h e he⟩)

theorem map {f : Json → Json} (h : ∀ e ∈ t.entries, r e.1 e.2 (f e.2)) :
    t.EachRelated r (t.map f) :=
  mapEntries h

theorem keys_eq (h : t.EachRelated r t') : t'.keys = t.keys := by
  obtain ⟨es⟩ := t
  obtain ⟨es'⟩ := t'
  change List.Forall₂ _ es es' at h
  show es'.map Prod.fst = es.map Prod.fst
  induction h with
  | nil => rfl
  | cons he _ ih => exact congrArg₂ List.cons he.1.symm ih

theorem rel_get? (h : t.EachRelated r t') (key : String) :
    Option.Rel (r key) (t.get? key) (t'.get? key) := by
  obtain ⟨es⟩ := t
  obtain ⟨es'⟩ := t'
  change List.Forall₂ _ es es' at h
  show Option.Rel (r key) (es.lookup key) (es'.lookup key)
  induction h with
  | nil => exact .none
  | @cons e e' rest rest' he _ ih =>
    obtain ⟨hkey, hvalue⟩ := he
    rw [List.lookup_cons, List.lookup_cons, ← hkey]
    split
    · next heq =>
      rw [eq_of_beq heq]
      exact .some hvalue
    · exact ih

end Table.EachRelated

/-- **A path item before and after**: the operations under its methods may change, one by one. -/
inductive Hint.InItem (start : Bool) : Json → Json → Prop
  | same (item : Json) : InItem start item item
  | object {methods methods' : Table Json}
      (each : methods.EachRelated (fun _ => InOperation start) methods') :
      InItem start (.object methods) (.object methods')

theorem Hint.inItem_mapFields (sources : List Source) (path : String) (item : Json) :
    InItem (isStart (some path)) item (item.mapFields (operation sources path)) := by
  cases item with
  | object methods =>
    exact .object (.mapEntries fun e _ => inOperation_operation sources path e.2)
  | _ => exact .same _

namespace Document

/-- **A document before and after hints**: the parameters of its operations, its shared parameters
and its definitions may change where hints go, and nothing else does. -/
structure Annotated (d d' : Document) : Prop where
  header : d'.header = d.header
  enums : d'.enums = d.enums
  tags : d'.tags = d.tags
  errors : d'.errors = d.errors
  paths : d.paths.EachRelated (fun path => Hint.InItem (Hint.isStart (some path))) d'.paths
  parameters : d.parameters.EachRelated (fun _ => Hint.InParameter false) d'.parameters
  definitions : d.definitions.EachRelated (fun _ => Hint.InSchema false) d'.definitions

/-- **The operations of an annotated document** are where they were, and all fields of theirs but
the parameters, responses among them, are as they were. -/
theorem Annotated.exists_methods {d d' : Document} (h : d.Annotated d') {path : String}
    {methods : Table Json} (hitem : d.paths.get? path = some (.object methods)) :
    ∃ methods', d'.paths.get? path = some (.object methods') ∧ methods'.keys = methods.keys ∧
      ∀ method o, methods.get? method = some o → ∃ o', methods'.get? method = some o' ∧
        ∀ key, key ≠ "parameters" → o'.field? key = o.field? key := by
  have hrel := h.paths.rel_get? path
  rw [hitem] at hrel
  cases hget : d'.paths.get? path with
  | none =>
    rw [hget] at hrel
    cases hrel
  | some item =>
    rw [hget] at hrel
    cases hrel with
    | some hitem' =>
      cases hitem' with
      | same => exact ⟨methods, rfl, rfl, fun method o ho => ⟨o, ho, fun _ _ => rfl⟩⟩
      | @object _ methods' each =>
        refine ⟨methods', rfl, each.keys_eq, fun method o ho => ?_⟩
        have hop := each.rel_get? method
        rw [ho] at hop
        cases hget' : methods'.get? method with
        | none =>
          rw [hget'] at hop
          cases hop
        | some o' =>
          rw [hget'] at hop
          cases hop with
          | some hop => exact ⟨o', rfl, fun key hkey => hop.field?_eq hkey⟩

/-- **Hints are annotations**, for every configuration and every document, well formed or not. All
that changes are hints, as the relation tells. So keys stay where they are, those of paths, path
items, parameters and definitions, and of operations nothing changes but their parameters. -/
theorem addHints_annotates (config : Config) (d : Document) :
    d.Annotated (d.addHints config) ∧
      (d.addHints config).paths.keys = d.paths.keys ∧
      (d.addHints config).parameters.keys = d.parameters.keys ∧
      (d.addHints config).definitions.keys = d.definitions.keys ∧
      ∀ path methods, d.paths.get? path = some (.object methods) →
        ∃ methods', (d.addHints config).paths.get? path = some (.object methods') ∧
          methods'.keys = methods.keys ∧
          ∀ method o, methods.get? method = some o → ∃ o', methods'.get? method = some o' ∧
            ∀ key, key ≠ "parameters" → o'.field? key = o.field? key := by
  let sources := Hint.sources config d.paths
  have hpaths : d.paths.EachRelated (fun path => Hint.InItem (Hint.isStart (some path)))
      (d.paths.mapEntries fun path item => item.mapFields (Hint.operation sources path)) :=
    .mapEntries fun e _ => Hint.inItem_mapFields sources e.1 e.2
  have hannotated : d.Annotated (d.addHints config) :=
    { header := rfl
      enums := rfl
      tags := rfl
      errors := rfl
      paths := hpaths
      parameters := .map fun e _ => Hint.inParameter_parameter sources none e.2
      definitions := .map fun e _ => Hint.inSchema_nested sources e.2 }
  exact ⟨hannotated, hannotated.paths.keys_eq, hannotated.parameters.keys_eq,
    hannotated.definitions.keys_eq, fun _ _ hitem => hannotated.exists_methods hitem⟩

end Document

end SwaggerForge
