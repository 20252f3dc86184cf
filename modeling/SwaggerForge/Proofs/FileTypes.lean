import SwaggerForge.Document.OfSchema
import SwaggerForge.Proofs.References

/-!
# Schemas and parameters without uploads

A schema is **free of uploads** when neither it nor any schema in it – that of its
items and those of its properties, however deep – has the type `file`
(`Json.FileFree`). A parameter has **form files only** when it is an upload only as
form data and the schemas in it are free of uploads (`Json.FormFilesOnly`).

What is removed from a schema is every upload in it (`Json.fileFree_withoutFiles`).
Hints keep both properties, since they write none of the fields that these are
about, and so does marking an upload as form data.
-/

namespace SwaggerForge

namespace Json

/-- **A schema in a schema**: the schema itself, and those in its items and in its
properties. -/
inductive HasSchema : Json → Json → Prop
  | self (j : Json) : HasSchema j j
  | items {j x y : Json} (items : j.field? "items" = some x) (inside : HasSchema x y) :
      HasSchema j y
  | property {j y : Json} {t : Table Json} {e : String × Json}
      (properties : j.field? "properties" = some (.object t)) (mem : e ∈ t.entries)
      (inside : HasSchema e.2 y) : HasSchema j y

/-- **A schema free of uploads.** -/
def FileFree (j : Json) : Prop := ∀ x, j.HasSchema x → x.field? "type" ≠ some fileType

/-- The properties of a schema, all of them free of uploads. -/
def PropertiesFree (j : Json) : Prop := ∀ t, j = .object t → ∀ e ∈ t.entries, e.2.FileFree

/-- **A schema is free of uploads** when its type is none and its items and properties
are free of them. -/
theorem fileFree_iff {j : Json} : j.FileFree ↔ j.field? "type" ≠ some fileType ∧
    (∀ x, j.field? "items" = some x → x.FileFree) ∧
    ∀ x, j.field? "properties" = some x → x.PropertiesFree := by
  constructor
  · intro h
    refine ⟨h j (.self j), fun x hx y hy => h y (.items hx hy), ?_⟩
    rintro _ hx t rfl e he y hy
    exact h y (.property hx he hy)
  · rintro ⟨htype, hitems, hproperties⟩ y hy
    cases hy with
    | self => exact htype
    | items hx hy => exact hitems _ hx y hy
    | property hx he hy => exact hproperties _ hx _ rfl _ he y hy

/-- **A parameter that is an upload only as form data**, with schemas in it that are
free of uploads. -/
structure FormFilesOnly (p : Json) : Prop where
  location : p.field? "type" = some fileType → p.field? "in" = some (.string "formData")
  schema : ∀ x, p.field? "schema" = some x → x.FileFree
  items : ∀ x, p.field? "items" = some x → x.FileFree
  properties : ∀ x, p.field? "properties" = some x → x.PropertiesFree

/-! ## Fields -/

theorem field?_modifyField (key : String) (f : Json → Json) (j : Json) (k : String) :
    (j.modifyField key f).field? k = if k = key then (j.field? k).map f else j.field? k := by
  cases j with
  | object t => exact t.get?_modify key f k
  | _ => exact (ite_self none).symm

theorem field?_setField_of_ne {key k : String} (h : k ≠ key) (value j : Json) :
    (setField key value j).field? k = j.field? k := by
  cases j with
  | object t =>
    show (t.insert key value).get? k = t.get? k
    rw [Table.get?_insert, if_neg h]
  | _ => rfl

/-! ## What is written -/

/-- The fields of a schema that say where uploads are. -/
def schemaKeys : List String := ["type", "items", "properties"]

/-- **A field of a schema free of uploads.** -/
structure FieldFileFree (e : String × Json) : Prop where
  type : e.1 = "type" → e.2 ≠ fileType
  items : e.1 = "items" → e.2.FileFree
  properties : e.1 = "properties" → e.2.PropertiesFree

/-- Other fields say nothing of uploads. -/
theorem fieldFileFree_of_not_mem {key : String} (h : key ∉ schemaKeys) (x : Json) :
    FieldFileFree (key, x) where
  type := fun he : key = "type" => absurd (he ▸ by decide) h
  items := fun he : key = "items" => absurd (he ▸ by decide) h
  properties := fun he : key = "properties" => absurd (he ▸ by decide) h

theorem fieldFileFree_type {x : Json} (h : x ≠ fileType) : FieldFileFree ("type", x) where
  type := fun _ => h
  items := fun he : "type" = "items" => absurd he (by decide)
  properties := fun he : "type" = "properties" => absurd he (by decide)

theorem fieldFileFree_items {x : Json} (h : x.FileFree) : FieldFileFree ("items", x) where
  type := fun he : "items" = "type" => absurd he (by decide)
  items := fun _ => h
  properties := fun he : "items" = "properties" => absurd he (by decide)

theorem fieldFileFree_properties {x : Json} (h : x.PropertiesFree) :
    FieldFileFree ("properties", x) where
  type := fun he : "properties" = "type" => absurd he (by decide)
  items := fun he : "properties" = "items" => absurd he (by decide)
  properties := fun _ => h

/-- **A schema is free of uploads** when its fields are. -/
theorem fileFree_fields {es : List (String × Json)} (h : ∀ e ∈ es, FieldFileFree e) :
    (fields es).FileFree := by
  have hmem {key : String} {x : Json} (hx : (fields es).field? key = some x) : (key, x) ∈ es :=
    Table.mem_entries_of_get? hx
  rw [fileFree_iff]
  exact ⟨fun hx => (h _ (hmem hx)).type rfl rfl, fun x hx => (h _ (hmem hx)).items rfl,
    fun x hx => (h _ (hmem hx)).properties rfl⟩

/-- A name that no field has leads to none. -/
theorem field?_fields_eq_none {es : List (String × Json)} {names : List String}
    (h : ∀ e ∈ es, e.1 ∈ names) {key : String} (hkey : key ∉ names) :
    (fields es).field? key = none := by
  refine List.lookup_eq_none_iff.2 fun e he => ?_
  rw [bne_iff_ne]
  exact fun heq => hkey (heq ▸ h e he)

/-- A parameter without schemas in it has form files only if it travels as one. -/
theorem formFilesOnly_of_eq_none {p : Json} (hschema : p.field? "schema" = none)
    (hitems : p.field? "items" = none) (hproperties : p.field? "properties" = none)
    (hlocation : p.field? "type" = some fileType → p.field? "in" = some (.string "formData")) :
    p.FormFilesOnly := by
  refine ⟨hlocation, ?_, ?_, ?_⟩
  · rw [hschema]
    exact fun _ h => nomatch h
  · rw [hitems]
    exact fun _ h => nomatch h
  · rw [hproperties]
    exact fun _ h => nomatch h

theorem fileFree_reference (target : String) : (reference target).FileFree :=
  fileFree_fields (List.forall_mem_singleton.2 (fieldFileFree_of_not_mem (by decide) _))

theorem formFilesOnly_reference (target : String) : (reference target).FormFilesOnly := by
  have hnames : ∀ e ∈ [("$ref", string target)], e.1 ∈ ["$ref"] := by simp
  refine formFilesOnly_of_eq_none ?_ ?_ ?_ fun h => ?_
  · exact field?_fields_eq_none hnames (by decide)
  · exact field?_fields_eq_none hnames (by decide)
  · exact field?_fields_eq_none hnames (by decide)
  · exact absurd ((field?_fields_eq_none hnames (by decide)).symm.trans h) (by simp)

/-! ## Removing uploads -/

/-- Other fields are left alone. -/
theorem fieldWithoutFiles_eq_id {key : String} (h : key ∉ schemaKeys) :
    fieldWithoutFiles key = id := by
  obtain ⟨htype, hrest⟩ := not_or.1 (fun hmem => h (List.mem_cons.2 hmem))
  obtain ⟨hitems, hrest⟩ := not_or.1 (fun hmem => hrest (List.mem_cons.2 hmem))
  have hproperties : key ≠ "properties" := fun he => hrest (List.mem_singleton.2 he)
  funext x
  unfold fieldWithoutFiles
  rw [if_neg htype, if_neg hitems, if_neg hproperties]
  rfl

theorem field?_withoutFiles (j : Json) (key : String) :
    j.withoutFiles.field? key = (j.field? key).map (fieldWithoutFiles key) := by
  cases j with
  | object t =>
    rw [withoutFiles_object]
    exact t.get?_mapEntries fieldWithoutFiles key
  | _ => rfl

theorem field?_propertiesWithoutFiles (j : Json) (name : String) :
    (propertiesWithoutFiles j).field? name = (j.field? name).map withoutFiles := by
  cases j with
  | object t =>
    rw [propertiesWithoutFiles_object]
    exact t.get?_map withoutFiles name
  | _ => rfl

/-- **Nothing is left of the uploads** in a schema that they are removed from. -/
theorem fileFree_withoutFiles (j : Json) : j.withoutFiles.FileFree := by
  intro y hy
  generalize hw : j.withoutFiles = w at hy
  -- on the way from the result to the schema inside it
  induction hy generalizing j with
  | self w =>
    subst hw
    rw [field?_withoutFiles]
    intro h
    obtain ⟨x, -, hx⟩ := Option.map_eq_some_iff.1 h
    rw [fieldWithoutFiles, if_pos rfl] at hx
    split at hx
    · exact absurd hx (by decide)
    · next hne => exact hne hx
  | items hitems _ ih =>
    subst hw
    rw [field?_withoutFiles] at hitems
    obtain ⟨x, -, hx⟩ := Option.map_eq_some_iff.1 hitems
    exact ih x hx
  | @property w y t e hproperties he _ ih =>
    subst hw
    rw [field?_withoutFiles] at hproperties
    obtain ⟨x, -, hx⟩ := Option.map_eq_some_iff.1 hproperties
    change propertiesWithoutFiles x = .object t at hx
    cases x with
    | object s =>
      rw [propertiesWithoutFiles_object] at hx
      obtain rfl := object.inj hx
      obtain ⟨z, -, hz⟩ := Table.mem_entries_map.1 he
      exact ih z hz.symm
    | _ => cases hx

end Json

open Json

/-! ## Marking uploads -/

namespace Upload

theorem isUpload_iff {p : Json} : isUpload p = true ↔ p.field? "type" = some fileType := beq_iff_eq

/-- Only the place where a parameter travels is changed. -/
theorem field?_mark_of_ne {key : String} (h : key ≠ "in") (p : Json) :
    (mark p).field? key = p.field? key := by
  unfold mark
  split
  · exact field?_setField_of_ne h _ p
  · rfl

theorem field?_mark_in {p : Json} (h : p.field? "type" = some fileType) :
    (mark p).field? "in" = some (.string "formData") := by
  unfold mark
  rw [if_pos (isUpload_iff.2 h)]
  cases p with
  | object t =>
    show (t.insert "in" (.string "formData")).get? "in" = _
    rw [Table.get?_insert, if_pos rfl]
  | _ => cases h

/-- **A marked parameter** has form files only as soon as the schemas in it are free of
uploads. -/
theorem formFilesOnly_mark {p : Json} (hschema : ∀ x, p.field? "schema" = some x → x.FileFree)
    (hitems : ∀ x, p.field? "items" = some x → x.FileFree)
    (hproperties : ∀ x, p.field? "properties" = some x → x.PropertiesFree) :
    (mark p).FormFilesOnly where
  location := by
    rw [field?_mark_of_ne (by decide)]
    exact field?_mark_in
  schema := by rwa [field?_mark_of_ne (by decide)]
  items := by rwa [field?_mark_of_ne (by decide)]
  properties := by rwa [field?_mark_of_ne (by decide)]

theorem formFilesOnly_markInline {p : Json} (h : p.FormFilesOnly) :
    (markInline p).FormFilesOnly := by
  unfold markInline
  split
  · exact h
  · exact formFilesOnly_mark h.schema h.items h.properties

end Upload

/-! ## Hints -/

namespace Hint

variable (sources : List Source) (scope : Option String)

section Fields

variable {key : String} (hkey : key ∉ hintKeys)
include hkey

theorem get?_annotateProperty (name : String) (t : Table Json) :
    (annotateProperty sources name scope t).get? key = t.get? key := by
  rw [annotateProperty_eq]
  exact get?_insertAll_of_isHint (fun _ he => isHint_of_mem_propertyHints sources scope he) hkey t

theorem get?_annotateParameter (name : String) (t : Table Json) :
    (annotateParameter sources name scope t).get? key = t.get? key := by
  rw [annotateParameter_eq]
  exact get?_insertAll_of_isHint (fun _ he => isHint_of_mem_parameterHints sources scope he) hkey t

/-- **A parameter keeps the fields that no hint is written to**, apart from its
schema. -/
theorem field?_parameter (hschema : key ≠ "schema") (p : Json) :
    (parameter sources scope p).field? key = p.field? key := by
  obtain h | ⟨t, s, rfl, -, -, h⟩ | ⟨t, name, rfl, -, -, -, h⟩ := parameter_cases sources scope p
  · rw [h]
  · rw [h]
    show (t.insert "schema" _).get? key = t.get? key
    rw [Table.get?_insert, if_neg hschema]
  · rw [h]
    exact get?_annotateParameter sources scope hkey name t

end Fields

theorem field?_nested (j : Json) (key : String) :
    (nested sources j).field? key = (j.field? key).map (schemaField sources none key) := by
  cases j with
  | object t =>
    rw [nested_object]
    exact t.get?_mapEntries (schemaField sources none) key
  | _ => rfl

theorem field?_properties (j : Json) (name : String) :
    (properties sources scope j).field? name = (j.field? name).map (hinted sources scope name) := by
  cases j with
  | object t =>
    rw [properties_object]
    exact t.get?_mapEntries (hinted sources scope) name
  | _ => rfl

/-- **A property keeps the fields that no hint is written to**, apart from the schemas
inside it. -/
theorem field?_hinted {key : String} (hkey : key ∉ "items" :: "properties" :: hintKeys)
    (name : String) (j : Json) : (hinted sources scope name j).field? key = j.field? key := by
  obtain ⟨hitems, hrest⟩ := not_or.1 (fun h => hkey (List.mem_cons.2 h))
  obtain ⟨hproperties, hhint⟩ := not_or.1 (fun h => hrest (List.mem_cons.2 h))
  obtain h | ⟨t, rfl, -, h⟩ := hinted_cases sources scope name j
  · rw [h]
  · rw [h]
    show (annotateProperty sources name scope _).get? key = t.get? key
    rw [get?_annotateProperty sources scope hhint, Table.get?_mapEntries,
      schemaField_eq_id sources none hitems hproperties, Option.map_id]
    rfl

/-- The fields of a schema are free of uploads, if the schemas inside it are. -/
theorem fileFree_schemaFields {t : Table Json} (ht : (object t).FileFree)
    (hin : ∀ e ∈ t.entries, (e.2.FileFree → (nested sources e.2).FileFree) ∧
      (e.2.PropertiesFree → ∀ scope, (properties sources scope e.2).PropertiesFree)) :
    (object (t.mapEntries (schemaField sources scope))).FileFree := by
  obtain ⟨htype, hitems, hproperties⟩ := fileFree_iff.1 ht
  have hget (key : String) : (object (t.mapEntries (schemaField sources scope))).field? key
      = (t.get? key).map (schemaField sources scope key) :=
    t.get?_mapEntries (schemaField sources scope) key
  rw [fileFree_iff, hget, hget, hget]
  refine ⟨?_, fun y hy => ?_, fun y hy => ?_⟩
  · have hsame : schemaField sources scope "type" = id := rfl
    rw [hsame, Option.map_id]
    exact htype
  · obtain ⟨x, hx, rfl⟩ := Option.map_eq_some_iff.1 hy
    exact (hin _ (Table.mem_entries_of_get? hx)).1 (hitems x hx)
  · obtain ⟨x, hx, rfl⟩ := Option.map_eq_some_iff.1 hy
    exact (hin _ (Table.mem_entries_of_get? hx)).2 (hproperties x hx) scope

theorem fileFree_annotateProperty {t : Table Json} (ht : (object t).FileFree) (name : String) :
    (object (annotateProperty sources name scope t)).FileFree := by
  have hget {key : String} (hkey : key ∉ hintKeys) :
      (object (annotateProperty sources name scope t)).field? key = (object t).field? key :=
    get?_annotateProperty sources scope hkey name t
  rw [fileFree_iff, hget (by decide), hget (by decide), hget (by decide)]
  exact fileFree_iff.1 ht

/-- Hints keep a schema free of uploads, and the properties of one. -/
theorem fileFree_nested_and_properties (j : Json) :
    (j.FileFree → (nested sources j).FileFree) ∧
      (j.PropertiesFree → ∀ scope, (properties sources scope j).PropertiesFree) := by
  -- the keys of properties are names, not fields, so they are a statement of their own
  induction j using object_induction with
  | other j hother =>
    refine ⟨fun h => ?_, fun h scope => ?_⟩
    · rwa [nested_eq_self sources hother]
    · rwa [properties_eq_self sources scope hother]
  | object t ih =>
    refine ⟨fun h => ?_, fun h scope => ?_⟩
    · rw [nested_object]
      exact fileFree_schemaFields sources none h ih
    · rw [properties_object]
      intro s hs e he
      obtain rfl := object.inj hs
      obtain ⟨x, hx, hf⟩ := Table.mem_entries_mapEntries.1 he
      have hfree := h t rfl _ hx
      obtain hself | ⟨t', rfl, -, hannotated⟩ := hinted_cases sources scope e.1 x
      · rw [hf, hself]
        exact hfree
      · have hnested := (ih _ hx).1 hfree
        change (nested sources (.object t')).FileFree at hnested
        rw [nested_object] at hnested
        rw [hf, hannotated]
        exact fileFree_annotateProperty sources scope hnested e.1

/-- **Hints keep a schema free of uploads.** -/
theorem fileFree_nested {j : Json} (h : j.FileFree) : (nested sources j).FileFree :=
  (fileFree_nested_and_properties sources j).1 h

theorem fileFree_schema {t : Table Json} (h : (object t).FileFree) :
    (object (schema sources scope t)).FileFree := by
  rw [schema_eq]
  exact fileFree_schemaFields sources scope h fun e _ => fileFree_nested_and_properties sources e.2

/-- The schema of a parameter with hints is that of the parameter, with hints. -/
theorem field?_parameter_schema {p x : Json}
    (hx : (parameter sources scope p).field? "schema" = some x) :
    p.field? "schema" = some x ∨
      ∃ s, p.field? "schema" = some (.object s) ∧ x = .object (schema sources scope s) := by
  obtain h | ⟨t, s, rfl, -, hs, h⟩ | ⟨t, name, rfl, -, -, -, h⟩ := parameter_cases sources scope p
  · rw [h] at hx
    exact Or.inl hx
  · rw [h] at hx
    change (t.insert "schema" _).get? "schema" = some x at hx
    rw [Table.get?_insert, if_pos rfl] at hx
    exact Or.inr ⟨s, hs, (Option.some.inj hx).symm⟩
  · rw [h] at hx
    change (annotateParameter sources name scope t).get? "schema" = some x at hx
    rw [get?_annotateParameter sources scope (by decide)] at hx
    exact Or.inl hx

/-- **Hints keep a parameter with form files only.** -/
theorem formFilesOnly_parameter {p : Json} (h : p.FormFilesOnly) :
    (parameter sources scope p).FormFilesOnly where
  location := by
    rw [field?_parameter sources scope (by decide) (by decide),
      field?_parameter sources scope (by decide) (by decide)]
    exact h.location
  schema := by
    intro x hx
    rcases field?_parameter_schema sources scope hx with hx | ⟨s, hs, rfl⟩
    · exact h.schema x hx
    · exact fileFree_schema sources scope (h.schema _ hs)
  items := by
    rw [field?_parameter sources scope (by decide) (by decide)]
    exact h.items
  properties := by
    rw [field?_parameter sources scope (by decide) (by decide)]
    exact h.properties

end Hint

end SwaggerForge
