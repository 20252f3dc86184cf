import SwaggerForge.Document.OfSchema
import SwaggerForge.Proofs.Tables

/-!
# The passes, entry by entry

The passes that finish a document go through lists of named values. Each is a map of
its entries: what becomes of a field depends on its name and its value only. The names
stay, so the document keeps the keys of its definitions and shared parameters.
-/

namespace SwaggerForge

namespace Json

/-- A field of a schema without uploads. -/
def fieldWithoutFiles (key : String) (x : Json) : Json :=
  if key = "type" then (if x = fileType then .string "string" else x)
  else if key = "items" then x.withoutFiles
  else if key = "properties" then propertiesWithoutFiles x
  else x

theorem fieldsWithoutFiles_eq_map (es : List (String × Json)) :
    fieldsWithoutFiles es = es.map fun e => (e.1, fieldWithoutFiles e.1 e.2) := by
  induction es with
  | nil => rfl
  | cons e rest ih => rw [fieldsWithoutFiles, ih, List.map_cons, fieldWithoutFiles]

theorem schemasWithoutFiles_eq_map (es : List (String × Json)) :
    schemasWithoutFiles es = es.map fun e => (e.1, e.2.withoutFiles) := by
  induction es with
  | nil => rfl
  | cons e rest ih => rw [schemasWithoutFiles, ih, List.map_cons]

/-- **The fields of a schema without uploads.** -/
theorem withoutFiles_object (t : Table Json) :
    (object t).withoutFiles = .object (t.mapEntries fieldWithoutFiles) := by
  obtain ⟨es⟩ := t
  rw [withoutFiles, fieldsWithoutFiles_eq_map]
  rfl

theorem propertiesWithoutFiles_object (t : Table Json) :
    propertiesWithoutFiles (.object t) = .object (t.map withoutFiles) := by
  obtain ⟨es⟩ := t
  rw [propertiesWithoutFiles, schemasWithoutFiles_eq_map]
  rfl

theorem withoutFiles_eq_self {j : Json} (h : ∀ t, j ≠ .object t) : j.withoutFiles = j := by
  cases j with
  | object t => exact absurd rfl (h t)
  | _ => rfl

theorem propertiesWithoutFiles_eq_self {j : Json} (h : ∀ t, j ≠ .object t) :
    propertiesWithoutFiles j = j := by
  cases j with
  | object t => exact absurd rfl (h t)
  | _ => rfl

end Json

namespace Hint

variable (sources : List Source) (scope : Option String)

/-! ## Annotations as fields that are written -/

/-- The fields that hints are written to. -/
def hintKeys : List String := ["x-dynamicEnum", "x-inputType", "default"]

/-- **A field that an annotation writes.** -/
inductive IsHint : String × Json → Prop
  | pickList (s : Source) : IsHint ("x-dynamicEnum", s.toJson)
  | input (how : String) : IsHint ("x-inputType", .string how)
  | expiry : IsHint ("default", .int oneDay)

theorem IsHint.mem_hintKeys {e : String × Json} (h : IsHint e) : e.1 ∈ hintKeys := by
  cases h with
  | pickList s => exact List.mem_cons_self
  | input how => exact List.mem_cons_of_mem _ List.mem_cons_self
  | expiry => decide

/-- Annotations keep all other fields. -/
theorem get?_insertAll_of_isHint {more : List (String × Json)} (h : ∀ e ∈ more, IsHint e)
    {key : String} (hkey : key ∉ hintKeys) (t : Table Json) :
    (t.insertAll more).get? key = t.get? key := by
  refine Table.get?_insertAll_of_not_mem (fun hmem => ?_) t
  obtain ⟨e, he, rfl⟩ := List.mem_map.1 hmem
  exact hkey (h e he).mem_hintKeys

/-- The fields that offer a pick list to what has a name and a type. -/
def offered (name : String) (type : Option Json) : List (String × Json) :=
  match sources.find? fun s => s.parameter == name && some s.scope == scope with
  | none => []
  | some s => [("x-dynamicEnum", s.toJson), ("x-inputType", .string (inputType type))]

/-- **The fields that are written to a property.** -/
def propertyHints (name : String) (type : Option Json) : List (String × Json) :=
  offered sources scope name type ++
    if isSecret name then [("x-inputType", .string "password")]
    else if isDateProperty name then [("x-inputType", .string "datetime")]
    else if isExpiry name scope then [("default", .int oneDay)]
    else []

/-- **The fields that are written to a parameter.** -/
def parameterHints (name : String) (type : Option Json) : List (String × Json) :=
  (if isSecret name then [("x-inputType", .string "password")] else []) ++
    (if isDateParameter name then [("x-inputType", .string "datetime")] else []) ++
    offered sources scope name type ++
    if isExpiry name scope then [("default", .int oneDay)] else []

theorem isHint_of_mem_ite {is : Prop} [Decidable is] {e e' : String × Json} (he' : IsHint e')
    (h : e ∈ if is then [e'] else []) : IsHint e := by
  split at h
  · exact List.mem_singleton.1 h ▸ he'
  · cases h

theorem isHint_of_mem_offered {name : String} {type : Option Json} {e : String × Json}
    (h : e ∈ offered sources scope name type) : IsHint e := by
  unfold offered at h
  split at h
  · cases h
  · rcases List.mem_cons.1 h with rfl | h
    · exact .pickList _
    · exact List.mem_singleton.1 h ▸ .input _

theorem isHint_of_mem_propertyHints {name : String} {type : Option Json} {e : String × Json}
    (h : e ∈ propertyHints sources scope name type) : IsHint e := by
  rcases List.mem_append.1 h with h | h
  · exact isHint_of_mem_offered sources scope h
  · split at h
    · exact List.mem_singleton.1 h ▸ .input _
    · split at h
      · exact List.mem_singleton.1 h ▸ .input _
      · exact isHint_of_mem_ite .expiry h

theorem isHint_of_mem_parameterHints {name : String} {type : Option Json} {e : String × Json}
    (h : e ∈ parameterHints sources scope name type) : IsHint e := by
  rcases List.mem_append.1 h with h | h
  · rcases List.mem_append.1 h with h | h
    · rcases List.mem_append.1 h with h | h
      · exact isHint_of_mem_ite (.input _) h
      · exact isHint_of_mem_ite (.input _) h
    · exact isHint_of_mem_offered sources scope h
  · exact isHint_of_mem_ite .expiry h

theorem offer_eq (name : String) (t : Table Json) :
    offer sources name scope t = t.insertAll (offered sources scope name (t.get? "type")) := by
  unfold offer offered
  cases sources.find? fun s => s.parameter == name && some s.scope == scope with
  | none => rfl
  | some s =>
    dsimp only
    rw [Table.get?_insert, if_neg (by decide)]
    rfl

/-- **Annotating a property** is writing its hints. -/
theorem annotateProperty_eq (name : String) (t : Table Json) :
    annotateProperty sources name scope t
      = t.insertAll (propertyHints sources scope name (t.get? "type")) := by
  unfold annotateProperty propertyHints
  rw [Table.insertAll_append, ← offer_eq]
  split
  · rfl
  · split
    · rfl
    · split <;> rfl

/-- **Annotating a parameter** is writing its hints. -/
theorem annotateParameter_eq (name : String) (t : Table Json) :
    annotateParameter sources name scope t
      = t.insertAll (parameterHints sources scope name (t.get? "type")) := by
  have hinput (is : Bool) (how : String) (t : Table Json) : (if is then setInput how t else t)
      = t.insertAll (if is then [("x-inputType", .string how)] else []) := by
    cases is <;> rfl
  have hexpiry (is : Bool) (t : Table Json) : (if is then setExpiry t else t)
      = t.insertAll (if is then [("default", .int oneDay)] else []) := by
    cases is <;> rfl
  -- what is offered depends on the type, which is not among the fields written before
  have htype (is : Bool) (how : String) (t : Table Json) :
      (t.insertAll (if is then [("x-inputType", .string how)] else [])).get? "type"
        = t.get? "type" :=
    get?_insertAll_of_isHint (fun _ he => isHint_of_mem_ite (.input how) he) (by decide) t
  unfold annotateParameter parameterHints
  dsimp only
  rw [hexpiry, offer_eq, hinput, hinput, htype, htype, Table.insertAll_append,
    Table.insertAll_append, Table.insertAll_append]

/-! ## Schemas and parameters -/

/-- A field of a schema with its properties annotated. -/
def schemaField (key : String) (x : Json) : Json :=
  if key = "items" then nested sources x
  else if key = "properties" then properties sources scope x
  else x

/-- A property, annotated if it is no reference. -/
def hinted (name : String) : Json → Json
  | .object t =>
    if (t.get? "$ref").isSome then .object t
    else .object (annotateProperty sources name scope (t.mapEntries (schemaField sources none)))
  | x => x

/-- Other fields of a schema are left alone. -/
theorem schemaField_eq_id {key : String} (hitems : key ≠ "items")
    (hproperties : key ≠ "properties") : schemaField sources scope key = id := by
  funext x
  unfold schemaField
  rw [if_neg hitems, if_neg hproperties]
  rfl

theorem schemaFields_eq_map (es : List (String × Json)) :
    schemaFields sources scope es = es.map fun e => (e.1, schemaField sources scope e.1 e.2) := by
  induction es with
  | nil => rfl
  | cons e rest ih => rw [schemaFields, ih, List.map_cons, schemaField]

theorem schema_eq (t : Table Json) :
    schema sources scope t = t.mapEntries (schemaField sources scope) := by
  unfold schema
  rw [schemaFields_eq_map]
  rfl

theorem nested_object (t : Table Json) :
    nested sources (.object t) = .object (t.mapEntries (schemaField sources none)) := by
  obtain ⟨es⟩ := t
  rw [nested, schemaFields_eq_map]
  rfl

theorem eachProperty_eq_map (es : List (String × Json)) :
    eachProperty sources scope es = es.map fun e => (e.1, hinted sources scope e.1 e.2) := by
  induction es with
  | nil => rfl
  | cons e rest ih =>
    obtain ⟨name, x⟩ := e
    cases x with
    | object t =>
      obtain ⟨fields⟩ := t
      rw [eachProperty, ih, schemaFields_eq_map, List.map_cons]
      rfl
    | _ =>
      rw [eachProperty, ih, List.map_cons]
      · rfl
      · exact fun _ h => nomatch h

theorem properties_object (t : Table Json) :
    properties sources scope (.object t) = .object (t.mapEntries (hinted sources scope)) := by
  obtain ⟨es⟩ := t
  rw [properties, eachProperty_eq_map]
  rfl

theorem nested_eq_self {j : Json} (h : ∀ t, j ≠ .object t) : nested sources j = j := by
  cases j with
  | object t => exact absurd rfl (h t)
  | _ => rfl

theorem properties_eq_self {j : Json} (h : ∀ t, j ≠ .object t) :
    properties sources scope j = j := by
  cases j with
  | object t => exact absurd rfl (h t)
  | _ => rfl

/-- A property that is no reference is annotated. -/
theorem hinted_object {t : Table Json} (href : t.get? "$ref" = none) (name : String) :
    hinted sources scope name (.object t)
      = .object (annotateProperty sources name scope
          (t.mapEntries (schemaField sources none))) := by
  unfold hinted
  dsimp only
  rw [href]
  rfl

/-- **What becomes of a property**: it is annotated, or it is as before. -/
theorem hinted_cases (name : String) (x : Json) :
    hinted sources scope name x = x ∨ ∃ t, x = .object t ∧ t.get? "$ref" = none ∧
      hinted sources scope name x
        = .object (annotateProperty sources name scope
            (t.mapEntries (schemaField sources none))) := by
  cases x with
  | object t =>
    cases href : t.get? "$ref" with
    | none => exact Or.inr ⟨t, rfl, href, hinted_object sources scope href name⟩
    | some j => exact Or.inl (if_pos (Option.isSome_iff_exists.2 ⟨j, href⟩))
  | _ => exact Or.inl rfl

section Parameter

variable {t : Table Json} (href : t.contains "$ref" = false)
include href

/-- A body gets hints in its schema. -/
theorem parameter_of_schema {s : Table Json} (hs : t.get? "schema" = some (.object s)) :
    parameter sources scope (.object t)
      = .object (t.insert "schema" (.object (schema sources scope s))) := by
  unfold parameter
  dsimp only
  rw [href, hs]
  rfl

/-- A parameter with a name is annotated. -/
theorem parameter_of_name (hs : ∀ s, t.get? "schema" ≠ some (.object s)) {name : String}
    (hname : t.get? "name" = some (.string name)) :
    parameter sources scope (.object t) = .object (annotateParameter sources name scope t) := by
  unfold parameter
  dsimp only
  rw [href, hname]
  split
  · next h => cases h
  · split
    · next s h => exact absurd h (hs s)
    · rfl

end Parameter

/-- **What has a name and no schema is annotated**, if it is no reference. -/
theorem exists_annotated {j : Json} {name : String} (hname : j.textField? "name" = some name)
    (href : j.field? "$ref" = none) (hschema : j.field? "schema" = none) :
    ∃ t, j = .object t ∧
      parameter sources scope j = .object (annotateParameter sources name scope t) := by
  cases j with
  | object t =>
    have hcontains : t.contains "$ref" = false := by
      rw [Table.contains_eq_isSome_get?, show t.get? "$ref" = none from href]
      rfl
    have hnot : ∀ s, t.get? "schema" ≠ some (.object s) := fun s hs =>
      nomatch (show t.get? "schema" = none from hschema).symm.trans hs
    have htext : t.get? "name" = some (.string name) := by
      obtain ⟨x, hx, hstring⟩ := Option.bind_eq_some_iff.1 hname
      cases x with
      | string text =>
        obtain rfl := Option.some.inj hstring
        exact hx
      | _ => cases hstring
    exact ⟨t, rfl, parameter_of_name sources scope hcontains hnot htext⟩
  | _ => cases hname

/-- **What becomes of a parameter**: it gets hints in its schema, or it is annotated, or it
is as before. -/
theorem parameter_cases (p : Json) :
    parameter sources scope p = p ∨
      (∃ t s, p = .object t ∧ t.contains "$ref" = false ∧ t.get? "schema" = some (.object s) ∧
        parameter sources scope p
          = .object (t.insert "schema" (.object (schema sources scope s)))) ∨
      ∃ t name, p = .object t ∧ t.contains "$ref" = false ∧
        (∀ s, t.get? "schema" ≠ some (.object s)) ∧ t.get? "name" = some (.string name) ∧
        parameter sources scope p = .object (annotateParameter sources name scope t) := by
  unfold parameter
  split
  · next t =>
    split
    · exact Or.inl rfl
    · next href =>
      split
      · next s hs => exact Or.inr (Or.inl ⟨t, s, rfl, Bool.eq_false_iff.2 href, hs, rfl⟩)
      · next hs =>
        split
        · next name hname =>
          exact Or.inr (Or.inr ⟨t, name, rfl, Bool.eq_false_iff.2 href, hs, hname, rfl⟩)
        · exact Or.inl rfl
  · exact Or.inl rfl

end Hint

end SwaggerForge
