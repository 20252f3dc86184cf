import SwaggerForge.Proofs.Addresses
import SwaggerForge.Proofs.FileTypes

/-!
# What removing uploads changes, and what not

A field called `type`, `items` or `properties` says something of a schema only where a schema is.
Elsewhere it may be the name of a property, a path or a header. What a value in a document is can
be told from its address alone, by a `Role` that is carried along the way: a document has
definitions and paths, and from a schema the ways to other schemas lead through its items and
through the names of its properties.

Removing uploads does to each value what its role asks for (`Role.rewrite`), and inside the value
the same again (`Role.at?_rewrite`). So the effect is known at every address of the document
(`Document.at?_removeFileTypes`): no schema is an upload afterwards, each that was one is a string
and otherwise as before, and all else is as it was (`Document.retyped_removeFileTypes`).
-/

namespace SwaggerForge

open Json

/-! ## Roles -/

/-- **What a value in a document is**, as far as uploads are to be removed from it. -/
inductive Role where
  | document
  | definitions
  | paths
  | pathItem
  | operation
  | responses
  | response
  /-- A definition, the schema of a response, or a schema inside one of them. -/
  | schema
  /-- The properties of a schema, by name. -/
  | properties
  /-- What a schema has under `type`. -/
  | type
  /-- Anything else, and all that is inside it. -/
  | other
deriving DecidableEq, Repr

namespace Role

/-- **The role of a field**, from that of the object it is in. -/
def field (role : Role) (key : String) : Role :=
  match role with
  | .document =>
    if key = "definitions" then .definitions else if key = "paths" then .paths else .other
  | .definitions => .schema
  | .paths => .pathItem
  | .pathItem => .operation
  | .operation => if key = "responses" then .responses else .other
  | .responses => .response
  | .response => if key = "schema" then .schema else .other
  | .schema =>
    if key = "type" then .type
    else if key = "items" then .schema
    else if key = "properties" then .properties
    else .other
  | .properties => .schema
  | .type | .other => .other

/-- The role of what a step leads to. No role goes by the items of arrays. -/
def step (role : Role) : Step → Role
  | .field key => role.field key
  | .item _ => .other

/-- The role of what an address leads to. -/
def after (role : Role) (a : Address) : Role := a.foldl step role

/-! ## Where the schemas are -/

/-- The way into a schema: to its items, or to the property of a name. -/
def inward : Option String → Address
  | none => [.field "items"]
  | some name => [.field "properties", .field name]

/-- Inside anything else there are no schemas. -/
theorem after_other (a : Address) : other.after a = .other := by
  induction a with
  | nil => rfl
  | cons s rest ih => cases s <;> exact ih

/-- Inside a type there are none, and it is no schema itself. -/
theorem after_type (a : Address) : type.after a ≠ .schema := by
  cases a with
  | nil => simp [after]
  | cons s rest => cases s <;> exact ne_of_eq_of_ne (after_other rest) (by simp)

/-- Only fields lead to schemas. -/
theorem exists_field_of_after {role : Role} {a : Address} (hrole : role ≠ .schema)
    (h : role.after a = .schema) :
    ∃ key rest, a = .field key :: rest ∧ (role.field key).after rest = .schema := by
  cases a with
  | nil => exact absurd h hrole
  | cons s rest =>
    cases s with
    | field key => exact ⟨key, rest, rfl, h⟩
    | item i => exact absurd ((after_other rest).symm.trans h) (by simp)

/-- From a schema the schemas in it are reached, and no other ones. -/
theorem exists_inward_of_after (a : Address) :
    (schema.after a = .schema → ∃ ways : List (Option String), a = ways.flatMap inward) ∧
      (properties.after a = .schema →
        ∃ name, ∃ ways : List (Option String), a = .field name :: ways.flatMap inward) := by
  -- the properties of a schema stand between two schemas and so need a statement of their own
  induction a with
  | nil => exact ⟨fun _ => ⟨[], rfl⟩, fun h => absurd h (by simp [after])⟩
  | cons s rest ih =>
    have hother : other.after rest ≠ .schema := by simp [after_other]
    cases s with
    | item i => exact ⟨fun h => absurd h hother, fun h => absurd h hother⟩
    | field key =>
      constructor
      · intro h
        by_cases hitems : key = "items"
        · subst hitems
          obtain ⟨ways, rfl⟩ := ih.1 h
          exact ⟨none :: ways, rfl⟩
        · by_cases hproperties : key = "properties"
          · subst hproperties
            obtain ⟨name, ways, rfl⟩ := ih.2 h
            exact ⟨some name :: ways, rfl⟩
          · refine absurd h ?_
            show (field .schema key).after rest ≠ .schema
            by_cases htype : key = "type" <;> simp [field, *, after_type]
      · intro h
        obtain ⟨ways, rfl⟩ := ih.1 h
        exact ⟨key, ways, rfl⟩

theorem after_flatMap_inward (ways : List (Option String)) :
    schema.after (ways.flatMap inward) = .schema := by
  induction ways with
  | nil => rfl
  | cons way rest ih => cases way <;> exact ih

/-- **The schemas of a document**: its definitions, the schemas of the responses of its operations,
and those that are reached from them. -/
theorem after_document_iff {a : Address} : document.after a = .schema ↔
    (∃ name, ∃ ways : List (Option String),
      a = .field "definitions" :: .field name :: ways.flatMap inward) ∨
    ∃ path method code, ∃ ways : List (Option String),
      a = .field "paths" :: .field path :: .field method :: .field "responses" :: .field code ::
        .field "schema" :: ways.flatMap inward := by
  constructor
  · intro h
    obtain ⟨key, rest, rfl, hsection⟩ := exists_field_of_after (by simp) h
    by_cases hdefinitions : key = "definitions"
    · subst hdefinitions
      obtain ⟨name, rest, rfl, hname⟩ := exists_field_of_after (by simp [field]) hsection
      obtain ⟨ways, rfl⟩ := (exists_inward_of_after rest).1 hname
      exact .inl ⟨name, ways, rfl⟩
    · have hpaths : key = "paths" := by
        by_contra hpaths
        simp [field, hdefinitions, hpaths, after_other] at hsection
      subst hpaths
      obtain ⟨path, rest, rfl, hpath⟩ := exists_field_of_after (by simp [field]) hsection
      obtain ⟨method, rest, rfl, hmethod⟩ := exists_field_of_after (by simp [field]) hpath
      obtain ⟨key, rest, rfl, hkey⟩ := exists_field_of_after (by simp [field]) hmethod
      have hresponses : key = "responses" := by
        by_contra hresponses
        simp [field, hresponses, after_other] at hkey
      subst hresponses
      obtain ⟨code, rest, rfl, hcode⟩ := exists_field_of_after (by simp [field]) hkey
      obtain ⟨key, rest, rfl, hfield⟩ := exists_field_of_after (by simp [field]) hcode
      have hschema : key = "schema" := by
        by_contra hschema
        simp [field, hschema, after_other] at hfield
      subst hschema
      obtain ⟨ways, rfl⟩ := (exists_inward_of_after rest).1 hfield
      exact .inr ⟨path, method, code, ways, rfl⟩
  · rintro (⟨name, ways, rfl⟩ | ⟨path, method, code, ways, rfl⟩)
    · exact after_flatMap_inward ways
    · exact after_flatMap_inward ways

/-- A property that has the name of a field of schemas is a schema like any other. -/
example : document.after
    [.field "definitions", .field "Photo", .field "properties", .field "type"] = .schema := rfl

/-! ## What becomes of a value -/

/-- **What removing uploads does** to a value of a role. -/
def rewrite : Role → Json → Json
  | .document => fun j =>
    (j.modifyField "definitions" (mapFields withoutFiles)).modifyField "paths"
      (mapFields (mapFields responsesWithoutFiles))
  | .definitions => mapFields withoutFiles
  | .paths => mapFields (mapFields responsesWithoutFiles)
  | .pathItem => mapFields responsesWithoutFiles
  | .operation => responsesWithoutFiles
  | .responses => mapFields (modifyField "schema" withoutFiles)
  | .response => modifyField "schema" withoutFiles
  | .schema => withoutFiles
  | .properties => propertiesWithoutFiles
  | .type => fun j => if j = fileType then .string "string" else j
  | .other => id

theorem field?_mapFields (f : Json → Json) (j : Json) (key : String) :
    (j.mapFields f).field? key = (j.field? key).map f := by
  cases j with
  | object t => exact t.get?_map f key
  | _ => rfl

theorem rewrite_field_schema (key : String) :
    (field .schema key).rewrite = fieldWithoutFiles key := by
  funext x
  unfold field fieldWithoutFiles
  split_ifs <;> simp [rewrite, *]

/-- **What becomes of a field** depends on its role. -/
theorem field?_rewrite (role : Role) (j : Json) (key : String) :
    (role.rewrite j).field? key = (j.field? key).map (role.field key).rewrite := by
  -- a role that is changed in one field only leaves the others as they are
  have hother : (j.field? key).map (rewrite .other) = j.field? key := congrFun Option.map_id _
  cases role with
  | document =>
    show ((j.modifyField _ _).modifyField _ _).field? key = _
    rw [field?_modifyField, field?_modifyField]
    by_cases hdefinitions : key = "definitions"
    · subst hdefinitions
      rfl
    · by_cases hpaths : key = "paths"
      · subst hpaths
        rfl
      · simp [field, hdefinitions, hpaths, hother]
  | definitions => exact field?_mapFields _ j key
  | paths => exact field?_mapFields _ j key
  | pathItem => exact field?_mapFields _ j key
  | operation =>
    show (j.modifyField _ _).field? key = _
    rw [field?_modifyField]
    by_cases hkey : key = "responses"
    · subst hkey
      rfl
    · simp [field, hkey, hother]
  | responses => exact field?_mapFields _ j key
  | response =>
    show (j.modifyField _ _).field? key = _
    rw [field?_modifyField]
    by_cases hkey : key = "schema"
    · subst hkey
      rfl
    · simp [field, hkey, hother]
  | schema => rw [rewrite_field_schema, ← field?_withoutFiles]; rfl
  | properties => exact field?_propertiesWithoutFiles j key
  | type =>
    show (if j = fileType then _ else j).field? key = (j.field? key).map (rewrite .other)
    rw [hother]
    split_ifs with hfile
    · rw [hfile]
      rfl
    · rfl
  | other => exact hother.symm

/-- Arrays are left alone. -/
theorem item?_rewrite (role : Role) (j : Json) (i : Nat) :
    (role.rewrite j).item? i = j.item? i := by
  cases role with
  | type =>
    show (if j = fileType then _ else j).item? i = j.item? i
    split_ifs with hfile
    · rw [hfile]
      rfl
    · rfl
  | _ => cases j <;> rfl

/-- **What becomes of the value at an address** depends on the role that it has there. -/
theorem at?_rewrite (role : Role) (j : Json) (a : Address) :
    (role.rewrite j).at? a = (j.at? a).map (role.after a).rewrite := by
  induction a generalizing role j with
  | nil => rfl
  | cons s rest ih =>
    cases s with
    | field key =>
      rw [at?_field, at?_field, field?_rewrite, Option.bind_map, Option.map_bind]
      exact congrArg _ (funext fun x => ih _ x)
    | item i =>
      rw [at?_item, at?_item, item?_rewrite, Option.map_bind]
      refine congrArg _ (funext fun x => ?_)
      exact ih .other x

/-- A change of fields keeps the outline, whatever it does to their values. -/
theorem outline_mapFields (f : Json → Json) (j : Json) : (j.mapFields f).outline = j.outline := by
  cases j with
  | object t => exact outline_object_iff.2 (t.keys_map f)
  | _ => rfl

theorem outline_modifyField (key : String) (f : Json → Json) (j : Json) :
    (j.modifyField key f).outline = j.outline := by
  cases j with
  | object t => exact outline_object_iff.2 (t.keys_modify key f)
  | _ => rfl

/-- **Removing uploads keeps the outline** of a value, unless it is the type of an upload. -/
theorem outline_rewrite {role : Role} {j : Json} (h : role = .type → j ≠ fileType) :
    (role.rewrite j).outline = j.outline := by
  cases role with
  | document => exact (outline_modifyField _ _ _).trans (outline_modifyField _ _ j)
  | definitions => exact outline_mapFields _ j
  | paths => exact outline_mapFields _ j
  | pathItem => exact outline_mapFields _ j
  | operation => exact outline_modifyField _ _ j
  | responses => exact outline_mapFields _ j
  | response => exact outline_modifyField _ _ j
  | schema =>
    cases j with
    | object t =>
      show (object t).withoutFiles.outline = _
      rw [withoutFiles_object]
      exact outline_object_iff.2 (t.keys_mapEntries _)
    | _ => rfl
  | properties =>
    cases j with
    | object t =>
      show (propertiesWithoutFiles (object t)).outline = _
      rw [propertiesWithoutFiles_object]
      exact outline_object_iff.2 (t.keys_map _)
    | _ => rfl
  | type => exact congrArg outline (if_neg (h rfl))
  | other => rfl

end Role

/-! ## Documents -/

namespace Document

/-- **Uploads are removed from a document value by value**, beginning with the document itself. -/
theorem toJson_removeFileTypes (d : Document) :
    d.removeFileTypes.toJson = Role.document.rewrite d.toJson := by
  -- a section is changed by writing it over, whatever is written behind it
  have hsection {key : String} {f : Json → Json} {t : Table Json} {x : Json} :
      (t.insert key x).modify key f = t.insert key (f x) := by
    have hget : (t.insert key x).get? key = some x := by simp [Table.get?_insert]
    rw [Table.modify_eq_insert hget, Table.insert_insert]
  have hbehind {key key' : String} (hne : key ≠ key') {f : Json → Json} {t : Table Json}
      {x : Json} : (t.insert key' x).modify key f = (t.modify key f).insert key' x :=
    Table.modify_insert hne f x t
  show object (d.header.insertAll _)
    = object (((d.header.insertAll _).modify "definitions" _).modify "paths" _)
  simp only [Table.insertAll, List.foldl_cons, List.foldl_nil]
  rw [hbehind (show "definitions" ≠ "x-errors" by simp),
    hbehind (show "definitions" ≠ "tags" by simp), hbehind (show "definitions" ≠ "paths" by simp),
    hsection, hbehind (show "paths" ≠ "x-errors" by simp),
    hbehind (show "paths" ≠ "tags" by simp), hsection]
  rfl

/-- **What removing uploads does to the value at an address** depends on its role there. -/
theorem at?_removeFileTypes (d : Document) (a : Address) :
    d.removeFileTypes.toJson.at? a = (d.toJson.at? a).map (Role.document.after a).rewrite := by
  rw [toJson_removeFileTypes, Role.at?_rewrite]

/-- **A document whose uploads are retyped**: what becomes of each value, by the role that it has
at its address. -/
structure Retyped (d d' : Document) : Prop where
  /-- No schema is an upload any more. -/
  free {a : Address} {x : Json} (role : Role.document.after a = .schema)
    (there : d'.toJson.at? a = some x) : x.field? "type" ≠ some fileType
  /-- **A schema that was an upload is a string.** It has the same fields in the same order, and
  those that lead to no schema are as they were. -/
  retyped {a : Address} {t : Table Json} (role : Role.document.after a = .schema)
    (there : d.toJson.at? a = some (.object t)) (upload : t.get? "type" = some fileType) :
    ∃ t', d'.toJson.at? a = some (.object t') ∧ t'.keys = t.keys ∧
      t'.get? "type" = some (.string "string") ∧ ∀ key ∉ schemaKeys, t'.get? key = t.get? key
  /-- Nothing comes or goes. -/
  outline {a : Address} (type : Role.document.after a = .type → d.toJson.at? a ≠ some fileType) :
    (d'.toJson.at? a).map Json.outline = (d.toJson.at? a).map Json.outline
  /-- What is no schema and has none in it is as it was, other types of schemas included. -/
  kept {a : Address} (role : Role.document.after a = .other ∨
      Role.document.after a = .type ∧ d.toJson.at? a ≠ some fileType) :
    d'.toJson.at? a = d.toJson.at? a

/-- **Removing uploads retypes the schemas of definitions and responses**, and those inside them,
and leaves everything else alone, in any document. -/
theorem retyped_removeFileTypes (d : Document) : d.Retyped d.removeFileTypes where
  free {a x} role there := by
    rw [at?_removeFileTypes, role] at there
    obtain ⟨y, -, rfl⟩ := Option.map_eq_some_iff.1 there
    exact (fileFree_iff.1 (fileFree_withoutFiles y)).1
  retyped {a t} role there upload := by
    refine ⟨t.mapEntries fieldWithoutFiles, ?_, t.keys_mapEntries _, ?_, fun key hkey => ?_⟩
    · rw [at?_removeFileTypes, role, there]
      exact congrArg some (withoutFiles_object t)
    · rw [Table.get?_mapEntries, upload]
      rfl
    · rw [Table.get?_mapEntries, fieldWithoutFiles_eq_id hkey, Option.map_id]
      rfl
  outline {a} type := by
    rw [at?_removeFileTypes, Option.map_map]
    refine Option.map_congr fun x hx => ?_
    exact Role.outline_rewrite fun hrole hfile => type hrole (hfile ▸ hx)
  kept {a} role := by
    rw [at?_removeFileTypes]
    obtain hother | ⟨htype, hfile⟩ := role
    · rw [hother]
      exact congrFun Option.map_id _
    · rw [htype]
      cases hx : d.toJson.at? a with
      | none => rfl
      | some x => exact congrArg some (if_neg fun h => hfile (by rw [hx, h]))

end Document

end SwaggerForge
