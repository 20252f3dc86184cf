import SwaggerForge.Proofs.FileTypes
import SwaggerForge.Proofs.Operations

/-!
# Which documents have uploads in forms only

In a document that is finished the type `file` should be that of form parameters and
of nothing else (`Document.OnlyFormFiles`). Definitions and responses are free of
uploads because uploads are removed from them, and what operations list themselves is
right from the start. Shared parameters are another matter: they travel in the query
until an operation under `get` that lists them is moved, and nothing touches the
elements of those that are arrays.

So a finished document is right exactly when no shared parameter is an array of uploads
and each that is an upload is listed by an operation under `get`
(`Document.onlyFormFiles_finish_iff`). For a compiled document this is a matter of the
schema (`OperationContext.SendsUploads`): of what its actions share, and of which
actions no later one replaces.
-/

namespace SwaggerForge

open Json

/-! ## Documents -/

/-- The operations under the given paths. -/
def operationsOf (paths : Table Json) : List Json :=
  paths.values.flatMap fun item =>
    match item with
    | .object methods => methods.values
    | _ => []

/-- The schemas of the responses of an operation. -/
def responseSchemas (operation : Json) : List Json :=
  match operation.field? "responses" with
  | some (.object responses) => responses.values.filterMap (·.field? "schema")
  | _ => []

/-- **A document in which only form parameters are uploads.** -/
structure Document.OnlyFormFiles (d : Document) : Prop where
  definitions : ∀ e ∈ d.definitions.entries, e.2.FileFree
  responses : ∀ o ∈ operationsOf d.paths, ∀ x ∈ responseSchemas o, x.FileFree
  listed : ∀ o ∈ operationsOf d.paths, ∀ p ∈ Upload.parametersOf o, p.FormFilesOnly
  shared : ∀ e ∈ d.parameters.entries, e.2.FormFilesOnly

theorem mem_operationsOf {paths : Table Json} {o : Json} : o ∈ operationsOf paths ↔
    ∃ path methods, (path, Json.object methods) ∈ paths.entries ∧
      ∃ method, (method, o) ∈ methods.entries := by
  unfold operationsOf
  rw [List.mem_flatMap]
  constructor
  · rintro ⟨item, hitem, ho⟩
    obtain ⟨path, hpath⟩ := Table.mem_values.1 hitem
    split at ho
    · next methods => exact ⟨path, methods, hpath, Table.mem_values.1 ho⟩
    · cases ho
  · rintro ⟨path, methods, hpath, ho⟩
    exact ⟨.object methods, Table.mem_values.2 ⟨path, hpath⟩, Table.mem_values.2 ho⟩

/-! ## What finishing does to operations -/

/-- Operations that are changed one by one. -/
theorem mem_operationsOf_mapFields {f : String → Json → Json} {paths : Table Json} {o : Json}
    (h : o ∈ operationsOf (paths.mapEntries fun path item => item.mapFields (f path))) :
    ∃ path, ∃ o' ∈ operationsOf paths, o = f path o' := by
  obtain ⟨path, methods, hpath, method, ho⟩ := mem_operationsOf.1 h
  obtain ⟨item, hitem, hf⟩ := Table.mem_entries_mapEntries.1 hpath
  cases item with
  | object methods' =>
    have hmethods : methods = methods'.map (f path) := object.inj hf
    rw [hmethods] at ho
    obtain ⟨o', ho', rfl⟩ := Table.mem_entries_map.1 ho
    exact ⟨path, o', mem_operationsOf.2 ⟨path, methods', hitem, method, ho'⟩, rfl⟩
  | _ => cases hf

/-- An operation is moved as it is or as one that asks for a form. -/
theorem mem_operationsOf_promoteItem {shared paths : Table Json} {o : Json}
    (h : o ∈ operationsOf (paths.map (Upload.promoteItem shared))) :
    ∃ o' ∈ operationsOf paths, o = o' ∨ o = Upload.promoted o' := by
  obtain ⟨path, methods, hpath, method, ho⟩ := mem_operationsOf.1 h
  obtain ⟨item, hitem, hf⟩ := Table.mem_entries_map.1 hpath
  cases item with
  | object methods' =>
    have hmem {key : String} {x : Json} (hx : (key, x) ∈ methods'.entries) :
        x ∈ operationsOf paths := mem_operationsOf.2 ⟨path, methods', hitem, key, hx⟩
    unfold Upload.promoteItem at hf
    dsimp only at hf
    split at hf
    · obtain rfl := object.inj hf
      exact ⟨o, hmem ho, Or.inl rfl⟩
    · next operation others htaken =>
      obtain ⟨hop, hothers⟩ := Table.mem_of_swapRemove htaken
      split at hf
      · obtain rfl := object.inj hf
        rcases Table.mem_entries_insert ho with he | he
        · exact ⟨operation, hmem hop, Or.inr (congrArg Prod.snd he)⟩
        · exact ⟨o, hmem (hothers _ he), Or.inl rfl⟩
      · obtain rfl := object.inj hf
        rcases Table.mem_entries_insert ho with he | he
        · exact ⟨operation, hmem hop, Or.inl (congrArg Prod.snd he)⟩
        · exact ⟨o, hmem (hothers _ he), Or.inl rfl⟩
  | _ => cases hf

section Operation

variable (o : Json)

theorem responseSchemas_modifyField (f : Json → Json) :
    responseSchemas (o.modifyField "parameters" f) = responseSchemas o := by
  unfold responseSchemas
  rw [field?_modifyField, if_neg (by decide)]

theorem responseSchemas_promoted : responseSchemas (Upload.promoted o) = responseSchemas o := by
  unfold Upload.promoted
  rw [← responseSchemas_modifyField o (Json.mapItems Upload.markInline)]
  unfold responseSchemas
  rw [field?_setField_of_ne (by decide)]

/-- The schemas of responses are those that uploads are removed from. -/
theorem mem_responseSchemas_responsesWithoutFiles {x : Json}
    (h : x ∈ responseSchemas (responsesWithoutFiles o)) : ∃ y : Json, x = y.withoutFiles := by
  unfold responseSchemas responsesWithoutFiles at h
  rw [field?_modifyField, if_pos rfl] at h
  split at h
  · next responses hresponses =>
    obtain ⟨j, -, hj⟩ := Option.map_eq_some_iff.1 hresponses
    cases j with
    | object t =>
      obtain rfl := object.inj hj
      obtain ⟨r, hr, hx⟩ := List.mem_filterMap.1 h
      obtain ⟨key, hr⟩ := Table.mem_values.1 hr
      obtain ⟨r', -, rfl⟩ := Table.mem_entries_map.1 hr
      rw [field?_modifyField, if_pos rfl] at hx
      obtain ⟨y, -, rfl⟩ := Option.map_eq_some_iff.1 hx
      exact ⟨y, rfl⟩
    | _ => cases hj
  · cases h

theorem parametersOf_modifyField (f : Json → Json) :
    Upload.parametersOf (o.modifyField "parameters" (Json.mapItems f))
      = (Upload.parametersOf o).map f := by
  unfold Upload.parametersOf
  rw [field?_modifyField, if_pos rfl]
  cases o.field? "parameters" with
  | none => rfl
  | some j => cases j <;> rfl

theorem parametersOf_responsesWithoutFiles :
    Upload.parametersOf (responsesWithoutFiles o) = Upload.parametersOf o := by
  unfold Upload.parametersOf responsesWithoutFiles
  rw [field?_modifyField, if_neg (by decide)]

theorem parametersOf_promoted :
    Upload.parametersOf (Upload.promoted o) = (Upload.parametersOf o).map Upload.markInline := by
  rw [← parametersOf_modifyField]
  unfold Upload.promoted Upload.parametersOf
  rw [field?_setField_of_ne (by decide)]

/-- **What an operation of a finished document lists**: what it listed before, with hints. -/
theorem parametersOf_hints (sources : List Hint.Source) (path : String) :
    Upload.parametersOf (Hint.operation sources path (responsesWithoutFiles o))
      = (Upload.parametersOf o).map (Hint.parameter sources (some path)) := by
  unfold Hint.operation
  rw [parametersOf_modifyField, parametersOf_responsesWithoutFiles]

/-- Where it is moved, the uploads are marked before. -/
theorem parametersOf_hints_promoted (sources : List Hint.Source) (path : String) :
    Upload.parametersOf (Hint.operation sources path (Upload.promoted (responsesWithoutFiles o)))
      = (Upload.parametersOf o).map fun p =>
          Hint.parameter sources (some path) (Upload.markInline p) := by
  unfold Hint.operation
  rw [parametersOf_modifyField, parametersOf_promoted, parametersOf_responsesWithoutFiles,
    List.map_map]
  rfl

end Operation

/-- **The operations of a finished document**: without uploads in their responses, moved
if they list uploads, and with hints. -/
theorem mem_operationsOf_finish {d : Document} {config : Config} {o : Json}
    (h : o ∈ operationsOf (d.finish config).paths) :
    ∃ o' ∈ operationsOf d.paths, ∃ sources path,
      o = Hint.operation sources path (responsesWithoutFiles o') ∨
        o = Hint.operation sources path (Upload.promoted (responsesWithoutFiles o')) := by
  obtain ⟨path, o₂, ho₂, rfl⟩ := mem_operationsOf_mapFields h
  obtain ⟨o₁, ho₁, hmoved⟩ := mem_operationsOf_promoteItem ho₂
  obtain ⟨-, o', ho', rfl⟩ :=
    mem_operationsOf_mapFields (f := fun _ => responsesWithoutFiles) ho₁
  rcases hmoved with rfl | rfl
  · exact ⟨o', ho', _, path, Or.inl rfl⟩
  · exact ⟨o', ho', _, path, Or.inr rfl⟩

/-- **Responses are free of uploads**, whatever they were before. -/
theorem fileFree_of_mem_responseSchemas {d : Document} {config : Config} {o : Json}
    (ho : o ∈ operationsOf (d.finish config).paths) {x : Json} (hx : x ∈ responseSchemas o) :
    x.FileFree := by
  obtain ⟨o', -, sources, path, ho | ho⟩ := mem_operationsOf_finish ho
  · rw [ho, Hint.operation, responseSchemas_modifyField] at hx
    obtain ⟨y, rfl⟩ := mem_responseSchemas_responsesWithoutFiles o' hx
    exact fileFree_withoutFiles y
  · rw [ho, Hint.operation, responseSchemas_modifyField, responseSchemas_promoted] at hx
    obtain ⟨y, rfl⟩ := mem_responseSchemas_responsesWithoutFiles o' hx
    exact fileFree_withoutFiles y

/-- **What operations list stays right.** -/
theorem formFilesOnly_of_mem_parametersOf {d : Document} {config : Config}
    (h : ∀ o ∈ operationsOf d.paths, ∀ p ∈ Upload.parametersOf o, p.FormFilesOnly) {o : Json}
    (ho : o ∈ operationsOf (d.finish config).paths) {p : Json} (hp : p ∈ Upload.parametersOf o) :
    p.FormFilesOnly := by
  obtain ⟨o', ho', sources, path, ho | ho⟩ := mem_operationsOf_finish ho
  · rw [ho, parametersOf_hints] at hp
    obtain ⟨q, hq, rfl⟩ := List.mem_map.1 hp
    exact Hint.formFilesOnly_parameter sources (some path) (h o' ho' q hq)
  · rw [ho, parametersOf_hints_promoted] at hp
    obtain ⟨q, hq, rfl⟩ := List.mem_map.1 hp
    exact Hint.formFilesOnly_parameter sources (some path)
      (Upload.formFilesOnly_markInline (h o' ho' q hq))

/-! ## What finishing does to shared parameters -/

namespace Upload

/-- Marking once is enough. -/
theorem mark_mark (p : Json) : mark (mark p) = mark p := by
  by_cases h : isUpload p = true
  · have htype : p.field? "type" = some fileType := isUpload_iff.1 h
    have hmark : mark p = asFormData p := if_pos h
    have hagain : isUpload (mark p) = true := by
      rw [isUpload_iff, field?_mark_of_ne (by decide)]
      exact htype
    rw [mark, if_pos hagain, hmark]
    cases p with
    | object t => exact congrArg object (t.insert_insert "in" _ _)
    | _ => rfl
  · have hmark : mark p = p := if_neg h
    rw [hmark, hmark]

/-- The keys of the shared parameters that an operation lists. -/
def sharedKeys (operation : Json) : List String := (parametersOf operation).filterMap sharedKey?

/-- The keys of the shared parameters that a path item lists under `get`. -/
def keysUnderGet (item : Json) : List String :=
  match item.field? "get" with
  | some operation => sharedKeys operation
  | none => []

/-- **The shared parameters that are marked** are those that are listed under `get`. -/
theorem foldl_markSharedOfItem (items : List Json) (shared : Table Json) :
    items.foldl markSharedOfItem shared
      = (items.flatMap keysUnderGet).foldl (fun t key => t.modify key mark) shared := by
  induction items generalizing shared with
  | nil => rfl
  | cons item rest ih =>
    rw [List.foldl_cons, List.flatMap_cons, List.foldl_append, ih]
    refine congrArg (List.foldl _ · _) ?_
    unfold markSharedOfItem keysUnderGet
    cases item.field? "get" with
    | none => rfl
    | some operation => rfl

end Upload

namespace Document

/-- The keys of the shared parameters that operations under `get` list. -/
def keysUnderGet (d : Document) : List String := d.paths.values.flatMap Upload.keysUnderGet

theorem keysUnderGet_removeFileTypes (d : Document) :
    d.removeFileTypes.keysUnderGet = d.keysUnderGet := by
  show (d.paths.map (mapFields responsesWithoutFiles)).values.flatMap _ = _
  rw [Table.values_map, List.flatMap_map]
  refine List.flatMap_congr fun item _ => ?_
  have hget : (mapFields responsesWithoutFiles item).field? "get"
      = (item.field? "get").map responsesWithoutFiles := by
    cases item with
    | object methods => exact methods.get?_map responsesWithoutFiles "get"
    | _ => rfl
  unfold Upload.keysUnderGet
  rw [hget]
  cases item.field? "get" with
  | none => rfl
  | some operation =>
    show (Upload.parametersOf (responsesWithoutFiles operation)).filterMap _ = _
    rw [parametersOf_responsesWithoutFiles]
    rfl

/-- **The shared parameters that are marked** when operations are moved. -/
theorem get?_parameters_promoteUploads (d : Document) (key : String) :
    d.promoteUploads.parameters.get? key
      = if key ∈ d.keysUnderGet then (d.parameters.get? key).map Upload.mark
        else d.parameters.get? key := by
  show (d.paths.values.foldl Upload.markSharedOfItem d.parameters).get? key = _
  rw [Upload.foldl_markSharedOfItem, Table.get?_foldl_modify Upload.mark_mark]
  rfl

/-- **The shared parameters of a finished document**: marked if they are listed under
`get`, and with hints. -/
theorem get?_parameters_finish (d : Document) (config : Config) :
    ∃ sources, ∀ key, (d.finish config).parameters.get? key
      = (d.parameters.get? key).map fun p =>
          Hint.parameter sources none (if key ∈ d.keysUnderGet then Upload.mark p else p) := by
  refine ⟨Hint.sources config d.removeFileTypes.promoteUploads.paths, fun key => ?_⟩
  show (d.removeFileTypes.promoteUploads.parameters.map (Hint.parameter _ none)).get? key = _
  rw [Table.get?_map, get?_parameters_promoteUploads, keysUnderGet_removeFileTypes]
  split
  · rw [Option.map_map]
    rfl
  · rfl

end Document

/-- **A parameter that travels in the query**, with no schemas in it but that of its
elements. -/
structure Json.InQuery (p : Json) : Prop where
  location : p.field? "in" = some (.string "query")
  schema : p.field? "schema" = none
  properties : p.field? "properties" = none

/-- **When a shared parameter is right in the end**: its elements are no uploads, and if
it is one itself, it is listed. -/
theorem Json.InQuery.formFilesOnly_iff {p : Json} (hp : p.InQuery) (sources : List Hint.Source)
    (listed : Prop) [Decidable listed] :
    (Hint.parameter sources none (if listed then Upload.mark p else p)).FormFilesOnly ↔
      (∀ x, p.field? "items" = some x → x.FileFree) ∧
        (p.field? "type" = some fileType → listed) := by
  have hsame {key : String} (hkey : key ≠ "in") :
      (if listed then Upload.mark p else p).field? key = p.field? key := by
    split
    · exact Upload.field?_mark_of_ne hkey p
    · rfl
  constructor
  · intro h
    constructor
    · rw [← hsame (by decide), ← Hint.field?_parameter sources none (by decide) (by decide)]
      exact h.items
    · intro htype
      by_contra hlisted
      have hlocation := h.location
      rw [if_neg hlisted, Hint.field?_parameter sources none (by decide) (by decide),
        Hint.field?_parameter sources none (by decide) (by decide), hp.location] at hlocation
      exact absurd (hlocation htype) (by decide)
  · rintro ⟨hitems, hlisted⟩
    refine Hint.formFilesOnly_parameter sources none ?_
    have hschema : ∀ x, p.field? "schema" = some x → x.FileFree := by
      rw [hp.schema]
      exact fun _ h => nomatch h
    have hproperties : ∀ x, p.field? "properties" = some x → x.PropertiesFree := by
      rw [hp.properties]
      exact fun _ h => nomatch h
    split
    · exact Upload.formFilesOnly_mark hschema hitems hproperties
    · next hnot => exact ⟨fun htype => absurd (hlisted htype) hnot, hschema, hitems, hproperties⟩

/-- **When a finished document has uploads in forms only**, given that its operations
list nothing wrong and its shared parameters travel in the query: no elements of a
shared parameter may be uploads, and each that is one must be listed under `get`. -/
theorem Document.onlyFormFiles_finish_iff {d : Document} {config : Config}
    (hkeys : d.parameters.keys.Nodup)
    (hlisted : ∀ o ∈ operationsOf d.paths, ∀ p ∈ Upload.parametersOf o, p.FormFilesOnly)
    (hshared : ∀ e ∈ d.parameters.entries, e.2.InQuery) :
    (d.finish config).OnlyFormFiles ↔ ∀ e ∈ d.parameters.entries,
      (∀ x, e.2.field? "items" = some x → x.FileFree) ∧
        (e.2.field? "type" = some fileType → e.1 ∈ d.keysUnderGet) := by
  obtain ⟨sources, hfinish⟩ := d.get?_parameters_finish config
  have hkeys' : (d.finish config).parameters.keys.Nodup := by
    rw [keys_parameters_finish]
    exact hkeys
  constructor
  · rintro h ⟨key, p⟩ he
    have hget := hfinish key
    rw [Table.get?_of_mem_entries hkeys he] at hget
    have hright := h.shared _ (Table.mem_entries_of_get? hget)
    exact ((hshared _ he).formFilesOnly_iff sources _).1 hright
  · intro h
    -- only the shared parameters depend on what is assumed of the document
    refine ⟨fun e he => ?_, fun o ho x hx => fileFree_of_mem_responseSchemas ho hx,
      fun o ho p hp => formFilesOnly_of_mem_parametersOf hlisted ho hp, fun e he => ?_⟩
    · obtain ⟨x, hx, hhints⟩ := Table.mem_entries_map.1 he
      obtain ⟨y, -, hfree⟩ := Table.mem_entries_map.1 hx
      dsimp only at hfree
      rw [hhints, hfree]
      exact Hint.fileFree_nested _ (fileFree_withoutFiles y)
    · obtain ⟨key, p⟩ := e
      have hget := (hfinish key).symm.trans (Table.get?_of_mem_entries hkeys' he)
      obtain ⟨p', hp', rfl⟩ := Option.map_eq_some_iff.1 hget
      have he' := Table.mem_entries_of_get? hp'
      exact ((hshared _ he').formFilesOnly_iff sources _).2 (h _ he')

end SwaggerForge
