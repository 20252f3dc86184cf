import SwaggerForge.Proofs.Idempotence
import SwaggerForge.Proofs.Retyping

/-!
# The passes on uploads, in either order

Of the passes that finish a document, the first two deal with uploads. One removes them from
definitions and from the responses of operations, the other one moves operations that list them.
Both go through the operations, and moving even writes one over another. Still neither sees what
the other one does: whether an operation lists an upload is a matter of its parameters and of the
shared ones, and what is removed is elsewhere.

So they can be exchanged in any document (`Document.passes_commute`), and all keys come in
the same order. Either way an upload that is sent stays one, and travels in a form, while an upload
in a definition is a string.
-/

namespace SwaggerForge

open Json

/-! ## One path item -/

namespace Upload

variable {shared methods others : Table Json} {o : Json}

/-- A path item without an operation under `get` is left alone. -/
theorem promoteItem_of_none (h : methods.swapRemove "get" = none) :
    promoteItem shared (.object methods) = .object methods := by
  unfold promoteItem
  dsimp only
  rw [h]

/-- **The operation under `get`** is put back under its new method. -/
theorem promoteItem_of_some (h : methods.swapRemove "get" = some (o, others)) :
    promoteItem shared (.object methods)
      = if listsUpload shared o = true then .object (others.insert "post" (promoted o))
        else .object (others.insert "get" o) := by
  unfold promoteItem
  dsimp only
  rw [h]

/-- **The operation that moves** is the same one in either order, and so is what it is when it has
moved. -/
theorem promoteItem_mapFields_responsesWithoutFiles (shared : Table Json) (item : Json) :
    promoteItem shared (item.mapFields responsesWithoutFiles)
      = (promoteItem shared item).mapFields responsesWithoutFiles := by
  cases item with
  | object methods =>
    have hmapped := methods.swapRemove_mapEntries (fun _ => responsesWithoutFiles) "get"
    cases htaken : methods.swapRemove "get" with
    | none =>
      rw [htaken] at hmapped
      rw [promoteItem_of_none htaken]
      exact promoteItem_of_none hmapped
    | some taken =>
      obtain ⟨o, others⟩ := taken
      rw [htaken] at hmapped
      rw [promoteItem_of_some htaken]
      refine (promoteItem_of_some hmapped).trans ?_
      rw [listsUpload_responsesWithoutFiles, ← responsesWithoutFiles_promoted]
      split
      · exact congrArg object (others.mapEntries_insert _ "post" (promoted o)).symm
      · exact congrArg object (others.mapEntries_insert _ "get" o).symm
  | _ => rfl

/-- **The operation that has moved** is found under its new method. -/
theorem field?_promoteItem_post {item : Json} (hget : item.field? "get" = some o)
    (hlists : listsUpload shared o = true) :
    (promoteItem shared item).field? "post" = some (promoted o) := by
  cases item with
  | object methods =>
    obtain ⟨⟨o', others⟩, htaken, rfl⟩ :=
      Option.map_eq_some_iff.1 ((methods.map_swapRemove "get").trans hget)
    rw [promoteItem_of_some htaken, if_pos hlists]
    show (others.insert "post" _).get? "post" = _
    rw [Table.get?_insert, if_pos rfl]
  | _ => cases hget

end Upload

/-! ## Documents -/

namespace Document

/-- **A document in which uploads are told apart**: those that are sent are form data, and those
in definitions are strings. -/
structure UploadsApart (d d' : Document) : Prop where
  /-- A shared upload that is listed under `get` stays one, as form data. -/
  shared {key : String} {p : Json} (listed : key ∈ d.keysUnderGet)
    (there : d.parameters.get? key = some p) (upload : p.field? "type" = some fileType) :
    ∃ p', d'.parameters.get? key = some p' ∧ p'.field? "type" = some fileType ∧
      p'.field? "in" = some (.string "formData")
  /-- So does an upload that is listed there itself, with the operation under `post`. -/
  inline {path : String} {o p : Json} (there : d.operation? path "get" = some o)
    (listed : p ∈ Upload.parametersOf o) (own : Upload.sharedKey? p = none)
    (upload : p.field? "type" = some fileType) :
    ∃ o', d'.operation? path "post" = some o' ∧ ∃ p' ∈ Upload.parametersOf o',
      p'.field? "type" = some fileType ∧ p'.field? "in" = some (.string "formData") ∧
      ∀ key, key ≠ "in" → p'.field? key = p.field? key
  /-- A definition that is an upload is a string, and so is any schema in one. -/
  definition {name : String} {x y : Json} {ways : List (Option String)}
    (there : d.definitions.get? name = some x) (inside : x.at? (ways.flatMap Role.inward) = some y)
    (upload : y.field? "type" = some fileType) :
    ∃ x' y', d'.definitions.get? name = some x' ∧
      x'.at? (ways.flatMap Role.inward) = some y' ∧ y'.field? "type" = some (.string "string")

theorem uploadsApart_promoteUploads_removeFileTypes (d : Document) :
    d.UploadsApart d.promoteUploads.removeFileTypes where
  shared {key p} listed there upload := by
    refine ⟨Upload.mark p, ?_, ?_, Upload.field?_mark_in upload⟩
    · show d.promoteUploads.parameters.get? key = _
      rw [get?_parameters_promoteUploads, if_pos listed, there]
      rfl
    · rw [Upload.field?_mark_of_ne (by decide), upload]
  inline {path o p} there listed own upload := by
    obtain ⟨item, hitem, hget⟩ := Option.bind_eq_some_iff.1 there
    have hmark : Upload.markInline p = Upload.mark p := by
      unfold Upload.markInline
      rw [own]
    have hlists : Upload.listsUpload d.parameters o = true := by
      refine List.any_eq_true.2 ⟨p, listed, ?_⟩
      unfold Upload.isListedUpload
      rw [own]
      exact Upload.isUpload_iff.2 upload
    refine ⟨responsesWithoutFiles (Upload.promoted o), ?_, Upload.mark p, ?_, ?_,
      Upload.field?_mark_in upload, fun key hkey => Upload.field?_mark_of_ne hkey p⟩
    · show (((d.paths.map (Upload.promoteItem d.parameters)).map _).get? path).bind _ = _
      rw [Table.get?_map, Table.get?_map, hitem]
      show ((Upload.promoteItem d.parameters item).mapFields _).field? "post" = _
      rw [Role.field?_mapFields, Upload.field?_promoteItem_post hget hlists]
      rfl
    · rw [parametersOf_responsesWithoutFiles, parametersOf_promoted, ← hmark]
      exact List.mem_map_of_mem listed
    · rw [Upload.field?_mark_of_ne (by decide), upload]
  definition {name x y ways} there inside upload := by
    refine ⟨x.withoutFiles, y.withoutFiles, ?_, ?_, ?_⟩
    · show (d.definitions.map withoutFiles).get? name = _
      rw [Table.get?_map, there]
      rfl
    · rw [show x.withoutFiles = Role.schema.rewrite x from rfl, Role.at?_rewrite, inside,
        Role.after_flatMap_inward]
      rfl
    · rw [field?_withoutFiles, upload]
      rfl

/-- **Removing uploads and moving operations** can be done in either order, with the same document
in the end, in which the uploads that are sent are told from those in definitions. -/
theorem passes_commute (d : Document) :
    d.removeFileTypes.promoteUploads = d.promoteUploads.removeFileTypes ∧
      d.UploadsApart d.removeFileTypes.promoteUploads := by
  have hshared : d.removeFileTypes.promoteUploads.parameters = d.promoteUploads.parameters := by
    show d.removeFileTypes.paths.values.foldl Upload.markSharedOfItem d.parameters
      = d.paths.values.foldl Upload.markSharedOfItem d.parameters
    rw [Upload.foldl_markSharedOfItem, Upload.foldl_markSharedOfItem]
    exact congrArg (List.foldl _ _) (keysUnderGet_removeFileTypes d)
  have hpaths :
      d.removeFileTypes.promoteUploads.paths = d.promoteUploads.removeFileTypes.paths := by
    show (d.paths.map (mapFields responsesWithoutFiles)).map (Upload.promoteItem d.parameters)
      = (d.paths.map (Upload.promoteItem d.parameters)).map (mapFields responsesWithoutFiles)
    refine (Table.mapEntries_mapEntries _ _ _).trans
      (Eq.trans ?_ (Table.mapEntries_mapEntries _ _ _).symm)
    exact Table.mapEntries_congr fun e _ =>
      Upload.promoteItem_mapFields_responsesWithoutFiles d.parameters e.2
  -- all else is changed by one of the two at most
  have hcommute : d.removeFileTypes.promoteUploads = d.promoteUploads.removeFileTypes :=
    congrArg₂ (fun parameters paths => ({ d with
      parameters, definitions := d.definitions.map withoutFiles, paths } : Document)) hshared hpaths
  rw [hcommute]
  exact ⟨rfl, d.uploadsApart_promoteUploads_removeFileTypes⟩

end Document

end SwaggerForge
