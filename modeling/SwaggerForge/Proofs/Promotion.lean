import SwaggerForge.Proofs.Uploads

/-!
# Moving operations loses none, or one

An operation with uploads moves from `get` to `post`. Told by the operations of a path item, as
entries of methods and operations, each stays what it is and where it is, but for the one that
moves (`Upload.Moves`), and of that one only what has to do with forms changes
(`Upload.AsksForForm`).

A path item keeps its operations if these are all that there are afterwards
(`Upload.Keeps`). It does unless there is an operation under `post` already: then the one that
moves is written over it (`Upload.Overwrites`), and that one is the only one that is lost
(`Document.promoteUploads_exact`).
-/

namespace SwaggerForge

open Json

namespace Upload

/-! ## What changes of an operation -/

/-- **A parameter that may have become form data**, as it does if it is an upload. -/
inductive Marked : Json → Json → Prop
  | same (p : Json) : Marked p p
  | upload {t : Table Json} (type : t.get? "type" = some fileType) :
      Marked (.object t) (.object (t.insert "in" (.string "formData")))

theorem marked_mark (p : Json) : Marked p (mark p) := by
  unfold mark
  split
  · next h =>
    cases p with
    | object t => exact .upload (isUpload_iff.1 h)
    | _ => cases isUpload_iff.1 h
  · exact .same p

theorem marked_markInline (p : Json) : Marked p (markInline p) := by
  unfold markInline
  split
  · exact .same p
  · exact marked_mark p

/-- **An operation that now asks for a form.** Nothing else is changed but that the uploads among
its parameters are form data. -/
structure AsksForForm (o o' : Json) : Prop where
  format : o'.field? "x-requestFormat" = some (.string "file")
  parameters : ∃ ps ps', o.field? "parameters" = some (.array ps) ∧
    o'.field? "parameters" = some (.array ps') ∧ List.Forall₂ Marked ps ps'
  others : ∀ key, key ≠ "x-requestFormat" → key ≠ "parameters" → o'.field? key = o.field? key

/-- An operation that lists an upload is an object with a list of parameters. -/
theorem exists_parameters_of_listsUpload {shared : Table Json} {o : Json}
    (h : listsUpload shared o = true) :
    ∃ t ps, o = .object t ∧ t.get? "parameters" = some (.array ps) := by
  obtain ⟨p, hp, -⟩ := List.any_eq_true.1 h
  unfold parametersOf at hp
  split at hp
  · next ps hps =>
    cases o with
    | object t => exact ⟨t, ps, rfl, hps⟩
    | _ => cases hps
  · cases hp

theorem asksForForm_promoted {shared : Table Json} {o : Json} (h : listsUpload shared o = true) :
    AsksForForm o (promoted o) := by
  obtain ⟨t, ps, rfl, hps⟩ := exists_parameters_of_listsUpload h
  have hother {key : String} (hkey : key ≠ "x-requestFormat") :
      (promoted (.object t)).field? key
        = if key = "parameters" then (t.get? key).map (Json.mapItems markInline)
          else t.get? key := by
    unfold promoted
    rw [field?_setField_of_ne hkey, field?_modifyField]
    rfl
  constructor
  · show Table.get? (Table.insert _ _ _) "x-requestFormat" = _
    rw [Table.get?_insert, if_pos rfl]
  · refine ⟨ps, ps.map markInline, hps, ?_, ?_⟩
    · rw [hother (by decide), if_pos rfl, hps]
      rfl
    · exact List.forall₂_map_right_iff.2 (List.forall₂_same.2 fun p _ => marked_markInline p)
  · intro key hformat hparameters
    rw [hother hformat, if_neg hparameters]
    rfl

/-! ## What becomes of the operations of a path item -/

section PathItem

variable (shared : Table Json)

/-- **What becomes of an operation** under its method: one under `get` that lists an upload moves
to `post` and asks for a form, any other one stays. -/
inductive Moves : String × Json → String × Json → Prop
  | stays {method : String} {o : Json} (plain : method = "get" → listsUpload shared o = false) :
      Moves (method, o) (method, o)
  | toPost {o o' : Json} (lists : listsUpload shared o = true) (asks : AsksForForm o o') :
      Moves ("get", o) ("post", o')

/-- **A path item that keeps its operations**: what is there afterwards is what became of each of
them, in whatever order. -/
def Keeps (methods methods' : Table Json) : Prop :=
  ∃ es, List.Forall₂ (Moves shared) methods.entries es ∧ methods'.entries.Perm es

/-- **An operation moves to where another one is.** -/
def Overwrites (methods : Table Json) : Prop :=
  "post" ∈ methods.keys ∧ ∃ o, methods.get? "get" = some o ∧ listsUpload shared o = true

/-- The operations of a path item without those under `post`. -/
def withoutPost (methods : Table Json) : Table Json :=
  ⟨methods.entries.filter fun e => e.1 != "post"⟩

/-- The entry that an operation has when operations with uploads have moved. -/
def moved (e : String × Json) : String × Json :=
  if e.1 = "get" ∧ listsUpload shared e.2 = true then ("post", promoted e.2) else e

variable {shared} {methods methods' : Table Json}

theorem moves_moved (e : String × Json) : Moves shared e (moved shared e) := by
  obtain ⟨method, o⟩ := e
  unfold moved
  split
  · next h =>
    obtain ⟨rfl, hlists⟩ : method = "get" ∧ listsUpload shared o = true := h
    exact .toPost hlists (asksForForm_promoted hlists)
  · next h => exact .stays fun hget => Bool.eq_false_iff.2 fun hlists => h ⟨hget, hlists⟩

theorem keeps_of_perm (h : methods'.entries.Perm (methods.entries.map (moved shared))) :
    Keeps shared methods methods' :=
  ⟨_, List.forall₂_map_right_iff.2 (List.forall₂_same.2 fun e _ => moves_moved e), h⟩

/-- Where all operations are kept, there are as many as before. -/
theorem Keeps.length_eq (h : Keeps shared methods methods') :
    methods'.entries.length = methods.entries.length := by
  obtain ⟨es, hmoves, hperm⟩ := h
  rw [hperm.length_eq, hmoves.length_eq]

/-- **A path item without an operation to move** keeps its operations as they are. -/
theorem exists_promoteItem_of_not_lists (hn : methods.keys.Nodup)
    (h : ∀ o, methods.get? "get" = some o → listsUpload shared o = false) :
    ∃ methods', promoteItem shared (.object methods) = .object methods' ∧ methods'.keys.Nodup ∧
      methods'.entries.Perm methods.entries ∧ Keeps shared methods methods' := by
  have hstays {methods' : Table Json} (hperm : methods'.entries.Perm methods.entries) :
      Keeps shared methods methods' := by
    refine ⟨methods.entries, List.forall₂_same.2 fun e he => ?_, hperm⟩
    obtain ⟨method, o⟩ := e
    refine .stays ?_
    rintro rfl
    exact h o (Table.get?_of_mem_entries hn he)
  unfold promoteItem
  dsimp only
  cases htaken : methods.swapRemove "get" with
  | none => exact ⟨methods, rfl, hn, .refl _, hstays (.refl _)⟩
  | some taken =>
    obtain ⟨o, others⟩ := taken
    have hperm := Table.perm_of_swapRemove htaken
    obtain ⟨hgone, hothers⟩ := Table.nodup_of_swapRemove hn htaken
    have hget := Table.get?_of_mem_entries hn (Table.mem_of_swapRemove htaken).1
    have hback : (others.insert "get" o).entries.Perm methods.entries := by
      rw [Table.insert_of_not_mem hgone]
      exact (List.perm_append_singleton _ _).trans hperm.symm
    dsimp only
    rw [h o hget, if_neg Bool.false_ne_true]
    exact ⟨_, rfl, Table.nodup_keys_insert hothers _ _, hback, hstays hback⟩

/-- **A path item with an operation to move** keeps all operations but one under `post`. -/
theorem exists_promoteItem_of_lists (hn : methods.keys.Nodup) {o : Json}
    (hget : methods.get? "get" = some o) (hlists : listsUpload shared o = true) :
    ∃ methods', promoteItem shared (.object methods) = .object methods' ∧ methods'.keys.Nodup ∧
      Keeps shared (withoutPost methods) methods' := by
  cases htaken : methods.swapRemove "get" with
  | none =>
    have hmem := Table.mem_keys_iff_get?.2 ⟨o, hget⟩
    exact absurd hmem (Table.swapRemove_eq_none_iff.1 htaken)
  | some taken =>
    obtain ⟨o', others⟩ := taken
    have hperm := Table.perm_of_swapRemove htaken
    obtain ⟨hgone, hothers⟩ := Table.nodup_of_swapRemove hn htaken
    have hget' := Table.get?_of_mem_entries hn (Table.mem_of_swapRemove htaken).1
    obtain rfl : o = o' := Option.some.inj (hget.symm.trans hget')
    refine ⟨others.insert "post" (promoted o), ?_, Table.nodup_keys_insert hothers _ _, ?_⟩
    · unfold promoteItem
      dsimp only
      rw [htaken]
      exact if_pos hlists
    · refine keeps_of_perm ((Table.perm_insert hothers "post" (promoted o)).trans ?_)
      -- of the others none is under `get`, so they stay
      have hrest : (others.entries.filter fun e => e.1 != "post").map (moved shared)
          = others.entries.filter fun e => e.1 != "post" := by
        refine (List.map_congr_left fun e he => ?_).trans (List.map_id _)
        refine if_neg fun h => hgone (List.mem_map.2 ⟨e, (List.mem_filter.1 he).1, h.1⟩)
      have hmoved : moved shared ("get", o) = ("post", promoted o) := if_pos ⟨rfl, hlists⟩
      have hfiltered := (hperm.filter fun e => e.1 != "post").map (moved shared)
      rw [List.filter_cons_of_pos rfl, List.map_cons, hmoved, hrest] at hfiltered
      exact hfiltered.symm

variable (shared) in
/-- **What moving does to the operations of a path item**: if it writes over one, only that one is
lost, and otherwise all are kept. -/
theorem exists_promoteItem_object (hn : methods.keys.Nodup) :
    ∃ methods', promoteItem shared (.object methods) = .object methods' ∧ methods'.keys.Nodup ∧
      (Overwrites shared methods → Keeps shared (withoutPost methods) methods') ∧
      (Keeps shared methods methods' ↔ ¬ Overwrites shared methods) := by
  by_cases hlists : ∃ o, methods.get? "get" = some o ∧ listsUpload shared o = true
  · obtain ⟨o, hget, hlists⟩ := hlists
    obtain ⟨methods', hitem, hn', hkeeps⟩ := exists_promoteItem_of_lists hn hget hlists
    refine ⟨methods', hitem, hn', fun _ => hkeeps, fun hall hover => ?_, fun hnot => ?_⟩
    · -- the operation under `post` is missing
      obtain ⟨e, he, hpost⟩ := List.mem_map.1 hover.1
      have hlt : (withoutPost methods).entries.length < methods.entries.length :=
        List.length_filter_lt_length_iff_exists.2 ⟨e, he, by rw [hpost]; decide⟩
      rw [← hkeeps.length_eq, hall.length_eq] at hlt
      exact Nat.lt_irrefl _ hlt
    · have hall : withoutPost methods = methods := by
        refine congrArg Table.mk (List.filter_eq_self.2 fun e he => bne_iff_ne.2 fun hpost => ?_)
        exact hnot ⟨List.mem_map.2 ⟨e, he, hpost⟩, o, hget, hlists⟩
      rwa [hall] at hkeeps
  · have hnone : ∀ o, methods.get? "get" = some o → listsUpload shared o = false :=
      fun o hget => Bool.eq_false_iff.2 fun h => hlists ⟨o, hget, h⟩
    obtain ⟨methods', hitem, hn', -, hkeeps⟩ := exists_promoteItem_of_not_lists hn hnone
    exact ⟨methods', hitem, hn', fun hover => absurd hover.2 hlists,
      fun _ hover => hlists hover.2, fun _ => hkeeps⟩

end PathItem

end Upload

/-! ## Documents -/

namespace Document

/-- **Shared parameters** are there as before, and at most form data now. -/
theorem rel_parameters_promoteUploads (d : Document) (key : String) :
    Option.Rel Upload.Marked (d.parameters.get? key) (d.promoteUploads.parameters.get? key) := by
  rw [get?_parameters_promoteUploads]
  cases d.parameters.get? key with
  | none =>
    rw [Option.map_none, ite_self]
    exact .none
  | some p =>
    split
    · exact .some (Upload.marked_mark p)
    · exact .some (.same p)

/-- **Moving operations with uploads, path item by path item.** Methods stay distinct. The
operations of the path item are kept – at most one moves from `get` to `post` and asks for a
form, with its uploads as form data – unless one is under `post` already where one moves to: that
one is lost, and only that one. Shared parameters are kept, at most as form data. -/
theorem promoteUploads_exact {d : Document} {path : String} {methods : Table Json}
    (hitem : d.paths.get? path = some (.object methods)) (hn : methods.keys.Nodup) :
    ∃ methods', d.promoteUploads.paths.get? path = some (.object methods') ∧
      methods'.keys.Nodup ∧
      (Upload.Overwrites d.parameters methods →
        Upload.Keeps d.parameters (Upload.withoutPost methods) methods') ∧
      (Upload.Keeps d.parameters methods methods' ↔ ¬ Upload.Overwrites d.parameters methods) ∧
      ∀ key, Option.Rel Upload.Marked (d.parameters.get? key)
        (d.promoteUploads.parameters.get? key) := by
  obtain ⟨methods', hmoved, h⟩ := Upload.exists_promoteItem_object d.parameters hn
  have hget : d.promoteUploads.paths.get? path = some (.object methods') := by
    show (d.paths.map (Upload.promoteItem d.parameters)).get? path = _
    rw [Table.get?_map, hitem, Option.map_some, hmoved]
  exact ⟨methods', hget, h.1, h.2.1, h.2.2, d.rel_parameters_promoteUploads⟩

/-- A document in which media can be added in two ways, by a title or as a file. -/
def mediaDocument : Document where
  paths := Table.ofList [("/service/media/action/add", fields [
    ("post", fields [
      ("operationId", .string "media.add"),
      ("x-requestFormat", .string "post"),
      ("parameters", .array [fields [("name", .string "body"), ("in", .string "body")]])]),
    ("get", fields [
      ("operationId", .string "media.add"),
      ("x-requestFormat", .string "get"),
      ("parameters", .array [fields [
        ("name", .string "file"), ("in", .string "formData"), ("type", fileType)]])])])]

/-- **Adding media by a title** is lost. -/
theorem not_keeps_mediaDocument :
    ∃ methods, mediaDocument.paths.get? "/service/media/action/add" = some (.object methods) ∧
      methods.keys.Nodup ∧ ∃ methods', mediaDocument.promoteUploads.paths.get?
        "/service/media/action/add" = some (.object methods') ∧
        ¬ Upload.Keeps mediaDocument.parameters methods methods' := by
  obtain ⟨methods, hitem, hn, hover⟩ : ∃ methods,
      mediaDocument.paths.get? "/service/media/action/add" = some (.object methods) ∧
        methods.keys.Nodup ∧ Upload.Overwrites mediaDocument.parameters methods :=
    ⟨_, rfl, by decide, by decide, _, rfl, by decide⟩
  obtain ⟨methods', hget, -, -, hiff, -⟩ := mediaDocument.promoteUploads_exact hitem hn
  exact ⟨methods, hitem, hn, methods', hget, fun hkeeps => hiff.1 hkeeps hover⟩

end Document

end SwaggerForge
