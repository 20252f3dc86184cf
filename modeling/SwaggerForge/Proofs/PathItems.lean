import SwaggerForge.Proofs.Placement

/-!
# The operations of a finished document

Of the operations that are put under one path and one method the last one stands, so a path
item has at most one operation under `get` and one under `post` (`PathItem`). Finishing
moves an operation that lists an upload from `get` to `post`, where it takes the place of
what stood there. What is left is told by `Document.mem_operationsOf_finish_iff`: every
operation under `get`, and every one under `post` beside which no operation is moved.
-/

namespace SwaggerForge

open Json

/-! ## Path items -/

/-- **A path item with these operations** under `get` and `post`, in either order, and no
others. -/
inductive PathItem : Option Json → Option Json → Json → Prop
  | get (q : Json) : PathItem (some q) none (fields [("get", q)])
  | post (b : Json) : PathItem none (some b) (fields [("post", b)])
  | getPost (q b : Json) : PathItem (some q) (some b) (fields [("get", q), ("post", b)])
  | postGet (q b : Json) : PathItem (some q) (some b) (fields [("post", b), ("get", q)])

namespace PathItem

variable {query? body? : Option Json} {item : Json} (h : PathItem query? body? item)
include h

theorem field?_get : item.field? "get" = query? := by
  cases h <;> rfl

theorem field?_post : item.field? "post" = body? := by
  cases h <;> rfl

theorem field?_eq_none {key : String} (hget : key ≠ "get") (hpost : key ≠ "post") :
    item.field? key = none := by
  have hother : key ∉ ["get", "post"] := by simp [hget, hpost]
  cases h <;> exact field?_fields_eq_none (by simp) hother

/-- The operations of a path item. -/
theorem mem_values_iff {methods : Table Json} (hitem : item = .object methods) {x : Json} :
    x ∈ methods.values ↔ query? = some x ∨ body? = some x := by
  cases h with
  | get q =>
    obtain rfl := object.inj hitem
    show x ∈ [q] ↔ _
    simp [eq_comm]
  | post b =>
    obtain rfl := object.inj hitem
    show x ∈ [b] ↔ _
    simp [eq_comm]
  | getPost q b =>
    obtain rfl := object.inj hitem
    show x ∈ [q, b] ↔ _
    simp [eq_comm]
  | postGet q b =>
    obtain rfl := object.inj hitem
    show x ∈ [b, q] ↔ _
    simp [eq_comm, or_comm]

theorem exists_object : ∃ methods, item = .object methods := by
  cases h <;> exact ⟨_, rfl⟩

theorem mapFields (f : Json → Json) :
    PathItem (query?.map f) (body?.map f) (item.mapFields f) := by
  cases h with
  | get q => exact .get (f q)
  | post b => exact .post (f b)
  | getPost q b => exact .getPost (f q) (f b)
  | postGet q b => exact .postGet (f q) (f b)

/-- **An operation that lists an upload** takes the place of what stands under `post`. -/
theorem promoteItem_of_lists {shared : Table Json} {q : Json} (hq : query? = some q)
    (hlists : Upload.listsUpload shared q = true) :
    PathItem none (some (Upload.promoted q)) (Upload.promoteItem shared item) := by
  cases h with
  | post b => cases hq
  | get q' =>
    obtain rfl := Option.some.inj hq
    have hmoved : Upload.promoteItem shared (fields [("get", q')])
        = fields [("post", Upload.promoted q')] := if_pos hlists
    rw [hmoved]
    exact .post _
  | getPost q' b =>
    obtain rfl := Option.some.inj hq
    have hmoved : Upload.promoteItem shared (fields [("get", q'), ("post", b)])
        = fields [("post", Upload.promoted q')] := if_pos hlists
    rw [hmoved]
    exact .post _
  | postGet q' b =>
    obtain rfl := Option.some.inj hq
    have hmoved : Upload.promoteItem shared (fields [("post", b), ("get", q')])
        = fields [("post", Upload.promoted q')] := if_pos hlists
    rw [hmoved]
    exact .post _

/-- All other operations stay under their methods. -/
theorem promoteItem_of_not_lists {shared : Table Json}
    (hlists : ∀ q, query? = some q → Upload.listsUpload shared q = false) :
    PathItem query? body? (Upload.promoteItem shared item) := by
  have hnot {q : Json} (hq : query? = some q) : ¬ Upload.listsUpload shared q = true :=
    Bool.eq_false_iff.1 (hlists q hq)
  cases h with
  | post b => exact .post b
  | get q =>
    have hstays : Upload.promoteItem shared (fields [("get", q)]) = fields [("get", q)] :=
      if_neg (hnot rfl)
    rw [hstays]
    exact .get q
  | getPost q b =>
    have hstays : Upload.promoteItem shared (fields [("get", q), ("post", b)])
        = fields [("post", b), ("get", q)] := if_neg (hnot rfl)
    rw [hstays]
    exact .postGet q b
  | postGet q b =>
    have hstays : Upload.promoteItem shared (fields [("post", b), ("get", q)])
        = fields [("post", b), ("get", q)] := if_neg (hnot rfl)
    rw [hstays]
    exact .postGet q b

theorem exists_promoteItem (shared : Table Json) :
    ∃ query? body?, PathItem query? body? (Upload.promoteItem shared item) := by
  by_cases hlists : ∃ q, query? = some q ∧ Upload.listsUpload shared q = true
  · obtain ⟨q, hq, hlists⟩ := hlists
    exact ⟨_, _, h.promoteItem_of_lists hq hlists⟩
  · exact ⟨_, _, h.promoteItem_of_not_lists fun q hq =>
      Bool.eq_false_iff.2 fun htrue => hlists ⟨q, hq, htrue⟩⟩

/-- An operation that is put in place takes the place of the one under its method. -/
theorem exists_insert {methods : Table Json} (hitem : item = .object methods) (style : Style)
    (x : Json) :
    ∃ query? body?, PathItem query? body? (.object (methods.insert style.method x)) := by
  cases h with
  | get q =>
    obtain rfl := object.inj hitem
    cases style with
    | query => exact ⟨_, _, .get x⟩
    | body => exact ⟨_, _, .getPost q x⟩
  | post b =>
    obtain rfl := object.inj hitem
    cases style with
    | query => exact ⟨_, _, .postGet x b⟩
    | body => exact ⟨_, _, .post x⟩
  | getPost q b =>
    obtain rfl := object.inj hitem
    cases style with
    | query => exact ⟨_, _, .getPost x b⟩
    | body => exact ⟨_, _, .getPost q x⟩
  | postGet q b =>
    obtain rfl := object.inj hitem
    cases style with
    | query => exact ⟨_, _, .postGet x b⟩
    | body => exact ⟨_, _, .postGet q x⟩

end PathItem

/-- **What stands under a path** once operations are put in place is a path item. -/
theorem exists_pathItem {operations : List PlacedOperation} {path : String} {item : Json}
    (h : (operations.foldl addOperation ∅).get? path = some item) :
    ∃ query? body?, PathItem query? body? item := by
  induction operations using List.reverseRecOn generalizing item with
  | nil => cases h
  | append_singleton operations o ih =>
    rw [List.foldl_append] at h
    change (addOperation (operations.foldl addOperation ∅) o).get? path = some item at h
    unfold addOperation at h
    dsimp only at h
    rw [Table.get?_insert] at h
    split at h
    · next hpath =>
      obtain rfl := Option.some.inj h
      split
      · next methods hold =>
        obtain ⟨query?, body?, hitem⟩ := ih (hpath ▸ hold)
        exact hitem.exists_insert rfl o.operation.style o.operation.toJson
      · show ∃ query? body?, PathItem query? body?
          (fields [(o.operation.style.method, o.operation.toJson)])
        cases o.operation.style with
        | query => exact ⟨_, _, .get _⟩
        | body => exact ⟨_, _, .post _⟩
    · exact ih h

/-! ## Finished documents -/

namespace Document

/-- **What finishing leaves under a path**: the operation under `get`, moved if it lists an
upload, and the one under `post` unless another is moved there. -/
theorem mem_finished_item_iff {query? body? : Option Json} {item : Json}
    (h : PathItem query? body? item) (shared : Table Json) (g : Json → Json) {methods : Table Json}
    (hmethods : (Upload.promoteItem shared (item.mapFields responsesWithoutFiles)).mapFields g
      = .object methods) {x : Json} : x ∈ methods.values ↔
      (∃ q, query? = some q ∧ x = g (if Upload.listsUpload shared q then
        Upload.promoted (responsesWithoutFiles q) else responsesWithoutFiles q)) ∨
      ∃ b, body? = some b ∧ (∀ q, query? = some q → Upload.listsUpload shared q = false) ∧
        x = g (responsesWithoutFiles b) := by
  have hfree := h.mapFields responsesWithoutFiles
  by_cases hlists : ∃ q, query? = some q ∧ Upload.listsUpload shared q = true
  · obtain ⟨q, rfl, hq⟩ := hlists
    have hmoved := hfree.promoteItem_of_lists rfl
      ((Upload.listsUpload_responsesWithoutFiles shared q).trans hq)
    rw [(hmoved.mapFields g).mem_values_iff hmethods]
    constructor
    · rintro (hx | hx)
      · cases hx
      · exact Or.inl ⟨q, rfl, by rw [if_pos hq]; exact (Option.some.inj hx).symm⟩
    · rintro (⟨q', hq', rfl⟩ | ⟨b, -, hnone, -⟩)
      · obtain rfl := Option.some.inj hq'
        rw [if_pos hq]
        exact Or.inr rfl
      · exact absurd hq (Bool.eq_false_iff.1 (hnone q rfl))
  · have hnone : ∀ q, query? = some q → Upload.listsUpload shared q = false := fun q hq =>
      Bool.eq_false_iff.2 fun htrue => hlists ⟨q, hq, htrue⟩
    have hstays : PathItem (query?.map responsesWithoutFiles) (body?.map responsesWithoutFiles)
        (Upload.promoteItem shared (item.mapFields responsesWithoutFiles)) := by
      refine hfree.promoteItem_of_not_lists fun q' hq' => ?_
      obtain ⟨q, hq, rfl⟩ := Option.map_eq_some_iff.1 hq'
      rw [Upload.listsUpload_responsesWithoutFiles]
      exact hnone q hq
    rw [(hstays.mapFields g).mem_values_iff hmethods, Option.map_map, Option.map_map,
      Option.map_eq_some_iff, Option.map_eq_some_iff]
    refine or_congr (exists_congr fun q => and_congr_right fun hq => ?_)
      (exists_congr fun b => and_congr_right fun _ => ?_)
    · rw [if_neg (Bool.eq_false_iff.1 (hnone q hq))]
      exact eq_comm
    · rw [and_iff_right hnone]
      exact eq_comm

/-- What stands under a path in a finished document was under the same path before. -/
theorem exists_of_mem_finished {d : Document} (hitems : ∀ path item,
      d.paths.get? path = some item → ∃ query? body?, PathItem query? body? item)
    {config : Config} {path : String} {methods : Table Json}
    (h : (d.finish config).paths.get? path = some (.object methods)) {x : Json}
    (hx : x ∈ methods.values) : ∃ o ∈ operationsOf d.paths,
      x = Hint.operation (d.pickSources config) path (responsesWithoutFiles o) ∨
        x = Hint.operation (d.pickSources config) path
          (Upload.promoted (responsesWithoutFiles o)) := by
  rw [get?_paths_finish] at h
  obtain ⟨item, hitem, hmethods⟩ := Option.map_eq_some_iff.1 h
  obtain ⟨query?, body?, hform⟩ := hitems path item hitem
  obtain ⟨before, hbefore⟩ := hform.exists_object
  have hmem {o : Json} (ho : query? = some o ∨ body? = some o) : o ∈ operationsOf d.paths := by
    rw [hbefore] at hitem
    exact mem_operationsOf.2 ⟨path, before, Table.mem_entries_of_get? hitem,
      Table.mem_values.1 ((hform.mem_values_iff hbefore).2 ho)⟩
  rcases (mem_finished_item_iff hform _ _ hmethods).1 hx with ⟨q, hq, rfl⟩ | ⟨b, hb, -, rfl⟩
  · refine ⟨q, hmem (Or.inl hq), ?_⟩
    split
    · exact Or.inr rfl
    · exact Or.inl rfl
  · exact ⟨b, hmem (Or.inr hb), Or.inl rfl⟩

/-- **The operations of a finished document**, made of path items under distinct paths: those
under `get`, moved if they list an upload, and those under `post` that no moved one
replaces. -/
theorem mem_operationsOf_finish_iff {d : Document} (hn : d.paths.keys.Nodup)
    (hitems : ∀ path item, d.paths.get? path = some item →
      ∃ query? body?, PathItem query? body? item) (config : Config) :
    ∃ sources, ∀ x, x ∈ operationsOf (d.finish config).paths ↔
      ∃ path item, d.paths.get? path = some item ∧
        ((∃ q, item.field? "get" = some q ∧ x = Hint.operation sources path
          (if Upload.listsUpload d.parameters q then
            Upload.promoted (responsesWithoutFiles q) else responsesWithoutFiles q)) ∨
        ∃ b, item.field? "post" = some b ∧
          (∀ q, item.field? "get" = some q → Upload.listsUpload d.parameters q = false) ∧
          x = Hint.operation sources path (responsesWithoutFiles b)) := by
  have hn' : (d.finish config).paths.keys.Nodup := by
    rw [keys_paths_finish]
    exact hn
  refine ⟨d.pickSources config, fun x => ?_⟩
  rw [mem_operationsOf]
  constructor
  · rintro ⟨path, methods, hpath, hx⟩
    have hfinished := Table.get?_of_mem_entries hn' hpath
    rw [get?_paths_finish] at hfinished
    obtain ⟨item, hitem, hmethods⟩ := Option.map_eq_some_iff.1 hfinished
    obtain ⟨query?, body?, hform⟩ := hitems path item hitem
    refine ⟨path, item, hitem, ?_⟩
    rw [hform.field?_get, hform.field?_post]
    exact (mem_finished_item_iff hform _ _ hmethods).1 (Table.mem_values.2 hx)
  · rintro ⟨path, item, hitem, hx⟩
    obtain ⟨query?, body?, hform⟩ := hitems path item hitem
    rw [hform.field?_get, hform.field?_post] at hx
    have hfinished := d.get?_paths_finish config path
    rw [hitem, Option.map_some] at hfinished
    obtain ⟨_, _, hmoved⟩ := (hform.mapFields responsesWithoutFiles).exists_promoteItem d.parameters
    obtain ⟨methods, hmethods⟩ := (hmoved.mapFields (Hint.operation (d.pickSources config) path)).exists_object
    rw [hmethods] at hfinished
    exact ⟨path, methods, Table.mem_entries_of_get? hfinished,
      Table.mem_values.1 ((mem_finished_item_iff hform _ _ hmethods).2 hx)⟩

end Document

end SwaggerForge
