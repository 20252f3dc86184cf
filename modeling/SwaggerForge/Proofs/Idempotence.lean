import SwaggerForge.Proofs.Placement

/-!
# Finishing twice

A finished document is left as it is when it is finished again
(`Document.finish_finish`), with the order of all keys. All that is asked of the document
it was before is that no path item has a method twice (`Document.DistinctMethods`). Each of
the three passes leaves alone what it has done itself; that it also leaves alone what the
later ones have done is shown pass by pass.

* **Uploads in schemas.** Removing them is idempotent (`Json.withoutFiles_withoutFiles`), and
  hints bring none back: they are written to fields that are not looked at, and what they
  are written into is a schema without uploads before and after (`Hint.withoutFiles_nested`).
* **Uploads of operations.** After the pass a path item is *settled* (`Upload.Settled`): it
  has no operation under `get`, or one that lists no upload and that comes last. The last
  one is where taking it out and putting it back leads to. Hints keep path items settled,
  since they change neither types nor references.
* **Hints.** All that an annotation does is to write certain fields, which depend on the
  type of what is annotated (`Hint.annotateProperty_eq`, `Hint.annotateParameter_eq`). The
  type is not among them, so the same fields are written again. Where a pick list is offered
  from is read from the methods of path items, and hints change none.
-/

namespace SwaggerForge

open Json

/-! ## Changing parts of a value twice -/

namespace Json

section Twice

variable {f : Json → Json} (hf : ∀ x, f (f x) = f x)
include hf

theorem mapFields_mapFields (j : Json) : (j.mapFields f).mapFields f = j.mapFields f := by
  cases j with
  | object t => exact congrArg object (Table.mapEntries_twice fun e _ => hf e.2)
  | _ => rfl

theorem mapItems_mapItems (j : Json) : (j.mapItems f).mapItems f = j.mapItems f := by
  cases j with
  | array xs =>
    show array ((xs.map f).map f) = array (xs.map f)
    rw [List.map_map]
    exact congrArg array (List.map_congr_left fun x _ => hf x)
  | _ => rfl

theorem modifyField_modifyField (key : String) (j : Json) :
    (j.modifyField key f).modifyField key f = j.modifyField key f := by
  cases j with
  | object t =>
    refine congrArg object ((t.modify_modify key f f).trans ?_)
    rw [funext hf]
  | _ => rfl

end Twice

section Apart

variable {key key' : String} (h : key ≠ key')
include h

/-- **Changes of different fields** do not meet. -/
theorem modifyField_comm (f g : Json → Json) (j : Json) :
    (j.modifyField key f).modifyField key' g = (j.modifyField key' g).modifyField key f := by
  cases j with
  | object t => exact congrArg object (Table.modify_comm h f g t)
  | _ => rfl

theorem modifyField_setField (f : Json → Json) (value j : Json) :
    (setField key' value j).modifyField key f = setField key' value (j.modifyField key f) := by
  cases j with
  | object t => exact congrArg object (Table.modify_insert h f value t)
  | _ => rfl

end Apart

/-! ## Removing uploads twice -/

theorem fieldWithoutFiles_fieldWithoutFiles {x : Json}
    (hself : x.withoutFiles.withoutFiles = x.withoutFiles)
    (hproperties : propertiesWithoutFiles (propertiesWithoutFiles x) = propertiesWithoutFiles x)
    (key : String) : fieldWithoutFiles key (fieldWithoutFiles key x) = fieldWithoutFiles key x := by
  unfold fieldWithoutFiles
  split
  · by_cases hx : x = fileType
    · rw [if_pos hx]
      rfl
    · rw [if_neg hx, if_neg hx]
  · split
    · exact hself
    · split
      · exact hproperties
      · rfl

/-- Removing uploads from a schema twice, and from the properties of one. -/
theorem withoutFiles_and_properties_twice (j : Json) :
    j.withoutFiles.withoutFiles = j.withoutFiles ∧
      propertiesWithoutFiles (propertiesWithoutFiles j) = propertiesWithoutFiles j := by
  induction j using object_induction with
  | other j hother =>
    rw [withoutFiles_eq_self hother, propertiesWithoutFiles_eq_self hother]
    exact ⟨withoutFiles_eq_self hother, propertiesWithoutFiles_eq_self hother⟩
  | object t ih =>
    rw [withoutFiles_object, withoutFiles_object, propertiesWithoutFiles_object,
      propertiesWithoutFiles_object]
    constructor
    · refine congrArg object (Table.mapEntries_twice fun e he => ?_)
      exact fieldWithoutFiles_fieldWithoutFiles (ih e he).1 (ih e he).2 e.1
    · exact congrArg object (Table.mapEntries_twice fun e he => (ih e he).1)

/-- **A schema without uploads** has none to remove. -/
theorem withoutFiles_withoutFiles (j : Json) : j.withoutFiles.withoutFiles = j.withoutFiles :=
  (withoutFiles_and_properties_twice j).1

end Json

theorem responsesWithoutFiles_responsesWithoutFiles (o : Json) :
    responsesWithoutFiles (responsesWithoutFiles o) = responsesWithoutFiles o :=
  modifyField_modifyField
    (mapFields_mapFields (modifyField_modifyField withoutFiles_withoutFiles "schema"))
    "responses" o

/-- A document is left as it is when its definitions and responses are. -/
theorem Document.removeFileTypes_eq_self {d : Document}
    (hdefinitions : ∀ e ∈ d.definitions.entries, e.2.withoutFiles = e.2)
    (hoperations : ∀ o ∈ operationsOf d.paths, responsesWithoutFiles o = o) :
    d.removeFileTypes = d := by
  have hpaths : d.paths.map (mapFields responsesWithoutFiles) = d.paths := by
    refine Table.mapEntries_eq_self_iff.2 fun ⟨path, item⟩ hitem => ?_
    cases item with
    | object methods =>
      refine congrArg object (Table.mapEntries_eq_self_iff.2 fun e he => ?_)
      exact hoperations e.2 (mem_operationsOf.2 ⟨path, methods, hitem, e.1, he⟩)
    | _ => rfl
  unfold removeFileTypes
  rw [hpaths, Table.map, Table.mapEntries_eq_self_iff.2 hdefinitions]

/-! ## Hints that are put on twice -/

namespace Hint

variable (sources : List Source) (scope : Option String)

/-- **Annotating a property twice** writes the same fields again. -/
theorem annotateProperty_annotateProperty (name : String) (t : Table Json) :
    annotateProperty sources name scope (annotateProperty sources name scope t)
      = annotateProperty sources name scope t := by
  have htype : (annotateProperty sources name scope t).get? "type" = t.get? "type" :=
    get?_annotateProperty sources scope (by decide) name t
  rw [annotateProperty_eq _ _ _ (annotateProperty _ _ _ _), htype, annotateProperty_eq,
    Table.insertAll_insertAll]

theorem annotateParameter_annotateParameter (name : String) (t : Table Json) :
    annotateParameter sources name scope (annotateParameter sources name scope t)
      = annotateParameter sources name scope t := by
  have htype : (annotateParameter sources name scope t).get? "type" = t.get? "type" :=
    get?_annotateParameter sources scope (by decide) name t
  rw [annotateParameter_eq _ _ _ (annotateParameter _ _ _ _), htype, annotateParameter_eq,
    Table.insertAll_insertAll]

/-- **Annotations are out of sight** of a change of fields that does not touch those that
hints are written to. -/
theorem mapEntries_annotateProperty {f : String → Json → Json}
    (hf : ∀ key ∈ hintKeys, ∀ x, f key x = x) {t : Table Json} (ht : t.mapEntries f = t)
    (name : String) : (annotateProperty sources name scope t).mapEntries f
      = annotateProperty sources name scope t := by
  rw [annotateProperty_eq, Table.mapEntries_insertAll, ht]
  exact fun e he => hf _ (isHint_of_mem_propertyHints sources scope he).mem_hintKeys e.2

theorem schemaField_of_mem_hintKeys {key : String} (h : key ∈ hintKeys) (x : Json) :
    schemaField sources scope key x = x := by
  have hapart : ∀ key ∈ hintKeys, key ≠ "items" ∧ key ≠ "properties" := by decide
  rw [schemaField_eq_id sources scope (hapart key h).1 (hapart key h).2]
  rfl

section Inside

variable {x : Json}

theorem schemaField_schemaField (hnested : nested sources (nested sources x) = nested sources x)
    (hproperties : properties sources scope (properties sources scope x)
      = properties sources scope x) (key : String) :
    schemaField sources scope key (schemaField sources scope key x)
      = schemaField sources scope key x := by
  unfold schemaField
  split
  · exact hnested
  · split
    · exact hproperties
    · rfl

/-- **A property with hints** gets the same ones, if the schemas inside it do. -/
theorem hinted_hinted (hnested : nested sources (nested sources x) = nested sources x)
    (name : String) : hinted sources scope name (hinted sources scope name x)
      = hinted sources scope name x := by
  obtain h | ⟨t, rfl, href, h⟩ := hinted_cases sources scope name x
  · rw [h, h]
  · rw [nested_object, nested_object] at hnested
    have hagain : (annotateProperty sources name scope
        (t.mapEntries (schemaField sources none))).get? "$ref" = none := by
      rw [get?_annotateProperty sources scope (by decide), Table.get?_mapEntries, href,
        Option.map_none]
    rw [h, hinted_object sources scope hagain,
      mapEntries_annotateProperty sources scope
        (fun key hkey => schemaField_of_mem_hintKeys sources none hkey) (object.inj hnested),
      annotateProperty_annotateProperty]

end Inside

/-- Putting hints on a schema twice, and on the properties of one. -/
theorem nested_and_properties_twice (j : Json) :
    nested sources (nested sources j) = nested sources j ∧
      ∀ scope, properties sources scope (properties sources scope j)
        = properties sources scope j := by
  induction j using object_induction with
  | other j hother =>
    rw [nested_eq_self sources hother]
    refine ⟨nested_eq_self sources hother, fun scope => ?_⟩
    rw [properties_eq_self sources scope hother, properties_eq_self sources scope hother]
  | object t ih =>
    constructor
    · rw [nested_object, nested_object]
      refine congrArg object (Table.mapEntries_twice fun e he => ?_)
      exact schemaField_schemaField sources none (ih e he).1 ((ih e he).2 none) e.1
    · intro scope
      rw [properties_object, properties_object]
      refine congrArg object (Table.mapEntries_twice fun e he => ?_)
      exact hinted_hinted sources scope (ih e he).1 e.1

/-- **A schema with hints** gets the same ones. -/
theorem nested_nested (j : Json) : nested sources (nested sources j) = nested sources j :=
  (nested_and_properties_twice sources j).1

theorem schema_schema (t : Table Json) :
    schema sources scope (schema sources scope t) = schema sources scope t := by
  rw [schema_eq, schema_eq]
  refine Table.mapEntries_twice fun e _ => ?_
  obtain ⟨hnested, hproperties⟩ := nested_and_properties_twice sources e.2
  exact schemaField_schemaField sources scope hnested (hproperties scope) e.1

/-- **A parameter with hints** gets the same ones. -/
theorem parameter_parameter (p : Json) :
    parameter sources scope (parameter sources scope p) = parameter sources scope p := by
  have hkeep {t t' : Table Json} (h : t'.get? "$ref" = t.get? "$ref") :
      t'.contains "$ref" = t.contains "$ref" := by
    rw [Table.contains_eq_isSome_get?, Table.contains_eq_isSome_get?, h]
  obtain h | ⟨t, s, -, href, -, h⟩ | ⟨t, name, -, href, hs, hname, h⟩ :=
    parameter_cases sources scope p
  · rw [h, h]
  · have hagain {x : Json} : (t.insert "schema" x).contains "$ref" = false :=
      (hkeep (by rw [Table.get?_insert, if_neg (by decide)])).trans href
    have hwritten {x : Json} : (t.insert "schema" x).get? "schema" = some x := by
      rw [Table.get?_insert, if_pos rfl]
    rw [h, parameter_of_schema sources scope hagain hwritten, schema_schema, Table.insert_insert]
  · have hget {key : String} (hkey : key ∉ hintKeys) :=
      get?_annotateParameter sources scope hkey name t
    rw [h, parameter_of_name sources scope ((hkeep (hget (by decide))).trans href)
      (by rwa [hget (by decide)]) ((hget (by decide)).trans hname),
      annotateParameter_annotateParameter]

theorem operation_operation (path : String) (o : Json) :
    operation sources path (operation sources path o) = operation sources path o :=
  modifyField_modifyField (mapItems_mapItems (parameter_parameter sources (some path)))
    "parameters" o

/-! ## Hints on schemas without uploads -/

theorem fieldWithoutFiles_of_mem_hintKeys {key : String} (h : key ∈ hintKeys) (x : Json) :
    fieldWithoutFiles key x = x := by
  have hapart : ∀ key ∈ hintKeys, key ∉ schemaKeys := by decide
  rw [fieldWithoutFiles_eq_id (hapart key h)]
  rfl

section Inside

variable {x : Json}

theorem fieldWithoutFiles_schemaField {key : String} (h : fieldWithoutFiles key x = x)
    (hnested : x.withoutFiles = x → (nested sources x).withoutFiles = nested sources x)
    (hproperties : propertiesWithoutFiles x = x →
      propertiesWithoutFiles (properties sources scope x) = properties sources scope x) :
    fieldWithoutFiles key (schemaField sources scope key x) = schemaField sources scope key x := by
  unfold schemaField
  split
  · next hkey =>
    subst hkey
    exact hnested h
  · split
    · next hkey =>
      subst hkey
      exact hproperties h
    · exact h

/-- A property without uploads has none with hints, if the schemas inside it have none. -/
theorem withoutFiles_hinted (hx : x.withoutFiles = x)
    (hnested : (nested sources x).withoutFiles = nested sources x) (name : String) :
    (hinted sources scope name x).withoutFiles = hinted sources scope name x := by
  obtain h | ⟨t, rfl, -, h⟩ := hinted_cases sources scope name x
  · rw [h, hx]
  · rw [nested_object, withoutFiles_object] at hnested
    rw [h, withoutFiles_object,
      mapEntries_annotateProperty sources scope
        (fun key hkey => fieldWithoutFiles_of_mem_hintKeys hkey) (object.inj hnested)]

end Inside

/-- Hints bring no uploads into a schema without them, nor into the properties of one. -/
theorem withoutFiles_nested_and_properties (j : Json) :
    (j.withoutFiles = j → (nested sources j).withoutFiles = nested sources j) ∧
      ∀ scope, propertiesWithoutFiles j = j →
        propertiesWithoutFiles (properties sources scope j) = properties sources scope j := by
  induction j using object_induction with
  | other j hother =>
    refine ⟨fun h => ?_, fun scope h => ?_⟩
    · rwa [nested_eq_self sources hother]
    · rwa [properties_eq_self sources scope hother]
  | object t ih =>
    constructor
    · intro h
      rw [withoutFiles_object] at h
      have hfields := Table.mapEntries_eq_self_iff.1 (object.inj h)
      rw [nested_object, withoutFiles_object, Table.mapEntries_mapEntries]
      refine congrArg object (Table.mapEntries_congr fun e he => ?_)
      exact fieldWithoutFiles_schemaField sources none (hfields e he) (ih e he).1 ((ih e he).2 none)
    · intro scope h
      rw [propertiesWithoutFiles_object] at h
      have hschemas := Table.mapEntries_eq_self_iff.1 (object.inj h)
      rw [properties_object, propertiesWithoutFiles_object]
      refine congrArg object ((Table.mapEntries_mapEntries _ _ t).trans ?_)
      refine Table.mapEntries_congr fun e he => ?_
      exact withoutFiles_hinted sources scope (hschemas e he) ((ih e he).1 (hschemas e he)) e.1

/-- **Hints bring no uploads into a schema.** -/
theorem withoutFiles_nested {j : Json} (h : j.withoutFiles = j) :
    (nested sources j).withoutFiles = nested sources j :=
  (withoutFiles_nested_and_properties sources j).1 h

/-- Hints are put on parameters, and uploads are removed from responses. -/
theorem responsesWithoutFiles_operation (path : String) (o : Json) :
    responsesWithoutFiles (operation sources path o)
      = operation sources path (responsesWithoutFiles o) :=
  modifyField_comm (by decide) _ _ o

end Hint

namespace Upload

theorem responsesWithoutFiles_promoted (o : Json) :
    responsesWithoutFiles (promoted o) = promoted (responsesWithoutFiles o) := by
  unfold responsesWithoutFiles promoted
  rw [modifyField_setField (by decide), modifyField_comm (by decide)]

end Upload

/-- **A finished document has no uploads left to remove.** -/
theorem Document.removeFileTypes_finish (d : Document) (config : Config) :
    (d.finish config).removeFileTypes = d.finish config := by
  refine removeFileTypes_eq_self (fun e he => ?_) fun o ho => ?_
  · obtain ⟨x, hx, hhints⟩ := Table.mem_entries_map.1 he
    obtain ⟨y, -, hfree⟩ := Table.mem_entries_map.1 hx
    change x = y.withoutFiles at hfree
    rw [hhints, hfree]
    exact Hint.withoutFiles_nested _ (withoutFiles_withoutFiles y)
  · obtain ⟨o', -, sources, path, rfl | rfl⟩ := mem_operationsOf_finish ho
    · rw [Hint.responsesWithoutFiles_operation, responsesWithoutFiles_responsesWithoutFiles]
    · rw [Hint.responsesWithoutFiles_operation, Upload.responsesWithoutFiles_promoted,
        responsesWithoutFiles_responsesWithoutFiles]

/-! ## Operations that stay where they are -/

namespace Upload

/-- **Whether an operation lists an upload** depends on the types of parameters and on what
they refer to. -/
theorem listsUpload_congr {shared shared' : Table Json} {o o' : Json} {g : Json → Json}
    (hparameters : parametersOf o' = (parametersOf o).map g)
    (hg : ∀ p, (g p).field? "type" = p.field? "type" ∧ (g p).field? "$ref" = p.field? "$ref")
    (hshared : ∀ key, (shared'.get? key).bind (·.field? "type")
      = (shared.get? key).bind (·.field? "type")) :
    listsUpload shared' o' = listsUpload shared o := by
  have hany (shared : Table Json) (key : String) : (shared.get? key).any isUpload
      = ((shared.get? key).bind (·.field? "type") == some fileType) := by
    cases shared.get? key <;> rfl
  have hlisted (p : Json) : isListedUpload shared' (g p) = isListedUpload shared p := by
    have hkey : sharedKey? (g p) = sharedKey? p := by
      unfold sharedKey? textField?
      rw [(hg p).2]
    unfold isListedUpload
    rw [hkey]
    split
    · rw [hany, hany, hshared]
    · unfold isUpload
      rw [(hg p).1]
  unfold listsUpload
  rw [hparameters, List.any_map]
  exact congrArg (List.any _) (funext hlisted)

/-- **A settled path item**: without an operation under `get`, or with one that lists no
upload and comes last. -/
def Settled (shared : Table Json) : Json → Prop
  | .object methods => "get" ∉ methods.keys ∨
    ∃ others o, methods = Table.insert others "get" o ∧ "get" ∉ others.keys ∧
      listsUpload shared o = false
  | _ => True

/-- **Moving operations leaves a settled path item**, if each method was there once. -/
theorem settled_promoteItem (shared : Table Json) {item : Json}
    (h : ∀ methods, item = .object methods → methods.keys.Nodup) :
    Settled shared (promoteItem shared item) := by
  cases item with
  | object methods =>
    unfold promoteItem
    dsimp only
    split
    · next htaken => exact Or.inl (Table.swapRemove_eq_none_iff.1 htaken)
    · next o others htaken =>
      have hgone : "get" ∉ others.keys := (Table.nodup_of_swapRemove (h methods rfl) htaken).1
      split
      · refine Or.inl fun hget => ?_
        exact (Table.mem_keys_insert.1 hget).elim (by decide) hgone
      · next hnot =>
        exact Or.inr ⟨others, o, rfl, hgone, Bool.eq_false_iff.2 hnot⟩
  | _ => trivial

/-- **A settled path item stays as it is.** -/
theorem promoteItem_of_settled {shared : Table Json} {item : Json} (h : Settled shared item) :
    promoteItem shared item = item := by
  cases item with
  | object methods =>
    unfold promoteItem
    dsimp only
    rcases h with hno | ⟨others, o, rfl, hgone, hlists⟩
    · rw [Table.swapRemove_eq_none_iff.2 hno]
    · rw [Table.swapRemove_insert hgone]
      dsimp only
      rw [hlists, if_neg Bool.false_ne_true]
  | _ => rfl

/-- An operation that lists no upload has no shared parameters to mark. -/
theorem markShared_of_not_listsUpload {shared : Table Json} {o : Json}
    (h : listsUpload shared o = false) : markShared shared o = shared := by
  have hkey : ∀ key ∈ (parametersOf o).filterMap sharedKey?, shared.modify key mark = shared := by
    intro key hkey
    obtain ⟨p, hp, hshared⟩ := List.mem_filterMap.1 hkey
    have hlisted := List.any_eq_false.1 h p hp
    unfold isListedUpload at hlisted
    rw [hshared] at hlisted
    refine Table.modify_eq_self fun q hq => ?_
    dsimp only at hlisted
    rw [hq] at hlisted
    exact if_neg hlisted
  unfold markShared
  generalize (parametersOf o).filterMap sharedKey? = keys at hkey
  induction keys with
  | nil => rfl
  | cons key rest ih =>
    obtain ⟨hhead, hrest⟩ := List.forall_mem_cons.1 hkey
    rw [List.foldl_cons, hhead, ih hrest]

/-- **Nor has a settled path item.** -/
theorem markSharedOfItem_of_settled {shared : Table Json} {item : Json}
    (h : Settled shared item) : markSharedOfItem shared item = shared := by
  unfold markSharedOfItem
  split
  · next o ho =>
    cases item with
    | object methods =>
      rcases h with hno | ⟨others, o', rfl, hgone, hlists⟩
      · exact absurd (Table.mem_keys_iff_get?.2 ⟨o, ho⟩) hno
      · change (others.insert "get" o').get? "get" = some o at ho
        rw [Table.get?_insert, if_pos rfl] at ho
        obtain rfl := Option.some.inj ho
        exact markShared_of_not_listsUpload hlists
    | _ => cases ho
  · rfl

theorem foldl_markSharedOfItem_of_settled {shared : Table Json} {items : List Json}
    (h : ∀ item ∈ items, Settled shared item) : items.foldl markSharedOfItem shared = shared := by
  induction items with
  | nil => rfl
  | cons item rest ih =>
    obtain ⟨hhead, hrest⟩ := List.forall_mem_cons.1 h
    rw [List.foldl_cons, markSharedOfItem_of_settled hhead, ih hrest]

/-- **Operations that are changed one by one stay settled**, if they list uploads no more
than before. -/
theorem settled_mapFields {shared shared' : Table Json} {f : Json → Json}
    (hf : ∀ o, listsUpload shared' (f o) = listsUpload shared o) {item : Json}
    (h : Settled shared item) : Settled shared' (item.mapFields f) := by
  cases item with
  | object methods =>
    rcases h with hno | ⟨others, o, rfl, hgone, hlists⟩
    · exact Or.inl (by rwa [Table.keys_map])
    · refine Or.inr ⟨others.map f, f o, ?_, ?_, (hf o).trans hlists⟩
      · exact Table.mapEntries_insert _ others "get" o
      · rwa [Table.keys_map]
  | _ => trivial

end Upload

namespace Document

/-- **The methods of each path item are distinct**, as the keys of a JSON object are. A table
may have a key twice, and of two operations under `get` one would be lost on the way to the
end. -/
def DistinctMethods (d : Document) : Prop :=
  ∀ methods ∈ d.paths.values.filterMap Json.fields?, methods.keys.Nodup

instance (d : Document) : Decidable d.DistinctMethods :=
  inferInstanceAs (Decidable (∀ methods ∈ d.paths.values.filterMap Json.fields?,
    methods.keys.Nodup))

/-- **A finished document has no operation left to move.** -/
theorem promoteUploads_finish {d : Document} (h : d.DistinctMethods) (config : Config) :
    (d.finish config).promoteUploads = d.finish config := by
  have hsettled : ∀ e ∈ (d.finish config).paths.entries,
      Upload.Settled (d.finish config).parameters e.2 := by
    intro e he
    obtain ⟨_, he, hhints⟩ := Table.mem_entries_mapEntries.1 he
    obtain ⟨item, he, hmoved⟩ := Table.mem_entries_map.1 he
    obtain ⟨item₀, he, hfree⟩ := Table.mem_entries_map.1 he
    dsimp only at hmoved hfree
    rw [hhints, hmoved]
    have hitem : Upload.Settled d.parameters (Upload.promoteItem d.parameters item) := by
      refine Upload.settled_promoteItem _ fun methods hmethods => ?_
      cases item₀ with
      | object methods' =>
        rw [hfree] at hmethods
        obtain rfl := object.inj hmethods
        rw [Table.keys_map]
        exact h methods' (List.mem_filterMap.2 ⟨_, Table.mem_values.2 ⟨_, he⟩, rfl⟩)
      | _ =>
        rw [hfree] at hmethods
        cases hmethods
    -- hints keep what the pass before them has settled
    refine Upload.settled_mapFields (fun o => ?_) hitem
    refine Upload.listsUpload_congr (g := Hint.parameter _ (some e.1))
      (parametersOf_modifyField o _) (fun p => ?_) (d.type_parameters_finish config)
    exact ⟨Hint.field?_parameter _ _ (by decide) (by decide) p,
      Hint.field?_parameter _ _ (by decide) (by decide) p⟩
  have hpaths : (d.finish config).paths.map (Upload.promoteItem (d.finish config).parameters)
      = (d.finish config).paths :=
    Table.mapEntries_eq_self_iff.2 fun e he => Upload.promoteItem_of_settled (hsettled e he)
  unfold promoteUploads
  rw [hpaths, Upload.foldl_markSharedOfItem_of_settled]
  intro item hitem
  obtain ⟨path, hpath⟩ := Table.mem_values.1 hitem
  exact hsettled _ hpath

/-! ## Hints on a finished document -/

/-- Where pick lists are offered from depends on the methods of path items only. -/
theorem sources_mapFields (config : Config) (f : String → Json → Json) (paths : Table Json) :
    Hint.sources config (paths.mapEntries fun path item => item.mapFields (f path))
      = Hint.sources config paths := by
  unfold Hint.sources
  refine List.filterMap_congr fun p _ => ?_
  unfold Hint.source?
  dsimp only
  rw [Table.get?_mapEntries]
  cases paths.get? (actionPath p.service "list") with
  | none => rfl
  | some item =>
    cases item with
    | object methods =>
      obtain ⟨es⟩ := methods
      cases es <;> rfl
    | _ => rfl

/-- **A finished document has all its hints.** -/
theorem addHints_addHints (d : Document) (config : Config) :
    (d.addHints config).addHints config = d.addHints config := by
  unfold addHints
  dsimp only
  rw [sources_mapFields]
  generalize Hint.sources config d.paths = sources
  have hpaths := Table.mapEntries_twice
    (f := fun path item => item.mapFields (Hint.operation sources path)) (t := d.paths)
    fun e _ => mapFields_mapFields (Hint.operation_operation sources e.1) e.2
  have hparameters : (d.parameters.map (Hint.parameter sources none)).map
      (Hint.parameter sources none) = d.parameters.map (Hint.parameter sources none) :=
    Table.mapEntries_twice fun e _ => Hint.parameter_parameter sources none e.2
  have hdefinitions : (d.definitions.map (Hint.nested sources)).map (Hint.nested sources)
      = d.definitions.map (Hint.nested sources) :=
    Table.mapEntries_twice fun e _ => Hint.nested_nested sources e.2
  rw [hpaths, hparameters, hdefinitions]

/-- **Finishing a finished document changes nothing**, if no path item of the document that was
finished has a method twice. -/
theorem finish_finish {d : Document} (h : d.DistinctMethods) (config : Config) :
    (d.finish config).finish config = d.finish config := by
  calc (d.finish config).finish config
      = ((d.finish config).removeFileTypes.promoteUploads).addHints config := rfl
    _ = (d.finish config).addHints config := by
        rw [removeFileTypes_finish, promoteUploads_finish h]
    _ = d.finish config := addHints_addHints _ config

end Document

/-- A document with work for all three passes: an upload in a definition, one that is listed
under `get` beside another method, and a parameter to be picked. -/
def galleryDocument : Document where
  definitions := ⟨[("Picture", fields [
    ("properties", fields [("image", fields [("type", fileType)])])])]⟩
  paths := ⟨[
    ("/service/media/action/list", fields [("post", fields [])]),
    ("/service/media/action/get", fields [("get", fields [
      ("parameters", .array [fields [("name", .string "entryId")]])])]),
    ("/service/media/action/add", fields [
      ("get", fields [("parameters", .array [fields [
        ("name", .string "image"), ("in", .string "query"), ("type", fileType)]])]),
      ("put", fields [])])]⟩

theorem Document.finish_finish_galleryDocument :
    galleryDocument.DistinctMethods ∧ galleryDocument.finish petConfig ≠ galleryDocument ∧
      (galleryDocument.finish petConfig).finish petConfig = galleryDocument.finish petConfig := by
  have h : galleryDocument.DistinctMethods := by decide
  exact ⟨h, by decide, finish_finish h petConfig⟩

end SwaggerForge
