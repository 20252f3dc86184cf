import SwaggerForge.Proofs.Literals
import SwaggerForge.Proofs.Passes

/-!
# Where references lead

A value **refers only** to certain targets when all references inside it do
(`Json.RefersOnly`), which is a matter of its fields and items: a field `$ref` that
is a string is a reference, and any other field counts for what it holds
(`Json.FieldRefersOnly`).

A change of values **adds no references** when what refers only to some targets still
does so behind it (`Json.AddsNoReferences`). The passes that finish a document are put
together from such changes, so they lead nowhere that the document has not led before
(`Document.RefersOnly.finish`), and they leave the keys of definitions and shared
parameters as they are.
-/

namespace SwaggerForge

namespace Json

/-! ## Induction over objects -/

/-- **Induction over objects.** Passes change nothing but objects and what is inside
them, so all else is one case. -/
theorem object_induction {motive : Json → Prop}
    (other : ∀ j : Json, (∀ t, j ≠ .object t) → motive j)
    (object : ∀ t : Table Json, (∀ e ∈ t.entries, motive e.2) → motive (.object t)) :
    ∀ j : Json, motive j
  | .null => other _ fun _ h => nomatch h
  | .bool _ => other _ fun _ h => nomatch h
  | .int _ => other _ fun _ h => nomatch h
  | .float _ => other _ fun _ h => nomatch h
  | .string _ => other _ fun _ h => nomatch h
  | .array _ => other _ fun _ h => nomatch h
  | .object ⟨es⟩ => object ⟨es⟩ fun e _ => object_induction other object e.2
termination_by j => sizeOf j
decreasing_by
  have := List.sizeOf_lt_of_mem ‹e ∈ es›
  have : sizeOf e = 1 + sizeOf e.1 + sizeOf e.2 := rfl
  simp only [Json.object.sizeOf_spec, Table.mk.sizeOf_spec]
  omega

/-! ## Values that refer only to certain targets -/

/-- **All references inside a value lead to targets of a certain kind.** -/
def RefersOnly (ok : String → Prop) (j : Json) : Prop := ∀ target ∈ j.references, ok target

/-- All references of a field, which itself may be one, lead to targets of a certain
kind. -/
def FieldRefersOnly (ok : String → Prop) (e : String × Json) : Prop :=
  e.2.RefersOnly ok ∧ (e.1 = "$ref" → ∀ target, e.2 = .string target → ok target)

variable {ok : String → Prop}

theorem refersOnly_of_isLiteral {j : Json} (h : j.IsLiteral) : j.RefersOnly ok := by
  intro target ht
  rw [h.references_eq] at ht
  cases ht

@[simp] theorem refersOnly_string (s : String) : (string s).RefersOnly ok :=
  refersOnly_of_isLiteral trivial

@[simp] theorem refersOnly_bool (b : Bool) : (bool b).RefersOnly ok :=
  refersOnly_of_isLiteral trivial

@[simp] theorem refersOnly_int (n : Int) : (int n).RefersOnly ok :=
  refersOnly_of_isLiteral trivial

@[simp] theorem refersOnly_null : null.RefersOnly ok := refersOnly_of_isLiteral trivial

/-- **An array refers where its items refer.** -/
@[simp] theorem refersOnly_array {xs : List Json} :
    (array xs).RefersOnly ok ↔ ∀ x ∈ xs, x.RefersOnly ok := by
  unfold RefersOnly
  induction xs with
  | nil => exact ⟨fun _ _ h => (nomatch h), fun _ _ h => nomatch h⟩
  | cons x rest ih =>
    change (∀ target ∈ x.references ++ (array rest).references, ok target) ↔ _
    rw [List.forall_mem_append, List.forall_mem_cons, ih]

/-- The references of a field are the field itself or inside it. -/
theorem references_field (key : String) (x : Json) :
    (∀ target ∈ referencesOfFields [(key, x)], ok target) ↔ FieldRefersOnly ok (key, x) := by
  by_cases hkey : key = "$ref"
  · cases x with
    | string target =>
      have hone : referencesOfFields [(key, string target)] = [target] := by
        simp [referencesOfFields, hkey]
      rw [hone, List.forall_mem_singleton]
      exact ⟨fun h => ⟨refersOnly_string target, fun _ t ht => string.inj ht ▸ h⟩,
        fun h => h.2 hkey target rfl⟩
    | _ =>
      simp only [referencesOfFields, hkey, if_true, List.append_nil]
      exact ⟨fun h => ⟨h, fun _ t ht => (nomatch ht)⟩, fun h => h.1⟩
  · have hin : referencesOfFields [(key, x)] = x.references := by
      cases x <;> simp [referencesOfFields, hkey]
    rw [hin]
    exact ⟨fun h => ⟨h, fun hk => absurd hk hkey⟩, fun h => h.1⟩

/-- **An object refers where its fields refer.** -/
@[simp] theorem refersOnly_object {t : Table Json} :
    (object t).RefersOnly ok ↔ ∀ e ∈ t.entries, FieldRefersOnly ok e := by
  obtain ⟨es⟩ := t
  induction es with
  | nil => exact ⟨fun _ _ h => (nomatch h), fun _ _ h => nomatch h⟩
  | cons e rest ih =>
    obtain ⟨key, x⟩ := e
    have hsplit : (object ⟨(key, x) :: rest⟩).references
        = referencesOfFields [(key, x)] ++ (object ⟨rest⟩).references := by
      cases x <;> simp [references, referencesOfFields]
    unfold RefersOnly at ih ⊢
    rw [hsplit, List.forall_mem_append, references_field, ih, List.forall_mem_cons]

@[simp] theorem refersOnly_fields {es : List (String × Json)} :
    (fields es).RefersOnly ok ↔ ∀ e ∈ es, FieldRefersOnly ok e :=
  refersOnly_object

@[simp] theorem refersOnly_strings (ss : List String) : (strings ss).RefersOnly ok := by
  refine refersOnly_array.2 fun x hx => ?_
  obtain ⟨s, -, rfl⟩ := List.mem_map.1 hx
  exact refersOnly_string s

/-- A field of another name refers where its value refers. -/
@[simp] theorem fieldRefersOnly_of_ne {key : String} (h : key ≠ "$ref") {x : Json} :
    FieldRefersOnly ok (key, x) ↔ x.RefersOnly ok :=
  ⟨And.left, fun hx => ⟨hx, fun hk => absurd hk h⟩⟩

/-- A field that is no text refers where its value refers, whatever its name. -/
theorem RefersOnly.field {x : Json} (hx : x.RefersOnly ok) (hs : ∀ s, x ≠ .string s)
    (key : String) : FieldRefersOnly ok (key, x) :=
  ⟨hx, fun _ s h => absurd h (hs s)⟩

/-- A field that is an object refers where the object refers, whatever its name. -/
@[simp] theorem fieldRefersOnly_object {key : String} {t : Table Json} :
    FieldRefersOnly ok (key, object t) ↔ (object t).RefersOnly ok :=
  ⟨And.left, fun hx => ⟨hx, fun _ _ ht => nomatch ht⟩⟩

@[simp] theorem fieldRefersOnly_fields {key : String} {es : List (String × Json)} :
    FieldRefersOnly ok (key, fields es) ↔ (fields es).RefersOnly ok :=
  fieldRefersOnly_object

@[simp] theorem fieldRefersOnly_array {key : String} {xs : List Json} :
    FieldRefersOnly ok (key, array xs) ↔ (array xs).RefersOnly ok :=
  ⟨And.left, fun hx => ⟨hx, fun _ _ ht => nomatch ht⟩⟩

/-- A field that may be left out has the property if its value, when it is there,
gives it. -/
@[simp] theorem forall_mem_optional {key : String} {value : Option Json}
    {P : String × Json → Prop} :
    (∀ e ∈ optional key value, P e) ↔ ∀ j, value = some j → P (key, j) := by
  cases value with
  | none => exact ⟨fun _ _ h => (nomatch h), fun _ _ h => nomatch h⟩
  | some j =>
    show (∀ e ∈ [(key, j)], P e) ↔ _
    rw [List.forall_mem_singleton]
    exact ⟨fun h _ hj => Option.some.inj hj ▸ h, fun h => h j rfl⟩

@[simp] theorem forall_mem_flag {key : String} {set : Bool} {P : String × Json → Prop} :
    (∀ e ∈ flag key set, P e) ↔ (set = true → P (key, bool true)) := by
  cases set with
  | false => exact ⟨fun _ h => (nomatch h), fun _ _ h => nomatch h⟩
  | true =>
    show (∀ e ∈ [(key, bool true)], P e) ↔ _
    rw [List.forall_mem_singleton]
    exact ⟨fun h _ => h, fun h => h rfl⟩

@[simp] theorem refersOnly_reference {target : String} :
    (reference target).RefersOnly ok ↔ ok target := by
  show (fields [("$ref", string target)]).RefersOnly ok ↔ _
  rw [refersOnly_fields, List.forall_mem_singleton]
  exact ⟨fun h => h.2 rfl target rfl,
    fun h => ⟨refersOnly_string target, fun _ t ht => string.inj ht ▸ h⟩⟩

/-! ## Changes that add no references -/

/-- **A change that adds no references**: it leads nowhere new, and no text is made of
what was none. -/
structure AddsNoReferences (f : Json → Json) : Prop where
  refersOnly : ∀ ok j, j.RefersOnly ok → (f j).RefersOnly ok
  string : ∀ j s, f j = .string s → j = .string s

namespace AddsNoReferences

variable {f : Json → Json}

theorem field (h : AddsNoReferences f) {key : String} {x : Json}
    (hx : FieldRefersOnly ok (key, x)) : FieldRefersOnly ok (key, f x) :=
  ⟨h.refersOnly ok x hx.1, fun hk target ht => hx.2 hk target (h.string x target ht)⟩

protected theorem id : AddsNoReferences fun j => j := ⟨fun _ _ h => h, fun _ _ h => h⟩

theorem comp {g : Json → Json} (hg : AddsNoReferences g) (hf : AddsNoReferences f) :
    AddsNoReferences fun j => g (f j) :=
  ⟨fun ok j h => hg.refersOnly ok _ (hf.refersOnly ok j h),
    fun j s h => hf.string j s (hg.string (f j) s h)⟩

theorem modifyField (h : AddsNoReferences f) (key : String) :
    AddsNoReferences (Json.modifyField key f) := by
  constructor
  · intro ok j hj
    cases j with
    | object t =>
      refine refersOnly_object.2 fun e he => ?_
      rcases Table.mem_entries_modify he with he | ⟨x, hx, rfl⟩
      · exact refersOnly_object.1 hj e he
      · exact h.field (refersOnly_object.1 hj _ hx)
    | _ => exact hj
  · intro j s hs
    cases j with
    | object t => cases hs
    | _ => exact hs

theorem mapFields (h : AddsNoReferences f) : AddsNoReferences (Json.mapFields f) := by
  constructor
  · intro ok j hj
    cases j with
    | object t =>
      refine refersOnly_object.2 fun e he => ?_
      obtain ⟨x, hx, hf⟩ := Table.mem_entries_map.1 he
      rw [show e = (e.1, f x) from Prod.ext rfl hf]
      exact h.field (refersOnly_object.1 hj _ hx)
    | _ => exact hj
  · intro j s hs
    cases j with
    | object t => cases hs
    | _ => exact hs

theorem mapItems (h : AddsNoReferences f) : AddsNoReferences (Json.mapItems f) := by
  constructor
  · intro ok j hj
    cases j with
    | array xs =>
      refine refersOnly_array.2 fun y hy => ?_
      obtain ⟨x, hx, rfl⟩ := List.mem_map.1 hy
      exact h.refersOnly ok x (refersOnly_array.1 hj x hx)
    | _ => exact hj
  · intro j s hs
    cases j with
    | array xs => cases hs
    | _ => exact hs

theorem setField {key value : String} (hkey : key ≠ "$ref") :
    AddsNoReferences (Json.setField key (.string value)) := by
  constructor
  · intro ok j hj
    cases j with
    | object t =>
      refine refersOnly_object.2 fun e he => ?_
      rcases Table.mem_entries_insert he with rfl | he
      · exact (fieldRefersOnly_of_ne hkey).2 (refersOnly_string value)
      · exact refersOnly_object.1 hj e he
    | _ => exact hj
  · intro j s hs
    cases j with
    | object t => cases hs
    | _ => exact hs

end AddsNoReferences

theorem refersOnly_mapEntries {f : String → Json → Json} (h : ∀ key, AddsNoReferences (f key))
    {t : Table Json} (ht : (object t).RefersOnly ok) : (object (t.mapEntries f)).RefersOnly ok := by
  refine refersOnly_object.2 fun e he => ?_
  obtain ⟨x, hx, hf⟩ := Table.mem_entries_mapEntries.1 he
  rw [show e = (e.1, f e.1 x) from Prod.ext rfl hf]
  exact (h e.1).field (refersOnly_object.1 ht _ hx)

/-- A field that is written over leads nowhere new if its value does not. -/
theorem refersOnly_insert {t : Table Json} (ht : (object t).RefersOnly ok) {key : String}
    {x : Json} (hx : FieldRefersOnly ok (key, x)) : (object (t.insert key x)).RefersOnly ok := by
  refine refersOnly_object.2 fun e he => ?_
  rcases Table.mem_entries_insert he with rfl | he
  · exact hx
  · exact refersOnly_object.1 ht e he

theorem refersOnly_insertAll {t : Table Json} (ht : (object t).RefersOnly ok)
    {more : List (String × Json)} (hmore : ∀ e ∈ more, FieldRefersOnly ok e) :
    (object (t.insertAll more)).RefersOnly ok :=
  refersOnly_object.2 fun e he =>
    (Table.mem_entries_insertAll he).elim (refersOnly_object.1 ht e) (hmore e)

/-! ## Uploads -/

theorem refersOnly_withoutFiles (j : Json) (hj : j.RefersOnly ok) :
    j.withoutFiles.RefersOnly ok ∧ (propertiesWithoutFiles j).RefersOnly ok := by
  -- what a key means depends on whether a schema or its properties are looked at
  induction j using object_induction with
  | other j hother =>
    rw [withoutFiles_eq_self hother, propertiesWithoutFiles_eq_self hother]
    exact ⟨hj, hj⟩
  | object t ih =>
    have hfields := refersOnly_object.1 hj
    rw [withoutFiles_object, propertiesWithoutFiles_object]
    constructor
    · refine refersOnly_object.2 fun e he => ?_
      obtain ⟨x, hx, hf⟩ := Table.mem_entries_mapEntries.1 he
      obtain ⟨key, y⟩ := e
      obtain rfl : y = fieldWithoutFiles key x := hf
      have hin := ih _ hx (hfields _ hx).1
      unfold fieldWithoutFiles
      split
      · next hkey =>
        rw [fieldRefersOnly_of_ne (by rw [hkey]; decide)]
        split
        · exact refersOnly_string _
        · exact (hfields _ hx).1
      · split
        · next hkey => exact (fieldRefersOnly_of_ne (by rw [hkey]; decide)).2 hin.1
        · split
          · next hkey => exact (fieldRefersOnly_of_ne (by rw [hkey]; decide)).2 hin.2
          · exact hfields _ hx
    · refine refersOnly_object.2 fun e he => ?_
      obtain ⟨x, hx, hf⟩ := Table.mem_entries_map.1 he
      obtain ⟨key, y⟩ := e
      obtain rfl : y = x.withoutFiles := hf
      refine ⟨(ih _ hx (hfields _ hx).1).1, fun hkey target htarget => ?_⟩
      cases x with
      | object t => cases htarget
      | _ => exact (hfields _ hx).2 hkey target htarget

/-- **Removing uploads adds no references.** -/
theorem addsNoReferences_withoutFiles : AddsNoReferences withoutFiles := by
  refine ⟨fun ok j hj => (refersOnly_withoutFiles j hj).1, fun j s hs => ?_⟩
  cases j with
  | object t => cases hs
  | _ => exact hs

end Json

open Json

theorem addsNoReferences_responsesWithoutFiles : AddsNoReferences responsesWithoutFiles :=
  ((addsNoReferences_withoutFiles.modifyField "schema").mapFields).modifyField "responses"

namespace Upload

theorem addsNoReferences_mark : AddsNoReferences mark := by
  have hset : AddsNoReferences asFormData := .setField (by decide)
  constructor
  · intro ok j hj
    unfold mark
    split
    · exact hset.refersOnly ok j hj
    · exact hj
  · intro j s hs
    unfold mark at hs
    split at hs
    · exact hset.string j s hs
    · exact hs

theorem addsNoReferences_markInline : AddsNoReferences markInline := by
  constructor
  · intro ok j hj
    unfold markInline
    split
    · exact hj
    · exact addsNoReferences_mark.refersOnly ok j hj
  · intro j s hs
    unfold markInline at hs
    split at hs
    · exact hs
    · exact addsNoReferences_mark.string j s hs

theorem addsNoReferences_promoted : AddsNoReferences promoted := by
  have hset : AddsNoReferences (setField "x-requestFormat" (.string "file")) :=
    .setField (by decide)
  exact hset.comp (addsNoReferences_markInline.mapItems.modifyField "parameters")

/-- **Moving an operation adds no references.** -/
theorem addsNoReferences_promoteItem (shared : Table Json) :
    AddsNoReferences (promoteItem shared) := by
  constructor
  · intro ok j hj
    unfold promoteItem
    split
    · next methods =>
      split
      · exact hj
      · next operation others htaken =>
        obtain ⟨hop, hothers⟩ := Table.mem_of_swapRemove htaken
        have hfields := refersOnly_object.1 hj
        have hrest : (object others).RefersOnly _ :=
          refersOnly_object.2 fun e he => hfields e (hothers e he)
        split
        · have hpromoted := addsNoReferences_promoted.refersOnly ok _ (hfields _ hop).1
          exact refersOnly_insert hrest ((fieldRefersOnly_of_ne (by decide)).2 hpromoted)
        · exact refersOnly_insert hrest (hfields _ hop)
    · exact hj
  · intro j s hs
    unfold promoteItem at hs
    split at hs
    · split at hs
      · cases hs
      · split at hs <;> cases hs
    · exact hs

theorem refersOnly_markShared {ok : String → Prop} {shared : Table Json}
    (h : (object shared).RefersOnly ok) (operation : Json) :
    (object (markShared shared operation)).RefersOnly ok := by
  have hfold (keys : List String) : ∀ t : Table Json, (object t).RefersOnly ok →
      (object (keys.foldl (fun t key => t.modify key mark) t)).RefersOnly ok := by
    induction keys with
    | nil => exact fun t ht => ht
    | cons key rest ih =>
      exact fun t ht => ih _ ((addsNoReferences_mark.modifyField key).refersOnly ok (.object t) ht)
  exact hfold _ shared h

end Upload

/-! ## Hints -/

namespace Hint

variable {ok : String → Prop} (sources : List Source)

theorem refersOnly_source (s : Source) : s.toJson.RefersOnly ok := by
  unfold Source.toJson
  simp

theorem fieldRefersOnly_of_isHint {e : String × Json} (h : IsHint e) : FieldRefersOnly ok e := by
  cases h with
  | pickList s => exact (fieldRefersOnly_of_ne (by decide)).2 (refersOnly_source s)
  | input how => simp
  | expiry => simp

theorem refersOnly_annotateProperty {t : Table Json} (ht : (object t).RefersOnly ok)
    (name : String) (scope : Option String) :
    (object (annotateProperty sources name scope t)).RefersOnly ok := by
  rw [annotateProperty_eq]
  exact refersOnly_insertAll ht fun e he =>
    fieldRefersOnly_of_isHint (isHint_of_mem_propertyHints sources scope he)

theorem refersOnly_annotateParameter {t : Table Json} (ht : (object t).RefersOnly ok)
    (name : String) (scope : Option String) :
    (object (annotateParameter sources name scope t)).RefersOnly ok := by
  rw [annotateParameter_eq]
  exact refersOnly_insertAll ht fun e he =>
    fieldRefersOnly_of_isHint (isHint_of_mem_parameterHints sources scope he)

/-- The fields of a schema lead where they led, if the schemas inside it do. -/
theorem refersOnly_schemaFields {t : Table Json} (ht : (object t).RefersOnly ok)
    (hin : ∀ e ∈ t.entries, (nested sources e.2).RefersOnly ok ∧
      ∀ scope, (properties sources scope e.2).RefersOnly ok) (scope : Option String) :
    (object (t.mapEntries (schemaField sources scope))).RefersOnly ok := by
  refine refersOnly_object.2 fun e he => ?_
  obtain ⟨x, hx, hf⟩ := Table.mem_entries_mapEntries.1 he
  obtain ⟨key, y⟩ := e
  obtain rfl : y = schemaField sources scope key x := hf
  unfold schemaField
  split
  · next hkey => exact (fieldRefersOnly_of_ne (by rw [hkey]; decide)).2 (hin _ hx).1
  · split
    · next hkey => exact (fieldRefersOnly_of_ne (by rw [hkey]; decide)).2 ((hin _ hx).2 scope)
    · exact refersOnly_object.1 ht _ hx

theorem refersOnly_nested (j : Json) (hj : j.RefersOnly ok) :
    (nested sources j).RefersOnly ok ∧
      ∀ scope, (properties sources scope j).RefersOnly ok := by
  induction j using object_induction with
  | other j hother =>
    refine ⟨?_, fun scope => ?_⟩
    · rwa [nested_eq_self sources hother]
    · rwa [properties_eq_self sources scope hother]
  | object t ih =>
    have hfields := refersOnly_object.1 hj
    have hin (e : String × Json) (he : e ∈ t.entries) := ih e he (hfields e he).1
    rw [nested_object]
    refine ⟨refersOnly_schemaFields sources hj hin none, fun scope => ?_⟩
    rw [properties_object]
    refine refersOnly_object.2 fun e he => ?_
    obtain ⟨x, hx, hf⟩ := Table.mem_entries_mapEntries.1 he
    obtain ⟨name, y⟩ := e
    obtain rfl : y = hinted sources scope name x := hf
    obtain h | ⟨t', rfl, -, h⟩ := hinted_cases sources scope name x
    · rw [h]
      exact hfields _ hx
    · have hfull := (hin _ hx).1
      change (nested sources (.object t')).RefersOnly ok at hfull
      rw [nested_object] at hfull
      rw [h]
      exact fieldRefersOnly_object.2 (refersOnly_annotateProperty sources hfull name scope)

/-- **Hints in a schema add no references.** -/
theorem addsNoReferences_nested : AddsNoReferences (nested sources) := by
  refine ⟨fun ok j hj => (refersOnly_nested sources j hj).1, fun j s hs => ?_⟩
  cases j with
  | object t => cases hs
  | _ => exact hs

/-- **Hints on a parameter add no references.** -/
theorem addsNoReferences_parameter (scope : Option String) :
    AddsNoReferences (parameter sources scope) := by
  constructor
  · intro ok j hj
    obtain h | ⟨t, s, rfl, -, hs, h⟩ | ⟨t, name, rfl, -, -, -, h⟩ := parameter_cases sources scope j
    · rwa [h]
    · have hschema := (refersOnly_object.1 hj _ (Table.mem_entries_of_get? hs)).1
      have hin (e : String × Json) (he : e ∈ s.entries) :=
        refersOnly_nested sources e.2 (refersOnly_object.1 hschema e he).1
      rw [h]
      refine refersOnly_insert hj ((fieldRefersOnly_of_ne (by decide)).2 ?_)
      rw [schema_eq]
      exact refersOnly_schemaFields sources hschema hin scope
    · rw [h]
      exact refersOnly_annotateParameter sources hj name scope
  · intro j text htext
    obtain h | ⟨t, s, -, -, -, h⟩ | ⟨t, name, -, -, -, -, h⟩ := parameter_cases sources scope j
    · exact h.symm.trans htext
    · cases h.symm.trans htext
    · cases h.symm.trans htext

theorem addsNoReferences_operation (path : String) : AddsNoReferences (operation sources path) :=
  (addsNoReferences_parameter sources (some path)).mapItems.modifyField "parameters"

end Hint

/-! ## Documents -/

namespace Document

/-- **A document whose references lead to targets of a certain kind.** -/
structure RefersOnly (ok : String → Prop) (d : Document) : Prop where
  header : (object d.header).RefersOnly ok
  parameters : (object d.parameters).RefersOnly ok
  enums : d.enums.RefersOnly ok
  definitions : (object d.definitions).RefersOnly ok
  paths : (object d.paths).RefersOnly ok
  tags : ∀ t ∈ d.tags, t.RefersOnly ok
  errors : ∀ e ∈ d.errors, e.RefersOnly ok

variable {ok : String → Prop} {d : Document}

/-- **The written form** refers where the sections refer. -/
theorem RefersOnly.toJson (h : d.RefersOnly ok) : d.toJson.RefersOnly ok := by
  have hsection {key : String} (hkey : key ≠ "$ref") {x : Json} (hx : x.RefersOnly ok) :
      FieldRefersOnly ok (key, x) := (fieldRefersOnly_of_ne hkey).2 hx
  unfold Document.toJson
  refine refersOnly_object.2 fun e he => ?_
  rcases Table.mem_entries_insertAll he with hin | hin
  · exact refersOnly_object.1 h.header e hin
  · clear he
    revert e
    simp only [List.forall_mem_cons]
    exact ⟨hsection (by decide) h.parameters, hsection (by decide) h.enums,
      hsection (by decide) h.definitions, hsection (by decide) h.paths,
      hsection (by decide) (refersOnly_array.2 h.tags),
      hsection (by decide) (refersOnly_array.2 h.errors), fun _ hnil => nomatch hnil⟩

theorem RefersOnly.removeFileTypes (h : d.RefersOnly ok) : d.removeFileTypes.RefersOnly ok :=
  { h with
    definitions := addsNoReferences_withoutFiles.mapFields.refersOnly ok _ h.definitions
    paths := (addsNoReferences_responsesWithoutFiles.mapFields).mapFields.refersOnly ok _ h.paths }

theorem RefersOnly.promoteUploads (h : d.RefersOnly ok) : d.promoteUploads.RefersOnly ok := by
  have hitems (items : List Json) : ∀ t : Table Json, (object t).RefersOnly ok →
      (object (items.foldl Upload.markSharedOfItem t)).RefersOnly ok := by
    induction items with
    | nil => exact fun t ht => ht
    | cons item rest ih =>
      refine fun t ht => ih _ ?_
      unfold Upload.markSharedOfItem
      split
      · exact Upload.refersOnly_markShared ht _
      · exact ht
  exact { h with
    parameters := hitems d.paths.values d.parameters h.parameters
    paths := (Upload.addsNoReferences_promoteItem d.parameters).mapFields.refersOnly ok _ h.paths }

theorem RefersOnly.addHints (h : d.RefersOnly ok) (config : Config) :
    (d.addHints config).RefersOnly ok :=
  { h with
    paths := refersOnly_mapEntries
      (fun path => (Hint.addsNoReferences_operation _ path).mapFields) h.paths
    parameters := (Hint.addsNoReferences_parameter _ none).mapFields.refersOnly ok _ h.parameters
    definitions := (Hint.addsNoReferences_nested _).mapFields.refersOnly ok _ h.definitions }

/-- **A finished document leads nowhere new.** -/
theorem RefersOnly.finish (h : d.RefersOnly ok) (config : Config) :
    (d.finish config).RefersOnly ok :=
  h.removeFileTypes.promoteUploads.addHints config

/-! ## Keys -/

theorem keys_markSharedOfItem (shared : Table Json) (item : Json) :
    (Upload.markSharedOfItem shared item).keys = shared.keys := by
  unfold Upload.markSharedOfItem
  split
  · exact Table.keys_foldl_modify _ _ shared
  · rfl

/-- **A finished document has the definitions that it had.** -/
@[simp] theorem keys_definitions_finish (d : Document) (config : Config) :
    (d.finish config).definitions.keys = d.definitions.keys := by
  show ((d.definitions.map withoutFiles).map (Hint.nested _)).keys = d.definitions.keys
  rw [Table.keys_map, Table.keys_map]

/-- **A finished document has the shared parameters that it had.** -/
@[simp] theorem keys_parameters_finish (d : Document) (config : Config) :
    (d.finish config).parameters.keys = d.parameters.keys := by
  have hitems (items : List Json) : ∀ t : Table Json,
      (items.foldl Upload.markSharedOfItem t).keys = t.keys := by
    induction items with
    | nil => exact fun t => rfl
    | cons item rest ih =>
      intro t
      rw [List.foldl_cons, ih, keys_markSharedOfItem]
  show ((d.removeFileTypes.paths.values.foldl Upload.markSharedOfItem d.parameters).map
    (Hint.parameter _ none)).keys = d.parameters.keys
  rw [Table.keys_map, hitems]

end Document

end SwaggerForge
