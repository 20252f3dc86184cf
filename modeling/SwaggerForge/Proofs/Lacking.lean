import SwaggerForge.Proofs.Addresses
import SwaggerForge.Proofs.Descriptions

/-!
# Values that lack a field

A value **lacks** a field when no object inside it, however deep, has a field of that name
(`Json.Lacks`). Then no address in it ends with that field.
-/

namespace SwaggerForge

open Json

namespace Json

/-- **A value inside another one**, however deep. -/
inductive Inside : Json → Json → Prop
  | self (j : Json) : Inside j j
  | item {xs : List Json} {x y : Json} (mem : x ∈ xs) (inside : Inside x y) : Inside (.array xs) y
  | field {t : Table Json} {e : String × Json} {y : Json} (mem : e ∈ t.entries)
      (inside : Inside e.2 y) : Inside (.object t) y

theorem Inside.trans {x y z : Json} (hxy : Inside x y) (hyz : Inside y z) : Inside x z := by
  induction hxy with
  | self => exact hyz
  | item mem _ ih => exact .item mem (ih hyz)
  | field mem _ ih => exact .field mem (ih hyz)

/-- **A value that lacks a field**, as do all objects inside it. -/
def Lacks (key : String) (j : Json) : Prop := ∀ t, Inside j (.object t) → key ∉ t.keys

/-- A field of another name, in whose value the field is missing as well. -/
def FieldLacks (key : String) (e : String × Json) : Prop := e.1 ≠ key ∧ e.2.Lacks key

variable {key : String}

/-- What an address leads to is inside. -/
theorem inside_of_at? {j x : Json} {a : Address} (h : j.at? a = some x) : Inside j x := by
  induction a generalizing j with
  | nil =>
    obtain rfl := Option.some.inj h
    exact .self j
  | cons s rest ih =>
    obtain ⟨y, hy, hx⟩ := Option.bind_eq_some_iff.1 h
    cases s with
    | field k =>
      cases j with
      | object t => exact .field (Table.mem_entries_of_get? hy) (ih hx)
      | _ => cases hy
    | item i =>
      cases j with
      | array xs => exact .item (List.mem_of_getElem? hy) (ih hx)
      | _ => cases hy

theorem Lacks.field?_eq_none {j : Json} (h : j.Lacks key) : j.field? key = none := by
  cases j with
  | object t => exact Table.get?_eq_none_iff.2 (h t (.self _))
  | _ => rfl

theorem Lacks.inside {j x : Json} (h : j.Lacks key) (hx : Inside j x) : x.Lacks key :=
  fun t ht => h t (hx.trans ht)

/-- **No address leads to a field that is missing.** -/
theorem Lacks.at?_eq_none {j : Json} (h : j.Lacks key) (a : Address) :
    j.at? (a ++ [.field key]) = none := by
  rw [at?_append, Option.bind_eq_none_iff]
  intro x hx
  rw [at?_field, (h.inside (inside_of_at? hx)).field?_eq_none]
  rfl

theorem lacks_of_isLiteral {j : Json} (h : j.IsLiteral) : j.Lacks key := by
  intro t ht
  cases ht <;> exact h.elim

@[simp] theorem lacks_string (s : String) : (string s).Lacks key := lacks_of_isLiteral trivial

@[simp] theorem lacks_bool (b : Bool) : (bool b).Lacks key := lacks_of_isLiteral trivial

@[simp] theorem lacks_int (n : Int) : (int n).Lacks key := lacks_of_isLiteral trivial

@[simp] theorem lacks_null : null.Lacks key := lacks_of_isLiteral trivial

/-- **An array lacks what its items lack.** -/
@[simp] theorem lacks_array {xs : List Json} : (array xs).Lacks key ↔ ∀ x ∈ xs, x.Lacks key := by
  refine ⟨fun h x hx t ht => h t (.item hx ht), fun h t ht => ?_⟩
  cases ht with
  | item hx ht => exact h _ hx t ht

/-- **An object lacks a field** if it has no field of that name and its fields lack it. -/
@[simp] theorem lacks_object {t : Table Json} :
    (object t).Lacks key ↔ ∀ e ∈ t.entries, FieldLacks key e := by
  constructor
  · intro h e he
    exact ⟨fun hkey => h t (.self _) (List.mem_map.2 ⟨e, he, hkey⟩), fun s hs => h s (.field he hs)⟩
  · intro h s hs
    cases hs with
    | self =>
      intro hmem
      obtain ⟨e, he, hkey⟩ := List.mem_map.1 hmem
      exact (h e he).1 hkey
    | field he hs => exact (h _ he).2 s hs

@[simp] theorem lacks_fields {es : List (String × Json)} :
    (fields es).Lacks key ↔ ∀ e ∈ es, FieldLacks key e :=
  lacks_object

@[simp] theorem fieldLacks_iff {k : String} {x : Json} :
    FieldLacks key (k, x) ↔ k ≠ key ∧ x.Lacks key :=
  Iff.rfl

@[simp] theorem lacks_strings (ss : List String) : (strings ss).Lacks key := by
  simp [strings]

/-- A field that is read lacks what its object lacks. -/
theorem Lacks.field? {j x : Json} (h : j.Lacks key) {k : String} (hx : j.field? k = some x) :
    x.Lacks key :=
  h.inside (inside_of_at? (a := [.field k]) (by rw [at?_field, hx]; rfl))

/-! ## Where a field may stand -/

/-- **Where a field may stand** in a value: each address of it leads through a place of a kind. -/
def FieldsAt (key : String) (ok : Address → Prop) (j : Json) : Prop :=
  ∀ a x, j.at? (a ++ [.field key]) = some x → ok a

variable {ok : Address → Prop}

theorem Lacks.fieldsAt {j : Json} (h : j.Lacks key) : j.FieldsAt key ok := by
  intro a x hx
  rw [h.at?_eq_none] at hx
  cases hx

/-- **Step by step**: a field stands in a value itself, or in what a step leads to. -/
theorem fieldsAt_of_step {j : Json} (self : ∀ x, j.field? key = some x → ok [])
    (each : ∀ s x, j.step? s = some x → x.FieldsAt key fun a => ok (s :: a)) :
    j.FieldsAt key ok := by
  intro a x hx
  cases a with
  | nil =>
    obtain ⟨y, hy, -⟩ := Option.bind_eq_some_iff.1 hx
    exact self y hy
  | cons s rest =>
    obtain ⟨y, hy, hx⟩ := Option.bind_eq_some_iff.1 hx
    exact each s y hy rest x hx

theorem fieldsAt_object {t : Table Json} (self : ∀ x, t.get? key = some x → ok [])
    (each : ∀ k x, t.get? k = some x → x.FieldsAt key fun a => ok (.field k :: a)) :
    (object t).FieldsAt key ok := by
  refine fieldsAt_of_step self fun s x hx => ?_
  cases s with
  | field k => exact each k x hx
  | item i => cases hx

theorem fieldsAt_array {xs : List Json}
    (each : ∀ (i : Nat) x, xs[i]? = some x → x.FieldsAt key fun a => ok (.item i :: a)) :
    (array xs).FieldsAt key ok := by
  refine fieldsAt_of_step (fun x hx => nomatch hx) fun s x hx => ?_
  cases s with
  | field k => cases hx
  | item i => exact each i x hx

/-- **An object that lacks a field outside one of its own**: what that one holds is left open. -/
def LacksOutside (field key : String) (j : Json) : Prop :=
  ∃ t, j = .object t ∧ ∀ k x, t.get? k = some x → k ≠ key ∧ (k ≠ field → x.Lacks key)

namespace LacksOutside

variable {field : String} {j : Json}

theorem ofFields {es : List (String × Json)}
    (h : ∀ e ∈ es, e.1 ≠ key ∧ (e.1 ≠ field → e.2.Lacks key)) :
    (fields es).LacksOutside field key :=
  ⟨⟨es⟩, rfl, fun _ _ hx => h _ (Table.mem_entries_of_get? hx)⟩

theorem exists_object (h : j.LacksOutside field key) : ∃ t, j = .object t :=
  h.imp fun _ ht => ht.1

/-- What the field that is left open holds decides. -/
theorem fieldsAt (h : j.LacksOutside field key)
    (inside : ∀ x, j.field? field = some x → x.FieldsAt key fun a => ok (.field field :: a)) :
    j.FieldsAt key ok := by
  obtain ⟨t, rfl, ht⟩ := h
  refine fieldsAt_object (fun x hx => absurd rfl (ht key x hx).1) fun k x hx => ?_
  by_cases hk : k = field
  · subst hk
    exact inside x hx
  · exact ((ht k x hx).2 hk).fieldsAt

/-- The field that is left open may be changed at will. -/
theorem modifyField (h : j.LacksOutside field key) {k : String} {f : Json → Json}
    (hf : k = field ∨ ∀ x, x.Lacks key → (f x).Lacks key) :
    (j.modifyField k f).LacksOutside field key := by
  obtain ⟨t, rfl, ht⟩ := h
  refine ⟨_, rfl, fun k' x hx => ?_⟩
  rw [Table.get?_modify] at hx
  split at hx
  · next hk =>
    obtain ⟨y, hy, rfl⟩ := Option.map_eq_some_iff.1 hx
    refine ⟨(ht k' y hy).1, fun hne => ?_⟩
    obtain hopen | hf := hf
    · exact absurd (hk.trans hopen) hne
    · exact hf y ((ht k' y hy).2 hne)
  · exact ht k' x hx

theorem setField (h : j.LacksOutside field key) {k : String} (hk : k ≠ key) {value : Json}
    (hvalue : k = field ∨ value.Lacks key) : (setField k value j).LacksOutside field key := by
  obtain ⟨t, rfl, ht⟩ := h
  refine ⟨_, rfl, fun k' x hx => ?_⟩
  rw [Table.get?_insert] at hx
  split at hx
  · next hkey =>
    rw [hkey, ← Option.some.inj hx]
    exact ⟨hk, fun hne => hvalue.resolve_left hne⟩
  · exact ht k' x hx

theorem mapEntries {t : Table Json} (h : (object t).LacksOutside field key)
    {f : String → Json → Json} (hf : ∀ k x, k ≠ field → x.Lacks key → (f k x).Lacks key) :
    (object (t.mapEntries f)).LacksOutside field key := by
  obtain ⟨_, ⟨⟩, ht⟩ := h
  refine ⟨_, rfl, fun k x hx => ?_⟩
  rw [Table.get?_mapEntries] at hx
  obtain ⟨y, hy, rfl⟩ := Option.map_eq_some_iff.1 hx
  exact ⟨(ht k y hy).1, fun hne => hf k y hne ((ht k y hy).2 hne)⟩

end LacksOutside

/-! ## Changes -/

/-- **An object whose fields are changed** lacks what it did if the changed ones do. -/
theorem lacks_mapEntries {t : Table Json} (h : (object t).Lacks key) {f : String → Json → Json}
    (hf : ∀ e ∈ t.entries, e.2.Lacks key → (f e.1 e.2).Lacks key) :
    (object (t.mapEntries f)).Lacks key := by
  refine lacks_object.2 fun e he => ?_
  obtain ⟨x, hx, hfx⟩ := Table.mem_entries_mapEntries.1 he
  have hfield := lacks_object.1 h _ hx
  exact ⟨hfield.1, hfx ▸ hf _ hx hfield.2⟩

variable {f : Json → Json} (hf : ∀ x, x.Lacks key → (f x).Lacks key)
include hf

theorem lacks_modifyField (k : String) {j : Json} (h : j.Lacks key) :
    (j.modifyField k f).Lacks key := by
  cases j with
  | object t =>
    refine lacks_object.2 fun e he => ?_
    obtain he | ⟨x, hx, rfl⟩ := Table.mem_entries_modify he
    · exact lacks_object.1 h e he
    · have hfield := lacks_object.1 h _ hx
      exact ⟨hfield.1, hf x hfield.2⟩
  | _ => exact h

theorem lacks_mapFields {j : Json} (h : j.Lacks key) : (j.mapFields f).Lacks key := by
  cases j with
  | object t => exact lacks_mapEntries h fun e _ => hf e.2
  | _ => exact h

omit hf in
theorem lacks_insertAll {t : Table Json} (h : (object t).Lacks key) {more : List (String × Json)}
    (hmore : ∀ e ∈ more, FieldLacks key e) : (object (t.insertAll more)).Lacks key :=
  lacks_object.2 fun e he => (Table.mem_entries_insertAll he).elim (lacks_object.1 h e) (hmore e)

omit hf in
/-- **Removing uploads** adds no fields. -/
theorem lacks_withoutFiles_and_properties (j : Json) (h : j.Lacks key) :
    j.withoutFiles.Lacks key ∧ (propertiesWithoutFiles j).Lacks key := by
  induction j using object_induction with
  | other j hother =>
    rw [withoutFiles_eq_self hother, propertiesWithoutFiles_eq_self hother]
    exact ⟨h, h⟩
  | object t ih =>
    rw [withoutFiles_object, propertiesWithoutFiles_object]
    refine ⟨lacks_mapEntries h fun e he hlacks => ?_,
      lacks_mapEntries h fun e he hlacks => (ih e he hlacks).1⟩
    obtain ⟨hitems, hproperties⟩ := ih e he hlacks
    unfold fieldWithoutFiles
    split_ifs
    · exact lacks_string _
    · exact hlacks
    · exact hitems
    · exact hproperties
    · exact hlacks

omit hf in
theorem lacks_withoutFiles {j : Json} (h : j.Lacks key) : j.withoutFiles.Lacks key :=
  (lacks_withoutFiles_and_properties j h).1

omit hf in
theorem lacks_fieldWithoutFiles (k : String) {x : Json} (hx : x.Lacks key) :
    (fieldWithoutFiles k x).Lacks key := by
  unfold fieldWithoutFiles
  split_ifs
  · exact lacks_string _
  · exact hx
  · exact lacks_withoutFiles hx
  · exact (lacks_withoutFiles_and_properties x hx).2
  · exact hx

end Json

end SwaggerForge
