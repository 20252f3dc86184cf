import Mathlib.Data.List.Forall2
import Mathlib.Data.List.Perm.Subperm
import SwaggerForge.Json.Reader
import SwaggerForge.Proofs.Lacking

/-!
# Equality of the data model

Two values are the same in the data model if they differ in nothing but the order of the keys of
objects and the sign of a zero (`Json.same`). The comparison goes through the fields of the first
object and looks each of them up in the second one, so that it is not symmetric by its form, and on
lists of fields with a key twice it is not even reflexive. Objects have each key once, though: a
value whose objects do, at every depth, is **proper** (`Json.Proper`), and whatever is read from a
text is proper (`Json.proper_of_parse?`).

Among proper values sameness is an equivalence (`Json.same_equivalence`). That it is transitive
holds of all values. That it is symmetric is a matter of counting: the keys of the first object are
among those of the second one, distinct, and as many.
-/

namespace SwaggerForge.Json

/-- **Induction over values** and what is inside them. -/
theorem nested_induction {motive : Json → Prop} (literal : ∀ j : Json, j.IsLiteral → motive j)
    (array : ∀ xs : List Json, (∀ x ∈ xs, motive x) → motive (.array xs))
    (object : ∀ t : Table Json, (∀ e ∈ t.entries, motive e.2) → motive (.object t)) :
    ∀ j : Json, motive j
  | .null => literal _ trivial
  | .bool _ => literal _ trivial
  | .int _ => literal _ trivial
  | .float _ => literal _ trivial
  | .string _ => literal _ trivial
  | .array xs => array xs fun x _ => nested_induction literal array object x
  | .object ⟨es⟩ => object ⟨es⟩ fun e _ => nested_induction literal array object e.2
termination_by j => sizeOf j
decreasing_by
  · have := List.sizeOf_lt_of_mem ‹x ∈ xs›
    simp only [Json.array.sizeOf_spec]
    omega
  · have := List.sizeOf_lt_of_mem ‹e ∈ es›
    have : sizeOf e = 1 + sizeOf e.1 + sizeOf e.2 := rfl
    simp only [Json.object.sizeOf_spec, Table.mk.sizeOf_spec]
    omega

/-! ## Proper values -/

/-- **A proper value**: every object in it has each key once. -/
def Proper (j : Json) : Prop := ∀ t, Inside j (.object t) → t.keys.Nodup

theorem proper_of_isLiteral {j : Json} (h : j.IsLiteral) : j.Proper := by
  intro t ht
  cases ht <;> exact h.elim

@[simp] theorem proper_int (n : Int) : (int n).Proper := proper_of_isLiteral trivial

@[simp] theorem proper_string (s : String) : (string s).Proper := proper_of_isLiteral trivial

@[simp] theorem proper_array {xs : List Json} : (array xs).Proper ↔ ∀ x ∈ xs, x.Proper := by
  refine ⟨fun h x hx t ht => h t (.item hx ht), fun h t ht => ?_⟩
  cases ht with
  | item hx ht => exact h _ hx t ht

@[simp] theorem proper_object {t : Table Json} :
    (object t).Proper ↔ t.keys.Nodup ∧ ∀ e ∈ t.entries, e.2.Proper := by
  refine ⟨fun h => ⟨h t (.self _), fun e he s hs => h s (.field he hs)⟩, fun h s hs => ?_⟩
  cases hs with
  | self => exact h.1
  | field he hs => exact h.2 _ he s hs

theorem proper_of_numberValue? {n : Numeral} {whole : Bool} {j : Json}
    (h : Raw.numberValue? n whole = some j) : j.Proper := by
  unfold Raw.numberValue? at h
  generalize (if n.negative then -(n.digits : Int) else n.digits) = signed at h
  dsimp only at h
  split at h
  · obtain rfl := Option.some.inj h
    exact proper_of_isLiteral trivial
  · obtain ⟨x, -, rfl⟩ := Option.map_eq_some_iff.1 h
    exact proper_of_isLiteral trivial

mutual

/-- **Values of trees** are proper: of a key that is repeated only the last value counts. -/
theorem proper_of_toJson? : ∀ (r : Raw) {j : Json}, r.toJson? = some j → j.Proper
  | .null, j, h => by
    obtain rfl := Option.some.inj h
    exact proper_of_isLiteral trivial
  | .bool b, j, h => by
    obtain rfl := Option.some.inj h
    exact proper_of_isLiteral trivial
  | .number n whole, j, h => proper_of_numberValue? h
  | .string s, j, h => by
    obtain ⟨text, -, rfl⟩ := Option.map_eq_some_iff.1 h
    exact proper_of_isLiteral trivial
  | .array xs, j, h => by
    obtain ⟨items, hitems, rfl⟩ := Option.map_eq_some_iff.1 h
    exact proper_array.2 (proper_of_itemsToJson? xs hitems)
  | .object fs, j, h => by
    obtain ⟨es, hes, rfl⟩ := Option.map_eq_some_iff.1 h
    refine proper_object.2 ⟨Table.nodup_keys_ofList es, fun e he => ?_⟩
    exact proper_of_fieldsToJson? fs hes e (Table.mem_entries_ofList he)

theorem proper_of_itemsToJson? : ∀ (xs : List Raw) {items : List Json},
    Raw.itemsToJson? xs = some items → ∀ x ∈ items, x.Proper
  | [], items, h => by
    obtain rfl := Option.some.inj h
    exact fun _ hx => nomatch hx
  | x :: rest, items, h => by
    obtain ⟨y, hy, h⟩ := Option.bind_eq_some_iff.1 h
    obtain ⟨ys, hys, h⟩ := Option.bind_eq_some_iff.1 h
    obtain rfl := Option.some.inj h
    exact List.forall_mem_cons.2 ⟨proper_of_toJson? x hy, proper_of_itemsToJson? rest hys⟩

theorem proper_of_fieldsToJson? : ∀ (fs : List (Option String × Raw)) {es : List (String × Json)},
    Raw.fieldsToJson? fs = some es → ∀ e ∈ es, e.2.Proper
  | [], es, h => by
    obtain rfl := Option.some.inj h
    exact fun _ he => nomatch he
  | (k, x) :: rest, es, h => by
    obtain ⟨key, -, h⟩ := Option.bind_eq_some_iff.1 h
    obtain ⟨y, hy, h⟩ := Option.bind_eq_some_iff.1 h
    obtain ⟨ys, hys, h⟩ := Option.bind_eq_some_iff.1 h
    obtain rfl := Option.some.inj h
    exact List.forall_mem_cons.2 ⟨proper_of_toJson? x hy, proper_of_fieldsToJson? rest hys⟩

end

/-- **What is read from a text is proper.** -/
theorem proper_of_parse? {text : String} {j : Json} (h : Json.parse? text = some j) :
    j.Proper := by
  obtain ⟨r, -, hr⟩ := Option.bind_eq_some_iff.1 h
  exact proper_of_toJson? r hr

/-! ## What is compared -/

theorem sameItems_iff {xs ys : List Json} :
    sameItems xs ys = true ↔ List.Forall₂ (fun x y => x.same y = true) xs ys := by
  induction xs generalizing ys with
  | nil => cases ys <;> simp [sameItems]
  | cons x xs ih => cases ys <;> simp [sameItems, ih]

theorem sameFields_iff {xs ys : List (String × Json)} :
    sameFields xs ys = true ↔
      ∀ e ∈ xs, ∃ y, ys.lookup e.1 = some y ∧ e.2.same y = true := by
  induction xs with
  | nil => simp [sameFields]
  | cons e rest ih =>
    obtain ⟨k, x⟩ := e
    rw [sameFields, Bool.and_eq_true, ih, List.forall_mem_cons]
    refine and_congr_left fun _ => ?_
    cases ys.lookup k <;> simp

/-- **Arrays are compared item by item**, -/
theorem same_array_iff {xs ys : List Json} :
    (array xs).same (array ys) = true ↔ List.Forall₂ (fun x y => x.same y = true) xs ys := by
  rw [same, sameItems_iff]

/-- **and objects key by key.** -/
theorem same_object_iff {t t' : Table Json} :
    (object t).same (object t') = true ↔ t.size = t'.size ∧
      ∀ e ∈ t.entries, ∃ y, t'.get? e.1 = some y ∧ e.2.same y = true := by
  obtain ⟨xs⟩ := t
  obtain ⟨ys⟩ := t'
  rw [same, Bool.and_eq_true, beq_iff_eq, sameFields_iff]
  rfl

/-- **Any other value is only the same as itself**, but for the two zeros. -/
theorem IsLiteral.same_iff {i : Json} (h : i.IsLiteral) {j : Json} :
    i.same j = true ↔
      i = j ∨ ∃ x y, i = float x ∧ j = float y ∧ x.significand = 0 ∧ y.significand = 0 := by
  cases i with
  | array => exact h.elim
  | object => exact h.elim
  | _ => cases j <;> simp [same, Binary64.same]

/-! ## Sameness is an equivalence -/

/-- **A proper value is the same as itself.** -/
theorem same_refl {j : Json} (h : j.Proper) : j.same j = true := by
  induction j using nested_induction with
  | literal j hj => exact hj.same_iff.2 (Or.inl rfl)
  | array xs ih =>
    rw [same_array_iff, List.forall₂_same]
    exact fun x hx => ih x hx (proper_array.1 h x hx)
  | object t ih =>
    obtain ⟨hn, hproper⟩ := proper_object.1 h
    refine same_object_iff.2 ⟨rfl, fun e he => ⟨e.2, Table.get?_of_mem_entries hn he, ?_⟩⟩
    exact ih e he (hproper e he)

/-- **What is the same as the same** is the same. -/
theorem same_trans {i j k : Json} (hij : i.same j = true) (hjk : j.same k = true) :
    i.same k = true := by
  induction i using nested_induction generalizing j k with
  | literal i hi =>
    rcases hi.same_iff.1 hij with rfl | ⟨x, y, rfl, rfl, hx, hy⟩
    · exact hjk
    · have hfloat : (float y).IsLiteral := trivial
      rcases hfloat.same_iff.1 hjk with rfl | ⟨y', z, -, rfl, -, hz⟩
      · exact hij
      · exact hi.same_iff.2 (Or.inr ⟨x, z, rfl, rfl, hx, hz⟩)
  | array xs ih =>
    cases j with
    | array ys =>
      cases k with
      | array zs =>
        rw [same_array_iff] at hij hjk ⊢
        induction hij generalizing zs with
        | nil =>
          cases hjk
          exact .nil
        | cons hxy hrest ihrest =>
          cases hjk with
          | cons hyz hrest' =>
            obtain ⟨hx, hxs⟩ := List.forall_mem_cons.1 ih
            exact .cons (hx hxy hyz) (ihrest hxs _ hrest')
      | _ => simp [same] at hjk
    | _ => simp [same] at hij
  | object t ih =>
    cases j with
    | object t' =>
      cases k with
      | object t'' =>
        rw [same_object_iff] at hij hjk ⊢
        refine ⟨hij.1.trans hjk.1, fun e he => ?_⟩
        obtain ⟨y, hy, hey⟩ := hij.2 e he
        obtain ⟨z, hz, hyz⟩ := hjk.2 (e.1, y) (Table.mem_entries_of_get? hy)
        exact ⟨z, hz, ih e he hey hyz⟩
      | _ => simp [same] at hjk
    | _ => simp [same] at hij

/-- **As many keys as another object that has them all** are all the keys of that object. -/
theorem perm_keys_of_subset {t t' : Table Json} (hn : t.keys.Nodup) (hsize : t.size = t'.size)
    (hsub : t.keys ⊆ t'.keys) : t.keys.Perm t'.keys := by
  refine (List.subperm_of_subset hn hsub).perm_of_length_le ?_
  show (t'.entries.map Prod.fst).length ≤ (t.entries.map Prod.fst).length
  rw [List.length_map, List.length_map]
  exact Nat.le_of_eq hsize.symm

/-- **What a proper value is the same as** is the same as it. -/
theorem same_symm {i j : Json} (hi : i.Proper) (h : i.same j = true) : j.same i = true := by
  induction i using nested_induction generalizing j with
  | literal i hliteral =>
    rcases hliteral.same_iff.1 h with rfl | ⟨x, y, rfl, rfl, hx, hy⟩
    · exact h
    · have hfloat : (float y).IsLiteral := trivial
      exact hfloat.same_iff.2 (Or.inr ⟨y, x, rfl, rfl, hy, hx⟩)
  | array xs ih =>
    cases j with
    | array ys =>
      have hproper := proper_array.1 hi
      rw [same_array_iff] at h ⊢
      clear hi
      induction h with
      | nil => exact .nil
      | cons hxy hrest ihrest =>
        obtain ⟨hx, hxs⟩ := List.forall_mem_cons.1 ih
        obtain ⟨hpx, hpxs⟩ := List.forall_mem_cons.1 hproper
        exact .cons (hx hpx hxy) (ihrest hxs hpxs)
    | _ => simp [same] at h
  | object t ih =>
    cases j with
    | object t' =>
      obtain ⟨hn, hproper⟩ := proper_object.1 hi
      obtain ⟨hsize, hfields⟩ := same_object_iff.1 h
      have hperm : t.keys.Perm t'.keys := by
        refine perm_keys_of_subset hn hsize fun key hkey => ?_
        obtain ⟨e, he, rfl⟩ := List.mem_map.1 hkey
        obtain ⟨y, hy, -⟩ := hfields e he
        exact Table.mem_keys_iff_get?.2 ⟨y, hy⟩
      refine same_object_iff.2 ⟨hsize.symm, fun e' he' => ?_⟩
      obtain ⟨x, hx⟩ := Table.mem_keys_iff_get?.1 (hperm.mem_iff.2 (List.mem_map_of_mem he'))
      have he := Table.mem_entries_of_get? hx
      obtain ⟨y, hy, hxy⟩ := hfields _ he
      obtain rfl : e'.2 = y :=
        Option.some.inj ((Table.get?_of_mem_entries (hperm.nodup_iff.1 hn) he').symm.trans hy)
      exact ⟨x, hx, ih _ he (hproper _ he) hxy⟩
    | _ => simp [same] at h

/-- **Among proper values sameness is an equivalence.** -/
theorem same_equivalence :
    Equivalence fun i j : { j : Json // j.Proper } => i.1.same j.1 = true where
  refl j := same_refl j.2
  symm h := same_symm (Subtype.property _) h
  trans := same_trans

end SwaggerForge.Json
