import Mathlib.Data.List.Nodup
import SwaggerForge.Table

/-!
# What tables hold

Two views of a table are needed: which entries it has, for what is true of
every value in it, and what is read under a key. The first is kept by writing
as far as one can say without knowing the keys – an entry of the new table is
the one written or an entry of the old one (`Table.mem_entries_insert`) – and
so it carries over to tables written in many steps.
-/

namespace SwaggerForge.Table

universe u v

variable {α : Type u} {β : Type v}

theorem contains_iff {t : Table α} {key : String} : t.contains key = true ↔ key ∈ t.keys :=
  List.contains_iff_mem

/-- **A key is there** exactly when something is read under it. -/
theorem mem_keys_iff_get? {t : Table α} {key : String} :
    key ∈ t.keys ↔ ∃ v, t.get? key = some v := by
  rw [← contains_iff, contains_eq_isSome_get?, Option.isSome_iff_exists]

theorem get?_eq_none_iff {t : Table α} {key : String} : t.get? key = none ↔ key ∉ t.keys := by
  rw [mem_keys_iff_get?, Option.eq_none_iff_forall_ne_some, not_exists]

theorem mem_entries_of_get? {t : Table α} {key : String} {v : α} (h : t.get? key = some v) :
    (key, v) ∈ t.entries := by
  obtain ⟨es⟩ := t
  unfold get? at h
  induction es with
  | nil => cases h
  | cons e rest ih =>
    obtain ⟨k, x⟩ := e
    rw [List.lookup_cons] at h
    split at h
    · next hk =>
      obtain rfl : key = k := by simpa using hk
      obtain rfl : x = v := Option.some.inj h
      exact List.mem_cons_self
    · exact List.mem_cons_of_mem _ (ih h)

/-- **With distinct keys every entry is read back.** -/
theorem get?_of_mem_entries {t : Table α} (hn : t.keys.Nodup) {key : String} {v : α}
    (h : (key, v) ∈ t.entries) : t.get? key = some v := by
  obtain ⟨es⟩ := t
  unfold get?
  unfold keys at hn
  induction es with
  | nil => cases h
  | cons e rest ih =>
    obtain ⟨k, x⟩ := e
    rw [List.map_cons, List.nodup_cons] at hn
    rw [List.lookup_cons]
    rcases List.mem_cons.1 h with heq | hrest
    · obtain ⟨rfl, rfl⟩ := Prod.mk.inj heq
      rw [beq_self_eq_true]
    · have hne : key ≠ k := fun e => hn.1 (e ▸ List.mem_map.2 ⟨(key, v), hrest, rfl⟩)
      rw [beq_eq_false_iff_ne.2 hne]
      exact ih hn.2 hrest

/-! ## Writing -/

theorem mem_entries_insertEntry {key : String} {value : α} {es : List (String × α)}
    {e : String × α} (h : e ∈ insertEntry key value es) : e = (key, value) ∨ e ∈ es := by
  induction es with
  | nil => exact Or.inl (List.mem_singleton.1 h)
  | cons e' rest ih =>
    obtain ⟨k, v⟩ := e'
    unfold insertEntry at h
    split at h
    · next hk =>
      rcases List.mem_cons.1 h with rfl | hr
      · exact Or.inl (hk ▸ rfl)
      · exact Or.inr (List.mem_cons_of_mem _ hr)
    · rcases List.mem_cons.1 h with rfl | hr
      · exact Or.inr List.mem_cons_self
      · exact (ih hr).imp_right (List.mem_cons_of_mem _)

/-- **An entry of a table with a key written** is the one written or was there
before. -/
theorem mem_entries_insert {t : Table α} {key : String} {value : α} {e : String × α}
    (h : e ∈ (t.insert key value).entries) : e = (key, value) ∨ e ∈ t.entries :=
  mem_entries_insertEntry h

theorem mem_entries_insertAll {t : Table α} {more : List (String × α)} {e : String × α}
    (h : e ∈ (t.insertAll more).entries) : e ∈ t.entries ∨ e ∈ more := by
  induction more generalizing t with
  | nil => exact Or.inl h
  | cons w rest ih =>
    rcases ih h with hw | hr
    · rcases mem_entries_insert hw with rfl | ht
      · exact Or.inr List.mem_cons_self
      · exact Or.inl ht
    · exact Or.inr (List.mem_cons_of_mem _ hr)

theorem mem_entries_ofList {es : List (String × α)} {e : String × α}
    (h : e ∈ (ofList es).entries) : e ∈ es :=
  (mem_entries_insertAll h).resolve_left List.not_mem_nil

theorem mem_keys_insert {t : Table α} {key : String} {value : α} {k : String} :
    k ∈ (t.insert key value).keys ↔ k = key ∨ k ∈ t.keys := by
  rw [keys_insert]
  split
  · next hk => exact ⟨Or.inr, fun h => h.elim (fun e => e ▸ hk) id⟩
  · rw [List.mem_append, List.mem_singleton, or_comm]

/-- **A new key** is written behind all others. -/
theorem insert_of_not_mem {t : Table α} {key : String} (h : key ∉ t.keys) (value : α) :
    t.insert key value = ⟨t.entries ++ [(key, value)]⟩ := by
  obtain ⟨es⟩ := t
  refine congrArg Table.mk ?_
  induction es with
  | nil => rfl
  | cons e rest ih =>
    obtain ⟨hne, hrest⟩ := not_or.1 (fun hmem => h (List.mem_cons.2 hmem))
    rw [insertEntry, if_neg (Ne.symm hne), ih hrest, List.cons_append]

/-- **The keys of a table with several written** are the old ones and those
written. -/
theorem mem_keys_insertAll {t : Table α} {more : List (String × α)} {k : String} :
    k ∈ (t.insertAll more).keys ↔ k ∈ t.keys ∨ k ∈ more.map Prod.fst := by
  induction more generalizing t with
  | nil => exact ⟨Or.inl, fun h => h.resolve_right List.not_mem_nil⟩
  | cons w rest ih =>
    show k ∈ ((t.insert w.1 w.2).insertAll rest).keys ↔ _
    rw [ih, mem_keys_insert, List.map_cons, List.mem_cons, or_assoc, or_left_comm]

theorem mem_keys_ofList {es : List (String × α)} {k : String} :
    k ∈ (ofList es).keys ↔ k ∈ es.map Prod.fst :=
  mem_keys_insertAll.trans ⟨fun h => h.resolve_left List.not_mem_nil, Or.inr⟩

/-- **New keys are written behind all others**, in their order. -/
theorem insertAll_of_nodup {t : Table α} {more : List (String × α)}
    (h : (t.keys ++ more.map Prod.fst).Nodup) : t.insertAll more = ⟨t.entries ++ more⟩ := by
  induction more generalizing t with
  | nil => exact congrArg Table.mk (List.append_nil _).symm
  | cons w rest ih =>
    have hw : w.1 ∉ t.keys := fun hmem =>
      (List.nodup_append.1 h).2.2 w.1 hmem w.1 List.mem_cons_self rfl
    show (t.insert w.1 w.2).insertAll rest = _
    rw [ih, insert_of_not_mem hw]
    · exact congrArg Table.mk (List.append_cons t.entries w rest).symm
    · rwa [keys_insert, if_neg hw, List.append_assoc]

theorem ofList_of_nodup {es : List (String × α)} (h : (es.map Prod.fst).Nodup) :
    ofList es = ⟨es⟩ :=
  insertAll_of_nodup (t := ∅) h

/-- A key that is not written reads as before. -/
theorem get?_insertAll_of_not_mem {more : List (String × α)} {key : String}
    (h : key ∉ more.map Prod.fst) (t : Table α) : (t.insertAll more).get? key = t.get? key := by
  induction more generalizing t with
  | nil => rfl
  | cons w rest ih =>
    rw [List.map_cons, List.mem_cons, not_or] at h
    show ((t.insert w.1 w.2).insertAll rest).get? key = _
    rw [ih h.2, get?_insert, if_neg h.1]

/-- Reading an entry of a list whose keys are distinct from the table written
from it. -/
theorem get?_insertAll_of_mem {t : Table α} {more : List (String × α)} {key : String} {v : α}
    (hn : (more.map Prod.fst).Nodup) (h : (key, v) ∈ more) :
    (t.insertAll more).get? key = some v := by
  induction more generalizing t with
  | nil => cases h
  | cons w rest ih =>
    rw [List.map_cons, List.nodup_cons] at hn
    show ((t.insert w.1 w.2).insertAll rest).get? key = _
    rcases List.mem_cons.1 h with rfl | hr
    · rw [get?_insertAll_of_not_mem hn.1, get?_insert, if_pos rfl]
    · exact ih hn.2 hr

theorem get?_ofList_of_mem {es : List (String × α)} {key : String} {v : α}
    (hn : (es.map Prod.fst).Nodup) (h : (key, v) ∈ es) : (ofList es).get? key = some v :=
  get?_insertAll_of_mem hn h

/-- **Of several values written to a key the last one stays.** -/
theorem get?_insertAll (t : Table α) (more : List (String × α)) (key : String) :
    (t.insertAll more).get? key
      = ((more.reverse.find? (·.1 == key)).map Prod.snd).or (t.get? key) := by
  induction more generalizing t with
  | nil => rfl
  | cons e rest ih =>
    show ((t.insert e.1 e.2).insertAll rest).get? key = _
    rw [ih, get?_insert, List.reverse_cons, List.find?_append, Option.map_or, Option.or_assoc,
      List.find?_singleton]
    by_cases hkey : key = e.1
    · rw [if_pos hkey, if_pos (beq_iff_eq.2 hkey.symm)]
      rfl
    · rw [if_neg hkey, if_neg (fun h => hkey (beq_iff_eq.1 h).symm)]
      rfl

/-- A key to which one value is written, however often, has it. -/
theorem get?_insertAll_of_agree {t : Table α} {more : List (String × α)} {key : String} {v : α}
    (h : (key, v) ∈ more) (hagree : ∀ w, (key, w) ∈ more → w = v) :
    (t.insertAll more).get? key = some v := by
  rw [get?_insertAll]
  cases hfind : more.reverse.find? (·.1 == key) with
  | none =>
    have hnot := List.find?_eq_none.1 hfind _ (List.mem_reverse.2 h)
    exact absurd (beq_self_eq_true key) hnot
  | some e =>
    obtain ⟨key', w⟩ := e
    have hkey := List.find?_some hfind
    obtain rfl : key' = key := beq_iff_eq.1 hkey
    obtain rfl := hagree w (List.mem_reverse.1 (List.mem_of_find?_eq_some hfind))
    rfl

theorem get?_ofList (es : List (String × α)) (key : String) :
    (ofList es).get? key = (es.reverse.find? (·.1 == key)).map Prod.snd :=
  (get?_insertAll ∅ es key).trans Option.or_none

theorem insertEntry_insertEntry (key : String) (v w : α) (es : List (String × α)) :
    insertEntry key w (insertEntry key v es) = insertEntry key w es := by
  have hcons (k : String) (x y : α) (rest : List (String × α)) :
      insertEntry key y ((k, x) :: rest)
        = if k = key then (k, y) :: rest else (k, x) :: insertEntry key y rest := rfl
  induction es with
  | nil =>
    show insertEntry key w [(key, v)] = [(key, w)]
    rw [hcons, if_pos rfl]
  | cons e rest ih =>
    obtain ⟨k, x⟩ := e
    by_cases hk : k = key
    · rw [hcons, hcons, if_pos hk, if_pos hk, hcons, if_pos hk]
    · rw [hcons, hcons, if_neg hk, if_neg hk, hcons, if_neg hk, ih]

/-- **Of two values written to a key the second stays.** -/
theorem insert_insert (t : Table α) (key : String) (v w : α) :
    (t.insert key v).insert key w = t.insert key w :=
  congrArg Table.mk (insertEntry_insertEntry key v w t.entries)

theorem insertAll_append (t : Table α) (es es' : List (String × α)) :
    t.insertAll (es ++ es') = (t.insertAll es).insertAll es' := by
  unfold insertAll
  rw [List.foldl_append]

/-! ## Writing again -/

theorem insertEntry_comm {key key' : String} (hne : key ≠ key') {es : List (String × α)}
    (hk : key ∈ es.map Prod.fst) (v w : α) :
    insertEntry key' w (insertEntry key v es) = insertEntry key v (insertEntry key' w es) := by
  induction es with
  | nil => cases hk
  | cons e rest ih =>
    obtain ⟨k, x⟩ := e
    by_cases hkey : k = key
    · subst hkey
      simp only [insertEntry, if_neg hne, if_true]
    · have hrest : key ∈ rest.map Prod.fst :=
        (List.mem_cons.1 hk).resolve_left fun h => hkey h.symm
      by_cases hkey' : k = key'
      · subst hkey'
        simp only [insertEntry, if_neg hkey, if_true]
      · simp only [insertEntry, if_neg hkey, if_neg hkey', ih hrest]

/-- **Two keys may be written in either order**, if the one is there already. -/
theorem insert_comm {t : Table α} {key key' : String} (hne : key ≠ key') (hk : key ∈ t.keys)
    (v w : α) : (t.insert key v).insert key' w = (t.insert key' w).insert key v :=
  congrArg Table.mk (insertEntry_comm hne hk v w)

/-- A key that is there may be written first or last, if it is not written in between. -/
theorem insertAll_insert_of_not_mem {t : Table α} {key : String} (hk : key ∈ t.keys)
    {more : List (String × α)} (hmore : key ∉ more.map Prod.fst) (v : α) :
    (t.insert key v).insertAll more = (t.insertAll more).insert key v := by
  induction more generalizing t with
  | nil => rfl
  | cons e rest ih =>
    rw [List.map_cons, List.mem_cons, not_or] at hmore
    show ((t.insert key v).insert e.1 e.2).insertAll rest
      = ((t.insert e.1 e.2).insertAll rest).insert key v
    rw [insert_comm hmore.1 hk, ih (mem_keys_insert.2 (Or.inr hk)) hmore.2]

/-- What is overwritten later need not be written, if its key is there. -/
theorem insertAll_insert_of_mem {t : Table α} {key : String} (hk : key ∈ t.keys)
    {more : List (String × α)} (hmore : key ∈ more.map Prod.fst) (v : α) :
    (t.insert key v).insertAll more = t.insertAll more := by
  induction more generalizing t with
  | nil => cases hmore
  | cons e rest ih =>
    show ((t.insert key v).insert e.1 e.2).insertAll rest = (t.insert e.1 e.2).insertAll rest
    by_cases hkey : key = e.1
    · rw [hkey, insert_insert]
    · rw [insert_comm hkey hk]
      exact ih (mem_keys_insert.2 (Or.inr hk)) ((List.mem_cons.1 hmore).resolve_left hkey)

/-- **Writing the same keys again** changes nothing. -/
theorem insertAll_insertAll (t : Table α) (more : List (String × α)) :
    (t.insertAll more).insertAll more = t.insertAll more := by
  induction more generalizing t with
  | nil => rfl
  | cons e rest ih =>
    obtain ⟨key, v⟩ := e
    show (((t.insert key v).insertAll rest).insert key v).insertAll rest
      = (t.insert key v).insertAll rest
    have hkey : key ∈ (t.insert key v).keys := mem_keys_insert.2 (Or.inl rfl)
    have hthere : key ∈ ((t.insert key v).insertAll rest).keys :=
      mem_keys_insertAll.2 (Or.inl hkey)
    by_cases hrest : key ∈ rest.map Prod.fst
    · rw [insertAll_insert_of_mem hthere hrest, ih]
    · rw [← insertAll_insert_of_not_mem hkey hrest, insert_insert, ih]

/-! ## Changing and taking out -/

theorem keys_modifyEntry (key : String) (f : α → α) (es : List (String × α)) :
    (modifyEntry key f es).map Prod.fst = es.map Prod.fst := by
  induction es with
  | nil => rfl
  | cons e rest ih =>
    obtain ⟨k, v⟩ := e
    unfold modifyEntry
    split
    · rfl
    · rw [List.map_cons, List.map_cons, ih]

@[simp] theorem keys_modify (t : Table α) (key : String) (f : α → α) :
    (t.modify key f).keys = t.keys :=
  keys_modifyEntry key f t.entries

theorem lookup_modifyEntry (key : String) (f : α → α) (es : List (String × α)) (k : String) :
    (modifyEntry key f es).lookup k
      = if k = key then (es.lookup k).map f else es.lookup k := by
  induction es with
  | nil => rw [modifyEntry, List.lookup_nil]; exact (ite_self none).symm
  | cons e rest ih =>
    obtain ⟨k', v⟩ := e
    unfold modifyEntry
    by_cases hkey : k' = key
    · rw [if_pos hkey, List.lookup_cons, List.lookup_cons]
      by_cases hk : k = k'
      · rw [if_pos (hk.trans hkey), beq_iff_eq.2 hk]
        rfl
      · rw [if_neg (hkey ▸ hk), beq_eq_false_iff_ne.2 hk]
    · rw [if_neg hkey, List.lookup_cons, List.lookup_cons]
      by_cases hk : k = k'
      · rw [if_neg (hk ▸ hkey), beq_iff_eq.2 hk]
      · rw [beq_eq_false_iff_ne.2 hk]
        exact ih

/-- **A changed value reads back changed**, and all others are as before. -/
theorem get?_modify (t : Table α) (key : String) (f : α → α) (k : String) :
    (t.modify key f).get? k = if k = key then (t.get? k).map f else t.get? k :=
  lookup_modifyEntry key f t.entries k

@[simp] theorem keys_foldl_modify (keys : List String) (f : α → α) (t : Table α) :
    (keys.foldl (fun t key => t.modify key f) t).keys = t.keys := by
  induction keys generalizing t with
  | nil => rfl
  | cons key rest ih => rw [List.foldl_cons, ih, keys_modify]

/-- **Values changed under several keys**, where a second change does nothing. -/
theorem get?_foldl_modify {f : α → α} (hf : ∀ x, f (f x) = f x) (keys : List String) (t : Table α)
    (k : String) : (keys.foldl (fun t key => t.modify key f) t).get? k
      = if k ∈ keys then (t.get? k).map f else t.get? k := by
  induction keys generalizing t with
  | nil => rw [List.foldl_nil, if_neg List.not_mem_nil]
  | cons key rest ih =>
    rw [List.foldl_cons, ih, get?_modify]
    by_cases hk : k = key
    · have hff : f ∘ f = f := funext hf
      rw [if_pos hk, Option.map_map, hff, ite_self, if_pos (hk ▸ List.mem_cons_self)]
    · have hmem : k ∈ key :: rest ↔ k ∈ rest := List.mem_cons.trans (or_iff_right hk)
      rw [if_neg hk]
      exact (if_congr hmem rfl rfl).symm

theorem modifyEntry_eq_self {key : String} {f : α → α} {es : List (String × α)}
    (h : ∀ v, es.lookup key = some v → f v = v) : modifyEntry key f es = es := by
  induction es with
  | nil => rfl
  | cons e rest ih =>
    obtain ⟨k, x⟩ := e
    unfold modifyEntry
    by_cases hkey : k = key
    · rw [if_pos hkey, h x (by rw [hkey, List.lookup_cons, beq_self_eq_true])]
    · rw [if_neg hkey, ih fun v hv => h v ?_]
      rw [List.lookup_cons, beq_eq_false_iff_ne.2 (Ne.symm hkey)]
      exact hv

/-- **A change that leaves the value as it is** changes nothing. -/
theorem modify_eq_self {t : Table α} {key : String} {f : α → α}
    (h : ∀ v, t.get? key = some v → f v = v) : t.modify key f = t :=
  congrArg Table.mk (modifyEntry_eq_self h)

theorem modifyEntry_eq_insertEntry {key : String} (f : α → α) {v : α} {es : List (String × α)}
    (h : es.lookup key = some v) : modifyEntry key f es = insertEntry key (f v) es := by
  induction es with
  | nil => cases h
  | cons e rest ih =>
    obtain ⟨k, x⟩ := e
    unfold modifyEntry insertEntry
    by_cases hk : k = key
    · rw [hk, List.lookup_cons_self] at h
      rw [if_pos hk, if_pos hk, Option.some.inj h]
    · rw [List.lookup_cons, beq_false_of_ne (Ne.symm hk)] at h
      rw [if_neg hk, if_neg hk, ih h]

/-- **Changing a value** is writing what becomes of it. -/
theorem modify_eq_insert {t : Table α} {key : String} {v : α} (h : t.get? key = some v)
    (f : α → α) : t.modify key f = t.insert key (f v) :=
  congrArg Table.mk (modifyEntry_eq_insertEntry f h)

theorem modifyEntry_modifyEntry (key : String) (f g : α → α) (es : List (String × α)) :
    modifyEntry key g (modifyEntry key f es) = modifyEntry key (fun v => g (f v)) es := by
  induction es with
  | nil => rfl
  | cons e rest ih =>
    obtain ⟨k, x⟩ := e
    by_cases hkey : k = key
    · simp only [modifyEntry, if_pos hkey]
    · simp only [modifyEntry, if_neg hkey, ih]

theorem modify_modify (t : Table α) (key : String) (f g : α → α) :
    (t.modify key f).modify key g = t.modify key fun v => g (f v) :=
  congrArg Table.mk (modifyEntry_modifyEntry key f g t.entries)

theorem modifyEntry_comm {key key' : String} (hne : key ≠ key') (f g : α → α)
    (es : List (String × α)) :
    modifyEntry key' g (modifyEntry key f es) = modifyEntry key f (modifyEntry key' g es) := by
  induction es with
  | nil => rfl
  | cons e rest ih =>
    obtain ⟨k, x⟩ := e
    by_cases hkey : k = key
    · subst hkey
      simp only [modifyEntry, if_neg hne, if_true]
    · by_cases hkey' : k = key'
      · subst hkey'
        simp only [modifyEntry, if_neg hkey, if_true]
      · simp only [modifyEntry, if_neg hkey, if_neg hkey', ih]

/-- **Changes under different keys** do not meet. -/
theorem modify_comm {key key' : String} (hne : key ≠ key') (f g : α → α) (t : Table α) :
    (t.modify key f).modify key' g = (t.modify key' g).modify key f :=
  congrArg Table.mk (modifyEntry_comm hne f g t.entries)

theorem modifyEntry_insertEntry {key key' : String} (hne : key ≠ key') (f : α → α) (v : α)
    (es : List (String × α)) :
    modifyEntry key f (insertEntry key' v es) = insertEntry key' v (modifyEntry key f es) := by
  induction es with
  | nil => simp only [insertEntry, modifyEntry, if_neg (Ne.symm hne)]
  | cons e rest ih =>
    obtain ⟨k, x⟩ := e
    by_cases hkey : k = key
    · subst hkey
      simp only [insertEntry, modifyEntry, if_neg hne, if_true]
    · by_cases hkey' : k = key'
      · subst hkey'
        simp only [insertEntry, modifyEntry, if_neg hkey, if_true]
      · simp only [insertEntry, modifyEntry, if_neg hkey, if_neg hkey', ih]

theorem modify_insert {key key' : String} (hne : key ≠ key') (f : α → α) (v : α) (t : Table α) :
    (t.insert key' v).modify key f = (t.modify key f).insert key' v :=
  congrArg Table.mk (modifyEntry_insertEntry hne f v t.entries)

theorem mem_entries_modifyEntry {key : String} {f : α → α} {es : List (String × α)}
    {e : String × α} (h : e ∈ modifyEntry key f es) :
    e ∈ es ∨ ∃ v, (key, v) ∈ es ∧ e = (key, f v) := by
  induction es with
  | nil => cases h
  | cons e' rest ih =>
    obtain ⟨k, v⟩ := e'
    unfold modifyEntry at h
    split at h
    · next hk =>
      subst hk
      rcases List.mem_cons.1 h with rfl | hr
      · exact Or.inr ⟨v, List.mem_cons_self, rfl⟩
      · exact Or.inl (List.mem_cons_of_mem _ hr)
    · rcases List.mem_cons.1 h with rfl | hr
      · exact Or.inl List.mem_cons_self
      · rcases ih hr with hin | ⟨x, hx, rfl⟩
        · exact Or.inl (List.mem_cons_of_mem _ hin)
        · exact Or.inr ⟨x, List.mem_cons_of_mem _ hx, rfl⟩

theorem mem_entries_modify {t : Table α} {key : String} {f : α → α} {e : String × α}
    (h : e ∈ (t.modify key f).entries) :
    e ∈ t.entries ∨ ∃ v, (key, v) ∈ t.entries ∧ e = (key, f v) :=
  mem_entries_modifyEntry h

theorem mem_entries_mapEntries {f : String → α → β} {t : Table α} {e : String × β} :
    e ∈ (t.mapEntries f).entries ↔ ∃ v, (e.1, v) ∈ t.entries ∧ e.2 = f e.1 v := by
  unfold mapEntries
  rw [List.mem_map]
  constructor
  · rintro ⟨⟨k, v⟩, h, rfl⟩
    exact ⟨v, h, rfl⟩
  · rintro ⟨v, h, he⟩
    exact ⟨(e.1, v), h, Prod.ext rfl he.symm⟩

theorem mem_entries_map {f : α → β} {t : Table α} {e : String × β} :
    e ∈ (t.map f).entries ↔ ∃ v, (e.1, v) ∈ t.entries ∧ e.2 = f v :=
  mem_entries_mapEntries

@[simp] theorem keys_map (f : α → β) (t : Table α) : (t.map f).keys = t.keys :=
  keys_mapEntries (fun _ => f) t

theorem get?_mapEntries (f : String → α → β) (t : Table α) (k : String) :
    (t.mapEntries f).get? k = (t.get? k).map (f k) := by
  obtain ⟨es⟩ := t
  unfold get? mapEntries
  induction es with
  | nil => rfl
  | cons e rest ih =>
    obtain ⟨k', v⟩ := e
    rw [List.map_cons, List.lookup_cons, List.lookup_cons]
    by_cases hk : k = k'
    · rw [beq_iff_eq.2 hk, hk]
      rfl
    · rw [beq_eq_false_iff_ne.2 hk]
      exact ih

theorem get?_map (f : α → β) (t : Table α) (k : String) :
    (t.map f).get? k = (t.get? k).map f :=
  get?_mapEntries (fun _ => f) t k

theorem mapEntries_congr {f g : String → α → β} {t : Table α}
    (h : ∀ e ∈ t.entries, f e.1 e.2 = g e.1 e.2) : t.mapEntries f = t.mapEntries g := by
  unfold mapEntries
  exact congrArg Table.mk (List.map_congr_left fun e he => congrArg (Prod.mk e.1) (h e he))

/-- **A change of every value leaves a table as it is** exactly when it does so with each
value. -/
theorem mapEntries_eq_self_iff {f : String → α → α} {t : Table α} :
    t.mapEntries f = t ↔ ∀ e ∈ t.entries, f e.1 e.2 = e.2 := by
  obtain ⟨es⟩ := t
  unfold mapEntries
  rw [mk.injEq]
  induction es with
  | nil => exact iff_of_true rfl fun _ h => nomatch h
  | cons e rest ih =>
    rw [List.map_cons, List.cons.injEq, List.forall_mem_cons, ih]
    exact and_congr_left' ⟨fun h => congrArg Prod.snd h, fun h => Prod.ext rfl h⟩

theorem mapEntries_mapEntries (f g : String → α → α) (t : Table α) :
    (t.mapEntries f).mapEntries g = t.mapEntries fun key v => g key (f key v) := by
  unfold mapEntries
  rw [List.map_map]
  rfl

/-- **A change of every value is made once** if a second change of each value does
nothing. -/
theorem mapEntries_twice {f : String → α → α} {t : Table α}
    (h : ∀ e ∈ t.entries, f e.1 (f e.1 e.2) = f e.1 e.2) :
    (t.mapEntries f).mapEntries f = t.mapEntries f :=
  (mapEntries_mapEntries f f t).trans (mapEntries_congr h)

theorem map_insertEntry (f : String → α → β) (key : String) (v : α) (es : List (String × α)) :
    (insertEntry key v es).map (fun e => (e.1, f e.1 e.2))
      = insertEntry key (f key v) (es.map fun e => (e.1, f e.1 e.2)) := by
  induction es with
  | nil => rfl
  | cons e rest ih =>
    obtain ⟨k, x⟩ := e
    by_cases hkey : k = key
    · subst hkey
      simp only [insertEntry, if_true, List.map_cons]
    · simp only [insertEntry, if_neg hkey, List.map_cons, ih]

theorem mapEntries_insert (f : String → α → β) (t : Table α) (key : String) (v : α) :
    (t.insert key v).mapEntries f = (t.mapEntries f).insert key (f key v) :=
  congrArg Table.mk (map_insertEntry f key v t.entries)

/-- **Values that a change leaves as they are** may be written before it or after it. -/
theorem mapEntries_insertAll {f : String → α → α} {more : List (String × α)}
    (h : ∀ e ∈ more, f e.1 e.2 = e.2) (t : Table α) :
    (t.insertAll more).mapEntries f = (t.mapEntries f).insertAll more := by
  induction more generalizing t with
  | nil => rfl
  | cons e rest ih =>
    obtain ⟨he, hrest⟩ := List.forall_mem_cons.1 h
    show ((t.insert e.1 e.2).insertAll rest).mapEntries f
      = ((t.mapEntries f).insert e.1 e.2).insertAll rest
    rw [ih hrest, mapEntries_insert, he]

theorem mem_values {t : Table α} {v : α} : v ∈ t.values ↔ ∃ key, (key, v) ∈ t.entries := by
  unfold values
  rw [List.mem_map]
  constructor
  · rintro ⟨⟨key, v⟩, h, rfl⟩
    exact ⟨key, h⟩
  · rintro ⟨key, h⟩
    exact ⟨(key, v), h, rfl⟩

theorem values_map (f : α → β) (t : Table α) : (t.map f).values = t.values.map f := by
  unfold values map mapEntries
  rw [List.map_map, List.map_map]
  rfl

theorem perm_of_takeEntry {key : String} {es left : List (String × α)} {v : α}
    (h : takeEntry key es = some (v, left)) : es.Perm ((key, v) :: left) := by
  induction es generalizing left with
  | nil => cases h
  | cons e rest ih =>
    obtain ⟨k, x⟩ := e
    unfold takeEntry at h
    split at h
    · next hk =>
      obtain ⟨rfl, rfl⟩ := Prod.mk.inj (Option.some.inj h)
      rw [hk]
      refine List.Perm.cons _ ?_
      -- the last entry takes the place of the one that is taken out
      cases hlast : rest.getLast? with
      | none => rw [List.getLast?_eq_none_iff.1 hlast]
      | some last =>
        have hsplit : rest.dropLast ++ [last] = rest := List.dropLast_append_getLast? last hlast
        exact (List.Perm.of_eq hsplit.symm).trans (List.perm_append_singleton last rest.dropLast)
    · obtain ⟨⟨y, left'⟩, hy, he⟩ := Option.map_eq_some_iff.1 h
      obtain ⟨rfl, rfl⟩ := Prod.mk.inj he
      exact ((ih hy).cons (k, x)).trans (.swap (key, y) (k, x) left')

/-- **What is taken out and what is left** are together what was there. -/
theorem perm_of_swapRemove {t left : Table α} {key : String} {v : α}
    (h : t.swapRemove key = some (v, left)) : t.entries.Perm ((key, v) :: left.entries) := by
  obtain ⟨⟨x, es⟩, hx, he⟩ := Option.map_eq_some_iff.1 h
  obtain ⟨rfl, rfl⟩ := Prod.mk.inj he
  exact perm_of_takeEntry hx

/-- **What is taken out was there**, and so was all that is left. -/
theorem mem_of_swapRemove {t left : Table α} {key : String} {v : α}
    (h : t.swapRemove key = some (v, left)) :
    (key, v) ∈ t.entries ∧ ∀ e ∈ left.entries, e ∈ t.entries :=
  ⟨(perm_of_swapRemove h).mem_iff.2 List.mem_cons_self,
    fun _ he => (perm_of_swapRemove h).mem_iff.2 (List.mem_cons_of_mem _ he)⟩

theorem takeEntry_eq_none_iff {key : String} {es : List (String × α)} :
    takeEntry key es = none ↔ key ∉ es.map Prod.fst := by
  induction es with
  | nil => exact iff_of_true rfl List.not_mem_nil
  | cons e rest ih =>
    obtain ⟨k, x⟩ := e
    rw [List.map_cons, List.mem_cons, not_or]
    by_cases hkey : k = key
    · rw [takeEntry, if_pos hkey]
      exact iff_of_false (fun h => nomatch h) fun h => h.1 hkey.symm
    · rw [takeEntry, if_neg hkey, Option.map_eq_none_iff, ih]
      exact (and_iff_right (Ne.symm hkey)).symm

/-- **Nothing is taken out** exactly when the key is not there. -/
theorem swapRemove_eq_none_iff {t : Table α} {key : String} :
    t.swapRemove key = none ↔ key ∉ t.keys :=
  Option.map_eq_none_iff.trans takeEntry_eq_none_iff

theorem takeEntry_insertEntry {key : String} {es : List (String × α)}
    (h : key ∉ es.map Prod.fst) (v : α) : takeEntry key (insertEntry key v es) = some (v, es) := by
  induction es with
  | nil => exact if_pos rfl
  | cons e rest ih =>
    obtain ⟨k, x⟩ := e
    rw [List.map_cons, List.mem_cons, not_or] at h
    rw [insertEntry, if_neg (Ne.symm h.1), takeEntry, if_neg (Ne.symm h.1), ih h.2]
    rfl

/-- **A new key leaves no gap** when it is taken out again. -/
theorem swapRemove_insert {t : Table α} {key : String} (h : key ∉ t.keys) (v : α) :
    (t.insert key v).swapRemove key = some (v, t) := by
  show (takeEntry key (insertEntry key v t.entries)).map _ = _
  rw [takeEntry_insertEntry h]
  rfl

/-- **A key that is taken out is gone**, if the keys are distinct. -/
theorem nodup_of_swapRemove {t left : Table α} {key : String} {v : α} (hn : t.keys.Nodup)
    (h : t.swapRemove key = some (v, left)) : key ∉ left.keys ∧ left.keys.Nodup :=
  List.nodup_cons.1 (((perm_of_swapRemove h).map Prod.fst).nodup_iff.1 hn)

theorem map_takeEntry (key : String) (es : List (String × α)) :
    (takeEntry key es).map Prod.fst = es.lookup key := by
  induction es with
  | nil => rfl
  | cons e rest ih =>
    obtain ⟨k, v⟩ := e
    by_cases h : k = key
    · simp [takeEntry, h]
    · have hne : (key == k) = false := by simpa using Ne.symm h
      simp [takeEntry, h, List.lookup_cons, hne, ← ih, Function.comp_def]

/-- **What is taken out** is what is read under the key. -/
theorem map_swapRemove (t : Table α) (key : String) :
    (t.swapRemove key).map Prod.fst = t.get? key := by
  show ((takeEntry key t.entries).map _).map Prod.fst = t.entries.lookup key
  rw [Option.map_map, ← map_takeEntry]
  rfl

theorem takeEntry_map (f : String → α → β) (key : String) (es : List (String × α)) :
    takeEntry key (es.map fun e => (e.1, f e.1 e.2))
      = (takeEntry key es).map fun (x, left) => (f key x, left.map fun e => (e.1, f e.1 e.2)) := by
  induction es with
  | nil => rfl
  | cons e rest ih =>
    obtain ⟨k, v⟩ := e
    by_cases h : k = key
    · subst h
      cases hlast : rest.getLast? <;> simp [takeEntry, hlast]
    · simp [takeEntry, h, ih, Function.comp_def]

/-- **Taking out and changing** can be done in either order. -/
theorem swapRemove_mapEntries (f : String → α → β) (t : Table α) (key : String) :
    (t.mapEntries f).swapRemove key
      = (t.swapRemove key).map fun (x, left) => (f key x, left.mapEntries f) := by
  show (takeEntry key (t.entries.map fun e => (e.1, f e.1 e.2))).map _ = _
  rw [takeEntry_map]
  unfold swapRemove
  rw [Option.map_map, Option.map_map]
  rfl

theorem perm_insertEntry (key : String) (v : α) {es : List (String × α)}
    (hn : (es.map Prod.fst).Nodup) :
    (insertEntry key v es).Perm ((key, v) :: es.filter fun e => e.1 != key) := by
  induction es with
  | nil => exact .refl _
  | cons e rest ih =>
    obtain ⟨k, x⟩ := e
    obtain ⟨hnew, hrest⟩ := List.nodup_cons.1 hn
    unfold insertEntry
    split
    · next hk =>
      subst hk
      -- the key is not behind its first entry again
      have hall : ∀ e ∈ rest, (e.1 != k) = true := fun e he =>
        bne_iff_ne.2 fun heq => hnew (List.mem_map.2 ⟨e, he, heq⟩)
      rw [List.filter_cons_of_neg (by simp), List.filter_eq_self.2 hall]
    · next hk =>
      have hkept : ((k, x) :: rest).filter (fun e => e.1 != key)
          = (k, x) :: rest.filter fun e => e.1 != key := List.filter_cons_of_pos (bne_iff_ne.2 hk)
      rw [hkept]
      exact ((ih hrest).cons (k, x)).trans (.swap (key, v) (k, x) _)

/-- **What is there after a key is written**: its new value and the entries of all other
keys. -/
theorem perm_insert {t : Table α} (hn : t.keys.Nodup) (key : String) (v : α) :
    (t.insert key v).entries.Perm ((key, v) :: t.entries.filter fun e => e.1 != key) :=
  perm_insertEntry key v hn

end SwaggerForge.Table
