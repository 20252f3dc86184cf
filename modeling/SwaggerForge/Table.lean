/-!
# Tables in insertion order

The objects of a JSON document, the sections of a description and the
registries of the compiler are all the same thing: keyed entries whose
order is the order in which the keys were first written. A `Table` is
that list of entries.

Writing a key that is already there changes its value and leaves it where
it is (`Table.insert`); taking a key out moves the last entry into the gap
(`Table.swapRemove`). Both keep the keys distinct, so a table that was
built by insertions has each key once (`Table.nodup_keys_ofList`).
-/

namespace SwaggerForge

universe u v

/-- **A table**: values by key, in the order the keys were first written. -/
structure Table (α : Type u) where
  /-- The entries, oldest first. -/
  entries : List (String × α)
deriving DecidableEq, Repr

namespace Table

variable {α : Type u} {β : Type v}

instance : EmptyCollection (Table α) := ⟨⟨[]⟩⟩

instance : Inhabited (Table α) := ⟨∅⟩

/-- The keys, oldest first. -/
def keys (t : Table α) : List String := t.entries.map Prod.fst

/-- The values, in the order of their keys. -/
def values (t : Table α) : List α := t.entries.map Prod.snd

/-- How many entries there are. -/
def size (t : Table α) : Nat := t.entries.length

/-- Whether there is no entry. -/
def isEmpty (t : Table α) : Bool := t.entries.isEmpty

/-- The value under a key. -/
def get? (t : Table α) (key : String) : Option α := t.entries.lookup key

/-- Whether a key is there. -/
def contains (t : Table α) (key : String) : Bool := t.keys.contains key

/-- `insert` on the bare entries. -/
def insertEntry (key : String) (value : α) : List (String × α) → List (String × α)
  | [] => [(key, value)]
  | (k, v) :: rest =>
    if k = key then (k, value) :: rest else (k, v) :: insertEntry key value rest

/-- **Writes a key**: in place when it is there, behind all others when it
is not. -/
def insert (t : Table α) (key : String) (value : α) : Table α :=
  ⟨insertEntry key value t.entries⟩

/-- Writes several keys, one after the other. -/
def insertAll (t : Table α) (more : List (String × α)) : Table α :=
  more.foldl (fun t e => t.insert e.1 e.2) t

/-- The table that results from writing the given entries in order. -/
def ofList (es : List (String × α)) : Table α := insertAll ∅ es

/-- `swapRemove` on the bare entries: the value taken out and what is
left. -/
def takeEntry (key : String) : List (String × α) → Option (α × List (String × α))
  | [] => none
  | (k, v) :: rest =>
    if k = key then
      some (v, match rest.getLast? with
        | none => []
        | some last => last :: rest.dropLast)
    else (takeEntry key rest).map fun (x, left) => (x, (k, v) :: left)

/-- **Takes a key out**: the last entry moves into the gap it leaves. -/
def swapRemove (t : Table α) (key : String) : Option (α × Table α) :=
  (takeEntry key t.entries).map fun (x, left) => (x, ⟨left⟩)

/-- `modify` on the bare entries. -/
def modifyEntry (key : String) (f : α → α) : List (String × α) → List (String × α)
  | [] => []
  | (k, v) :: rest => if k = key then (k, f v) :: rest else (k, v) :: modifyEntry key f rest

/-- Changes the value under a key, if the key is there. -/
def modify (t : Table α) (key : String) (f : α → α) : Table α :=
  ⟨modifyEntry key f t.entries⟩

/-- Changes every value, with its key in sight. -/
def mapEntries (f : String → α → β) (t : Table α) : Table β :=
  ⟨t.entries.map fun (k, v) => (k, f k v)⟩

/-- Changes every value. -/
def map (f : α → β) (t : Table α) : Table β := t.mapEntries fun _ => f

/-! ## What the operations do to keys and look-ups -/

@[simp] theorem keys_empty : (∅ : Table α).keys = [] := rfl

@[simp] theorem get?_empty (key : String) : (∅ : Table α).get? key = none := rfl

theorem keys_insertEntry (key : String) (value : α) (es : List (String × α)) :
    (insertEntry key value es).map Prod.fst
      = if key ∈ es.map Prod.fst then es.map Prod.fst else es.map Prod.fst ++ [key] := by
  induction es with
  | nil => rfl
  | cons e rest ih =>
    obtain ⟨k, v⟩ := e
    by_cases h : k = key
    · simp [insertEntry, h]
    · have h' : ¬ key = k := fun e => h e.symm
      by_cases hm : key ∈ rest.map Prod.fst
      · rw [if_pos hm] at ih
        simp only [insertEntry, if_neg h, List.map_cons, ih, List.mem_cons, hm, or_true, if_true]
      · rw [if_neg hm] at ih
        simp only [insertEntry, if_neg h, List.map_cons, ih, List.mem_cons, hm, h', or_false,
          if_false, List.cons_append]

/-- Writing a key adds it behind the others unless it is there already. -/
theorem keys_insert (t : Table α) (key : String) (value : α) :
    (t.insert key value).keys = if key ∈ t.keys then t.keys else t.keys ++ [key] :=
  keys_insertEntry key value t.entries

theorem lookup_insertEntry (key : String) (value : α) (es : List (String × α)) (k : String) :
    (insertEntry key value es).lookup k = if k = key then some value else es.lookup k := by
  induction es with
  | nil =>
    by_cases h : k = key
    · subst h; simp [insertEntry]
    · have : (k == key) = false := by simpa using h
      simp [insertEntry, List.lookup_cons, h, this]
  | cons e rest ih =>
    obtain ⟨k', v⟩ := e
    by_cases h : k' = key
    · subst h
      by_cases hk : k = k'
      · subst hk; simp [insertEntry]
      · have : (k == k') = false := by simpa using hk
        simp [insertEntry, List.lookup_cons, hk, this]
    · by_cases hk : k = k'
      · subst hk; simp [insertEntry, h]
      · have : (k == k') = false := by simpa using hk
        simp [insertEntry, h, List.lookup_cons, this, ih]

/-- **A key that was written reads back**, and all others are as before. -/
theorem get?_insert (t : Table α) (key : String) (value : α) (k : String) :
    (t.insert key value).get? k = if k = key then some value else t.get? k :=
  lookup_insertEntry key value t.entries k

/-- Writing keeps the keys distinct. -/
theorem nodup_keys_insert {t : Table α} (h : t.keys.Nodup) (key : String) (value : α) :
    (t.insert key value).keys.Nodup := by
  rw [keys_insert]
  split
  · exact h
  · next hm =>
    refine List.nodup_append.2 ⟨h, by simp, ?_⟩
    intro a ha b hb
    obtain rfl : b = key := by simpa using hb
    exact fun e => hm (e ▸ ha)

theorem nodup_keys_insertAll {t : Table α} (h : t.keys.Nodup) (more : List (String × α)) :
    (t.insertAll more).keys.Nodup := by
  induction more generalizing t with
  | nil => exact h
  | cons e rest ih => exact ih (nodup_keys_insert h e.1 e.2)

/-- **A table built by writing has each key once.** -/
theorem nodup_keys_ofList (es : List (String × α)) : (ofList es).keys.Nodup :=
  nodup_keys_insertAll (t := ∅) List.nodup_nil es

@[simp] theorem keys_mapEntries (f : String → α → β) (t : Table α) :
    (t.mapEntries f).keys = t.keys := by
  simp [mapEntries, keys, Function.comp_def]

theorem contains_eq_isSome_get? (t : Table α) (key : String) :
    t.contains key = (t.get? key).isSome := by
  obtain ⟨es⟩ := t
  simp only [contains, keys, get?]
  induction es with
  | nil => rfl
  | cons e rest ih =>
    obtain ⟨k, v⟩ := e
    by_cases h : key = k
    · subst h; simp
    · have : (key == k) = false := by simpa using h
      simp only [List.map_cons, List.contains_cons, this, Bool.false_or, List.lookup_cons, ih]

end Table

end SwaggerForge
