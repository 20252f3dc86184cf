import SwaggerForge.Enumeration
import SwaggerForge.Proofs.Equality

/-!
# Options that are new

Wherever options come together, an option is taken in if its value is the same as none of those
that are there by then (`newOptions`). What is taken in is told by places: the option in a place is
new if its value is the same as none seen before and none in front of it (`IntroducesAt`,
`exists_places_newOptions`). The comparison behind it is not equality, since objects that differ in
the order of keys are the same, and so it takes that sameness is transitive: an option that is left
out because of an earlier one, which is left out itself, is the same as what that one was left out
for.

A union of two sets of labelled values takes in new options, too (`EnumValues.union_eq`): those
among the labelled values of the second set.
-/

namespace SwaggerForge

open Json

/-- **An option in a place introduces its value**: the value is the same as none of those seen
before and none in front of it. -/
structure IntroducesAt (seen : List Json) (os : List EnumOption) (i : Nat) (o : EnumOption) :
    Prop where
  place : os[i]? = some o
  unseen : ∀ v ∈ seen, ¬ v.same o.value = true
  first : ∀ j < i, ∀ o', os[j]? = some o' → ¬ o'.value.same o.value = true

section NewOptions

variable {seen seen' : List Json} {x o : EnumOption} {os : List EnumOption}

/-- An option is left out if its value was seen. -/
theorem newOptions_cons_of_seen (h : ∃ v ∈ seen, v.same x.value = true) :
    newOptions seen (x :: os) = newOptions seen os := by
  rw [newOptions, if_pos (List.any_eq_true.2 h)]

theorem newOptions_cons_of_new (h : ¬ ∃ v ∈ seen, v.same x.value = true) :
    newOptions seen (x :: os) = x :: newOptions (seen ++ [x.value]) os := by
  rw [newOptions, if_neg fun hany => h (List.any_eq_true.1 hany)]

/-- The first option introduces its value if that was not seen. -/
theorem introducesAt_zero_iff :
    IntroducesAt seen (x :: os) 0 o ↔ x = o ∧ ∀ v ∈ seen, ¬ v.same o.value = true :=
  ⟨fun h => ⟨Option.some.inj h.place, h.unseen⟩,
    fun h => ⟨congrArg some h.1, h.2, fun j hj => absurd hj (Nat.not_lt_zero j)⟩⟩

/-- Another option does if it does among the options behind the first one, whose value counts as
seen. -/
theorem introducesAt_succ_iff {i : Nat} :
    IntroducesAt seen (x :: os) (i + 1) o ↔ IntroducesAt (seen ++ [x.value]) os i o := by
  constructor
  · rintro ⟨place, unseen, first⟩
    refine ⟨place, List.forall_mem_append.2 ⟨unseen, List.forall_mem_singleton.2 ?_⟩, ?_⟩
    · exact first 0 (Nat.succ_pos i) x rfl
    · exact fun j hj o' ho' => first (j + 1) (Nat.succ_lt_succ hj) o' ho'
  · rintro ⟨place, unseen, first⟩
    obtain ⟨hseen, hx⟩ := List.forall_mem_append.1 unseen
    refine ⟨place, hseen, fun j hj o' ho' => ?_⟩
    cases j with
    | zero =>
      obtain rfl := Option.some.inj ho'
      exact hx x.value (List.mem_singleton.2 rfl)
    | succ j => exact first j (Nat.lt_of_succ_lt_succ hj) o' ho'

/-- A value that is the same as one that was seen makes no difference. -/
theorem introducesAt_concat_iff (h : ∃ v ∈ seen, v.same x.value = true) {i : Nat} :
    IntroducesAt (seen ++ [x.value]) os i o ↔ IntroducesAt seen os i o := by
  refine ⟨fun ho => ⟨ho.place, (List.forall_mem_append.1 ho.unseen).1, ho.first⟩, fun ho => ?_⟩
  obtain ⟨v, hv, hsame⟩ := h
  refine ⟨ho.place, List.forall_mem_append.2 ⟨ho.unseen, List.forall_mem_singleton.2 ?_⟩, ho.first⟩
  exact fun hx => ho.unseen v hv (same_trans hsame hx)

/-- **The new options** are those that introduce their values, in order, and all of them. -/
theorem exists_places_newOptions (seen : List Json) (os : List EnumOption) :
    ∃ places : List Nat, places.Pairwise (· < ·) ∧
      List.Forall₂ (IntroducesAt seen os) places (newOptions seen os) ∧
      ∀ i o, IntroducesAt seen os i o → i ∈ places := by
  induction os generalizing seen with
  | nil => exact ⟨[], .nil, .nil, fun i o h => nomatch h.place⟩
  | cons x rest ih =>
    have hsucc {places : List Nat} (hsorted : places.Pairwise (· < ·)) :
        (places.map (· + 1)).Pairwise (· < ·) :=
      List.pairwise_map.2 (hsorted.imp Nat.succ_lt_succ)
    by_cases hx : ∃ v ∈ seen, v.same x.value = true
    · obtain ⟨places, hsorted, hplaces, hall⟩ := ih seen
      refine ⟨places.map (· + 1), hsucc hsorted, ?_, fun i o ho => ?_⟩
      · rw [newOptions_cons_of_seen hx, List.forall₂_map_left_iff]
        exact hplaces.imp fun i o ho =>
          introducesAt_succ_iff.2 ((introducesAt_concat_iff hx).2 ho)
      · cases i with
        | zero =>
          obtain ⟨rfl, hnew⟩ := introducesAt_zero_iff.1 ho
          obtain ⟨v, hv, hsame⟩ := hx
          exact absurd hsame (hnew v hv)
        | succ i =>
          exact List.mem_map_of_mem
            (hall i o ((introducesAt_concat_iff hx).1 (introducesAt_succ_iff.1 ho)))
    · obtain ⟨places, hsorted, hplaces, hall⟩ := ih (seen ++ [x.value])
      refine ⟨0 :: places.map (· + 1), List.pairwise_cons.2 ⟨?_, hsucc hsorted⟩, ?_,
        fun i o ho => ?_⟩
      · intro i hi
        obtain ⟨j, -, rfl⟩ := List.mem_map.1 hi
        exact Nat.succ_pos j
      · rw [newOptions_cons_of_new hx]
        refine .cons (introducesAt_zero_iff.2 ⟨rfl, fun v hv hsame => hx ⟨v, hv, hsame⟩⟩) ?_
        exact List.forall₂_map_left_iff.2 (hplaces.imp fun i o ho => introducesAt_succ_iff.2 ho)
      · cases i with
        | zero => exact List.mem_cons_self
        | succ i =>
          exact List.mem_cons_of_mem _ (List.mem_map_of_mem (hall i o (introducesAt_succ_iff.1 ho)))

/-- **New options keep values apart**, from each other and from those seen before. -/
theorem pairwise_newOptions (h : seen.Pairwise fun v w => ¬ v.same w = true) :
    (seen ++ (newOptions seen os).map (·.value)).Pairwise fun v w => ¬ v.same w = true := by
  induction os generalizing seen with
  | nil => rwa [newOptions, List.map_nil, List.append_nil]
  | cons x rest ih =>
    by_cases hx : ∃ v ∈ seen, v.same x.value = true
    · rw [newOptions_cons_of_seen hx]
      exact ih h
    · rw [newOptions_cons_of_new hx, List.map_cons, ← List.singleton_append, ← List.append_assoc]
      refine ih (List.pairwise_append.2 ⟨h, List.pairwise_singleton _ _, fun v hv w hw => ?_⟩)
      rw [List.mem_singleton.1 hw]
      exact fun hsame => hx ⟨v, hv, hsame⟩

/-- **Options of two lists**, one behind the other. -/
theorem newOptions_append (seen : List Json) (os os' : List EnumOption) :
    newOptions seen (os ++ os')
      = newOptions seen os ++ newOptions (seen ++ (newOptions seen os).map (·.value)) os' := by
  induction os generalizing seen with
  | nil => simp [newOptions]
  | cons x rest ih =>
    rw [List.cons_append]
    by_cases hx : ∃ v ∈ seen, v.same x.value = true
    · rw [newOptions_cons_of_seen hx, newOptions_cons_of_seen hx, ih]
    · rw [newOptions_cons_of_new hx, newOptions_cons_of_new hx, ih, List.cons_append,
        List.map_cons, List.append_assoc, List.singleton_append]

/-- **Values stand for what they are the same as**: whatever one of the second list is the same
as, one of the first list is, too. -/
def Covers (vs ws : List Json) : Prop :=
  ∀ w ∈ ws, ∀ u, w.same u = true → ∃ v ∈ vs, v.same u = true

/-- What is new beside few values is new beside more of them if it is new at all. -/
theorem newOptions_newOptions (h : Covers seen seen') :
    newOptions seen (newOptions seen' os) = newOptions seen os := by
  induction os generalizing seen seen' with
  | nil => rfl
  | cons x rest ih =>
    by_cases hx' : ∃ v ∈ seen', v.same x.value = true
    · obtain ⟨w, hw, hsame⟩ := hx'
      rw [newOptions_cons_of_seen ⟨w, hw, hsame⟩, newOptions_cons_of_seen (h w hw _ hsame), ih h]
    · rw [newOptions_cons_of_new hx']
      by_cases hx : ∃ v ∈ seen, v.same x.value = true
      · rw [newOptions_cons_of_seen hx, newOptions_cons_of_seen hx]
        refine ih (List.forall_mem_append.2 ⟨h, List.forall_mem_singleton.2 fun u hu => ?_⟩)
        obtain ⟨v, hv, hsame⟩ := hx
        exact ⟨v, hv, same_trans hsame hu⟩
      · rw [newOptions_cons_of_new hx, newOptions_cons_of_new hx, ih]
        refine List.forall_mem_append.2 ⟨fun w hw u hu => ?_, List.forall_mem_singleton.2 ?_⟩
        · obtain ⟨v, hv, hsame⟩ := h w hw u hu
          exact ⟨v, List.mem_append_left _ hv, hsame⟩
        · exact fun u hu => ⟨x.value, List.mem_append_right _ (List.mem_singleton.2 rfl), hu⟩

/-- **No value is lost**: what was seen before and what is new stand for all options. -/
theorem covers_newOptions (seen : List Json) (os : List EnumOption) :
    Covers (seen ++ (newOptions seen os).map (·.value)) (os.map (·.value)) := by
  induction os generalizing seen with
  | nil => exact fun w hw => nomatch hw
  | cons x rest ih =>
    rw [List.map_cons]
    refine List.forall_mem_cons.2 ⟨fun u hu => ?_, ?_⟩
    · by_cases hx : ∃ v ∈ seen, v.same x.value = true
      · obtain ⟨v, hv, hsame⟩ := hx
        exact ⟨v, List.mem_append_left _ hv, same_trans hsame hu⟩
      · rw [newOptions_cons_of_new hx]
        exact ⟨x.value, List.mem_append_right _ List.mem_cons_self, hu⟩
    · by_cases hx : ∃ v ∈ seen, v.same x.value = true
      · rw [newOptions_cons_of_seen hx]
        exact ih seen
      · rw [newOptions_cons_of_new hx, List.map_cons, ← List.singleton_append,
          ← List.append_assoc]
        exact ih (seen ++ [x.value])

/-- Options whose values have all been seen are left out. -/
theorem newOptions_eq_nil (h : ∀ o ∈ os, ∃ v ∈ seen, v.same o.value = true) :
    newOptions seen os = [] := by
  induction os with
  | nil => rfl
  | cons x rest ih =>
    obtain ⟨hx, hrest⟩ := List.forall_mem_cons.1 h
    rw [newOptions_cons_of_seen hx, ih hrest]

end NewOptions

/-! ## Unions -/

namespace EnumValues

/-- **The labelled values of a set**, each with its label. A value or label that has no counterpart
is left out. -/
def options (e : EnumValues) : List EnumOption :=
  (e.values.zip e.labels).map fun p => ⟨p.1, p.2⟩

theorem getElem?_options_eq_some_iff {e : EnumValues} {i : Nat} {o : EnumOption} :
    e.options[i]? = some o ↔ e.values[i]? = some o.value ∧ e.labels[i]? = some o.label := by
  unfold options
  rw [List.getElem?_map, Option.map_eq_some_iff]
  constructor
  · rintro ⟨p, hp, rfl⟩
    exact List.getElem?_zip_eq_some.1 hp
  · rintro ⟨hvalue, hlabel⟩
    exact ⟨(o.value, o.label), List.getElem?_zip_eq_some.2 ⟨hvalue, hlabel⟩, rfl⟩

theorem value_mem_of_mem_options {e : EnumValues} {o : EnumOption} (h : o ∈ e.options) :
    o.value ∈ e.values := by
  obtain ⟨p, hp, rfl⟩ := List.mem_map.1 h
  exact (List.of_mem_zip hp).1

/-- **There is a label for each value**, and no other label. -/
def Aligned (e : EnumValues) : Prop := e.labels.length = e.values.length

theorem Aligned.values_options {e : EnumValues} (h : e.Aligned) :
    e.options.map (·.value) = e.values := by
  unfold options
  rw [List.map_map]
  exact List.map_fst_zip (Nat.le_of_eq h.symm)

/-- **A union takes new options in** behind what is there. -/
theorem union_eq (a b : EnumValues) :
    a.union b = ⟨a.enumType, a.values ++ (newOptions a.values b.options).map (·.value),
      a.labels ++ (newOptions a.values b.options).map (·.label)⟩ := by
  unfold union options
  generalize b.values.zip b.labels = ps
  induction ps generalizing a with
  | nil => simp [newOptions]
  | cons p rest ih =>
    rw [List.foldl_cons, List.map_cons, ih]
    unfold add admits
    by_cases hold : ∃ v ∈ a.values, v.same p.1 = true
    · rw [if_pos (List.any_eq_true.2 hold), newOptions_cons_of_seen hold]
    · rw [if_neg fun hany => hold (List.any_eq_true.1 hany), newOptions_cons_of_new hold]
      simp only [List.map_cons, List.append_assoc, List.singleton_append]

end EnumValues

end SwaggerForge
