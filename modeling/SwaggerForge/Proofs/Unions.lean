import SwaggerForge.Proofs.NewOptions

/-!
# Unions of sets of labelled values

Where several sets of labelled values hold for one parameter, they are united, and a form shows
the labels of the union. A union takes in new options behind those that are there
(`EnumValues.union_eq`), and so the laws of new options are laws of unions
(`EnumValues.union_exact`): the first label of a value stays, a set that is taken in twice adds
nothing the second time, and three sets can be united from either end.

Values and labels are two lists that are paired by position. The second set may have too few labels
or too many, since what has no counterpart is left out. The set in the middle of three must be
aligned, though: what is added behind its values and labels would be paired wrongly otherwise. And
a value is known again when it is taken in twice because it is the same as itself, as each is that
has every key of its objects once (`Json.same_refl`).
-/

namespace SwaggerForge

namespace EnumValues

open Json

/-- **No two values are the same.** -/
def Distinct (e : EnumValues) : Prop := e.values.Pairwise fun v w => ¬ v.same w = true

/-- **The value in a place of a set is added to another one** with its label: it has a label, and
it is the same as no value of the other one and as none in front of it. -/
structure Adds (a b : EnumValues) (i : Nat) (o : EnumOption) : Prop where
  value : b.values[i]? = some o.value
  label : b.labels[i]? = some o.label
  new : ∀ v ∈ a.values, ¬ v.same o.value = true
  first : ∀ j < i, ∀ v, b.values[j]? = some v → ¬ v.same o.value = true

theorem adds_iff {a b : EnumValues} {i : Nat} {o : EnumOption} :
    a.Adds b i o ↔ IntroducesAt a.values b.options i o := by
  constructor
  · rintro ⟨value, label, new, first⟩
    refine ⟨getElem?_options_eq_some_iff.2 ⟨value, label⟩, new, fun j hj o' ho' => ?_⟩
    exact first j hj o'.value (getElem?_options_eq_some_iff.1 ho').1
  · rintro ⟨place, unseen, first⟩
    obtain ⟨value, label⟩ := getElem?_options_eq_some_iff.1 place
    refine ⟨value, label, unseen, fun j hj v hv => ?_⟩
    -- what is in front of a labelled value is labelled
    obtain ⟨hi, -⟩ := List.getElem?_eq_some_iff.1 label
    have hlabel : b.labels[j]? = some b.labels[j] := List.getElem?_eq_getElem (Nat.lt_trans hj hi)
    exact first j hj ⟨v, _⟩ (getElem?_options_eq_some_iff.2 ⟨hv, hlabel⟩)

section Aligned

variable {e : EnumValues} (h : e.Aligned)
include h

/-- **Options that are added to an aligned set** are behind its own. -/
theorem Aligned.options_append (os : List EnumOption) :
    (mk e.enumType (e.values ++ os.map (·.value)) (e.labels ++ os.map (·.label))).options
      = e.options ++ os := by
  unfold options
  dsimp only
  rw [List.zip_append h.symm, List.map_append, List.zip_map', List.map_map]
  exact congrArg _ (List.map_id os)

theorem Aligned.append (os : List EnumOption) :
    (mk e.enumType (e.values ++ os.map (·.value)) (e.labels ++ os.map (·.label))).Aligned := by
  unfold Aligned at h ⊢
  simp only [List.length_append, List.length_map, h]

end Aligned

/-- **A set that is taken in twice** adds nothing the second time. -/
theorem union_union_self (a : EnumValues) {b : EnumValues} (hb : ∀ v ∈ b.values, v.Proper) :
    (a.union b).union b = a.union b := by
  have hnone : newOptions (a.values ++ (newOptions a.values b.options).map (·.value)) b.options
      = [] := by
    refine newOptions_eq_nil fun o ho => ?_
    exact covers_newOptions a.values b.options o.value (List.mem_map_of_mem ho) o.value
      (same_refl (hb _ (value_mem_of_mem_options ho)))
  rw [union_eq a b, union_eq, hnone]
  simp only [List.map_nil, List.append_nil]

/-- **Three sets are united from either end**, if the one in the middle is aligned. -/
theorem union_assoc (a : EnumValues) {b : EnumValues} (hb : b.Aligned) (c : EnumValues) :
    (a.union b).union c = a.union (b.union c) := by
  have hcovers := covers_newOptions a.values b.options
  rw [hb.values_options] at hcovers
  rw [union_eq a b, union_eq b c, union_eq, union_eq a, hb.options_append, newOptions_append,
    newOptions_newOptions hcovers]
  simp only [List.map_append, List.append_assoc]

/-- **A union keeps the first label of each value.** To a set with a label for each value and no
two values the same, a union adds the labelled values of the other set that are new, in order and
each once, with the label of its first place there; so every value still has its label and no two
are the same. What was taken in adds nothing when it is taken in again, and where the set in the
middle has a label for each value, it makes no difference from which end three sets are united. -/
theorem union_exact {a : EnumValues} (haligned : a.Aligned) (hdistinct : a.Distinct)
    (b c : EnumValues) :
    (∃ places added, (a.union b).options = a.options ++ added ∧
      List.Forall₂ (a.Adds b) places added ∧ places.Pairwise (· < ·) ∧
      ∀ i o, a.Adds b i o → i ∈ places) ∧
    (a.union b).Aligned ∧ (a.union b).Distinct ∧ (a.union b).enumType = a.enumType ∧
    ((∀ v ∈ b.values, v.Proper) → (a.union b).union b = a.union b) ∧
    (b.Aligned → (a.union b).union c = a.union (b.union c)) := by
  have hunion := union_eq a b
  refine ⟨?_, ?_, ?_, ?_, union_union_self a, fun hb => union_assoc a hb c⟩
  · obtain ⟨places, hsorted, hplaces, hall⟩ := exists_places_newOptions a.values b.options
    refine ⟨places, _, ?_, hplaces.imp fun i o => adds_iff.2, hsorted,
      fun i o ho => hall i o (adds_iff.1 ho)⟩
    rw [hunion, haligned.options_append]
  · rw [hunion]
    exact haligned.append _
  · rw [hunion]
    exact pairwise_newOptions hdistinct
  · rw [hunion]

/-! ### An example

Points are written with their keys in either order. One mark has no label, and one number is marked
twice. -/

/-- A set with one point. -/
def corner : EnumValues :=
  ⟨some "Corner", [Json.fields [("x", .int 1), ("y", .int 2)]], ["START"]⟩

/-- The same point, a number twice, and a text without a label. -/
def marks : EnumValues :=
  ⟨none, [Json.fields [("y", .int 2), ("x", .int 1)], .int 7, .int 7, .string "end"],
    ["OTHER", "SEVEN", "AGAIN"]⟩

/-- A set in order. -/
def ends : EnumValues := ⟨none, [.string "end", .int 8], ["END", "EIGHT"]⟩

theorem union_exact_corner :
    corner.Aligned ∧ corner.Distinct ∧ (∀ v ∈ marks.values, v.Proper) ∧ ends.Aligned ∧
    (corner.union marks).Aligned ∧ (corner.union marks).Distinct ∧
    (corner.union marks).union marks = corner.union marks ∧
    (corner.union ends).union marks = corner.union (ends.union marks) := by
  have hdistinct : corner.Distinct := List.pairwise_singleton _ _
  have hproper : ∀ v ∈ marks.values, v.Proper := by
    simp [marks, Json.fields, Table.keys]
  obtain ⟨-, haligned, hkept, -, hagain, -⟩ := union_exact (a := corner) rfl hdistinct marks ends
  obtain ⟨-, -, -, -, -, hassoc⟩ := union_exact (a := corner) rfl hdistinct ends marks
  exact ⟨rfl, hdistinct, hproper, rfl, haligned, hkept, hagain hproper, hassoc rfl⟩

example : corner.union marks = ⟨some "Corner",
    [Json.fields [("x", .int 1), ("y", .int 2)], .int 7], ["START", "SEVEN"]⟩ := by decide

end EnumValues

end SwaggerForge
