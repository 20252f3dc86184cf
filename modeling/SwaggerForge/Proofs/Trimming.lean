import Mathlib.Data.List.DropRight
import SwaggerForge.Text.Blank

/-!
# Trimmed texts

Trimming takes the blanks at both ends away (`isInfix_trimBlanks`) and nothing else: the characters
that are not blank stay as they are, in order (`nonBlanks_trimBlanks`). What is left is empty
exactly if all was blank, and otherwise neither begins nor ends with a blank. A text that does
neither is left alone (`trimBlanks_eq_self`).
-/

namespace SwaggerForge

/-! ## The ends of a text -/

theorem trimBlanks_eq (cs : List Char) :
    trimBlanks cs = (cs.dropWhile isBlank).rdropWhile isBlank := rfl

/-- **Blanks at the ends are all that trimming takes away.** -/
theorem isInfix_trimBlanks (cs : List Char) : trimBlanks cs <:+: cs := by
  rw [trimBlanks_eq]
  exact (List.rdropWhile_prefix _ _).isInfix.trans (List.dropWhile_suffix _).isInfix

theorem trimBlanks_eq_nil_iff {cs : List Char} :
    trimBlanks cs = [] ↔ ∀ c ∈ cs, isBlank c = true := by
  rw [trimBlanks_eq, List.rdropWhile_eq_nil_iff]
  constructor
  · intro h c hc
    rw [← List.takeWhile_append_dropWhile (p := isBlank) (l := cs), List.mem_append] at hc
    exact hc.elim List.mem_takeWhile_imp (h c)
  · exact fun h c hc => h c ((List.dropWhile_suffix _).subset hc)

/-- **A trimmed text begins with no blank**, -/
theorem isBlank_head_trimBlanks {cs : List Char} {c : Char}
    (hc : (trimBlanks cs).head? = some c) : isBlank c = false := by
  rw [trimBlanks_eq] at hc
  have hne : (cs.dropWhile isBlank).rdropWhile isBlank ≠ [] := by
    intro hnil
    rw [hnil] at hc
    cases hc
  obtain ⟨back, hback⟩ := List.rdropWhile_prefix isBlank (cs.dropWhile isBlank)
  have hfront : (cs.dropWhile isBlank).head? = some c := by
    rw [← hback, List.head?_append_of_ne_nil _ hne, hc]
  have hnot := List.head?_dropWhile_not isBlank cs
  rwa [hfront] at hnot

/-- **and it ends with none.** -/
theorem isBlank_last_trimBlanks {cs : List Char} {c : Char}
    (hc : (trimBlanks cs).getLast? = some c) : isBlank c = false := by
  unfold trimBlanks at hc
  rw [List.getLast?_reverse] at hc
  have hnot := List.head?_dropWhile_not isBlank (cs.dropWhile isBlank).reverse
  rwa [hc] at hnot

/-- **A text without blanks at its ends** is left alone by trimming. -/
theorem trimBlanks_eq_self {cs : List Char} (hhead : ∀ c, cs.head? = some c → isBlank c = false)
    (hlast : ∀ c, cs.getLast? = some c → isBlank c = false) : trimBlanks cs = cs := by
  have hdrop {ds : List Char} (hds : ∀ c, ds.head? = some c → isBlank c = false) :
      ds.dropWhile isBlank = ds := by
    cases ds with
    | nil => rfl
    | cons c rest => rw [List.dropWhile_cons_of_neg (Bool.eq_false_iff.1 (hds c rfl))]
  unfold trimBlanks
  rw [hdrop hhead, hdrop, List.reverse_reverse]
  intro c hc
  rw [List.head?_reverse] at hc
  exact hlast c hc

/-- **A text without blanks** is left alone by trimming. -/
theorem trim_of_no_blanks {text : String} (h : ∀ c ∈ text.toList, isBlank c = false) :
    trim text = text := by
  unfold trim
  rw [trimBlanks_eq_self (fun c hc => h c (List.mem_of_head? hc))
    fun c hc => h c (List.mem_of_getLast? hc), String.ofList_toList]

/-! ## What is not blank -/

/-- **The characters of a text that are not blank**, in order. -/
def nonBlanks (cs : List Char) : List Char := cs.filter fun c => !isBlank c

theorem nonBlanks_eq_nil_iff {cs : List Char} :
    nonBlanks cs = [] ↔ ∀ c ∈ cs, isBlank c = true := by
  unfold nonBlanks
  simp [List.filter_eq_nil_iff]

theorem nonBlanks_dropWhile (cs : List Char) : nonBlanks (cs.dropWhile isBlank) = nonBlanks cs := by
  unfold nonBlanks
  induction cs with
  | nil => rfl
  | cons c rest ih =>
    by_cases h : isBlank c = true
    · rw [List.dropWhile_cons_of_pos h, List.filter_cons_of_neg (by simp [h]), ih]
    · rw [List.dropWhile_cons_of_neg h]

theorem nonBlanks_reverse (cs : List Char) : nonBlanks cs.reverse = (nonBlanks cs).reverse :=
  List.filter_reverse

/-- **Trimming keeps what is not blank.** -/
theorem nonBlanks_trimBlanks (cs : List Char) : nonBlanks (trimBlanks cs) = nonBlanks cs := by
  unfold trimBlanks
  rw [nonBlanks_reverse, nonBlanks_dropWhile, nonBlanks_reverse, List.reverse_reverse,
    nonBlanks_dropWhile]

end SwaggerForge
