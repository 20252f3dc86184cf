import Mathlib.Data.List.Induction
import Mathlib.Data.Nat.Digits.Defs
import SwaggerForge.Decimal.Numeral
import SwaggerForge.Proofs.Trimming

/-!
# Numbers in texts

The readers of numbers go through the digits from the front and build up a value as they go. What
they accept is said here without them: a number is written by decimal digits, the most significant
one first, behind at most one sign (`Numeral.DigitsOf`), and it has to be within the range of
its 64 bits. Zeros in front and a plus sign change nothing, so that one number has many texts.

Integers are read exactly from the texts of integers (`Numeral.parseInt?_eq_some_iff`), and
counts exactly from those of counts (`Numeral.parseCount_eq_ok_iff`), although the reader of
counts gives up as soon as the value is too large. There are no blanks in either, so that what can
be read as it stands is not changed by trimming (`Numeral.CountText.trim_eq`).
-/

namespace SwaggerForge

/-- Digits are no blanks. -/
theorem isBlank_of_isDigit {c : Char} (h : c.isDigit = true) : isBlank c = false := by
  obtain ⟨hlower, hupper⟩ := Char.isDigit_iff_toNat.1 h
  have hlower : 48 ≤ c.toNat := hlower
  have hupper : c.toNat ≤ 57 := hupper
  unfold isBlank
  simp only [decide_eq_false_iff_not]
  omega

namespace Numeral

/-! ## Digits -/

/-- The value of a character as a digit. -/
def digitValue (c : Char) : Nat := c.toNat - '0'.toNat

/-- **The decimal digits of a number**, the most significant one first. There is at least one, and
there may be zeros in front. -/
structure DigitsOf (ds : List Char) (n : Nat) : Prop where
  ne_nil : ds ≠ []
  isDigit : ∀ c ∈ ds, c.isDigit = true
  value_eq : n = Nat.ofDigits 10 (ds.reverse.map digitValue)

theorem digit?_of_isDigit {c : Char} (h : c.isDigit = true) : digit? c = some (digitValue c) := by
  unfold digit?
  rw [if_pos h]
  rfl

theorem digit?_of_not_isDigit {c : Char} (h : ¬ c.isDigit = true) : digit? c = none := by
  unfold digit?
  rw [if_neg h]

theorem ofDigits_concat (cs : List Char) {c : Char} (h : c.isDigit = true) :
    ofDigits (cs ++ [c]) = 10 * ofDigits cs + digitValue c := by
  unfold ofDigits
  rw [List.foldl_append, List.foldl_cons, List.foldl_nil, digit?_of_isDigit h, Option.getD_some]

/-- **Reading digits from the front** gives their positional value. -/
theorem ofDigits_eq {cs : List Char} (h : ∀ c ∈ cs, c.isDigit = true) :
    ofDigits cs = Nat.ofDigits 10 (cs.reverse.map digitValue) := by
  induction cs using List.reverseRecOn with
  | nil => rfl
  | append_singleton cs c ih =>
    have hc := h c (List.mem_append_right _ (List.mem_singleton.2 rfl))
    rw [ofDigits_concat cs hc, ih fun d hd => h d (List.mem_append_left _ hd),
      List.reverse_append, List.reverse_singleton, List.singleton_append, List.map_cons,
      Nat.ofDigits_cons, Nat.add_comm]

theorem digitsOf_iff {ds : List Char} {n : Nat} :
    DigitsOf ds n ↔ ds ≠ [] ∧ (∀ c ∈ ds, c.isDigit = true) ∧ n = ofDigits ds := by
  constructor
  · exact fun h => ⟨h.ne_nil, h.isDigit, h.value_eq.trans (ofDigits_eq h.isDigit).symm⟩
  · exact fun ⟨hne, hdigits, hn⟩ => ⟨hne, hdigits, hn.trans (ofDigits_eq hdigits)⟩

/-- A sign is no digit. -/
theorem not_digitsOf_cons {c : Char} {ds : List Char} {n : Nat} (hc : c.isDigit = false) :
    ¬ DigitsOf (c :: ds) n := fun h =>
  Bool.false_ne_true (hc.symm.trans (h.isDigit c List.mem_cons_self))

/-! ## Integers -/

/-- **An integer written in digits**, behind at most one sign. -/
inductive SignedDigits : List Char → Int → Prop
  | bare {ds : List Char} {n : Nat} (digits : DigitsOf ds n) : SignedDigits ds n
  | plus {ds : List Char} {n : Nat} (digits : DigitsOf ds n) : SignedDigits ('+' :: ds) n
  | minus {ds : List Char} {n : Nat} (digits : DigitsOf ds n) : SignedDigits ('-' :: ds) (-n)

theorem signedDigits_minus_iff {ds : List Char} {n : Int} :
    SignedDigits ('-' :: ds) n ↔ ∃ m, DigitsOf ds m ∧ n = -(m : Int) := by
  constructor
  · intro h
    cases h with
    | bare h => exact absurd h (not_digitsOf_cons rfl)
    | minus h => exact ⟨_, h, rfl⟩
  · rintro ⟨m, hm, rfl⟩
    exact .minus hm

theorem signedDigits_plus_iff {ds : List Char} {n : Int} :
    SignedDigits ('+' :: ds) n ↔ ∃ m, DigitsOf ds m ∧ n = (m : Int) := by
  constructor
  · intro h
    cases h with
    | bare h => exact absurd h (not_digitsOf_cons rfl)
    | plus h => exact ⟨_, h, rfl⟩
  · rintro ⟨m, hm, rfl⟩
    exact .plus hm

theorem signedDigits_iff_of_no_sign {cs : List Char} {n : Int} (hminus : ∀ ds, cs ≠ '-' :: ds)
    (hplus : ∀ ds, cs ≠ '+' :: ds) : SignedDigits cs n ↔ ∃ m, DigitsOf cs m ∧ n = (m : Int) := by
  constructor
  · intro h
    cases h with
    | bare h => exact ⟨_, h, rfl⟩
    | plus h => exact absurd rfl (hplus _)
    | minus h => exact absurd rfl (hminus _)
  · rintro ⟨m, hm, rfl⟩
    exact .bare hm

/-- **The text of an integer** of 64 bits. -/
structure IntText (text : String) (n : Int) : Prop where
  digits : SignedDigits text.toList n
  lower : -2 ^ 63 ≤ n
  upper : n < 2 ^ 63

theorem intText_iff {text : String} {n : Int} :
    IntText text n ↔ SignedDigits text.toList n ∧ -2 ^ 63 ≤ n ∧ n < 2 ^ 63 :=
  ⟨fun h => ⟨h.digits, h.lower, h.upper⟩, fun h => ⟨h.1, h.2.1, h.2.2⟩⟩

/-- **Integers are read from their texts**, and from nothing else. -/
theorem parseInt?_eq_some_iff {text : String} {n : Int} :
    parseInt? text = some n ↔ IntText text n := by
  -- what is read of digits whose sign is known
  have hread (negative : Bool) (ds : List Char) :
      (if ds ≠ [] ∧ ds.all Char.isDigit = true then
        let k : Int := if negative then -(ofDigits ds : Int) else ofDigits ds
        if -Int.pow 2 63 ≤ k ∧ k < Int.pow 2 63 then some k else none
      else none) = some n ↔
        (∃ m, DigitsOf ds m ∧ n = if negative then -(m : Int) else m) ∧
          -2 ^ 63 ≤ n ∧ n < 2 ^ 63 := by
    have hpow : Int.pow 2 63 = 2 ^ 63 := rfl
    simp only [Option.ite_none_right_eq_some, List.all_eq_true, digitsOf_iff, hpow]
    constructor
    · rintro ⟨⟨hne, hdigits⟩, hrange, hn⟩
      obtain rfl := Option.some.inj hn
      exact ⟨⟨_, ⟨hne, hdigits, rfl⟩, rfl⟩, hrange⟩
    · rintro ⟨⟨m, ⟨hne, hdigits, rfl⟩, rfl⟩, hrange⟩
      exact ⟨⟨hne, hdigits⟩, hrange, rfl⟩
  rw [intText_iff]
  unfold parseInt?
  generalize text.toList = cs
  split
  next negative ds heq =>
  refine (hread negative ds).trans (and_congr_left' ?_)
  split at heq
  · obtain ⟨rfl, rfl⟩ := Prod.mk.inj heq
    exact signedDigits_minus_iff.symm
  · obtain ⟨rfl, rfl⟩ := Prod.mk.inj heq
    exact signedDigits_plus_iff.symm
  · next cs hminus hplus =>
    obtain ⟨rfl, rfl⟩ := Prod.mk.inj heq
    exact (signedDigits_iff_of_no_sign hminus hplus).symm

/-- A text is that of one integer. -/
theorem IntText.unique {text : String} {n m : Int} (hn : IntText text n) (hm : IntText text m) :
    n = m :=
  Option.some.inj ((parseInt?_eq_some_iff.2 hn).symm.trans (parseInt?_eq_some_iff.2 hm))

/-! ## Counts -/

/-- **The text of a count** of 64 bits: its digits, with or without a plus sign. -/
structure CountText (text : String) (n : Nat) : Prop where
  digits : DigitsOf text.toList n ∨ ∃ ds, text.toList = '+' :: ds ∧ DigitsOf ds n
  upper : n < 2 ^ 64

/-- Going on with further digits only makes a count larger. -/
theorem le_foldl_digits (cs : List Char) (n : Nat) :
    n ≤ cs.foldl (fun n c => 10 * n + (digit? c).getD 0) n := by
  induction cs generalizing n with
  | nil => exact Nat.le_refl n
  | cons c rest ih => exact Nat.le_trans (by omega) (ih (10 * n + (digit? c).getD 0))

/-- **A count that is never too large on the way** is not too large at the end, and the other way
round. -/
theorem extendCount_eq_ok_iff {n m : Nat} {cs : List Char} (hn : n ≤ countLimit) :
    extendCount n cs = .ok m ↔ (∀ c ∈ cs, c.isDigit = true) ∧
      m = cs.foldl (fun n c => 10 * n + (digit? c).getD 0) n ∧ m ≤ countLimit := by
  induction cs generalizing n with
  | nil =>
    unfold extendCount
    rw [Except.ok.injEq, List.foldl_nil]
    constructor
    · rintro rfl
      exact ⟨fun _ hc => (nomatch hc), rfl, hn⟩
    · exact fun h => h.2.1.symm
  | cons c rest ih =>
    unfold extendCount
    rw [List.foldl_cons, List.forall_mem_cons]
    by_cases hc : c.isDigit = true
    · rw [digit?_of_isDigit hc, Option.getD_some, and_iff_right hc]
      dsimp only
      split
      · next hlarge =>
        refine ⟨fun h => (nomatch h), fun ⟨_, hm, hle⟩ => ?_⟩
        have := le_foldl_digits rest (10 * n + digitValue c)
        omega
      · next hsmall => exact ih (Nat.not_lt.1 hsmall)
    · rw [digit?_of_not_isDigit hc]
      exact ⟨fun h => (nomatch h), fun h => absurd h.1.1 hc⟩

/-- **Counts are read from their texts**, and from nothing else. -/
theorem parseCount_eq_ok_iff {text : String} {n : Nat} :
    parseCount text = .ok n ↔ CountText text n := by
  have hlimit : n ≤ countLimit ↔ n < 2 ^ 64 := Nat.lt_succ_iff.symm
  have hread {ds : List Char} (hne : ds ≠ []) :
      extendCount 0 ds = .ok n ↔ DigitsOf ds n ∧ n < 2 ^ 64 := by
    rw [extendCount_eq_ok_iff (Nat.zero_le _), digitsOf_iff, hlimit, and_iff_right hne, and_assoc]
    rfl
  have htext : CountText text n ↔
      (DigitsOf text.toList n ∨ ∃ ds, text.toList = '+' :: ds ∧ DigitsOf ds n) ∧ n < 2 ^ 64 :=
    ⟨fun h => ⟨h.digits, h.upper⟩, fun h => ⟨h.1, h.2⟩⟩
  rw [htext]
  unfold parseCount
  generalize text.toList = cs
  split
  · refine ⟨fun h => (nomatch h), ?_⟩
    rintro ⟨h | ⟨ds, h, -⟩, -⟩
    · exact absurd rfl h.ne_nil
    · cases h
  · refine ⟨fun h => (nomatch h), ?_⟩
    rintro ⟨h | ⟨ds, h, hds⟩, -⟩
    · exact absurd h (not_digitsOf_cons rfl)
    · obtain ⟨-, rfl⟩ := List.cons.inj h
      exact absurd rfl hds.ne_nil
  · next rest hne =>
    have hrest : rest ≠ [] := fun h => hne (h ▸ rfl)
    rw [hread hrest]
    refine and_congr_left' ⟨fun h => Or.inr ⟨rest, rfl, h⟩, ?_⟩
    rintro (h | ⟨ds, h, hds⟩)
    · exact absurd h (not_digitsOf_cons rfl)
    · obtain ⟨-, rfl⟩ := List.cons.inj h
      exact hds
  · next cs hnil hlone hplus =>
    rw [hread hnil]
    refine and_congr_left' ⟨Or.inl, ?_⟩
    rintro (h | ⟨ds, rfl, -⟩)
    · exact h
    · exact absurd rfl (hplus ds)

namespace CountText

variable {text : String} {n : Nat} (h : CountText text n)
include h

/-- **There are no blanks** in the text of a count. -/
theorem trim_eq : trim text = text := by
  refine trim_of_no_blanks fun c hc => ?_
  rcases h.digits with hds | ⟨ds, htext, hds⟩
  · exact isBlank_of_isDigit (hds.isDigit c hc)
  · rw [htext] at hc
    rcases List.mem_cons.1 hc with rfl | hc
    · rfl
    · exact isBlank_of_isDigit (hds.isDigit c hc)

end CountText

end Numeral

end SwaggerForge
