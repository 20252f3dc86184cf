import Mathlib.Data.List.Nodup
import Mathlib.Data.Option.Basic
import SwaggerForge.Proofs.Merging

/-!
# The order in which descriptors are met

Which of the descriptors of a name is met first depends on the order in which classes are declared,
and when descriptors are merged, the first one is the one that takes the others in. For its
condition this makes no difference but for the order of the values.

The reason is that merging joins conditions. A descriptor that is always shown and one whose
condition was lost look alike, but both stand for the same: no parameter is left that all depend
on (`FlatParameter.Joined`). What the join is does not depend on an order, so any two orders lead
to the same (`FlatParameter.condition_perm`). Values that the first condition has twice are left as
they are and all others are taken in once, so how often a value comes may depend on which condition
is first, but only if that condition repeats a value.
-/

namespace SwaggerForge

namespace ShowCondition

/-- **The same condition up to the order of its values**, repetitions disregarded. -/
structure SameUpToOrder (c d : ShowCondition) : Prop where
  parameter : c.parameter = d.parameter
  values : ∀ v, v ∈ c.values ↔ v ∈ d.values

/-- **The same condition with its values in another order.** -/
structure Reordered (c d : ShowCondition) : Prop where
  parameter : c.parameter = d.parameter
  values : c.values.Perm d.values

/-- A condition, if there is one, that has no value twice. -/
def WithoutRepeats (condition : Option ShowCondition) : Prop :=
  ∀ c, condition = some c → c.values.Nodup

/-- Where no value comes twice, the same values are a reordering. -/
theorem SameUpToOrder.reordered {c d : ShowCondition} (h : c.SameUpToOrder d)
    (hc : c.values.Nodup) (hd : d.values.Nodup) : c.Reordered d :=
  ⟨h.parameter, (List.perm_ext_iff_of_nodup hc hd).2 h.values⟩

end ShowCondition

namespace FlatParameter

open ShowCondition

/-- **Descriptors have one join**, in whatever order they are. -/
theorem Joined.rel {ps ps' : List FlatParameter} (hmem : ∀ q, q ∈ ps ↔ q ∈ ps') (hne : ps ≠ [])
    {condition condition' : Option ShowCondition} (h : Joined ps condition)
    (h' : Joined ps' condition') : Option.Rel SameUpToOrder condition condition' := by
  have hagree {name : String} :
      (∀ q ∈ ps, ∃ d, q.condition = some d ∧ d.parameter = name) ↔
        ∀ q ∈ ps', ∃ d, q.condition = some d ∧ d.parameter = name := by
    simp only [hmem]
  cases h with
  | always differ =>
    cases h' with
    | always => exact .none
    | depends agree => exact absurd (hagree.2 agree) (differ _)
  | @depends c agree values =>
    cases h' with
    | always differ => exact absurd (hagree.1 agree) (differ _)
    | @depends d agree' values' =>
      -- any descriptor tells the parameter
      obtain ⟨q, hq⟩ := List.exists_mem_of_ne_nil ps hne
      obtain ⟨e, he, hc⟩ := agree q hq
      obtain ⟨e', he', hd⟩ := agree' q ((hmem q).1 hq)
      obtain rfl := Option.some.inj (he.symm.trans he')
      refine .some ⟨hc.symm.trans hd, fun v => ?_⟩
      rw [values, values']
      simp only [hmem]

/-- **Merging has no order for conditions.** Descriptors that are merged one after the other end
with the join of their conditions: on the parameter that all of them depend on, with the values of
any of them, and none if there is no such parameter. Merged in another order they end with the same
condition up to the order of its values. No value comes twice unless the first condition has it
twice, and then, if neither of the two first ones has, each condition is the other one reordered. -/
theorem condition_perm {p p' : FlatParameter} {rest rest' : List FlatParameter}
    (h : (p :: rest).Perm (p' :: rest')) :
    Joined (p :: rest) (rest.foldl merge p).condition ∧
    Option.Rel SameUpToOrder (rest.foldl merge p).condition (rest'.foldl merge p').condition ∧
    (WithoutRepeats p.condition → WithoutRepeats (rest.foldl merge p).condition ∧
      (WithoutRepeats p'.condition →
        Option.Rel Reordered (rest.foldl merge p).condition (rest'.foldl merge p').condition)) := by
  have hjoined := joined_foldl_merge p rest
  have hsame := hjoined.rel (fun q => h.mem_iff) (List.cons_ne_nil _ _)
    (joined_foldl_merge p' rest')
  refine ⟨hjoined, hsame, fun hp => ?_⟩
  have hnodup : WithoutRepeats (rest.foldl merge p).condition :=
    fun c hc => nodup_condition_foldl_merge hp hc
  refine ⟨hnodup, fun hp' => ?_⟩
  have hnodup' : WithoutRepeats (rest'.foldl merge p').condition :=
    fun c hc => nodup_condition_foldl_merge hp' hc
  generalize (rest.foldl merge p).condition = condition at hsame hnodup ⊢
  generalize (rest'.foldl merge p').condition = condition' at hsame hnodup' ⊢
  cases hsame with
  | none => exact .none
  | some hcd => exact .some (hcd.reordered (hnodup _ rfl) (hnodup' _ rfl))

/-- A trick of a pet that is one of some variants. -/
def trickOf (variants : List String) : FlatParameter :=
  { name := "[pet][trick]", condition := some ⟨"[pet][objectType]", variants⟩ }

theorem condition_perm_trick :
    [trickOf ["Dog"], trickOf ["Cat", "Dog"], trickOf ["Parrot"]].Perm
      [trickOf ["Parrot"], trickOf ["Cat", "Dog"], trickOf ["Dog"]] ∧
    WithoutRepeats (trickOf ["Dog"]).condition ∧ WithoutRepeats (trickOf ["Parrot"]).condition ∧
    Option.Rel Reordered
      ([trickOf ["Cat", "Dog"], trickOf ["Parrot"]].foldl merge (trickOf ["Dog"])).condition
      ([trickOf ["Cat", "Dog"], trickOf ["Dog"]].foldl merge (trickOf ["Parrot"])).condition := by
  have honce (variant : String) : WithoutRepeats (trickOf [variant]).condition := by
    rintro c ⟨⟩
    exact List.nodup_singleton variant
  have hperm := (List.reverse_perm
    [trickOf ["Dog"], trickOf ["Cat", "Dog"], trickOf ["Parrot"]]).symm
  exact ⟨hperm, honce "Dog", honce "Parrot",
    ((condition_perm hperm).2.2 (honce "Dog")).2 (honce "Parrot")⟩

example : ([trickOf ["Cat", "Dog"], trickOf ["Parrot"]].foldl merge (trickOf ["Dog"])).condition
    = some ⟨"[pet][objectType]", ["Dog", "Cat", "Parrot"]⟩ := by decide

/-- **The parameters of a class** have the same conditions up to the order of their values, in
whatever order their descriptors are met. -/
theorem rel_condition_mergeAll {ps ps' : List FlatParameter} (h : ps.Perm ps')
    {r r' : FlatParameter} (hr : r ∈ mergeAll ps) (hr' : r' ∈ mergeAll ps')
    (hname : r.name = r'.name) : Option.Rel SameUpToOrder r.condition r'.condition := by
  obtain ⟨p, rest, hfilter, hfold⟩ := exists_foldl_of_mem_mergeAll hr
  obtain ⟨p', rest', hfilter', hfold'⟩ := exists_foldl_of_mem_mergeAll hr'
  have hperm : (p :: rest).Perm (p' :: rest') := by
    rw [← hfilter, ← hfilter', hname]
    exact h.filter _
  rw [hfold, hfold']
  exact (joined_foldl_merge p rest).rel (fun q => hperm.mem_iff) (List.cons_ne_nil _ _)
    (joined_foldl_merge p' rest')

end FlatParameter

end SwaggerForge
