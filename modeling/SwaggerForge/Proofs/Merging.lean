import Mathlib.Data.List.Induction
import SwaggerForge.Flat.Parameter

/-!
# Merged descriptors

What becomes of the descriptors that are met when those of one name are merged.
The names are those that were met, each once and in the order in which they were
first met (`FlatParameter.names_mergeAll`, `FirstSeen.pairwise_addAll`). What
stands under a name is the first descriptor of it with all later ones merged
into it (`FlatParameter.exists_foldl_of_mem_mergeAll`). The conditions are joined
(`FlatParameter.joined_foldl_merge`), and so what is left of them and of the values
can be read off (`FlatParameter.condition_foldl_merge`,
`FlatParameter.enum_foldl_merge`). A condition only gets weaker: when one of the
descriptors of a name is to be shown, so is what they are merged into
(`FlatParameter.exists_met_mergeAll`).
-/

namespace SwaggerForge

/-! ## The order of first sight -/

namespace FirstSeen

universe u v

variable {α : Type u} [DecidableEq α] {ω : Type v}

theorem addAll_concat (xs ys : List α) (y : α) :
    addAll xs (ys ++ [y]) = add (addAll xs ys) y := by
  unfold addAll
  rw [List.foldl_append]
  rfl

/-- **Items stand in the order in which they were first seen**: where the sightings
are labelled in order, some sighting of an item comes before all sightings of the
items behind it. -/
theorem pairwise_addAll {r : ω → ω → Prop} {seen : List (ω × α)}
    (h : seen.Pairwise fun a b => r a.1 b.1) :
    (addAll [] (seen.map Prod.snd)).Pairwise fun a b =>
      ∃ w, (w, a) ∈ seen ∧ ∀ w', (w', b) ∈ seen → r w w' := by
  induction seen using List.reverseRecOn with
  | nil => exact List.Pairwise.nil
  | append_singleton seen e ih =>
    obtain ⟨hseen, -, hlast⟩ := List.pairwise_append.1 h
    have hbehind {w : ω} {a : α} (ha : (w, a) ∈ seen) : r w e.1 :=
      hlast _ ha _ (List.mem_singleton.2 rfl)
    have hmem {w : ω} {b : α} (hb : (w, b) ∈ seen ++ [e]) : (w, b) ∈ seen ∨ w = e.1 := by
      rw [List.mem_append, List.mem_singleton] at hb
      exact hb.imp_right (congrArg Prod.fst)
    -- the new sighting is behind all others, so it disturbs no pair
    have hold : (addAll [] (seen.map Prod.snd)).Pairwise fun a b =>
        ∃ w, (w, a) ∈ seen ++ [e] ∧ ∀ w', (w', b) ∈ seen ++ [e] → r w w' := by
      refine (ih hseen).imp fun {a b} hab => ?_
      obtain ⟨w, ha, hw⟩ := hab
      refine ⟨w, List.mem_append_left _ ha, fun w' hb => ?_⟩
      rcases hmem hb with hb | rfl
      · exact hw w' hb
      · exact hbehind ha
    rw [List.map_append, List.map_singleton, addAll_concat]
    unfold add
    split
    · exact hold
    · next hnew =>
      refine List.pairwise_append.2 ⟨hold, List.pairwise_singleton _ _, fun a ha b hb => ?_⟩
      obtain rfl := List.mem_singleton.1 hb
      have ha := (mem_addAll.1 ha).resolve_left List.not_mem_nil
      obtain ⟨⟨w, a'⟩, hw, ha'⟩ := List.mem_map.1 ha
      obtain rfl : a' = a := ha'
      refine ⟨w, List.mem_append_left _ hw, fun w' hb => ?_⟩
      rcases hmem hb with hb | rfl
      · exact absurd (mem_addAll.2 (Or.inr (List.mem_map_of_mem hb))) hnew
      · exact hbehind hw

end FirstSeen

/-! ## When a condition is met -/

namespace ShowCondition

/-- **Whether a parameter is to be shown** when the parameters have the given
values: always, or when the one it depends on has one of the values for it. -/
def Met (values : String → Option String) (condition : Option ShowCondition) : Prop :=
  ∀ c, condition = some c → ∃ v ∈ c.values, values c.parameter = some v

variable {values : String → Option String} {a b : Option ShowCondition}

theorem met_none : Met values none := fun _ h => nomatch h

theorem met_some {c : ShowCondition} :
    Met values (some c) ↔ ∃ v ∈ c.values, values c.parameter = some v :=
  ⟨fun h => h c rfl, fun h _ hc => Option.some.inj hc ▸ h⟩

/-- What is merged is a condition only if both were, on one parameter. -/
theorem merge_eq_some {c : ShowCondition} (h : merge a b = some c) :
    ∃ x y, a = some x ∧ b = some y ∧ x.parameter = c.parameter ∧ y.parameter = c.parameter ∧
      c.values = FirstSeen.addAll x.values y.values := by
  unfold merge at h
  split at h
  · next x y =>
    split at h
    · next heq =>
      obtain rfl := Option.some.inj h
      exact ⟨x, y, rfl, rfl, rfl, heq.symm, rfl⟩
    · cases h
  · cases h

/-- **Merging only makes a condition weaker.** -/
theorem Met.merge (h : Met values a ∨ Met values b) : Met values (merge a b) := by
  intro c hc
  obtain ⟨x, y, rfl, rfl, hx, hy, hvalues⟩ := merge_eq_some hc
  rw [hvalues]
  rcases h with h | h
  · obtain ⟨v, hv, hval⟩ := met_some.1 h
    exact ⟨v, FirstSeen.mem_addAll.2 (Or.inl hv), hx ▸ hval⟩
  · obtain ⟨v, hv, hval⟩ := met_some.1 h
    exact ⟨v, FirstSeen.mem_addAll.2 (Or.inr hv), hy ▸ hval⟩

end ShowCondition

/-! ## Merging by name -/

namespace FlatParameter

theorem names_absorb (p : FlatParameter) (qs : List FlatParameter) :
    (p.absorb qs).map (·.name) = FirstSeen.add (qs.map (·.name)) p.name := by
  unfold FirstSeen.add
  induction qs with
  | nil => rfl
  | cons q rest ih =>
    unfold absorb
    split
    · next h =>
      rw [if_pos (List.mem_map.2 ⟨q, List.mem_cons_self, h⟩)]
      rfl
    · next h =>
      rw [List.map_cons, List.map_cons, ih]
      by_cases hrest : p.name ∈ rest.map (·.name)
      · rw [if_pos hrest, if_pos (List.mem_cons_of_mem _ hrest)]
      · have hnew : p.name ∉ q.name :: rest.map (·.name) := fun hm =>
          (List.mem_cons.1 hm).elim (fun e => h e.symm) hrest
        rw [if_neg hrest, if_neg hnew]
        rfl

/-- **The names of merged descriptors** are those that were met, each where it was
first met. -/
theorem names_mergeAll (ps : List FlatParameter) :
    (mergeAll ps).map (·.name) = FirstSeen.addAll [] (ps.map (·.name)) := by
  unfold mergeAll
  induction ps using List.reverseRecOn with
  | nil => rfl
  | append_singleton ps p ih =>
    rw [List.foldl_append, List.map_append, List.map_singleton, FirstSeen.addAll_concat, ← ih]
    exact names_absorb p _

theorem nodup_names_mergeAll (ps : List FlatParameter) :
    ((mergeAll ps).map (·.name)).Nodup := by
  rw [names_mergeAll]
  exact FirstSeen.nodup_addAll List.nodup_nil _

/-- **What all descriptors have and merging keeps**, the merged ones have. -/
theorem forall_mem_mergeAll {P : FlatParameter → Prop} (keep : ∀ p q, P p → P q → P (p.merge q))
    {ps : List FlatParameter} (h : ∀ p ∈ ps, P p) : ∀ q ∈ mergeAll ps, P q := by
  have habsorb (p : FlatParameter) (hp : P p) (qs : List FlatParameter) (hqs : ∀ q ∈ qs, P q) :
      ∀ q ∈ p.absorb qs, P q := by
    induction qs with
    | nil => exact List.forall_mem_singleton.2 hp
    | cons q rest ih =>
      obtain ⟨hq, hrest⟩ := List.forall_mem_cons.1 hqs
      unfold absorb
      split
      · exact List.forall_mem_cons.2 ⟨keep q p hq hp, hrest⟩
      · exact List.forall_mem_cons.2 ⟨hq, ih hrest⟩
  unfold mergeAll
  induction ps using List.reverseRecOn with
  | nil => exact fun _ hq => nomatch hq
  | append_singleton ps p ih =>
    obtain ⟨hps, hp⟩ := List.forall_mem_append.1 h
    rw [List.foldl_append]
    exact habsorb p (List.forall_mem_singleton.1 hp) _ (ih hps)

/-! ### What descriptors of one name are merged into -/

/-- Taking a descriptor in leaves the others as they are, if each name is there once. -/
theorem mem_absorb {p : FlatParameter} {qs : List FlatParameter}
    (hn : (qs.map (·.name)).Nodup) {r : FlatParameter} (hr : r ∈ p.absorb qs) :
    (r ∈ qs ∧ r.name ≠ p.name) ∨ (∃ q ∈ qs, q.name = p.name ∧ r = q.merge p) ∨
      (r = p ∧ p.name ∉ qs.map (·.name)) := by
  induction qs with
  | nil => exact Or.inr (Or.inr ⟨List.mem_singleton.1 hr, List.not_mem_nil⟩)
  | cons q rest ih =>
    rw [List.map_cons, List.nodup_cons] at hn
    unfold absorb at hr
    split at hr
    · next hname =>
      rcases List.mem_cons.1 hr with rfl | hr
      · exact Or.inr (Or.inl ⟨q, List.mem_cons_self, hname, rfl⟩)
      · refine Or.inl ⟨List.mem_cons_of_mem _ hr, fun h => hn.1 ?_⟩
        exact List.mem_map.2 ⟨r, hr, h.trans hname.symm⟩
    · next hname =>
      rcases List.mem_cons.1 hr with rfl | hr
      · exact Or.inl ⟨List.mem_cons_self, hname⟩
      · rcases ih hn.2 hr with ⟨hin, hne⟩ | ⟨q', hq', h⟩ | ⟨rfl, hnew⟩
        · exact Or.inl ⟨List.mem_cons_of_mem _ hin, hne⟩
        · exact Or.inr (Or.inl ⟨q', List.mem_cons_of_mem _ hq', h⟩)
        · refine Or.inr (Or.inr ⟨rfl, fun hmem => ?_⟩)
          exact (List.mem_cons.1 hmem).elim (fun h => hname h.symm) hnew

/-- **A merged descriptor** is the first descriptor of its name with all later ones of the name
merged into it, one after the other. -/
theorem exists_foldl_of_mem_mergeAll {ps : List FlatParameter} {r : FlatParameter}
    (hr : r ∈ mergeAll ps) :
    ∃ p rest, ps.filter (·.name == r.name) = p :: rest ∧ r = rest.foldl merge p := by
  have hconcat (ps : List FlatParameter) (q : FlatParameter) :
      mergeAll (ps ++ [q]) = q.absorb (mergeAll ps) := by
    unfold mergeAll
    rw [List.foldl_append]
    rfl
  have hone (q : FlatParameter) (name : String) :
      [q].filter (·.name == name) = if q.name = name then [q] else [] := by
    split
    · next h => exact List.filter_cons_of_pos (beq_iff_eq.2 h)
    · next h => exact List.filter_cons_of_neg fun heq => h (beq_iff_eq.1 heq)
  induction ps using List.reverseRecOn generalizing r with
  | nil => cases hr
  | append_singleton ps q ih =>
    rw [hconcat] at hr
    rw [List.filter_append]
    rcases mem_absorb (nodup_names_mergeAll ps) hr with ⟨hin, hne⟩ | ⟨r', hin, hname, rfl⟩ |
      ⟨rfl, hnew⟩
    · obtain ⟨p, rest, hfilter, hfold⟩ := ih hin
      refine ⟨p, rest, ?_, hfold⟩
      rw [hfilter, hone, if_neg (Ne.symm hne), List.append_nil]
    · obtain ⟨p, rest, hfilter, hfold⟩ := ih hin
      refine ⟨p, rest ++ [q], ?_, ?_⟩
      · show ps.filter (·.name == r'.name) ++ [q].filter (·.name == r'.name) = _
        rw [hfilter, hone, if_pos hname.symm]
        rfl
      · rw [List.foldl_append, ← hfold]
        rfl
    · refine ⟨r, [], ?_, rfl⟩
      rw [hone, if_pos rfl, List.filter_eq_nil_iff.2 fun p hp h => hnew ?_]
      · rfl
      · rw [names_mergeAll, FirstSeen.mem_addAll, ← beq_iff_eq.1 h]
        exact Or.inr (List.mem_map_of_mem hp)

/-- **What the conditions of descriptors come to**: where all depend on one parameter, a condition
on it with the values of any of them, and otherwise none. -/
inductive Joined (ps : List FlatParameter) : Option ShowCondition → Prop
  | depends {c : ShowCondition}
      (agree : ∀ q ∈ ps, ∃ d, q.condition = some d ∧ d.parameter = c.parameter)
      (values : ∀ v, v ∈ c.values ↔ ∃ q ∈ ps, ∃ d, q.condition = some d ∧ v ∈ d.values) :
      Joined ps (some c)
  | always
      (differ : ∀ name, ¬ ∀ q ∈ ps, ∃ d, q.condition = some d ∧ d.parameter = name) :
      Joined ps none

theorem joined_singleton (p : FlatParameter) : Joined [p] p.condition := by
  cases hp : p.condition with
  | none =>
    refine .always fun name h => ?_
    obtain ⟨d, hd, -⟩ := h p (List.mem_singleton.2 rfl)
    cases hp.symm.trans hd
  | some c =>
    refine .depends (List.forall_mem_singleton.2 ⟨c, hp, rfl⟩) fun v => ?_
    simp [hp]

/-- **Merging one more descriptor** goes on with the join. A condition that was lost stays
lost. -/
theorem Joined.merge {ps : List FlatParameter} (hne : ps ≠ []) {p : FlatParameter}
    (h : Joined ps p.condition) (q : FlatParameter) :
    Joined (ps ++ [q]) (p.merge q).condition := by
  show Joined _ (ShowCondition.merge p.condition q.condition)
  generalize p.condition = condition at h ⊢
  have hlast : q ∈ ps ++ [q] := List.mem_append_right _ (List.mem_singleton.2 rfl)
  cases h with
  | always differ => exact .always fun name hall => differ name (List.forall_mem_append.1 hall).1
  | @depends c agree values =>
    cases hq : q.condition with
    | none =>
      refine .always fun name hall => ?_
      obtain ⟨d, hd, -⟩ := hall q hlast
      cases hq.symm.trans hd
    | some d =>
      unfold ShowCondition.merge
      dsimp only
      split
      · next heq =>
        refine .depends ?_ fun v => ?_
        · exact List.forall_mem_append.2 ⟨agree, List.forall_mem_singleton.2 ⟨d, hq, heq.symm⟩⟩
        · show v ∈ FirstSeen.addAll c.values d.values ↔ _
          rw [FirstSeen.mem_addAll, values]
          simp only [List.mem_append, List.mem_singleton, or_and_right, exists_or, exists_eq_left,
            hq, Option.some.injEq, exists_eq_left']
      · next hne' =>
        -- one of the earlier ones depends on another parameter than the new one
        refine .always fun name hall => hne' ?_
        obtain ⟨r, hr⟩ := List.exists_mem_of_ne_nil ps hne
        obtain ⟨e, he, hec⟩ := agree r hr
        obtain ⟨e', he', hname⟩ := hall r (List.mem_append_left _ hr)
        obtain ⟨d', hd', hname'⟩ := hall q hlast
        obtain rfl := Option.some.inj (he.symm.trans he')
        obtain rfl := Option.some.inj (hq.symm.trans hd')
        rw [← hec, hname, hname']

/-- **Merged descriptors have the join of their conditions.** -/
theorem joined_foldl_merge (p : FlatParameter) (rest : List FlatParameter) :
    Joined (p :: rest) (rest.foldl merge p).condition := by
  induction rest using List.reverseRecOn with
  | nil => exact joined_singleton p
  | append_singleton rest q ih =>
    rw [List.foldl_append, ← List.cons_append]
    exact ih.merge (List.cons_ne_nil p rest) q

/-- **No value comes twice** that is not there twice in the first condition. -/
theorem nodup_condition_foldl_merge {p : FlatParameter} {rest : List FlatParameter}
    (hp : ∀ d, p.condition = some d → d.values.Nodup) {c : ShowCondition}
    (h : (rest.foldl merge p).condition = some c) : c.values.Nodup := by
  induction rest using List.reverseRecOn generalizing c with
  | nil => exact hp c h
  | append_singleton rest q ih =>
    rw [List.foldl_append] at h
    obtain ⟨x, y, hx, -, -, -, hvalues⟩ := ShowCondition.merge_eq_some h
    rw [hvalues]
    exact FirstSeen.nodup_addAll (ih hx) y.values

/-- **The condition that is left** when descriptors are merged: all of them have one, on one
parameter, and its values are those of any of them, each once. -/
theorem condition_foldl_merge {rest : List FlatParameter} {p : FlatParameter} {c : ShowCondition}
    (h : (rest.foldl merge p).condition = some c) :
    (∀ q ∈ p :: rest, ∃ d, q.condition = some d ∧ d.parameter = c.parameter) ∧
    (∀ v, v ∈ c.values ↔ ∃ q ∈ p :: rest, ∃ d, q.condition = some d ∧ v ∈ d.values) ∧
    ((∀ d, p.condition = some d → d.values.Nodup) → c.values.Nodup) := by
  have hjoined := joined_foldl_merge p rest
  rw [h] at hjoined
  cases hjoined with
  | depends agree values =>
    exact ⟨agree, values, fun hp => nodup_condition_foldl_merge hp h⟩

/-- **The values that are left** when descriptors are merged are those of the first one, united
with those of the later ones that have values. Where the first one has none, so has what it is
merged into. -/
theorem enum_foldl_merge (rest : List FlatParameter) (p : FlatParameter) :
    (rest.foldl merge p).enum
      = p.enum.map fun e => (rest.filterMap (·.enum)).foldl EnumValues.union e := by
  induction rest generalizing p with
  | nil => exact (congrFun Option.map_id p.enum).symm
  | cons q rest ih =>
    rw [List.foldl_cons, ih, List.filterMap_cons]
    unfold merge
    dsimp only
    cases p.enum with
    | none => rfl
    | some e =>
      cases q.enum with
      | none => rfl
      | some e' => rfl

section Shown

variable {values : String → Option String}

theorem exists_met_absorb_self {p : FlatParameter} (hp : ShowCondition.Met values p.condition)
    (qs : List FlatParameter) :
    ∃ r ∈ p.absorb qs, r.name = p.name ∧ ShowCondition.Met values r.condition := by
  induction qs with
  | nil => exact ⟨p, List.mem_singleton.2 rfl, rfl, hp⟩
  | cons q rest ih =>
    unfold absorb
    split
    · next h => exact ⟨q.merge p, List.mem_cons_self, h, .merge (Or.inr hp)⟩
    · obtain ⟨r, hr, h⟩ := ih
      exact ⟨r, List.mem_cons_of_mem _ hr, h⟩

theorem exists_met_absorb (p : FlatParameter) {qs : List FlatParameter} {q : FlatParameter}
    (hq : q ∈ qs) (hm : ShowCondition.Met values q.condition) :
    ∃ r ∈ p.absorb qs, r.name = q.name ∧ ShowCondition.Met values r.condition := by
  induction qs with
  | nil => cases hq
  | cons q' rest ih =>
    unfold absorb
    rcases List.mem_cons.1 hq with rfl | hq
    · split
      · exact ⟨q.merge p, List.mem_cons_self, rfl, .merge (Or.inl hm)⟩
      · exact ⟨q, List.mem_cons_self, rfl, hm⟩
    · split
      · exact ⟨q, List.mem_cons_of_mem _ hq, rfl, hm⟩
      · obtain ⟨r, hr, h⟩ := ih hq
        exact ⟨r, List.mem_cons_of_mem _ hr, h⟩

/-- **A descriptor that is to be shown is merged into one that is.** -/
theorem exists_met_mergeAll {ps : List FlatParameter} {p : FlatParameter} (hp : p ∈ ps)
    (hm : ShowCondition.Met values p.condition) :
    ∃ r ∈ mergeAll ps, r.name = p.name ∧ ShowCondition.Met values r.condition := by
  unfold mergeAll
  induction ps using List.reverseRecOn with
  | nil => cases hp
  | append_singleton ps q ih =>
    rw [List.foldl_append]
    rcases List.mem_append.1 hp with hp | hp
    · obtain ⟨r, hr, hname, hm⟩ := ih hp
      obtain ⟨s, hs, hs'⟩ := exists_met_absorb q hr hm
      exact ⟨s, hs, hname ▸ hs'⟩
    · obtain rfl := List.mem_singleton.1 hp
      exact exists_met_absorb_self hm _

end Shown

end FlatParameter

end SwaggerForge
