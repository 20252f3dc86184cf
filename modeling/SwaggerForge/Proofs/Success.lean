import Mathlib.Data.List.Forall2
import SwaggerForge.Diagnosis

/-!
# Steps that succeed

A step of the compiler either fails or has a result, and most of what is said
of a compilation is said of its result. The lemmas here take a successful
compilation apart: a sequence of two steps succeeds exactly when the first has
a result on which the second succeeds (`Report.result_bind_eq_ok`), and a step
taken for every item of a list succeeds exactly when it does so on each item
(`Report.result_mapM_eq_ok`). Where only whether a check passes matters and not with
what result (`Passes`), both read the same way (`passes_bind`, `passes_mapM`).

Failures come in two layers. A check that notes no diagnostics is an `Except`;
one that does is a `Report`, whose result is again an `Except`
(`Report.result_bind`), so the second layer reduces to the first.
-/

namespace SwaggerForge

universe u v

/-! ## Checks -/

section Checks

variable {ε : Type v} {α β : Type u}

/-- **Two checks in a row succeed** exactly when the second does on the result
of the first. -/
theorem bind_eq_ok {x : Except ε α} {f : α → Except ε β} {b : β} :
    x >>= f = .ok b ↔ ∃ a, x = .ok a ∧ f a = .ok b := by
  cases x with
  | error e =>
    constructor
    · intro h
      cases h
    · rintro ⟨_, h, _⟩
      cases h
  | ok a =>
    constructor
    · intro h
      exact ⟨a, rfl, h⟩
    · rintro ⟨_, h, hf⟩
      cases h
      exact hf

/-- A changed result is the change of a result. -/
theorem map_eq_ok {x : Except ε α} {f : α → β} {b : β} :
    x.map f = .ok b ↔ ∃ a, x = .ok a ∧ f a = b := by
  cases x with
  | error e =>
    constructor
    · intro h
      cases h
    · rintro ⟨_, h, _⟩
      cases h
  | ok a =>
    constructor
    · intro h
      exact ⟨a, rfl, Except.ok.inj h⟩
    · rintro ⟨_, h, rfl⟩
      cases h
      rfl

/-- A step that only packs its argument has it for its result. -/
theorem pure_eq_ok {a b : α} : (pure a : Except ε α) = .ok b ↔ a = b :=
  ⟨Except.ok.inj, congrArg Except.ok⟩

/-- **A check of every item succeeds** exactly when each item has a result. -/
theorem mapM_eq_ok {f : α → Except ε β} {xs : List α} {ys : List β} :
    xs.mapM f = .ok ys ↔ List.Forall₂ (fun x y => f x = .ok y) xs ys := by
  induction xs generalizing ys with
  | nil =>
    rw [List.mapM_nil, List.forall₂_nil_left_iff, pure_eq_ok]
    exact eq_comm
  | cons x rest ih =>
    rw [List.mapM_cons, bind_eq_ok, List.forall₂_cons_left_iff]
    constructor
    · rintro ⟨y, hy, h⟩
      obtain ⟨zs, hzs, hp⟩ := bind_eq_ok.1 h
      exact ⟨y, zs, hy, ih.1 hzs, (pure_eq_ok.1 hp).symm⟩
    · rintro ⟨y, zs, hy, hzs, rfl⟩
      exact ⟨y, hy, bind_eq_ok.2 ⟨zs, ih.2 hzs, rfl⟩⟩

/-- A result is kept when a failure is left untold. -/
theorem toOption_eq_some_iff {x : Except ε α} {a : α} : x.toOption = some a ↔ x = .ok a := by
  cases x with
  | ok b => exact ⟨fun h => congrArg Except.ok (Option.some.inj h),
      fun h => congrArg some (Except.ok.inj h)⟩
  | error e => exact ⟨fun h => (nomatch h), fun h => (nomatch h)⟩

/-- **Items in another order** have their results in another order. -/
theorem perm_of_mapM_eq_ok {f : α → Except ε β} {xs xs' : List α} (h : xs.Perm xs')
    {ys ys' : List β} (hy : xs.mapM f = .ok ys) (hy' : xs'.mapM f = .ok ys') : ys.Perm ys' := by
  have hresults {xs : List α} {ys : List β} (hy : List.Forall₂ (fun x y => f x = .ok y) xs ys) :
      ys = xs.filterMap fun x => (f x).toOption := by
    induction hy with
    | nil => rfl
    | @cons x y rest _ hxy _ ih =>
      rw [List.filterMap_cons, toOption_eq_some_iff.2 hxy, ← ih]
  rw [hresults (mapM_eq_ok.1 hy), hresults (mapM_eq_ok.1 hy')]
  exact h.filterMap _

/-- **A check that passes**: it has a result. -/
def Passes (x : Except ε α) : Prop := ∃ a, x = .ok a

theorem passes_ok (a : α) : Passes (.ok a : Except ε α) := ⟨a, rfl⟩

theorem not_passes_error (e : ε) : ¬ Passes (.error e : Except ε α) := fun ⟨_, h⟩ => nomatch h

/-- **Two checks in a row pass** exactly when the second does on the result of the first. -/
theorem passes_bind {x : Except ε α} {f : α → Except ε β} :
    Passes (x >>= f) ↔ ∃ a, x = .ok a ∧ Passes (f a) := by
  constructor
  · rintro ⟨b, h⟩
    obtain ⟨a, ha, hb⟩ := bind_eq_ok.1 h
    exact ⟨a, ha, b, hb⟩
  · rintro ⟨a, ha, b, hb⟩
    exact ⟨b, bind_eq_ok.2 ⟨a, ha, hb⟩⟩

/-- Two checks in a row pass exactly when both do, if whether the second does is the same
for every result of the first. -/
theorem passes_bind_iff_and {x : Except ε α} {f : α → Except ε β} {P : Prop}
    (h : ∀ a, x = .ok a → (Passes (f a) ↔ P)) : Passes (x >>= f) ↔ Passes x ∧ P := by
  rw [passes_bind]
  constructor
  · rintro ⟨a, ha, hf⟩
    exact ⟨⟨a, ha⟩, (h a ha).1 hf⟩
  · rintro ⟨⟨a, ha⟩, hP⟩
    exact ⟨a, ha, (h a ha).2 hP⟩

/-- What comes behind a check and always passes does not matter. -/
theorem passes_bind_iff_left {x : Except ε α} {f : α → Except ε β}
    (h : ∀ a, x = .ok a → Passes (f a)) : Passes (x >>= f) ↔ Passes x :=
  (passes_bind_iff_and fun a ha => iff_true_intro (h a ha)).trans (and_iff_left trivial)

theorem passes_map {x : Except ε α} {f : α → β} : Passes (x.map f) ↔ Passes x := by
  cases x with
  | error e => exact iff_of_false (not_passes_error e) (not_passes_error e)
  | ok a => exact iff_of_true ⟨f a, rfl⟩ ⟨a, rfl⟩

/-- **A check of every item passes** exactly when it does so on each. -/
theorem passes_mapM {f : α → Except ε β} {xs : List α} :
    Passes (xs.mapM f) ↔ ∀ x ∈ xs, Passes (f x) := by
  induction xs with
  | nil => exact iff_of_true ⟨[], rfl⟩ fun _ h => nomatch h
  | cons x rest ih =>
    rw [List.mapM_cons, List.forall_mem_cons, ← ih]
    exact passes_bind_iff_and fun y _ => passes_bind_iff_left fun ys _ => passes_ok (y :: ys)

/-- What belongs to an item of the first list stands in the second. -/
theorem exists_right_of_forall₂ {R : α → β → Prop} {xs : List α} {ys : List β}
    (h : List.Forall₂ R xs ys) {x : α} (hx : x ∈ xs) : ∃ y ∈ ys, R x y := by
  induction h with
  | nil => cases hx
  | cons hxy _ ih =>
    rcases List.mem_cons.1 hx with rfl | hrest
    · exact ⟨_, List.mem_cons_self, hxy⟩
    · obtain ⟨y, hy, hR⟩ := ih hrest
      exact ⟨y, List.mem_cons_of_mem _ hy, hR⟩

/-- What stands in the second list belongs to an item of the first. -/
theorem exists_left_of_forall₂ {R : α → β → Prop} {xs : List α} {ys : List β}
    (h : List.Forall₂ R xs ys) {y : β} (hy : y ∈ ys) : ∃ x ∈ xs, R x y :=
  exists_right_of_forall₂ (R := fun y x => R x y) h.flip hy

/-- **Lists that belong together are divided alike** around an item. -/
theorem exists_division_of_forall₂ {R : α → β → Prop} {before after : List α} {x : α}
    {ys : List β} (h : List.Forall₂ R (before ++ x :: after) ys) :
    ∃ before' y after', ys = before' ++ y :: after' ∧ List.Forall₂ R before before' ∧ R x y ∧
      List.Forall₂ R after after' := by
  induction before generalizing ys with
  | nil =>
    obtain ⟨y, after', hxy, hafter, rfl⟩ := List.forall₂_cons_left_iff.1 h
    exact ⟨[], y, after', rfl, .nil, hxy, hafter⟩
  | cons x' rest ih =>
    obtain ⟨y', ys', hxy', hrest, rfl⟩ := List.forall₂_cons_left_iff.1 h
    obtain ⟨before', y, after', rfl, hbefore, hxy, hafter⟩ := ih hrest
    exact ⟨y' :: before', y, after', rfl, .cons hxy' hbefore, hxy, hafter⟩

/-- **What a search finds** in two lists that belong together belongs together, if it
asks the same of both. -/
theorem rel_find?_of_forall₂ {R : α → β → Prop} {xs : List α} {ys : List β}
    (h : List.Forall₂ R xs ys) {p : α → Bool} {q : β → Bool} (hpq : ∀ x y, R x y → p x = q y) :
    Option.Rel R (xs.find? p) (ys.find? q) := by
  induction h with
  | nil => exact .none
  | @cons x y _ _ hxy _ ih =>
    rw [List.find?_cons, List.find?_cons, hpq x y hxy]
    split
    · exact .some hxy
    · exact ih

/-- **In the same place** of the second list stands what belongs to an item of the first. -/
theorem exists_getElem?_of_forall₂ {R : α → β → Prop} {xs : List α} {ys : List β}
    (h : List.Forall₂ R xs ys) {i : Nat} {x : α} (hx : xs[i]? = some x) :
    ∃ y, ys[i]? = some y ∧ R x y := by
  induction h generalizing i with
  | nil => cases hx
  | @cons a b _ _ hab _ ih =>
    cases i with
    | zero =>
      obtain rfl := Option.some.inj hx
      exact ⟨b, rfl, hab⟩
    | succ i => exact ih hx

/-- Lists that belong together item by item, with the same of each. -/
theorem map_eq_of_forall₂ {γ : Type u} {R : α → β → Prop} {xs : List α} {ys : List β}
    {f : α → γ} {g : β → γ} (h : List.Forall₂ R xs ys) (hfg : ∀ x y, R x y → f x = g y) :
    xs.map f = ys.map g := by
  induction h with
  | nil => rfl
  | cons hxy _ ih => rw [List.map_cons, List.map_cons, hfg _ _ hxy, ih]

/-- Lists that belong together item by item and give the same for each give the same
together. -/
theorem flatMap_eq_of_forall₂ {γ : Type u} {R : α → β → Prop} {xs : List α} {ys : List β}
    {f : α → List γ} {g : β → List γ} (h : List.Forall₂ R xs ys)
    (hfg : ∀ x y, R x y → f x = g y) : xs.flatMap f = ys.flatMap g := by
  induction h with
  | nil => rfl
  | cons hxy _ ih => rw [List.flatMap_cons, List.flatMap_cons, hfg _ _ hxy, ih]

/-- **What every step of a successful fold keeps** holds in the end. -/
theorem foldlM_ok_induction {f : β → α → Except ε β} {motive : β → Prop} {xs : List α} {b c : β}
    (h : xs.foldlM f b = .ok c) (init : motive b)
    (step : ∀ x ∈ xs, ∀ b c, motive b → f b x = .ok c → motive c) : motive c := by
  induction xs generalizing b with
  | nil => exact pure_eq_ok.1 h ▸ init
  | cons x rest ih =>
    rw [List.foldlM_cons] at h
    obtain ⟨b', hb', hrest⟩ := bind_eq_ok.1 h
    exact ih hrest (step x List.mem_cons_self b b' init hb')
      fun y hy => step y (List.mem_cons_of_mem x hy)

end Checks

/-! ## Reports -/

namespace Report

variable {α β : Type u}

/-- **The result of two steps** is that of the checks in a row. -/
theorem result_bind (x : Report α) (f : α → Report β) :
    (x >>= f).result = x.result >>= fun a => (f a).result := by
  cases h : x.result with
  | error e => rw [bind_of_error h]; rfl
  | ok a => rw [bind_of_ok h]; rfl

/-- **Two steps succeed** exactly when the second does on the result of the
first. -/
theorem result_bind_eq_ok {x : Report α} {f : α → Report β} {b : β} :
    (x >>= f).result = .ok b ↔ ∃ a, x.result = .ok a ∧ (f a).result = .ok b := by
  rw [result_bind, bind_eq_ok]

/-- A step that notes nothing has the result of its check. -/
@[simp] theorem result_liftM (r : Except Failure α) : (liftM r : Report α).result = r := rfl

/-- **The result of a step for every item** is that of the checks. -/
theorem result_mapM (f : α → Report β) (xs : List α) :
    (xs.mapM f).result = xs.mapM fun x => (f x).result := by
  induction xs with
  | nil => rfl
  | cons x rest ih =>
    rw [List.mapM_cons, List.mapM_cons, result_bind]
    refine congrArg ((f x).result >>= ·) (funext fun y => ?_)
    rw [result_bind, ih]
    rfl

/-- **A step for every item succeeds** exactly when it does so on each. -/
theorem result_mapM_eq_ok {f : α → Report β} {xs : List α} {ys : List β} :
    (xs.mapM f).result = .ok ys ↔ List.Forall₂ (fun x y => (f x).result = .ok y) xs ys := by
  rw [result_mapM, mapM_eq_ok]

end Report

end SwaggerForge
