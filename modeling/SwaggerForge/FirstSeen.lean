/-!
# Lists without repetition

A list that takes a new item only if the item is not there yet, so that each
stands where it was first seen.
-/

namespace SwaggerForge.FirstSeen

universe u

variable {α : Type u} [DecidableEq α]

/-- Takes an item in, behind the others, if it is new. -/
def add (xs : List α) (x : α) : List α := if x ∈ xs then xs else xs ++ [x]

/-- **Takes several items in**, one after the other. -/
def addAll (xs ys : List α) : List α := ys.foldl add xs

theorem mem_add {xs : List α} {x y : α} : y ∈ add xs x ↔ y ∈ xs ∨ y = x := by
  unfold add
  split
  · next h => exact ⟨Or.inl, fun hy => hy.elim id fun e => e ▸ h⟩
  · simp

theorem mem_addAll {xs ys : List α} {y : α} : y ∈ addAll xs ys ↔ y ∈ xs ∨ y ∈ ys := by
  induction ys generalizing xs with
  | nil => simp [addAll]
  | cons z rest ih =>
    show y ∈ addAll (add xs z) rest ↔ _
    rw [ih, mem_add, List.mem_cons, or_assoc]

theorem nodup_add {xs : List α} (h : xs.Nodup) (x : α) : (add xs x).Nodup := by
  unfold add
  split
  · exact h
  · next hx =>
    refine List.nodup_append.2 ⟨h, by simp, ?_⟩
    intro a ha b hb
    obtain rfl : b = x := by simpa using hb
    exact fun e => hx (e ▸ ha)

/-- Nothing is taken in twice. -/
theorem nodup_addAll {xs : List α} (h : xs.Nodup) (ys : List α) : (addAll xs ys).Nodup := by
  induction ys generalizing xs with
  | nil => exact h
  | cons z rest ih => exact ih (nodup_add h z)

end SwaggerForge.FirstSeen
