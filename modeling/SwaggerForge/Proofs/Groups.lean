import SwaggerForge.ParameterGroup

/-!
# The schemas of parameter groups

A group may carry a schema, and so may the groups inside it. What all of them are like
(`ParameterGroup.Each`) is settled when the roots are made: groups that are added later are named
after a path and carry none.
-/

namespace SwaggerForge

namespace ParameterGroup

variable {P : Json → Prop}

mutual

/-- **A group all of whose schemas are of a kind**, with those of the groups inside it. -/
def Each (P : Json → Prop) : ParameterGroup → Prop
  | mk _ _ schema gs => (∀ j, schema = some j → P j) ∧ AllEach P gs

/-- A forest all of whose schemas are of a kind. -/
def AllEach (P : Json → Prop) : List ParameterGroup → Prop
  | [] => True
  | g :: rest => g.Each P ∧ AllEach P rest

end

theorem allEach_append {gs hs : List ParameterGroup} :
    AllEach P (gs ++ hs) ↔ AllEach P gs ∧ AllEach P hs := by
  induction gs with
  | nil => exact (and_iff_right trivial).symm
  | cons g rest ih =>
    rw [List.cons_append, AllEach, AllEach, ih, and_assoc]

theorem each_named (name : String) : (named name).Each P := by
  unfold named
  rw [Each, AllEach]
  exact ⟨fun _ h => (nomatch h), trivial⟩

mutual

theorem Each.attach {parent : String} {child : ParameterGroup} (hc : child.Each P) :
    ∀ {g : ParameterGroup}, g.Each P → (attach parent child g).Each P
  | mk n d s gs, h => by
    rw [Each] at h
    rw [ParameterGroup.attach]
    split
    · rw [Each, allEach_append, AllEach, AllEach]
      exact ⟨h.1, h.2, hc, trivial⟩
    · rw [Each]
      exact ⟨h.1, AllEach.attachIn hc h.2⟩

theorem AllEach.attachIn {parent : String} {child : ParameterGroup} (hc : child.Each P) :
    ∀ {gs : List ParameterGroup}, AllEach P gs → AllEach P (attachIn parent child gs)
  | [], h => h
  | g :: rest, h => by
    rw [AllEach] at h
    rw [ParameterGroup.attachIn]
    split
    · rw [AllEach]
      exact ⟨Each.attach hc h.1, h.2⟩
    · rw [AllEach]
      exact ⟨h.1, AllEach.attachIn hc h.2⟩

end

/-- **A group that is made sure of has no schema.** -/
theorem AllEach.ensure {gs : List ParameterGroup} (h : AllEach P gs) (name : String) :
    AllEach P (ensure name gs) := by
  induction name using ensure.induct gs with
  | case1 name hholds =>
    rw [ParameterGroup.ensure, if_pos hholds]
    exact h
  | case2 name hholds hparent =>
    rw [ParameterGroup.ensure, if_neg hholds, hparent, allEach_append, AllEach, AllEach]
    exact ⟨h, each_named name, trivial⟩
  | case3 name hholds parent hparent ih =>
    rw [ParameterGroup.ensure, if_neg hholds, hparent]
    exact ih.attachIn (each_named name)

end ParameterGroup

end SwaggerForge
