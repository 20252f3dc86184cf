import Mathlib.Data.List.Perm.Basic
import SwaggerForge.Proofs.Reporting

/-!
# Notes in another order

The actions of a schema share one cache of expansions, so which of them notes the cuts of a
class depends on their order: it is the first that flattens it. Not so which cuts are noted
at all. A step is **thorough** (`Cached.Thorough`) when it notes every cut of every class
that it flattens, and steps made of thorough ones are thorough. A row of such steps that
succeeds notes the cuts of all classes that one of its steps flattens, each once, and beside
them what each step notes of other gaps. Neither depends on the order
(`Cached.perm_freshNotes_mapM`).
-/

namespace SwaggerForge

/-! ## Notes that are no cuts -/

/-- The notes that are no cuts. -/
def gapsOf (notes : List Diagnostic) : List Diagnostic := notes.filter fun d => d.cut?.isNone

theorem gapsOf_append (xs ys : List Diagnostic) : gapsOf (xs ++ ys) = gapsOf xs ++ gapsOf ys :=
  List.filter_append xs ys

/-- What is known of cuts does not show in other notes. -/
theorem gapsOf_unreported (classes : List String) (notes : List Diagnostic) :
    gapsOf (unreported classes notes) = gapsOf notes := by
  unfold gapsOf unreported
  rw [List.filter_filter]
  refine List.filter_congr fun d _ => ?_
  unfold Diagnostic.cutsIn
  cases d.cut? <;> rfl

/-- The cuts, as they are noted. -/
theorem map_cutsOf (notes : List Diagnostic) :
    (cutsOf notes).map (fun cut => .truncated cut.1 cut.2)
      = notes.filter fun d => !d.cut?.isNone := by
  induction notes with
  | nil => rfl
  | cons d rest ih =>
    cases d with
    | missing => exact ih
    | truncated root path => exact congrArg (_ :: ·) ih

/-- **Notes are the same in another order** if their cuts and their other notes are. -/
theorem perm_of_cutsOf_of_gapsOf {xs ys : List Diagnostic} (hcuts : (cutsOf xs).Perm (cutsOf ys))
    (hgaps : (gapsOf xs).Perm (gapsOf ys)) : xs.Perm ys := by
  have hparts := hgaps.append (hcuts.map fun cut => Diagnostic.truncated cut.1 cut.2)
  rw [map_cutsOf, map_cutsOf] at hparts
  exact ((List.filter_append_perm _ xs).symm.trans hparts).trans (List.filter_append_perm _ ys)

/-- Whether a flattening is cut off at a path of a class. -/
def Flattening.CutAt (f : Flattening) (cut : String × String) : Prop :=
  ∃ e, f.expand cut.1 = .ok e ∧ cut.2 ∈ e.truncated

/-! ## Thorough steps -/

namespace Cached

variable {α β : Type} {f : Flattening}

/-- **A step that notes every cut** of the classes that it flattens. -/
structure Thorough (f : Flattening) (x : Cached α) : Prop extends Incremental f x where
  mem_cuts_iff : ∀ cut, cut ∈ cutsOf x.freshNotes ↔ cut.1 ∈ x.flattened ∧ f.CutAt cut

/-- A step that neither cuts anything nor touches the cache is thorough. -/
theorem thorough_liftReport {r : Report α} (hr : r.WithoutCuts) :
    Thorough f (liftM r : Cached α) where
  toIncremental := incremental_liftReport hr
  mem_cuts_iff := by
    intro cut
    have hnone : cut ∉ cutsOf r.notes := by
      rw [hr]
      exact List.not_mem_nil
    exact iff_of_false hnone fun h => List.not_mem_nil h.1

theorem thorough_pure (a : α) : Thorough f (pure a : Cached α) :=
  thorough_liftReport (Report.withoutCuts_pure a)

theorem thorough_liftCheck (r : Except Failure α) : Thorough f (liftM r : Cached α) :=
  thorough_liftReport (Report.withoutCuts_check r)

/-- **Two thorough steps are one.** What the second leaves out the first has noted. -/
theorem Thorough.bind {x : Cached α} {g : α → Cached β} (hx : Thorough f x)
    (hg : ∀ a, Thorough f (g a)) : Thorough f (x >>= g) where
  toIncremental := hx.toIncremental.bind fun a => (hg a).toIncremental
  mem_cuts_iff := by
    intro cut
    cases h : x.fresh with
    | error e =>
      have hnotes : (x >>= g).freshNotes = x.freshNotes := notes_bind_of_error h
      have hflattened : (x >>= g).flattened = x.flattened :=
        congrArg Table.keys (run_bind_of_error h).2
      rw [hnotes, hflattened]
      exact hx.mem_cuts_iff cut
    | ok a =>
      have hsecond := (hg a).toIncremental
      rw [freshNotes_bind hx.toIncremental h hsecond, cutsOf_append, List.mem_append,
        mem_cutsOf_unreported, mem_flattened_bind hx.toIncremental h hsecond,
        hx.mem_cuts_iff, (hg a).mem_cuts_iff]
      tauto

theorem thorough_mapM {g : α → Cached β} (hg : ∀ a, Thorough f (g a)) (xs : List α) :
    Thorough f (xs.mapM g) := by
  induction xs with
  | nil => exact thorough_pure []
  | cons x rest ih =>
    rw [List.mapM_cons]
    exact (hg x).bind fun y => ih.bind fun ys => thorough_pure (y :: ys)

/-- **Taking an expansion** notes all its cuts. -/
theorem thorough_expansion (name : String) : Thorough f (expansion f name) where
  toIncremental := incremental_expansion name
  mem_cuts_iff := by
    intro cut
    cases he : f.expand name with
    | error e =>
      have hempty : (∅ : ExpansionCache).get? name = none := rfl
      have hrun := run_expansion_of_error hempty he
      have hnotes : (expansion f name).freshNotes = [] := congrArg (·.1.notes) hrun
      have hflattened : (expansion f name).flattened = [] := congrArg (·.2.keys) hrun
      rw [hnotes, hflattened]
      exact iff_of_false List.not_mem_nil fun h => List.not_mem_nil h.1
    | ok e =>
      have hnotes : (expansion f name).freshNotes = e.truncated.map (.truncated name) :=
        congrArg (·.1.notes) (run_expansion_of_ok rfl he)
      rw [hnotes, cutsOf_map_truncated, mem_flattened_expansion he, List.mem_map]
      constructor
      · rintro ⟨path, hpath, rfl⟩
        exact ⟨rfl, e, he, hpath⟩
      · rintro ⟨hname, e', he', hpath⟩
        rw [hname] at he'
        obtain rfl := Except.ok.inj (he.symm.trans he')
        exact ⟨cut.2, hpath, Prod.ext hname.symm rfl⟩

/-! ## Rows that succeed -/

section Row

variable {g : α → Cached β} (hg : ∀ a, Thorough f (g a))
include hg

/-- A row that succeeds is its first step and then a row that succeeds. -/
theorem fresh_mapM_cons {x : α} {rest : List α} {ys : List β}
    (h : ((x :: rest).mapM g).fresh = .ok ys) :
    ∃ y zs, (g x).fresh = .ok y ∧ (rest.mapM g).fresh = .ok zs := by
  rw [(fresh_mapM (fun a => (hg a).toTransparent) (x :: rest)).2, mapM_eq_ok] at h
  obtain ⟨y, zs, hy, hzs, -⟩ := List.forall₂_cons_left_iff.1 h
  refine ⟨y, zs, hy, ?_⟩
  rw [(fresh_mapM (fun a => (hg a).toTransparent) rest).2, mapM_eq_ok]
  exact hzs

/-- **What a row notes and flattens**, if it succeeds: what its first step does, and then what
the rest does, less the cuts of what has been flattened. -/
theorem freshNotes_mapM_cons {x : α} {rest : List α} {ys : List β}
    (h : ((x :: rest).mapM g).fresh = .ok ys) :
    ((x :: rest).mapM g).freshNotes
        = (g x).freshNotes ++ unreported (g x).flattened (rest.mapM g).freshNotes ∧
      ∀ name, name ∈ ((x :: rest).mapM g).flattened ↔
        name ∈ (g x).flattened ∨ name ∈ (rest.mapM g).flattened := by
  obtain ⟨y, zs, hy, hzs⟩ := fresh_mapM_cons hg h
  have hrest := (thorough_mapM hg rest).toIncremental
  have hpack : Incremental f (do return y :: (← rest.mapM g) : Cached (List β)) :=
    hrest.bind fun ys => incremental_pure (y :: ys)
  have hpure := incremental_pure (f := f) (y :: zs)
  rw [List.mapM_cons]
  constructor
  · rw [freshNotes_bind (hg x).toIncremental hy hpack,
      freshNotes_bind (g := fun ys => pure (y :: ys)) hrest hzs hpure]
    exact congrArg (_ ++ unreported _ ·) (List.append_nil _)
  · intro name
    rw [mem_flattened_bind (hg x).toIncremental hy hpack,
      mem_flattened_bind (g := fun ys => pure (y :: ys)) hrest hzs hpure]
    exact or_congr_right (or_iff_left List.not_mem_nil)

/-- **A row that succeeds** notes of gaps what its steps note, and flattens what they do. -/
theorem gapsOf_mapM {xs : List α} {ys : List β} (h : (xs.mapM g).fresh = .ok ys) :
    gapsOf (xs.mapM g).freshNotes = (xs.flatMap fun x => gapsOf (g x).freshNotes) ∧
      ∀ name, name ∈ (xs.mapM g).flattened ↔ ∃ x ∈ xs, name ∈ (g x).flattened := by
  induction xs generalizing ys with
  | nil => exact ⟨rfl, fun name => iff_of_false List.not_mem_nil fun ⟨_, h, _⟩ => nomatch h⟩
  | cons x rest ih =>
    obtain ⟨y, zs, -, hzs⟩ := fresh_mapM_cons hg h
    obtain ⟨hgaps, hflattened⟩ := ih hzs
    obtain ⟨hnotes, hmem⟩ := freshNotes_mapM_cons hg h
    constructor
    · rw [hnotes, gapsOf_append, gapsOf_unreported, hgaps, List.flatMap_cons]
    · intro name
      rw [hmem, hflattened, List.exists_mem_cons_iff]

/-- **The notes of a row that succeeds** are the same in whatever order its steps are
taken. -/
theorem perm_freshNotes_mapM {xs xs' : List α} (hperm : xs.Perm xs') {ys ys' : List β}
    (h : (xs.mapM g).fresh = .ok ys) (h' : (xs'.mapM g).fresh = .ok ys') :
    (xs.mapM g).freshNotes.Perm (xs'.mapM g).freshNotes := by
  obtain ⟨hgaps, hflattened⟩ := gapsOf_mapM hg h
  obtain ⟨hgaps', hflattened'⟩ := gapsOf_mapM hg h'
  refine perm_of_cutsOf_of_gapsOf ?_ ?_
  · -- no cut is noted twice, so it is enough that the same ones are noted
    refine (List.perm_ext_iff_of_nodup (thorough_mapM hg xs).nodup
      (thorough_mapM hg xs').nodup).2 fun cut => ?_
    rw [(thorough_mapM hg xs).mem_cuts_iff, (thorough_mapM hg xs').mem_cuts_iff, hflattened,
      hflattened']
    simp only [hperm.mem_iff]
  · rw [hgaps, hgaps']
    exact hperm.flatMap_right _

end Row

end Cached

/-! ## Actions -/

namespace OperationContext

variable (ctx : OperationContext)

theorem thorough_queryPart (a : Action) (p : Parameter) :
    Cached.Thorough ctx.flattening (ctx.queryPart a p) := by
  unfold queryPart
  refine (Cached.thorough_liftCheck _).bind fun meant => ?_
  split
  · exact (Cached.thorough_expansion _).bind fun _ => Cached.thorough_pure _
  · exact Cached.thorough_pure _
  · refine (Cached.thorough_liftReport ?_).bind fun _ => Cached.thorough_pure _
    exact (ctx.withoutCuts_constraints _ _ _).bind fun _ => Report.withoutCuts_pure _

/-- **An action notes every cut** of the classes that it flattens. -/
theorem thorough_operation (s : Service) (a : Action) :
    Cached.Thorough ctx.flattening (ctx.operation s a) := by
  have hresponses := Cached.thorough_liftReport (f := ctx.flattening)
    (ctx.withoutCuts_responses s a)
  unfold operation
  split
  · exact (Cached.thorough_liftReport (ctx.withoutCuts_bodyParameters a)).bind fun _ =>
      hresponses.bind fun _ => Cached.thorough_pure _
  · exact (Cached.thorough_mapM (ctx.thorough_queryPart a) _).bind fun _ =>
      hresponses.bind fun _ => Cached.thorough_pure _

end OperationContext

end SwaggerForge
