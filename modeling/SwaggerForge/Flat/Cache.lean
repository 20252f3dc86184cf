import SwaggerForge.Flat.Expansion

/-!
# Flattening each class once

A class is flattened when an operation first needs it, and the cuts of its walk
are noted then; later operations take the expansion from the cache and note
nothing. A `Cached` step is given the cache, yields a report, and leaves the
cache for the steps after it – also when it fails.
-/

namespace SwaggerForge

/-- The expansions made so far, by class. -/
abbrev ExpansionCache : Type := Table Expansion

/-- **A step that may use and extend the cache.** -/
def Cached (α : Type) : Type := ExpansionCache → Report α × ExpansionCache

namespace Cached

variable {α β : Type}

/-- Runs a step from a given cache. -/
def run (x : Cached α) (cache : ExpansionCache) : Report α × ExpansionCache := x cache

/-- A step that leaves the cache alone. -/
def ofReport (r : Report α) : Cached α := fun cache => (r, cache)

/-- One step after another; a failure leaves the cache as it is then. -/
def andThen (x : Cached α) (f : α → Cached β) : Cached β := fun cache =>
  match (x cache).1.result with
  | .error e => (⟨(x cache).1.notes, .error e⟩, (x cache).2)
  | .ok a =>
    let y := f a (x cache).2
    (⟨(x cache).1.notes ++ y.1.notes, y.1.result⟩, y.2)

instance : Monad Cached where
  pure a := ofReport (pure a)
  bind := andThen

instance : MonadLift Report Cached := ⟨ofReport⟩

instance : MonadLift (Except Failure) Cached := ⟨fun r => ofReport (Report.ofExcept r)⟩

instance : LawfulMonad Cached := LawfulMonad.mk' Cached
  (by
    intro α x
    funext cache
    show andThen x (fun a => pure a) cache = x cache
    unfold andThen
    cases hr : (x cache).1.result with
    | error e => dsimp only; rw [← hr]
    | ok a =>
      show (Report.mk ((x cache).1.notes ++ []) (.ok a), (x cache).2) = x cache
      rw [List.append_nil, ← hr])
  (by intro α β a f; rfl)
  (by
    intro α β γ x f g
    funext cache
    show andThen (andThen x f) g cache = andThen x (fun a => andThen (f a) g) cache
    cases hx : (x cache).1.result with
    | error e => simp only [andThen, hx]
    | ok a =>
      cases hf : (f a (x cache).2).1.result with
      | error e => simp only [andThen, hx, hf]
      | ok b => simp only [andThen, hx, hf, List.append_assoc])

/-- **The expansion of a class**: from the cache, or made now and its cuts
noted. -/
def expansion (f : Flattening) (name : String) : Cached Expansion := fun cache =>
  match cache.get? name with
  | some e => (pure e, cache)
  | none =>
    match f.expand name with
    | .error e => (Report.fail e, cache)
    | .ok e => (⟨e.truncated.map (.truncated name), .ok e⟩, cache.insert name e)

end Cached

end SwaggerForge
