import SwaggerForge.Json.Basic
import SwaggerForge.Proofs.Tables

/-!
# Addresses

Where a value stands inside another one is told by its **address**: the fields and items on the
way to it, from outside in (`Json.at?`). What a pass does to a document is told exactly by what
it does at every address, and what it leaves alone as well.

A value without what is inside it is its **outline** (`Json.outline`): the keys of an object in
their order, the number of items of an array, and all of any other value. So two documents with
the same outlines at all addresses differ in nothing.
-/

namespace SwaggerForge

namespace Json

/-- **A step into a value.** -/
inductive Step where
  | field (key : String)
  | item (i : Nat)
deriving DecidableEq, Repr

/-- **An address**: the steps to a value, from outside in. -/
abbrev Address := List Step

/-- An item of an array; nothing for other values. -/
def item? (j : Json) (i : Nat) : Option Json :=
  match j with
  | .array xs => xs[i]?
  | _ => none

/-- What a step leads to. -/
def step? (j : Json) : Step → Option Json
  | .field key => j.field? key
  | .item i => j.item? i

/-- **The value at an address**, if the address leads to one. -/
def at? (j : Json) : Address → Option Json
  | [] => some j
  | s :: rest => (j.step? s).bind fun x => x.at? rest

/-- **A value without what is inside it.** -/
def outline : Json → Json
  | .array xs => .array (xs.map fun _ => .null)
  | .object t => .object (t.map fun _ => .null)
  | j => j

@[simp] theorem at?_nil (j : Json) : j.at? [] = some j := rfl

@[simp] theorem at?_field (j : Json) (key : String) (a : Address) :
    j.at? (.field key :: a) = (j.field? key).bind fun x => x.at? a := rfl

@[simp] theorem at?_item (j : Json) (i : Nat) (a : Address) :
    j.at? (.item i :: a) = (j.item? i).bind fun x => x.at? a := rfl

/-- An address is followed in parts. -/
theorem at?_append (j : Json) (a b : Address) :
    j.at? (a ++ b) = (j.at? a).bind fun x => x.at? b := by
  induction a generalizing j with
  | nil => rfl
  | cons s rest ih =>
    show (j.step? s).bind (fun x => x.at? (rest ++ b)) = ((j.step? s).bind _).bind _
    rw [Option.bind_assoc]
    exact congrArg _ (funext ih)

/-- **Of an object the outline tells the keys**, in their order, and nothing else. -/
theorem outline_object_iff {t t' : Table Json} :
    (object t').outline = (object t).outline ↔ t'.keys = t.keys := by
  have hkeys (t : Table Json) : t.map (fun _ => null) = ⟨t.keys.map fun key => (key, null)⟩ := by
    simp [Table.map, Table.mapEntries, Table.keys]
  show object (t'.map _) = object (t.map _) ↔ _
  rw [hkeys, hkeys, object.injEq, Table.mk.injEq]
  exact (List.map_injective_iff.2 fun _ _ h => (Prod.mk.inj h).1).eq_iff

end Json

end SwaggerForge
