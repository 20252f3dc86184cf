import SwaggerForge.Proofs.Annotations
import SwaggerForge.Proofs.Descriptions
import SwaggerForge.Proofs.Idempotence

/-!
# Where pick lists are offered from

A pick list is configured for a parameter of an action, and the objects to pick from are those that
another action lists. It is offered if the document has that other action, under the first method
of its path. In a finished document every path has operations (`Document.HasPathItems`), so it is
enough that the path is there (`Document.HasPathItems.rel_found`).

Beside the pick list an annotation says how a value is entered. The two functions that annotate
write the same fields, but not in the same order, and of a field that is written twice the last
value stays.
-/

namespace SwaggerForge

open Json

/-! ## Field by field -/

namespace Hint

/-- **The source that is found** for a name in a scope, the first one. -/
def found (sources : List Source) (scope : Option String) (name : String) : Option Source :=
  sources.find? fun s => s.parameter == name && some s.scope == scope

variable (sources : List Source) (scope : Option String) (name : String) (t : Table Json)

theorem offered_eq (type : Option Json) : offered sources scope name type
    = match found sources scope name with
      | none => []
      | some s => [("x-dynamicEnum", s.toJson), ("x-inputType", .string (inputType type))] :=
  rfl

/-- Outside the scope of operations nothing is found. -/
theorem found_none : found sources none name = none := by
  simp [found]

/-- **Properties and parameters** are offered the same pick lists. -/
theorem get?_dynamicEnum_annotateProperty :
    (annotateProperty sources name scope t).get? "x-dynamicEnum"
      = ((found sources scope name).map Source.toJson).or (t.get? "x-dynamicEnum") := by
  rw [annotateProperty_eq, Table.get?_insertAll, propertyHints, offered_eq]
  cases found sources scope name <;> cases isSecret name <;> cases isDateProperty name <;>
    cases isExpiry name scope <;> rfl

theorem get?_dynamicEnum_annotateParameter :
    (annotateParameter sources name scope t).get? "x-dynamicEnum"
      = ((found sources scope name).map Source.toJson).or (t.get? "x-dynamicEnum") := by
  rw [annotateParameter_eq, Table.get?_insertAll, parameterHints, offered_eq]
  cases found sources scope name <;> cases isSecret name <;> cases isDateParameter name <;>
    cases isExpiry name scope <;> rfl

/-- **How a property is entered** is told by its name, and by its type only if it is picked. -/
theorem get?_inputType_annotateProperty :
    (annotateProperty sources name scope t).get? "x-inputType"
      = if isSecret name then some (.string "password")
        else if isDateProperty name then some (.string "datetime")
        else ((found sources scope name).map fun _ => .string (inputType (t.get? "type"))).or
          (t.get? "x-inputType") := by
  rw [annotateProperty_eq, Table.get?_insertAll, propertyHints, offered_eq]
  cases found sources scope name <;> cases isSecret name <;> cases isDateProperty name <;>
    cases isExpiry name scope <;> rfl

/-- **How a parameter is entered** is told by its type if it is picked, whatever its name. -/
theorem get?_inputType_annotateParameter :
    (annotateParameter sources name scope t).get? "x-inputType"
      = ((found sources scope name).map fun _ => .string (inputType (t.get? "type"))).or
        (if isDateParameter name then some (.string "datetime")
          else if isSecret name then some (.string "password")
          else t.get? "x-inputType") := by
  rw [annotateParameter_eq, Table.get?_insertAll, parameterHints, offered_eq]
  cases found sources scope name <;> cases isSecret name <;> cases isDateParameter name <;>
    cases isExpiry name scope <;> rfl

end Hint

/-! ## Documents of path items -/

namespace Document

/-- **A document of path items**: under each path there are operations under `get` or `post`. -/
def HasPathItems (d : Document) : Prop :=
  ∀ path item, d.paths.get? path = some item → ∃ query? body?, PathItem query? body? item

theorem HasPathItems.finish {d : Document} (h : d.HasPathItems) (config : Config) :
    (d.finish config).HasPathItems := by
  intro path item hitem
  rw [get?_paths_finish] at hitem
  obtain ⟨item, hbefore, rfl⟩ := Option.map_eq_some_iff.1 hitem
  obtain ⟨query?, body?, hform⟩ := h path item hbefore
  obtain ⟨_, _, hmoved⟩ := (hform.mapFields responsesWithoutFiles).exists_promoteItem d.parameters
  exact ⟨_, _, hmoved.mapFields _⟩

variable (config : Config) (d : Document)

/-- The method that comes first under a path. -/
def firstMethod? (path : String) : Option String :=
  ((d.paths.get? path).bind Json.fields?).bind fun methods => methods.keys.head?

/-- **The pick list that is configured** for a parameter of the action under a path: the first one
whose objects the document lists. -/
def pickList? (path name : String) : Option PickList :=
  config.pickLists.find? fun l => l.parameter == name &&
    (actionPath l.service l.action == path && d.paths.contains (actionPath l.service "list"))

/-- **An annotation that offers a configured pick list**: it tells the operation that lists the
objects, which the document has, and how they are labelled. -/
def Offers (l : PickList) (x : Json) : Prop :=
  ∃ method o, d.firstMethod? (actionPath l.service "list") = some method ∧
    d.operation? (actionPath l.service "list") method = some o ∧
    x = fields [("path", .string (actionPath l.service "list")), ("method", .string method),
      ("array", .string "objects"), ("label", .string l.label), ("value", .string "id")]

theorem source?_paths (l : PickList) : Hint.source? d.paths l
    = (d.firstMethod? (actionPath l.service "list")).map fun method => {
        parameter := l.parameter
        scope := actionPath l.service l.action
        path := actionPath l.service "list"
        method
        label := l.label } := by
  unfold Hint.source? firstMethod?
  dsimp only
  cases (d.paths.get? (actionPath l.service "list")).bind Json.fields? with
  | none => rfl
  | some methods =>
    obtain ⟨es⟩ := methods
    cases es <;> rfl

variable {config d}

/-- **Under each path there is an operation**, that under the first method. -/
theorem HasPathItems.exists_firstMethod (h : d.HasPathItems) {path : String}
    (hpath : d.paths.contains path = true) :
    ∃ method o, d.firstMethod? path = some method ∧ d.operation? path method = some o := by
  obtain ⟨item, hitem⟩ := Table.mem_keys_iff_get?.1 (Table.contains_iff.1 hpath)
  obtain ⟨query?, body?, hform⟩ := h path item hitem
  unfold firstMethod? operation?
  rw [hitem]
  cases hform <;> exact ⟨_, _, rfl, rfl⟩

/-- **What is found** for a parameter is the pick list that is configured for it. -/
theorem HasPathItems.rel_found (h : d.HasPathItems) (path name : String) :
    Option.Rel (fun x l => d.Offers l x)
      ((Hint.found (Hint.sources config d.paths) (some path) name).map Hint.Source.toJson)
      (d.pickList? config path name) := by
  have hany (l : PickList) : ((Hint.source? d.paths l).any fun s =>
      s.parameter == name && some s.scope == some path)
        = (l.parameter == name && (actionPath l.service l.action == path &&
            d.paths.contains (actionPath l.service "list"))) := by
    rw [source?_paths, Option.any_map]
    cases hpath : d.paths.contains (actionPath l.service "list") with
    | true =>
      obtain ⟨method, -, hmethod, -⟩ := h.exists_firstMethod hpath
      simp [hmethod]
    | false =>
      rw [Table.contains_eq_isSome_get?, Option.isSome_eq_false_iff,
        Option.isNone_iff_eq_none] at hpath
      simp [firstMethod?, hpath]
  unfold Hint.found Hint.sources pickList?
  rw [List.find?_filterMap, funext hany]
  cases hfind : config.pickLists.find? fun l => l.parameter == name &&
      (actionPath l.service l.action == path && d.paths.contains (actionPath l.service "list")) with
  | none => exact .none
  | some l =>
    have hl := List.find?_some hfind
    simp only [Bool.and_eq_true] at hl
    obtain ⟨method, o, hmethod, ho⟩ := h.exists_firstMethod hl.2.2
    rw [Option.bind_some, source?_paths, hmethod]
    exact .some ⟨method, o, hmethod, ho, rfl⟩

/-- A finished document has the sources that its pick lists are offered from. -/
theorem pickSources_eq (config : Config) (d : Document) :
    d.pickSources config = Hint.sources config (d.finish config).paths :=
  (sources_mapFields config _ _).symm

end Document

end SwaggerForge
