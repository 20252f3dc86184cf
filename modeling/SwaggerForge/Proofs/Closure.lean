import SwaggerForge.Proofs.Operations
import SwaggerForge.Proofs.References

/-!
# What the parts of a document refer to

References are made in many places – properties, bases and variants, elements of
flattened arrays, bodies, results, groups, and the parameters of operations. The
parts that are made of a class refer only to classes that the hierarchy knows
(`refersOnly_definition`, `refersOnly_items_of_expand`, `refersOnly_typeSchema`), and
enumerations, literals and texts refer to nothing.
-/

namespace SwaggerForge

open Json

/-! ## Targets -/

/-- A reference to a shared parameter is none to a definition. -/
theorem definitionName?_parametersPrefix (key : String) :
    definitionName? (parametersPrefix ++ key) = none := by
  have hdefinitions : definitionsPrefix.toList
      = ['#', '/', 'd', 'e', 'f', 'i', 'n', 'i', 't', 'i', 'o', 'n', 's', '/'] := by decide
  have hparameters : parametersPrefix.toList
      = ['#', '/', 'p', 'a', 'r', 'a', 'm', 'e', 't', 'e', 'r', 's', '/'] := by decide
  unfold definitionName? textBehind?
  rw [String.toList_append, hdefinitions, hparameters]
  rfl

/-- **A target that a document has**: one of its definitions or of its shared
parameters. -/
def Document.HasTarget (d : Document) (target : String) : Prop :=
  (∃ name ∈ d.definitions.keys, target = definitionsPrefix ++ name) ∨
    ∃ key ∈ d.parameters.keys, target = parametersPrefix ++ key

/-- What a document has resolves in it. -/
theorem Document.HasTarget.resolves {d : Document} {target : String} (h : d.HasTarget target) :
    d.resolves target = true := by
  unfold Document.resolves
  rcases h with ⟨name, hname, rfl⟩ | ⟨key, hkey, rfl⟩
  · rw [definitionName?_append]
    exact Table.contains_iff.2 hname
  · rw [definitionName?_parametersPrefix, parameterKey?_append]
    exact Table.contains_iff.2 hkey

/-! ## Parts without references -/

section Plain

variable {ok : String → Prop}

/-- **Plain values refer to nothing.** -/
theorem EnumValues.Plain.fieldRefersOnly {e : EnumValues} (h : e.Plain) :
    ∀ f ∈ e.fields, FieldRefersOnly ok f := by
  have hvalues : ∀ v ∈ e.values, v.RefersOnly ok := fun v hv => refersOnly_of_isLiteral (h v hv)
  unfold EnumValues.fields
  rw [List.forall_mem_append, List.forall_mem_append]
  refine ⟨⟨?_, by simp⟩, by simp [-Prod.forall]⟩
  split
  · exact fun _ h => nomatch h
  · simpa using hvalues

theorem fieldRefersOnly_enum {enum : Option EnumValues} (h : ∀ e, enum = some e → e.Plain) :
    ∀ f ∈ (match enum with
      | none => []
      | some e => e.fields), FieldRefersOnly ok f := by
  split
  · exact fun _ h => nomatch h
  · next e => exact (h e rfl).fieldRefersOnly

@[simp] theorem refersOnly_primitive (type : Primitive) : type.toJson.RefersOnly ok :=
  refersOnly_string _

@[simp] theorem refersOnly_itemSchema (type : Primitive) : type.itemSchema.RefersOnly ok := by
  unfold Primitive.itemSchema
  simp

theorem refersOnly_header (config : Config) (apiVersion : String) :
    (object (Header.ofConfig config apiVersion)).RefersOnly ok := by
  have hinfo (connection : Connection) : (Header.info connection apiVersion).RefersOnly ok := by
    unfold Header.info
    cases connection.description <;> simp
  unfold Header.ofConfig Header.securityScheme
  simp [hinfo]

theorem refersOnly_envelope (session apiVersion : String) :
    (envelopeDefinition session apiVersion).RefersOnly ok := by
  have hproperties : (object (Table.ofList [(session, Primitive.string.itemSchema),
      ("apiVersion", fields [("type", Primitive.string.toJson), ("default", .string apiVersion)])
      ])).RefersOnly ok := by
    refine refersOnly_object.2 fun e he => ?_
    rcases List.mem_cons.1 (Table.mem_entries_ofList he) with rfl | he
    · exact fieldRefersOnly_fields.2 (refersOnly_itemSchema _)
    · rw [List.mem_singleton.1 he]
      simp
  unfold envelopeDefinition
  simpa using hproperties

theorem refersOnly_catalog {c : EnumCatalog} (h : c.Plain) : c.toJson.RefersOnly ok := by
  unfold EnumCatalog.toJson
  refine refersOnly_object.2 fun e he => ?_
  obtain ⟨entry, hentry, hjson⟩ := Table.mem_entries_mapEntries.1 he
  have hoptions : ∀ o ∈ entry.canonical, o.value.RefersOnly ok := fun o ho =>
    refersOnly_of_isLiteral (h _ hentry o (mem_of_mem_newOptions ho))
  rw [show e = (e.1, entry.toJson e.1) from Prod.ext rfl hjson]
  unfold EnumEntry.toJson
  simpa using hoptions

theorem refersOnly_tag (s : Service) : s.tag.RefersOnly ok := by
  unfold Service.tag
  simp [or_imp, forall_and, -Prod.forall]

theorem refersOnly_error (e : ErrorDecl) : e.toJson.RefersOnly ok := by
  unfold ErrorDecl.toJson
  simp [or_imp, forall_and, -Prod.forall]

end Plain

/-! ## Parts that refer to classes -/

section Known

variable {ok : String → Prop} {h : Hierarchy}
  (known : ∀ name, h.isKnown name = true → ok (definitionsPrefix ++ name))
include known

theorem refersOnly_definitionRef {name : String} (hn : h.isKnown name = true) :
    (definitionRef name).RefersOnly ok :=
  refersOnly_reference.2 (known name hn)

theorem refersOnly_typeSchema {t : TypeSchema} (ht : t.ForValues h) : t.toJson.RefersOnly ok := by
  induction t with
  | reference target => exact refersOnly_definitionRef known ht
  | value type =>
    unfold TypeSchema.toJson
    simp
  | arrayOf items ih =>
    unfold TypeSchema.toJson
    simpa using ih ht

/-- **A property of a definition** refers to the class of its type or of its
elements. -/
theorem refersOnly_definedProperty {p : DefinedProperty} (hplain : p.shape.Plain)
    (htarget : ∀ target, p.shape.target? = some target → h.isKnown target = true) :
    p.toJson.RefersOnly ok := by
  unfold DefinedProperty.toJson
  cases hshape : p.shape with
  | reference target =>
    rw [hshape] at htarget
    exact refersOnly_definitionRef known (htarget target rfl)
  | referenceArray target =>
    rw [hshape] at htarget
    have hitems := refersOnly_definitionRef known (htarget target rfl)
    simpa using hitems
  | value type items default enum =>
    rw [hshape] at hplain
    have hdefault : ∀ j, default = some j → j.RefersOnly ok := fun j hj =>
      refersOnly_of_isLiteral (hplain.1 j hj)
    have henum : ∀ f ∈ (match enum with
        | none => []
        | some e => if p.discriminator then [("enum", array e.values)] else e.fields),
        FieldRefersOnly ok f := by
      split
      · exact fun _ h => nomatch h
      · next e =>
        split
        · have hvalues : ∀ v ∈ e.values, v.RefersOnly ok := fun v hv =>
            refersOnly_of_isLiteral (hplain.2 e rfl v hv)
          simpa using hvalues
        · exact (hplain.2 e rfl).fieldRefersOnly
    dsimp only
    rw [refersOnly_fields]
    simp only [List.forall_mem_append]
    refine ⟨⟨⟨⟨⟨by simp, ?_⟩, by simp [-Prod.forall]⟩, ?_⟩, henum⟩, by simp [-Prod.forall]⟩
    · simp [-Prod.forall]
    · simpa [-Prod.forall] using hdefault

omit known in
theorem DefinedProperty.toJson_ne_string (p : DefinedProperty) (s : String) :
    p.toJson ≠ .string s := by
  unfold DefinedProperty.toJson
  split <;> exact fun h => nomatch h

/-- **A definition** refers to its base, its variants, and what its properties refer
to. -/
theorem refersOnly_definition {d : Definition}
    (hproperties : ∀ p ∈ d.properties, p.toJson.RefersOnly ok)
    (hbase : ∀ b, d.base = some b → h.isKnown b = true)
    (hvariants : ∀ v ∈ d.variants, h.isKnown v = true) : d.toJson.RefersOnly ok := by
  have hprops : (object (Table.ofList (d.properties.map fun p => (p.name, p.toJson)))).RefersOnly
      ok := by
    refine refersOnly_object.2 fun e he => ?_
    obtain ⟨p, hp, rfl⟩ := List.mem_map.1 (Table.mem_entries_ofList he)
    exact (hproperties p hp).field p.toJson_ne_string p.name
  have hallOf : ∀ e ∈ optional "allOf" (d.base.map fun b => array [definitionRef b]),
      FieldRefersOnly ok e := by
    rw [forall_mem_optional]
    intro j hj
    obtain ⟨b, hb, rfl⟩ := Option.map_eq_some_iff.1 hj
    have href := refersOnly_definitionRef known (hbase b hb)
    simpa using href
  have hanyOf : ∀ v ∈ d.variants, (definitionRef v).RefersOnly ok := fun v hv =>
    refersOnly_definitionRef known (hvariants v hv)
  unfold Definition.toJson
  rw [refersOnly_fields]
  simp only [List.forall_mem_append]
  refine ⟨⟨⟨?_, hallOf⟩, ?_⟩, by simp [-Prod.forall]⟩
  · simpa using hprops
  · split
    · simpa using hanyOf
    · exact fun _ h => nomatch h

/-- **The elements of a flattened array** are of a class or of one below it. -/
theorem refersOnly_elementSchema {f : Flattening} (hf : f.hierarchy = h) {target : String}
    (ht : h.isKnown target = true) : (f.elementSchema target).RefersOnly ok := by
  subst hf
  have hbelow : ∀ name ∈ target :: f.hierarchy.descendants target,
      (definitionRef name).RefersOnly ok := by
    refine List.forall_mem_cons.2 ⟨refersOnly_definitionRef known ht, fun name hname => ?_⟩
    exact refersOnly_definitionRef known (f.hierarchy.isKnown_of_mem_names
      (f.hierarchy.mem_names_of_mem_descendants hname))
  unfold Flattening.elementSchema
  simpa using hbelow

/-! ## Flattened parameters -/

/-- The elements of an input lead where its property leads. -/
theorem refersOnly_items_of_input {f : Flattening} (hf : f.hierarchy = h)
    {orderBy : Option EnumValues} {path : String} {condition : Option ShowCondition}
    {p : DefinedProperty}
    (htarget : ∀ target, p.shape.target? = some target → h.isKnown target = true)
    {leaf : FlatParameter} (hin : f.input orderBy path condition p = .value leaf) :
    ∀ j, leaf.items = some j → j.RefersOnly ok := by
  unfold Flattening.input at hin
  cases hshape : p.shape with
  | reference target =>
    rw [hshape] at hin
    cases hin
  | referenceArray target =>
    rw [hshape] at hin htarget
    obtain rfl := FlatInput.value.inj hin
    intro j hj
    rw [← Option.some.inj hj]
    exact refersOnly_elementSchema known hf (htarget target rfl)
  | value type items default enum =>
    rw [hshape] at hin
    obtain rfl := FlatInput.value.inj hin
    intro j hj
    obtain ⟨item, -, rfl⟩ := Option.map_eq_some_iff.1 hj
    exact refersOnly_itemSchema item

/-- **The elements of the parameters of an expansion** lead to known targets. -/
theorem refersOnly_items_of_expand {f : Flattening} (hf : f.hierarchy = h) (hb : f.Built)
    {name : String} (hk : f.hierarchy.isKnown name = true) {e : Expansion}
    (he : f.expand name = .ok e) :
    ∀ p ∈ e.parameters, ∀ j, p.items = some j → j.RefersOnly ok := by
  refine hb.forall_mem_parameters (fun _ _ hp _ => hp) ?_ (fun _ _ _ _ hj => nomatch hj) hk he
  intro member p hp path condition leaf hin
  obtain ⟨c, -, d, hdef, hmem⟩ := hb.exists_define_of_mem_inputsOf hp
  exact refersOnly_items_of_input known hf
    (fun target ht => hf ▸ Declarations.isKnown_target hdef hmem ht) hin

omit known in
/-- **The written form of a flattened parameter** leads where its elements lead. -/
theorem refersOnly_flatParameter {p : FlatParameter}
    (hitems : ∀ j, p.items = some j → j.RefersOnly ok) (hplain : ∀ e, p.enum = some e → e.Plain) :
    p.toJson.RefersOnly ok := by
  have henum : ∀ e ∈ (match p.enum with
      | none => []
      | some e => e.fields), FieldRefersOnly ok e := fieldRefersOnly_enum hplain
  unfold FlatParameter.toJson
  rw [refersOnly_fields]
  simp only [List.forall_mem_append]
  refine ⟨⟨⟨⟨⟨by simp, ?_⟩, henum⟩, by simp [-Prod.forall]⟩, by simp [-Prod.forall]⟩,
    by simp [-Prod.forall]⟩
  simpa [-Prod.forall] using hitems

end Known

end SwaggerForge
