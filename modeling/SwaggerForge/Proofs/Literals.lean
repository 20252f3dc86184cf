import SwaggerForge.Document.Basic
import SwaggerForge.Enumeration
import SwaggerForge.Primitive
import SwaggerForge.Proofs.Success
import SwaggerForge.Proofs.Tables

/-!
# Defaults and options are literals

The values that a schema gives by literals – the defaults of properties and
parameters and the constants of enumerations – are values of the type or kind that
they stand beside. So they are plain values: no arrays and no objects. A document that carries them carries no further structure with
them, in particular no references and no schemas.
-/

namespace SwaggerForge

/-- **A plain value**: neither an array nor an object. -/
def Json.IsLiteral : Json → Prop
  | .array _ | .object _ => False
  | .null | .bool _ | .int _ | .float _ | .string _ => True

/-- A plain value refers to nothing. -/
theorem Json.IsLiteral.references_eq {j : Json} (h : j.IsLiteral) : j.references = [] := by
  cases j with
  | array items => exact h.elim
  | object fields => exact h.elim
  | null => rfl
  | bool b => rfl
  | int n => rfl
  | float x => rfl
  | string s => rfl

/-! ## Values of a type -/

/-- **A value of a type.** Arrays, objects and uploads have none that a literal stands for. -/
def Primitive.HasValue : Primitive → Json → Prop
  | .boolean, .bool _ | .integer, .int _ | .number, .float _ | .string, .string _ => True
  | _, _ => False

namespace Primitive

variable {ty : Primitive}

theorem isLiteral_of_hasValue {j : Json} (h : ty.HasValue j) : j.IsLiteral := by
  cases j with
  | array items => cases ty <;> exact h
  | object fields => cases ty <;> exact h
  | _ => trivial

theorem hasValue_of_ofLiteral? {literal : String} {j : Json} (h : ty.ofLiteral? literal = some j) :
    ty.HasValue j := by
  cases ty with
  | string =>
    cases h
    trivial
  | integer =>
    obtain ⟨n, -, rfl⟩ := Option.map_eq_some_iff.1 h
    trivial
  | number =>
    obtain ⟨x, -, rfl⟩ := Option.map_eq_some_iff.1 h
    trivial
  | boolean =>
    obtain ⟨b, -, rfl⟩ := Option.map_eq_some_iff.1 h
    trivial
  | array => cases h
  | object => cases h
  | file => cases h

/-- **A default is a value of its type.** -/
theorem hasValue_of_parseDefault {literal : Option String} {context : String} {j : Json}
    (h : ty.parseDefault literal context = .ok (some j)) : ty.HasValue j := by
  cases literal with
  | none => cases h
  | some text =>
    unfold parseDefault at h
    dsimp only at h
    split at h
    · cases h
    · split at h
      · next value hv =>
        cases h
        exact hasValue_of_ofLiteral? hv
      · cases h

end Primitive

/-! ## Enumerations -/

/-- A set of values all of which are plain. -/
def EnumValues.Plain (e : EnumValues) : Prop := ∀ v ∈ e.values, v.IsLiteral

/-- A catalogue all of whose options have plain values. -/
def EnumCatalog.Plain (c : EnumCatalog) : Prop :=
  ∀ e ∈ c.entries.entries, ∀ o ∈ e.2.options, o.value.IsLiteral

/-- **A value of a kind** of enumeration. -/
def EnumKind.HasValue : EnumKind → Json → Prop
  | .int, .int _ | .string, .string _ => True
  | _, _ => False

/-- A catalogue all of whose options have values of the kind of their enumeration. -/
def EnumCatalog.OfKinds (c : EnumCatalog) : Prop :=
  ∀ e ∈ c.entries.entries, ∀ o ∈ e.2.options, e.2.kind.HasValue o.value

theorem EnumKind.isLiteral_of_hasValue {kind : EnumKind} {j : Json} (h : kind.HasValue j) :
    j.IsLiteral := by
  cases j with
  | array items => cases kind <;> exact h
  | object fields => cases kind <;> exact h
  | _ => trivial

namespace EnumValues

theorem plain_ofVariants (variants : List String) : (ofVariants variants).Plain := by
  intro v hv
  obtain ⟨s, -, rfl⟩ := List.mem_map.1 hv
  trivial

theorem Plain.add {e : EnumValues} (h : e.Plain) {value : Json} (hv : value.IsLiteral)
    (label : String) : (e.add value label).Plain := by
  unfold EnumValues.add
  split
  · exact h
  · intro v hmem
    rcases List.mem_append.1 hmem with hin | hnew
    · exact h v hin
    · rwa [List.mem_singleton.1 hnew]

/-- **A union of plain sets is plain.** -/
theorem Plain.union {e other : EnumValues} (h : e.Plain) (ho : other.Plain) :
    (e.union other).Plain := by
  have key : ∀ (ps : List (Json × String)) (e : EnumValues), e.Plain →
      (∀ p ∈ ps, p.1.IsLiteral) → (ps.foldl (fun e p => e.add p.1 p.2) e).Plain := by
    intro ps
    induction ps with
    | nil => exact fun e he _ => he
    | cons p rest ih =>
      intro e he hps
      exact ih _ (he.add (hps p List.mem_cons_self) p.2)
        fun q hq => hps q (List.mem_cons_of_mem _ hq)
  exact key _ e h fun p hp => ho p.1 (List.of_mem_zip hp).1

theorem Plain.toStrings {e : EnumValues} : e.toStrings.Plain := by
  intro v hv
  obtain ⟨x, -, rfl⟩ := List.mem_map.1 hv
  split
  · trivial
  · trivial

end EnumValues

theorem mem_of_mem_newOptions {seen : List Json} {os : List EnumOption} {o : EnumOption}
    (h : o ∈ newOptions seen os) : o ∈ os := by
  induction os generalizing seen with
  | nil => cases h
  | cons x rest ih =>
    unfold newOptions at h
    split at h
    · exact List.mem_cons_of_mem _ (ih h)
    · rcases List.mem_cons.1 h with rfl | hr
      · exact List.mem_cons_self
      · exact List.mem_cons_of_mem _ (ih hr)

namespace EnumCatalog

/-- **The values of an enumeration are plain.** -/
theorem Plain.values? {c : EnumCatalog} (h : c.Plain) {name : String} {e : EnumValues}
    (he : c.values? name = some e) : e.Plain := by
  obtain ⟨options, ho, rfl⟩ := Option.map_eq_some_iff.1 he
  obtain ⟨entry, hentry, rfl⟩ := Option.map_eq_some_iff.1 ho
  intro v hv
  obtain ⟨o, hmem, rfl⟩ := List.mem_map.1 hv
  exact h _ (Table.mem_entries_of_get? hentry) o (mem_of_mem_newOptions hmem)

theorem plain_stringValues? {c : EnumCatalog} {name : String} {e : EnumValues}
    (he : c.stringValues? name = some e) : e.Plain := by
  obtain ⟨e', -, rfl⟩ := Option.map_eq_some_iff.1 he
  exact EnumValues.Plain.toStrings

/-- **An option that is declared** has a value of the kind of its enumeration. -/
theorem hasValue_of_option {d : EnumDecl} {c : EnumConstant} {o : EnumOption}
    (h : d.option c = .ok o) : d.kind.HasValue o.value := by
  unfold EnumDecl.option at h
  split at h
  · next hkind =>
    obtain rfl := Except.ok.inj h
    rw [hkind]
    trivial
  · next hkind =>
    split at h
    · obtain rfl := Except.ok.inj h
      rw [hkind]
      trivial
    · cases h

/-- **The catalogue of declared enumerations, opened up**: an entry for each declaration, written
in order. -/
theorem ofDecls_eq_ok {decls : List EnumDecl} {c : EnumCatalog} (h : ofDecls decls = .ok c) :
    ∃ entries, List.Forall₂ (fun d e => e.1 = d.name ∧ d.entry = .ok e.2) decls entries ∧
      c = ⟨Table.ofList entries⟩ := by
  obtain ⟨entries, hentries, h⟩ := bind_eq_ok.1 h
  obtain rfl := pure_eq_ok.1 h
  refine ⟨entries, (mapM_eq_ok.1 hentries).imp fun d e he => ?_, rfl⟩
  obtain ⟨entry, hentry, he⟩ := bind_eq_ok.1 he
  obtain rfl := pure_eq_ok.1 he
  exact ⟨rfl, hentry⟩

theorem contains_iff_of_ofDecls {decls : List EnumDecl} {c : EnumCatalog}
    (h : ofDecls decls = .ok c) {name : String} :
    c.contains name = true ↔ name ∈ decls.map (·.name) := by
  obtain ⟨entries, hentries, rfl⟩ := ofDecls_eq_ok h
  show (Table.ofList entries).contains name = true ↔ _
  rw [Table.contains_iff, Table.mem_keys_ofList,
    map_eq_of_forall₂ hentries fun _ _ he => he.1.symm]

/-- **The catalogue of declared enumerations** has values of their kinds. -/
theorem ofKinds_of_ofDecls {decls : List EnumDecl} {c : EnumCatalog} (h : ofDecls decls = .ok c) :
    c.OfKinds := by
  obtain ⟨entries, hentries, rfl⟩ := ofDecls_eq_ok h
  rintro ⟨name, entry⟩ he o ho
  obtain ⟨d, -, -, hentry⟩ := exists_left_of_forall₂ hentries (Table.mem_entries_ofList he)
  obtain ⟨options, hopt, hentry'⟩ := bind_eq_ok.1 hentry
  obtain rfl := pure_eq_ok.1 hentry'
  obtain ⟨constant, -, hconst⟩ := exists_left_of_forall₂ (mapM_eq_ok.1 hopt) ho
  exact hasValue_of_option hconst

/-- It is plain. -/
theorem plain_of_ofDecls {decls : List EnumDecl} {c : EnumCatalog} (h : ofDecls decls = .ok c) :
    c.Plain :=
  fun e he o ho => EnumKind.isLiteral_of_hasValue (ofKinds_of_ofDecls h e he o ho)

end EnumCatalog

end SwaggerForge
