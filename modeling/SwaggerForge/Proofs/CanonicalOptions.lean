import SwaggerForge.Proofs.Acceptance
import SwaggerForge.Proofs.NumberTexts
import SwaggerForge.Proofs.Options
import SwaggerForge.Proofs.PropertyLists

/-!
# Canonical options

The constants of an enumeration stand for literals, and two of them may stand for the same one:
they may be written alike, or, where the literals are integers, denote the same integer by
different texts. What is shown of an enumeration are its canonical options, of which there is one
for each literal. It stands where the literal first appears and has the label of the constant that
introduces it (`EnumDecl.Introduces`, `EnumDecl.Canonical`).

The options are shown in four places, each made by a function of its own: as a list, as the values
and labels of a schema, as an entry of the document's section of enumerations, and as the texts by
which something is sorted (`EnumCatalog.Exposes`). All four are the same list, and replacing
values by their texts makes no two of them equal. `EnumCatalog.options_exact` says so of every
catalogue, and which lists of enumerations have a catalogue.
-/

namespace SwaggerForge

/-! ## Literals -/

/-- **What the literal of a constant stands for**: itself, or the integer that it denotes when the
blanks around it are taken off. -/
inductive EnumKind.Denotes : EnumKind → String → Json → Prop
  | int {text : String} {n : Int} (denotes : Numeral.IntText (trim text) n) :
      Denotes .int text (.int n)
  | string (text : String) : Denotes .string text (.string text)

theorem EnumKind.Denotes.isOption {kind : EnumKind} {text : String} {v : Json}
    (h : kind.Denotes text v) : v.IsOption := by
  cases h with
  | int => exact Json.isOption_int _
  | string => exact Json.isOption_string _

/-- A literal stands for one value. -/
theorem EnumKind.Denotes.unique {kind : EnumKind} {text : String} {v w : Json}
    (hv : kind.Denotes text v) (hw : kind.Denotes text w) : v = w := by
  cases hv with
  | int hv =>
    cases hw with
    | int hw => rw [hv.unique hw]
  | string =>
    cases hw with
    | string => rfl

/-- **A value as a text**: an integer in decimal, and a text as it is. -/
inductive Json.InWords : Json → Json → Prop
  | int (n : Int) : InWords (.int n) (.string (toString n))
  | string (s : String) : InWords (.string s) (.string s)

namespace EnumDecl

variable (d : EnumDecl)

/-- **A constant is made an option** that has its name and the value that its literal stands
for. -/
theorem option_eq_ok_iff {c : EnumConstant} {o : EnumOption} :
    d.option c = .ok o ↔ o.label = c.name ∧ d.kind.Denotes c.value o.value := by
  obtain ⟨value, label⟩ := o
  unfold option
  cases d.kind with
  | string =>
    constructor
    · rintro ⟨⟩
      exact ⟨rfl, .string _⟩
    · rintro ⟨rfl, ⟨⟩⟩
      rfl
  | int =>
    dsimp only
    split
    · next n hn =>
      constructor
      · rintro ⟨⟩
        exact ⟨rfl, .int (Numeral.parseInt?_eq_some_iff.1 hn)⟩
      · rintro ⟨rfl, ⟨hm⟩⟩
        rw [hm.unique (Numeral.parseInt?_eq_some_iff.1 hn)]
    · next hn =>
      refine ⟨fun h => (nomatch h), ?_⟩
      rintro ⟨-, ⟨hm⟩⟩
      exact nomatch hn.symm.trans (Numeral.parseInt?_eq_some_iff.2 hm)

/-! ## One option for each literal -/

/-- **The constant in a place introduces an option**: the option is its own, and no constant in
front of it stands for the same. -/
structure Introduces (i : Nat) (o : EnumOption) : Prop where
  named : ∃ c, d.constants[i]? = some c ∧ o.label = c.name ∧ d.kind.Denotes c.value o.value
  first : ∀ j < i, ∀ c, d.constants[j]? = some c → ¬ d.kind.Denotes c.value o.value

/-- **The canonical options of an enumeration.** -/
structure Canonical (options : List EnumOption) : Prop where
  /-- No value is there twice. -/
  nodup : (options.map (·.value)).Nodup
  /-- The values are those that constants stand for. -/
  mem_values_iff : ∀ v, v ∈ options.map (·.value) ↔ ∃ c ∈ d.constants, d.kind.Denotes c.value v
  /-- Each is introduced by a constant, and they are in the order of these. -/
  introduced : ∃ places : List Nat, places.Pairwise (· < ·) ∧
    List.Forall₂ d.Introduces places options

end EnumDecl

/-- **An option in a place introduces its value**: no option in front of it has the same, and
neither is it among the values seen before. -/
def IntroducesValue (seen : List Json) (os : List EnumOption) (i : Nat) (o : EnumOption) : Prop :=
  os[i]? = some o ∧ o.value ∉ seen ∧ ∀ j < i, ∀ o', os[j]? = some o' → o'.value ≠ o.value

/-- **The canonical options** are those that introduce their values, in order. -/
theorem exists_places_canonical {os : List EnumOption} (h : ∀ o ∈ os, o.value.IsOption) :
    ∃ places : List Nat, places.Pairwise (· < ·) ∧
      List.Forall₂ (IntroducesValue [] os) places (newOptions [] os) := by
  obtain ⟨places, hsorted, hplaces, -⟩ := exists_places_newOptions [] os
  refine ⟨places, hsorted, hplaces.imp fun i o ho => ?_⟩
  have hvalue := h o (List.mem_of_getElem? ho.place)
  exact ⟨ho.place, List.not_mem_nil, fun j hj o' ho' heq =>
    ho.first j hj o' ho' (hvalue.same_iff.2 heq)⟩

/-- **No value is lost**: each is that of a canonical option. -/
theorem mem_values_canonical {os : List EnumOption} (h : ∀ o ∈ os, o.value.IsOption)
    {o : EnumOption} (ho : o ∈ os) : o.value ∈ (newOptions [] os).map (·.value) := by
  obtain ⟨v, hv, hsame⟩ := covers_newOptions [] os o.value (List.mem_map_of_mem ho) o.value
    ((h o ho).same_iff.2 rfl)
  rwa [← (h o ho).same_iff.1 hsame]

/-- **The canonical options of an entry** are those of its enumeration. -/
theorem EnumDecl.canonical_of_entry {d : EnumDecl} {entry : EnumEntry}
    (h : d.entry = .ok entry) : d.Canonical entry.canonical := by
  obtain ⟨options, hmap, hentry⟩ := bind_eq_ok.1 h
  obtain rfl := pure_eq_ok.1 hentry
  have hoptions : List.Forall₂ (fun c o => o.label = c.name ∧ d.kind.Denotes c.value o.value)
      d.constants options := (mapM_eq_ok.1 hmap).imp fun c o => d.option_eq_ok_iff.1
  have hvalues : ∀ o ∈ options, o.value.IsOption := fun o ho => by
    obtain ⟨c, -, -, hc⟩ := exists_left_of_forall₂ hoptions ho
    exact hc.isOption
  refine ⟨nodup_canonical hvalues, fun v => ?_, ?_⟩
  · constructor
    · intro hv
      obtain ⟨o, ho, rfl⟩ := List.mem_map.1 hv
      obtain ⟨c, hc, -, hdenotes⟩ := exists_left_of_forall₂ hoptions (mem_of_mem_newOptions ho)
      exact ⟨c, hc, hdenotes⟩
    · rintro ⟨c, hc, hdenotes⟩
      obtain ⟨o, ho, -, hvalue⟩ := exists_right_of_forall₂ hoptions hc
      rw [hdenotes.unique hvalue]
      exact mem_values_canonical hvalues ho
  · obtain ⟨places, hsorted, hplaces⟩ := exists_places_canonical hvalues
    refine ⟨places, hsorted, hplaces.imp fun i o ho => ?_⟩
    obtain ⟨hat, -, hfirst⟩ := ho
    refine ⟨exists_getElem?_of_forall₂ hoptions.flip hat, fun j hj c hc hdenotes => ?_⟩
    obtain ⟨o', ho', -, hvalue⟩ := exists_getElem?_of_forall₂ hoptions hc
    exact hfirst j hj o' ho' (hvalue.unique hdenotes)

/-! ## Where options are shown -/

namespace EnumCatalog

/-- **A catalogue shows options under a name** in all places alike. -/
structure Exposes (enums : EnumCatalog) (name : String) (options : List EnumOption) : Prop where
  /-- As a list. -/
  canonical : enums.canonical? name = some options
  /-- As the values and labels of a schema. -/
  values : enums.values? name = some ⟨some name, options.map (·.value), options.map (·.label)⟩
  /-- As an entry of the section of enumerations. -/
  listed : enums.toJson.field? name = some (Json.fields [
    ("title", .string name),
    ("oneOf", .array (options.map fun o =>
      Json.fields [("title", .string o.label), ("enum", .array [o.value])]))])
  /-- As texts, with the same labels, and still no two alike. -/
  texts : ∃ words, enums.stringValues? name = some ⟨some name, words, options.map (·.label)⟩ ∧
    List.Forall₂ (fun o w => o.value.InWords w) options words ∧ words.Nodup

variable {decls : List EnumDecl} {enums : EnumCatalog}

/-- **All surfaces show the canonical options.** -/
theorem exposes_of_canonical? (hkinds : enums.OfKinds) {name : String} {options : List EnumOption}
    (h : enums.canonical? name = some options) : enums.Exposes name options := by
  have hvalues : enums.values? name = some (.ofOptions name options) := by
    unfold values?
    rw [h]
    rfl
  have htexts : enums.stringValues? name = some (EnumValues.ofOptions name options).toStrings := by
    unfold stringValues?
    rw [hvalues]
    rfl
  have hlabelled := (labelled_stringValues? hkinds htexts).nodup
  obtain ⟨kind, hkind⟩ := hkinds.values? hvalues
  obtain ⟨entry, hentry, rfl⟩ := Option.map_eq_some_iff.1 h
  refine ⟨h, hvalues, ?_, _, htexts, ?_, hlabelled⟩
  · show (enums.entries.mapEntries EnumEntry.toJson).get? name = _
    rw [Table.get?_mapEntries]
    show ((enums.get? name).map (EnumEntry.toJson name)) = _
    rw [hentry]
    rfl
  · show List.Forall₂ _ entry.canonical ((entry.canonical.map (·.value)).map _)
    rw [List.forall₂_map_right_iff, List.forall₂_map_right_iff, List.forall₂_same]
    intro o ho
    have hvalue := hkind o.value (List.mem_map_of_mem ho)
    generalize o.value = v at hvalue
    cases kind with
    | int =>
      cases v with
      | int n =>
        have htext : Json.compact (.int n) = toString n := String.empty_append
        show Json.InWords (.int n) (.string (Json.compact (.int n)))
        rw [htext]
        exact .int n
      | _ => exact hvalue.elim
    | string =>
      cases v with
      | string s => exact .string s
      | _ => exact hvalue.elim

/-- **Enumerations show their canonical options.** A list of enumerations has no catalogue exactly
if some constant of an enumeration of integers does not denote an integer when the blanks around
it are taken off. If it has one, then each name is that of the enumeration that is declared last
under it, and of this the same canonical options are shown everywhere: one for each literal, in the
order in which the literals first appear, with the label of the constant that comes first. -/
theorem options_exact (decls : List EnumDecl) :
    ((∃ e, ofDecls decls = .error e) ↔ ∃ d ∈ decls, d.kind = .int ∧
      ∃ c ∈ d.constants, ∀ n, ¬ Numeral.IntText (trim c.value) n) ∧
    ∀ enums, ofDecls decls = .ok enums → ∀ name ∈ decls.map (·.name),
      ∃ before d after, decls = before ++ d :: after ∧ d.name = name ∧
        (∀ d' ∈ after, d'.name ≠ name) ∧
        ∃ options, d.Canonical options ∧ enums.Exposes name options := by
  constructor
  · have hfails : (∃ e, ofDecls decls = .error e) ↔ ¬ Passes (ofDecls decls) := by
      cases ofDecls decls with
      | error e => exact iff_of_true ⟨e, rfl⟩ (not_passes_error e)
      | ok enums => exact iff_of_false (fun ⟨_, h⟩ => nomatch h) (not_not.2 (passes_ok enums))
    have hread (text : String) : (Numeral.parseInt? text).isSome = true ↔
        ∃ n, Numeral.IntText text n := by
      simp only [Option.isSome_iff_exists, Numeral.parseInt?_eq_some_iff]
    rw [hfails, passes_ofDecls]
    simp only [hread, not_forall, not_exists, exists_prop]
  · intro enums h name hname
    have hcontained := (contains_iff_of_ofDecls h).2 hname
    change enums.entries.contains name = true at hcontained
    rw [Table.contains_eq_isSome_get?, Option.isSome_iff_exists] at hcontained
    obtain ⟨entry, hentry⟩ := hcontained
    have hcanonical : enums.canonical? name = some entry.canonical :=
      Option.map_eq_some_iff.2 ⟨entry, hentry, rfl⟩
    obtain ⟨d, entry', hlast, hd, hoptions⟩ := (canonical?_eq_some_iff h).1 hcanonical
    obtain ⟨hmatch, after, before, hsplit, hafter⟩ := List.find?_eq_some_iff_append.1 hlast
    refine ⟨before.reverse, d, after.reverse, ?_, eq_of_beq hmatch, fun d' hd' heq => ?_,
      entry.canonical, hoptions ▸ EnumDecl.canonical_of_entry hd,
      exposes_of_canonical? (ofKinds_of_ofDecls h) hcanonical⟩
    · rw [← List.reverse_reverse decls, hsplit, List.reverse_append, List.reverse_cons,
        List.append_assoc, List.singleton_append]
    · have hother := hafter d' (List.mem_reverse.1 hd')
      rw [heq, beq_self_eq_true] at hother
      cases hother

/-! ### An example

Sizes are declared twice, and only the second declaration counts. It writes one of its two
integers in four ways. -/

/-- The enumerations of the example. -/
def sizes : List EnumDecl := [
  { name := "Size", constants := [{ name := "LARGE", value := "large" }] },
  { name := "Size", kind := .int, constants := [
    { name := "ONE", value := "1" }, { name := "PADDED", value := " 1" },
    { name := "TWO", value := "-2" }, { name := "SIGNED", value := "+1" },
    { name := "LONG", value := "01" }] }]

theorem options_exact_sizes : ∃ enums, ofDecls sizes = .ok enums ∧
    "Size" ∈ sizes.map (·.name) ∧
    ∃ before d after, sizes = before ++ d :: after ∧ d.name = "Size" ∧
      (∀ d' ∈ after, d'.name ≠ "Size") ∧
      ∃ options, d.Canonical options ∧ enums.Exposes "Size" options := by
  obtain ⟨enums, h⟩ : Passes (ofDecls sizes) := passes_ofDecls.2 (by decide)
  have hname : "Size" ∈ sizes.map (·.name) := by decide
  exact ⟨enums, h, hname, (options_exact sizes).2 enums h "Size" hname⟩

example : (ofDecls sizes).toOption.bind (fun enums => enums.canonical? "Size")
    = some [⟨.int 1, "ONE"⟩, ⟨.int (-2), "TWO"⟩] := by decide

end EnumCatalog

end SwaggerForge
