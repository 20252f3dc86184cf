import SwaggerForge.Proofs.Trimming
import SwaggerForge.Text.Description

/-!
# Descriptions that are settled

A description is made fit for a document in two steps: each line break that blanks lead on from
to a tab becomes the start of a paragraph, and the blanks at the ends go. What comes out is
**settled** (`Settled`): it has neither, so that it is left as it is from then on
(`cleanDescription_settles`).

A **tab break** is read as a pattern is: a line break, blanks, a tab, blanks, where each run of
blanks takes in as much as it can and gives back only what has to be given back (`leavings`,
`tabBreakLeavings`). Where the first run stops does not matter, since the second one goes on from
there to the end of all blanks (`head?_tabBreakLeavings`). So the text behind a tab break that was
read begins with something else than a blank, and the two line breaks that are put in lead on to no
tab. In front of them there may still be blanks, but no line break among these led on to a tab, or
it would have been the one to be read.
-/

namespace SwaggerForge

/-! ## Reading a tab break -/

/-- **Reading a run of characters of a kind** from the front: what is left in each of the ways to
do so, the longest run first. -/
def leavings (p : Char → Bool) : List Char → List (List Char)
  | [] => [[]]
  | c :: rest => if p c then leavings p rest ++ [c :: rest] else [c :: rest]

/-- Reading a tab. -/
def tabLeavings : List Char → List (List Char)
  | '\t' :: rest => [rest]
  | _ => []

/-- **Reading a tab break**: a line break, blanks, a tab, blanks. The ways to do so come in the
order in which they are tried. -/
def tabBreakLeavings : List Char → List (List Char)
  | '\n' :: rest => ((leavings isBlank rest).flatMap tabLeavings).flatMap (leavings isBlank)
  | _ => []

/-- **A text with its tab breaks replaced** by empty lines. They are looked for from the front,
each is read in the first way there is, and it goes on behind it. -/
inductive Paragraphed : List Char → List Char → Prop
  | nil : Paragraphed [] []
  | tabBreak {cs rest out : List Char} (read : (tabBreakLeavings cs).head? = some rest)
      (more : Paragraphed rest out) : Paragraphed cs ('\n' :: '\n' :: out)
  | char {c : Char} {cs out : List Char} (none : tabBreakLeavings (c :: cs) = [])
      (more : Paragraphed cs out) : Paragraphed (c :: cs) (c :: out)

section Runs

variable {p : Char → Bool}

/-- The longest run comes first. -/
theorem head?_leavings (p : Char → Bool) (cs : List Char) :
    (leavings p cs).head? = some (cs.dropWhile p) := by
  induction cs with
  | nil => rfl
  | cons c rest ih =>
    unfold leavings
    split
    · next h => rw [List.head?_append, ih, List.dropWhile_cons_of_pos h, Option.some_or]
    · next h => rw [List.dropWhile_cons_of_neg h, List.head?_cons]

theorem mem_leavings {cs r : List Char} :
    r ∈ leavings p cs ↔ ∃ run, cs = run ++ r ∧ ∀ c ∈ run, p c = true := by
  induction cs with
  | nil =>
    constructor
    · intro h
      exact ⟨[], (List.mem_singleton.1 h).symm, fun _ hc => nomatch hc⟩
    · rintro ⟨run, h, -⟩
      exact List.mem_singleton.2 (List.append_eq_nil_iff.1 h.symm).2
  | cons c rest ih =>
    have hcons (hc : p c = true) : (∃ run, rest = run ++ r ∧ ∀ c ∈ run, p c = true) →
        ∃ run, c :: rest = run ++ r ∧ ∀ c ∈ run, p c = true := by
      rintro ⟨run, rfl, hrun⟩
      exact ⟨c :: run, rfl, List.forall_mem_cons.2 ⟨hc, hrun⟩⟩
    have hself : ∃ run, c :: rest = run ++ (c :: rest) ∧ ∀ c ∈ run, p c = true :=
      ⟨[], rfl, fun _ hx => nomatch hx⟩
    unfold leavings
    constructor
    · intro h
      split at h
      · next hc =>
        rcases List.mem_append.1 h with h | h
        · exact hcons hc (ih.1 h)
        · rw [List.mem_singleton.1 h]
          exact hself
      · rw [List.mem_singleton.1 h]
        exact hself
    · rintro ⟨run, h, hrun⟩
      cases run with
      | nil =>
        have hr : r ∈ [c :: rest] := List.mem_singleton.2 h.symm
        split
        · exact List.mem_append_right _ hr
        · exact hr
      | cons d run =>
        obtain ⟨rfl, rfl⟩ := List.cons.inj h
        obtain ⟨hd, hrun⟩ := List.forall_mem_cons.1 hrun
        rw [if_pos hd]
        exact List.mem_append_left _ (ih.2 ⟨run, rfl, hrun⟩)

/-- **What is in the run at the front** has only characters of the kind in front of it. -/
theorem mem_takeWhile_iff {x : Char} {cs : List Char} (hx : p x = true) :
    x ∈ cs.takeWhile p ↔ ∃ run behind, cs = run ++ x :: behind ∧ ∀ c ∈ run, p c = true := by
  constructor
  · intro h
    obtain ⟨run, more, hsplit⟩ := List.append_of_mem h
    refine ⟨run, more ++ cs.dropWhile p, ?_, fun c hc => ?_⟩
    · rw [← List.cons_append, ← List.append_assoc, ← hsplit, List.takeWhile_append_dropWhile]
    · refine List.mem_takeWhile_imp (l := cs) ?_
      rw [hsplit]
      exact List.mem_append_left _ hc
  · rintro ⟨run, behind, rfl, hrun⟩
    rw [List.takeWhile_append_of_pos hrun, List.takeWhile_cons_of_pos hx]
    exact List.mem_append_right _ List.mem_cons_self

end Runs

theorem isBlank_tab : isBlank '\t' = true := by decide

theorem isBlank_newline : isBlank '\n' = true := by decide

theorem mem_tabLeavings {cs r : List Char} : r ∈ tabLeavings cs ↔ cs = '\t' :: r := by
  unfold tabLeavings
  split
  · rw [List.mem_singleton, List.cons.injEq, and_iff_right rfl, eq_comm]
  · next h => exact iff_of_false List.not_mem_nil fun heq => h _ heq

/-- **A tab break takes in all blanks**: however its first run of blanks is read, its second one
goes on to where the blanks end. There is one wherever a line break leads on to a tab. -/
theorem head?_tabBreakLeavings (rest : List Char) :
    (tabBreakLeavings ('\n' :: rest)).head?
      = if '\t' ∈ rest.takeWhile isBlank then some (rest.dropWhile isBlank) else none := by
  show (((leavings isBlank rest).flatMap tabLeavings).flatMap (leavings isBlank)).head? = _
  have hmem (r : List Char) : r ∈ (leavings isBlank rest).flatMap tabLeavings ↔
      ∃ run, rest = run ++ '\t' :: r ∧ ∀ c ∈ run, isBlank c = true := by
    simp only [List.mem_flatMap, mem_tabLeavings, exists_eq_right, mem_leavings]
  cases hways : (leavings isBlank rest).flatMap tabLeavings with
  | nil =>
    rw [if_neg]
    · rfl
    · intro htab
      obtain ⟨run, behind, hrest⟩ := (mem_takeWhile_iff isBlank_tab).1 htab
      have hbehind := (hmem behind).2 ⟨run, hrest⟩
      rw [hways] at hbehind
      cases hbehind
  | cons r ways =>
    obtain ⟨run, hrest, hrun⟩ := (hmem r).1 (hways ▸ List.mem_cons_self)
    rw [if_pos ((mem_takeWhile_iff isBlank_tab).2 ⟨run, r, hrest, hrun⟩), List.flatMap_cons,
      List.head?_append, head?_leavings, Option.some_or, hrest,
      List.dropWhile_append_of_pos hrun, List.dropWhile_cons_of_pos isBlank_tab]

/-- **Where a tab break is read**, and what is left behind it. -/
theorem read_tabBreak_iff {cs rest : List Char} :
    (tabBreakLeavings cs).head? = some rest ↔
      ∃ r, cs = '\n' :: r ∧ '\t' ∈ r.takeWhile isBlank ∧ rest = r.dropWhile isBlank := by
  constructor
  · intro h
    unfold tabBreakLeavings at h
    split at h
    · next r =>
      change (tabBreakLeavings ('\n' :: r)).head? = some rest at h
      rw [head?_tabBreakLeavings] at h
      split at h
      · next htab => exact ⟨r, rfl, htab, (Option.some.inj h).symm⟩
      · cases h
    · cases h
  · rintro ⟨r, rfl, htab, rfl⟩
    rw [head?_tabBreakLeavings, if_pos htab]

/-- **Replacing tab breaks** as they are read from the front is what `breakAtTabs` does. -/
theorem paragraphed_iff {cs out : List Char} : Paragraphed cs out ↔ out = breakAtTabs cs := by
  constructor
  · intro h
    induction h with
    | nil => rw [breakAtTabs]
    | @tabBreak cs rest out read more ih =>
      obtain ⟨r, rfl, htab, rfl⟩ := read_tabBreak_iff.1 read
      rw [breakAtTabs, if_pos ⟨rfl, List.contains_iff_mem.2 htab⟩, ih]
    | @char c cs out none more ih =>
      rw [breakAtTabs, if_neg, ih]
      rintro ⟨rfl, htab⟩
      have read := read_tabBreak_iff.2 ⟨cs, rfl, List.contains_iff_mem.1 htab, rfl⟩
      rw [none] at read
      cases read
  · rintro rfl
    fun_induction breakAtTabs cs with
    | case1 => exact .nil
    | case2 c rest h ih =>
      exact .tabBreak (read_tabBreak_iff.2 ⟨rest, by rw [h.1], List.contains_iff_mem.1 h.2, rfl⟩) ih
    | case3 c rest h ih =>
      refine .char (List.head?_eq_none_iff.1 (Option.eq_none_iff_forall_ne_some.2 ?_)) ih
      intro left read
      obtain ⟨r, heq, htab, -⟩ := read_tabBreak_iff.1 read
      obtain ⟨rfl, rfl⟩ := List.cons.inj heq
      exact h ⟨rfl, List.contains_iff_mem.2 htab⟩

/-! ## Where a tab break is -/

/-- **There is a tab break in a text**: a line break from which blanks lead on to a tab. -/
def HasTabBreak (cs : List Char) : Prop :=
  ∃ before blanks behind, cs = before ++ '\n' :: (blanks ++ '\t' :: behind) ∧
    ∀ c ∈ blanks, isBlank c = true

theorem not_hasTabBreak_nil : ¬ HasTabBreak [] := by
  rintro ⟨before, blanks, behind, h, -⟩
  exact List.cons_ne_nil _ _ (List.append_eq_nil_iff.1 h.symm).2

/-- A tab break begins with the first character or is behind it. -/
theorem hasTabBreak_cons {c : Char} {rest : List Char} :
    HasTabBreak (c :: rest) ↔ (c = '\n' ∧ '\t' ∈ rest.takeWhile isBlank) ∨ HasTabBreak rest := by
  rw [mem_takeWhile_iff isBlank_tab]
  constructor
  · rintro ⟨before, blanks, behind, h, hblanks⟩
    cases before with
    | nil =>
      obtain ⟨rfl, rfl⟩ := List.cons.inj h
      exact Or.inl ⟨rfl, blanks, behind, rfl, hblanks⟩
    | cons d before =>
      obtain ⟨rfl, rfl⟩ := List.cons.inj h
      exact Or.inr ⟨before, blanks, behind, rfl, hblanks⟩
  · rintro (⟨rfl, blanks, behind, rfl, hblanks⟩ | ⟨before, blanks, behind, rfl, hblanks⟩)
    · exact ⟨[], blanks, behind, rfl, hblanks⟩
    · exact ⟨c :: before, blanks, behind, rfl, hblanks⟩

/-- What is cut out of a text has no tab break that the text does not have. -/
theorem HasTabBreak.mono {cs cs' : List Char} (h : HasTabBreak cs) (hin : cs <:+: cs') :
    HasTabBreak cs' := by
  obtain ⟨front, back, rfl⟩ := hin
  obtain ⟨before, blanks, behind, rfl, hblanks⟩ := h
  refine ⟨front ++ before, blanks, behind ++ back, ?_, hblanks⟩
  simp only [List.append_assoc, List.cons_append]

/-- Behind the blanks at the front comes something else. -/
theorem takeWhile_dropWhile {p : Char → Bool} (cs : List Char) :
    (cs.dropWhile p).takeWhile p = [] := by
  induction cs with
  | nil => rfl
  | cons c rest ih =>
    by_cases h : p c = true
    · rwa [List.dropWhile_cons_of_pos h]
    · rw [List.dropWhile_cons_of_neg h, List.takeWhile_cons_of_neg h]

/-- **No tab comes into the run at the front.** -/
theorem tab_mem_takeWhile_of_breakAtTabs {cs : List Char}
    (h : '\t' ∈ (breakAtTabs cs).takeWhile isBlank) : '\t' ∈ cs.takeWhile isBlank := by
  fun_induction breakAtTabs cs with
  | case1 => cases h
  | case2 c rest hbreak ih =>
    rw [List.takeWhile_cons_of_pos isBlank_newline, List.takeWhile_cons_of_pos isBlank_newline,
      List.mem_cons, List.mem_cons, or_iff_right (by decide), or_iff_right (by decide)] at h
    have hnone := ih h
    rw [takeWhile_dropWhile] at hnone
    cases hnone
  | case3 c rest hkeep ih =>
    by_cases hc : isBlank c = true
    · rw [List.takeWhile_cons_of_pos hc, List.mem_cons] at h ⊢
      exact h.imp_right ih
    · rw [List.takeWhile_cons_of_neg hc] at h
      cases h

/-- **No tab break is left.** -/
theorem not_hasTabBreak_breakAtTabs (cs : List Char) : ¬ HasTabBreak (breakAtTabs cs) := by
  fun_induction breakAtTabs cs with
  | case1 => exact not_hasTabBreak_nil
  | case2 c rest hbreak ih =>
    -- what comes behind the blanks is not blank, so the new line breaks lead on to no tab
    have hnone : '\t' ∉ (breakAtTabs (rest.dropWhile isBlank)).takeWhile isBlank := by
      intro h
      have hmem := tab_mem_takeWhile_of_breakAtTabs h
      rw [takeWhile_dropWhile] at hmem
      cases hmem
    rw [hasTabBreak_cons, hasTabBreak_cons, List.takeWhile_cons_of_pos isBlank_newline,
      List.mem_cons, or_iff_right (by decide : ¬ '\t' = '\n')]
    exact fun h => h.elim (fun h => hnone h.2) fun h => h.elim (fun h => hnone h.2) ih
  | case3 c rest hkeep ih =>
    rw [hasTabBreak_cons]
    rintro (⟨rfl, htab⟩ | h)
    · exact hkeep ⟨rfl, List.contains_iff_mem.2 (tab_mem_takeWhile_of_breakAtTabs htab)⟩
    · exact ih h

/-- **A text without tab breaks** is left as it is. -/
theorem breakAtTabs_eq_self {cs : List Char} (h : ¬ HasTabBreak cs) : breakAtTabs cs = cs := by
  fun_induction breakAtTabs cs with
  | case1 => rfl
  | case2 c rest hbreak ih =>
    exact absurd (hasTabBreak_cons.2 (Or.inl ⟨hbreak.1, List.contains_iff_mem.1 hbreak.2⟩)) h
  | case3 c rest hkeep ih =>
    rw [ih fun hrest => h (hasTabBreak_cons.2 (Or.inr hrest))]

/-- **New paragraphs keep what is not blank.** -/
theorem nonBlanks_breakAtTabs (cs : List Char) : nonBlanks (breakAtTabs cs) = nonBlanks cs := by
  fun_induction breakAtTabs cs with
  | case1 => rfl
  | case2 c rest hbreak ih =>
    obtain ⟨rfl, -⟩ := hbreak
    have hnewline (cs : List Char) : nonBlanks ('\n' :: cs) = nonBlanks cs :=
      List.filter_cons_of_neg (by decide)
    rw [hnewline, hnewline, hnewline, ih, nonBlanks_dropWhile]
  | case3 c rest hkeep ih =>
    show nonBlanks ([c] ++ _) = nonBlanks ([c] ++ _)
    unfold nonBlanks at ih ⊢
    rw [List.filter_append, List.filter_append, ih]

/-! ## Settled texts -/

/-- **A settled text**: there is something in it, no blank at its ends, and no tab break. -/
structure Settled (cs : List Char) : Prop where
  ne_nil : cs ≠ []
  head : ∀ c, cs.head? = some c → isBlank c = false
  last : ∀ c, cs.getLast? = some c → isBlank c = false
  unbroken : ¬ HasTabBreak cs

/-- **What is trimmed and free of tab breaks** is settled. -/
theorem settled_trimBlanks {cs : List Char} (hne : trimBlanks cs ≠ []) (h : ¬ HasTabBreak cs) :
    Settled (trimBlanks cs) where
  ne_nil := hne
  head _ hc := isBlank_head_trimBlanks hc
  last _ hc := isBlank_last_trimBlanks hc
  unbroken hbreak := h (hbreak.mono (isInfix_trimBlanks cs))

/-! ## Cleaned descriptions -/

theorem cleanDescription_eq_some_iff {x y : String} :
    cleanDescription (some x) = some y ↔
      y.toList = trimBlanks (breakAtTabs x.toList) ∧ y.toList ≠ [] := by
  unfold cleanDescription
  dsimp only
  split
  · next hnil =>
    rw [hnil]
    exact iff_of_false (fun h => nomatch h) fun h => h.2 h.1
  · next cs hcons =>
    rw [Option.some.injEq]
    constructor
    · rintro rfl
      rw [String.toList_ofList]
      exact ⟨rfl, hcons⟩
    · rintro ⟨h, -⟩
      rw [← h, String.ofList_toList]

theorem cleanDescription_eq_none_iff {x : String} :
    cleanDescription (some x) = none ↔ ∀ c ∈ x.toList, isBlank c = true := by
  rw [← nonBlanks_eq_nil_iff, ← nonBlanks_breakAtTabs, nonBlanks_eq_nil_iff,
    ← trimBlanks_eq_nil_iff]
  unfold cleanDescription
  dsimp only
  split
  · next hnil => exact iff_of_true rfl hnil
  · next cs hcons => exact iff_of_false (fun h => nomatch h) hcons

/-- **A settled text is left as it is.** -/
theorem Settled.cleanDescription_eq {y : String} (h : Settled y.toList) :
    cleanDescription (some y) = some y := by
  refine cleanDescription_eq_some_iff.2 ⟨?_, h.ne_nil⟩
  rw [breakAtTabs_eq_self h.unbroken, trimBlanks_eq_self h.head h.last]

/-- **Cleaning settles a description.** Nothing is left of a text exactly if all of it is blank.
What is left otherwise is the text with its tab breaks replaced by empty lines, as they are read
from the front, and trimmed. It is settled, with the same characters that are not blank, and
stays as it is when it is cleaned again. -/
theorem cleanDescription_settles (x : String) :
    (cleanDescription (some x) = none ↔ ∀ c ∈ x.toList, isBlank c = true) ∧
    ∀ y, cleanDescription (some x) = some y →
      (∃ out, Paragraphed x.toList out ∧ y = trim (String.ofList out)) ∧ Settled y.toList ∧
      nonBlanks y.toList = nonBlanks x.toList ∧ cleanDescription (some y) = some y := by
  refine ⟨cleanDescription_eq_none_iff, fun y hy => ?_⟩
  obtain ⟨hy, hne⟩ := cleanDescription_eq_some_iff.1 hy
  have hsettled : Settled y.toList := by
    rw [hy] at hne ⊢
    exact settled_trimBlanks hne (not_hasTabBreak_breakAtTabs _)
  refine ⟨⟨_, paragraphed_iff.2 rfl, ?_⟩, hsettled, ?_, hsettled.cleanDescription_eq⟩
  · unfold trim
    rw [String.toList_ofList, ← hy, String.ofList_toList]
  · rw [hy, nonBlanks_trimBlanks, nonBlanks_breakAtTabs]

/-- Two lines, the second one behind a line break that leads on to two tabs. -/
def indentedText : String := "  First line \r\n \n\t \tsecond line \n"

theorem cleanDescription_settles_indentedText :
    cleanDescription (some indentedText) = some "First line \r\n\nsecond line" ∧
    Settled "First line \r\n\nsecond line".toList ∧
    cleanDescription (some "First line \r\n\nsecond line")
      = some "First line \r\n\nsecond line" := by
  have h : cleanDescription (some indentedText) = some "First line \r\n\nsecond line" := by cbv
  obtain ⟨-, hsettled, -, hagain⟩ := (cleanDescription_settles indentedText).2 _ h
  exact ⟨h, hsettled, hagain⟩

end SwaggerForge
