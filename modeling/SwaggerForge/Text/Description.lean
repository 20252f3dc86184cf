import SwaggerForge.Text.Blank

/-!
# Descriptions

Free text from a schema, made fit for a document. A line break whose blanks
reach a tab starts a new paragraph (`breakAtTabs`), blanks at the ends go
(`trimBlanks`), and a description that is blank altogether is no description
(`cleanDescription`). Flags become badges in backticks, and the parts of a
description are paragraphs with an empty line between them.
-/

namespace SwaggerForge

/-- **Starts a paragraph at every tab-indented line**: a line break whose run
of blanks holds a tab becomes two line breaks, and the run goes. -/
def breakAtTabs : List Char → List Char
  | [] => []
  | c :: rest =>
    if c = '\n' ∧ (rest.takeWhile isBlank).contains '\t' then
      '\n' :: '\n' :: breakAtTabs (rest.dropWhile isBlank)
    else c :: breakAtTabs rest
termination_by cs => cs.length
decreasing_by
  · have := (List.dropWhile_suffix (l := rest) isBlank).length_le
    simp only [List.length_cons]; omega
  · simp

/-- **A description made fit for a document**, if anything is left of it. -/
def cleanDescription (raw : Option String) : Option String :=
  match raw with
  | none => none
  | some text =>
    match trimBlanks (breakAtTabs text.toList) with
    | [] => none
    | cs => some (String.ofList cs)

/-- Flag names as inline code, with a blank between them. -/
def flagBadges (flags : List String) : Option String :=
  if flags = [] then none
  else some (" ".intercalate (flags.map fun f => "`" ++ f ++ "`"))

/-- **The paragraphs that are there**, with an empty line between them. -/
def joinParagraphs (parts : List (Option String)) : Option String :=
  match parts.filterMap id |>.filter (· ≠ "") with
  | [] => none
  | ps => some ("\n\n".intercalate ps)

end SwaggerForge
