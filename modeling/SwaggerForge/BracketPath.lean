/-!
# Bracket paths

A flattened parameter is named by the way to it: `filter[owner][name]` is the
`name` of the `owner` of `filter`. The depth of a path is its number of
opening brackets (`bracketDepth`), a step along a property adds a segment
(`childPath`), and `parentPath` takes the last segment off.
-/

namespace SwaggerForge

/-- **The depth of a path**: how many opening brackets it holds. -/
def bracketDepth (path : String) : Nat := path.toList.count '['

/-- The path one property further on. -/
def childPath (path name : String) : String := path ++ "[" ++ name ++ "]"

/-- Whether the last segment may begin at the bracket in the given place: the
segment is not empty and holds no closing bracket, and what is in front of it
is on one line. `body` is the path without its last closing bracket. -/
def segmentStartsAt (body : List Char) (i : Nat) : Bool :=
  body[i]? = some '[' && body.drop (i + 1) != [] && !(body.drop (i + 1)).contains ']'
    && !(body.take i).contains '\n'

/-- Where the last segment begins: the last place where it may. -/
def lastSegment? (body : List Char) : Option Nat :=
  (List.range body.length).reverse.find? (segmentStartsAt body)

/-- **The path without its last segment**, if it ends in one. -/
def parentPath (path : String) : Option String :=
  if path.toList.getLast? = some ']' then
    let body := path.toList.dropLast
    (lastSegment? body).map fun i => String.ofList (body.take i)
  else none

/-! ## Laws -/

@[simp] theorem bracketDepth_empty : bracketDepth "" = 0 := by decide

theorem bracketDepth_append (a b : String) :
    bracketDepth (a ++ b) = bracketDepth a + bracketDepth b := by
  simp [bracketDepth, String.toList_append]

/-- A step adds one level, and as many as the name has brackets. -/
theorem bracketDepth_childPath (path name : String) :
    bracketDepth (childPath path name) = bracketDepth path + 1 + bracketDepth name := by
  have h₁ : bracketDepth "[" = 1 := by decide
  have h₂ : bracketDepth "]" = 0 := by decide
  simp only [childPath, bracketDepth_append, h₁, h₂]; omega

theorem bracketDepth_lt_childPath (path name : String) :
    bracketDepth path < bracketDepth (childPath path name) := by
  rw [bracketDepth_childPath]; omega

/-- **A parent path is shorter**, so taking parents comes to an end. -/
theorem length_parentPath_lt {path parent : String} (h : parentPath path = some parent) :
    parent.toList.length < path.toList.length := by
  unfold parentPath at h
  split at h
  · next hlast =>
    obtain ⟨i, hi, rfl⟩ := Option.map_eq_some_iff.1 h
    have hne : path.toList ≠ [] := by
      intro he; simp [he] at hlast
    have : 0 < path.toList.length := List.length_pos_iff.2 hne
    simp only [String.toList_ofList, List.length_take, List.length_dropLast]
    omega
  · simp at h

end SwaggerForge
