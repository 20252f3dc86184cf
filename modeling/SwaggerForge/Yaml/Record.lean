import SwaggerForge.Record
import SwaggerForge.Yaml.Node

/-!
# YAML as a notation of records

A scalar is read as what is asked for: any scalar is a text, and a plain one
is also a truth value or the lack of a value if it is written like one. An
empty plain scalar is an empty list and a record without fields. Tags matter
only where a scalar might be something else than its text.
-/

namespace SwaggerForge.Yaml

/-- **A node in its document**, the numbered nodes of which it may refer to. -/
structure Tree where
  node : Node
  /-- The numbered nodes, the last one first. -/
  numbered : List (Nat × Node) := []

namespace Tree

/-- The tree of a document. -/
def ofNode (root : Node) : Tree := ⟨root, root.numberedNodes.reverse⟩

/-- Another node of the same document. -/
def move (t : Tree) (node : Node) : Tree := { t with node }

/-- **The node itself**: an alias stands for the last node with its number. -/
def target (t : Tree) : Node :=
  match t.node with
  | .alias number => (t.numbered.lookup number).getD .empty
  | .numbered _ node => node
  | node => node

/-- The four plain texts that say that there is no value. -/
def isNullText (s : String) : Bool := ["null", "Null", "NULL", "~"].contains s

/-- The plain texts of the truth values. -/
def truthOfText? (s : String) : Option Bool :=
  if ["true", "True", "TRUE"].contains s then some true
  else if ["false", "False", "FALSE"].contains s then some false
  else none

/-- The tag of a notation's own type. -/
def coreTag (name : String) : String := "tag:yaml.org,2002:" ++ name

/-- The text of a scalar. -/
def text? (t : Tree) : Option String :=
  match t.target with
  | .scalar _ _ s => some s
  | _ => none

/-- The name in a tag that belongs to the document alone. -/
def localTag? (tag : Option String) : Option String :=
  match tag.map String.toList with
  | some ('!' :: name) => some (String.ofList name)
  | _ => none

end Tree

instance : Readable Tree where
  text? := Tree.text?
  truth? t :=
    match t.target with
    | .scalar .plain _ s => Tree.truthOfText? s
    | .scalar .literal tag s =>
      if tag = some (Tree.coreTag "bool") then Tree.truthOfText? s else none
    | _ => none
  count? t :=
    match t.target with
    | .scalar .plain _ s => (Numeral.parseCount s).toOption
    | _ => none
  absent? t :=
    match t.target with
    | .scalar .plain none s => some (s = "" || Tree.isNullText s)
    | .scalar .plain (some tag) s =>
      if tag ≠ Tree.coreTag "null" then some false
      else if Tree.isNullText s then some true
      else none
    | _ => some false
  items? t :=
    match t.target with
    | .sequence xs => some (xs.map t.move)
    | .scalar .plain _ "" => some []
    | _ => none
  record? t :=
    match t.target with
    | .sequence xs => some (.byPosition (xs.map t.move))
    | .mapping es =>
      (es.mapM fun (k, x) => (t.move k).text?.map fun name => (name, t.move x)).map .byName
    | .scalar .plain _ "" => some (.byName [])
    | _ => none
  choice? t :=
    match t.target with
    | .scalar style tag s =>
      match Tree.localTag? tag with
      | some name => if style = .plain ∧ (s = "" ∨ Tree.isNullText s) then some name else none
      | none => some s
    | _ => none

/-- **Reads a text** as one YAML document. -/
def Tree.parse? (text : String) : Option Tree :=
  (tokens? text).bind fun ts => (Node.ofTokens? ts).map Tree.ofNode

end SwaggerForge.Yaml
