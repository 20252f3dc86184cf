/-!
# Workspaces

What the program needs of the place it runs in, as operations of a monad that
never fail: each says whether it could be done. A `Folder` is a workspace that
is a value, so that a whole run is a function from one folder to another.

Paths are relative to the folder. They are walked name by name, and every name
but the last has to be that of a folder.
-/

namespace SwaggerForge

/-- **A place to run in.** -/
class Workspace (m : Type → Type) where
  /-- Whether there is a file or a folder. -/
  holds : String → m Bool
  /-- The text of a file. -/
  read : String → m (Option String)
  /-- Makes a folder, and what it lies in. -/
  makeFolder : String → m Bool
  /-- Writes a file anew. -/
  write : String → String → m Bool
  /-- Prints a text. -/
  print : String → m Unit

/-- The folder that a path leads to the last name of, empty when the path is
that name alone. -/
def enclosingPath (path : String) : String :=
  let name := path.toList.reverse.dropWhile (· = '/')
  String.ofList ((name.dropWhile (· ≠ '/')).dropWhile (· = '/')).reverse

/-- **The extension of the last name** of a path: what stands behind its last
point, if something stands before it. -/
def pathExtension (path : String) : Option String :=
  let names := (path.splitOn "/").filter fun name => name ≠ "" ∧ name ≠ "."
  match names.getLast? with
  | none => none
  | some name =>
    if name = ".." then none
    else
      let cs := name.toList.reverse
      match cs.dropWhile (· ≠ '.') with
      | [] | [_] => none
      | _ => some (String.ofList (cs.takeWhile (· ≠ '.')).reverse)

/-- **A folder with all that is in it**, and what has been printed. -/
structure Folder where
  /-- The files, by the names on the way to them. -/
  files : List (List String × String) := []
  /-- Folders that need not hold a file. -/
  folders : List (List String) := []
  printed : String := ""
deriving DecidableEq, Repr, Inhabited

namespace Folder

/-- The folder that holds the given files. -/
def ofFiles (files : List (String × String)) : Folder :=
  { files := files.map fun (name, text) => (name.splitOn "/", text) }

/-- The text of the file at a place. -/
def textAt? (f : Folder) (place : List String) : Option String := f.files.lookup place

/-- Whether a place is a folder. -/
def isFolder (f : Folder) (place : List String) : Bool :=
  place.isEmpty || f.folders.contains place ||
    f.files.any fun (file, _) => place.isPrefixOf file && place ≠ file

/-- **Walks a path** from a place. The way must not lead out of the folder. -/
def walk (f : Folder) (place : List String) : List String → Option (List String)
  | [] => some place
  | name :: rest =>
    if !f.isFolder place then none
    else if name = "" ∨ name = "." then f.walk place rest
    else if name = ".." then
      if place.isEmpty then none else f.walk place.dropLast rest
    else f.walk (place ++ [name]) rest

/-- The place that a path leads to; paths from the root lead out of the
folder. -/
def place? (f : Folder) (path : String) : Option (List String) :=
  match path.splitOn "/" with
  | "" :: _ :: _ => none
  | names => f.walk [] names

/-- **Makes the folders on a way**, unless a file is in it. -/
def makeWay (f : Folder) (place : List String) : List String → Option Folder
  | [] => some f
  | name :: rest =>
    if name = "" ∨ name = "." then f.makeWay place rest
    else if name = ".." then
      if place.isEmpty then none else f.makeWay place.dropLast rest
    else
      let next := place ++ [name]
      if (f.textAt? next).isSome then none
      else makeWay { f with folders := next :: f.folders } next rest

/-- Puts a text under a place, in the stead of one that is there. -/
def put (f : Folder) (place : List String) (text : String) : Folder :=
  { f with files := (f.files.filter fun (file, _) => file ≠ place) ++ [(place, text)] }

/-- **Writes a file.** Its folder has to be there, and it must not be one. -/
def write? (f : Folder) (path text : String) : Option Folder :=
  match f.place? path with
  | none => none
  | some place => if f.isFolder place then none else some (f.put place text)

/-- Does what can be done, and says whether it could. -/
def attempt (action : Folder → Option Folder) : StateM Folder Bool := do
  match action (← get) with
  | some f =>
    set f
    return true
  | none => return false

instance : Workspace (StateM Folder) where
  holds path := do
    let f ← get
    return match f.place? path with
      | some place => f.isFolder place || (f.textAt? place).isSome
      | none => false
  read path := do
    let f ← get
    return (f.place? path).bind f.textAt?
  makeFolder path := attempt fun f =>
    match path.splitOn "/" with
    | "" :: _ :: _ => none
    | names => f.makeWay [] names
  write path text := attempt fun f => f.write? path text
  print text := modify fun f => { f with printed := f.printed ++ text }

/-- The files that are new or changed since an earlier state. -/
def changedSince (f earlier : Folder) : List (String × String) :=
  (f.files.filter fun (place, text) => earlier.textAt? place ≠ some text).map
    fun (place, text) => ("/".intercalate place, text)

end Folder

end SwaggerForge
