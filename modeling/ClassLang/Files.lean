import ClassLang.Assoc
import ClassLang.Path

namespace ClassLang

inductive ReadError
  | notFound
  | notDirectory
  | isDirectory
  | nameTooLong
  | other (details : String)
deriving DecidableEq, Repr, Inhabited

def ReadError.text : ReadError → String
  | notFound => "No such file or directory (os error 2)"
  | notDirectory => "Not a directory (os error 20)"
  | isDirectory => "Is a directory (os error 21)"
  | nameTooLong => "File name too long (os error 36)"
  | other details => details

structure Files where
  read : String → Except ReadError String
  /-- At least the number of texts. -/
  count : Nat

/-- The files below a directory, which is where relative paths start, and the directories below it.
-/
structure FileTree where
  files : List (List String × String) := []
  dirs : List (List String) := []
deriving Repr

namespace FileTree

def enter (place : List String) : String → List String
  | "" | "." => place
  | ".." => place.dropLast
  | name => place ++ [name]

def add (t : FileTree) (path text : String) : FileTree :=
  let parts := Path.parts path
  let (place, dirs) := parts.dropLast.foldl (fun (place, dirs) part =>
    let next := enter place part
    (next, dirs ++ [next])) ([], t.dirs)
  { files := Assoc.put (enter place (parts.getLast?.getD "")) text t.files, dirs }

def ofPaths (files : List (String × String)) : FileTree :=
  files.foldl (fun t (path, text) => t.add path text) {}

/-- A place is a path below the directory, or `none` anywhere else. -/
def isDirectory (t : FileTree) : Option (List String) → Bool
  | none | some [] => true
  | some path => t.dirs.contains path

def nameLimit : Nat := 255

def pathLimit : Nat := 4095

def step (t : FileTree) (place : Option (List String)) (part : String) :
    Except ReadError (Option (List String)) :=
  if !t.isDirectory place then .error .notDirectory
  else if nameLimit < part.utf8ByteSize then .error .nameTooLong
  else
    match part, place with
    | "", _ | ".", _ => .ok place
    | "..", some (p :: rest) => .ok (some (p :: rest).dropLast)
    | "..", _ => .ok none
    | _, none => .error .notFound
    | name, some path =>
      let next := path ++ [name]
      if (t.files.lookup next).isSome || t.isDirectory (some next) then .ok (some next)
        else .error .notFound

def read (t : FileTree) (path : String) : Except ReadError String := do
  if path = "" then throw .notFound
  if pathLimit < path.utf8ByteSize then throw .nameTooLong
  let start := if path.startsWith "/" then none else some []
  match ← (Path.parts path).foldlM t.step start with
  | none => throw .isDirectory
  | some place =>
    match t.files.lookup place with
    | some text => return text
    | none => throw .isDirectory

def toFiles (t : FileTree) : Files := ⟨t.read, t.files.length⟩

end FileTree

end ClassLang
