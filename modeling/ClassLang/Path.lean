namespace ClassLang.Path

/-- The parts between slashes. An empty part, and a part `.`, stays where the parts before it lead.
-/
def parts (path : String) : List String := path.splitOn "/"

def trim (parts : List String) : List String :=
  (parts.reverse.dropWhile fun s => s = "" || s = ".").reverse

def unparts (parts : List String) : String := "/".intercalate parts

def withoutExtension (name : String) : String :=
  match name.splitOn "." with
  | [] | [_] => name
  | first :: rest =>
    let stem := ".".intercalate (first :: rest.dropLast)
    if stem = "" then name else stem

def stem? (path : String) : Option String :=
  match (trim (parts path)).getLast? with
  | none | some ".." => none
  | some name => some (withoutExtension name)

/-- What stands before the name of a file. The root, and a `.` that the path starts with, stay. -/
def parent (path : String) : String :=
  match (trim (parts path)).dropLast with
  | "" :: rest => "/" ++ unparts (trim rest)
  | "." :: rest => unparts ("." :: trim rest)
  | rest => unparts (trim rest)

def join (dir name : String) : String :=
  if dir = "" || dir.endsWith "/" then dir ++ name else dir ++ "/" ++ name

end ClassLang.Path
