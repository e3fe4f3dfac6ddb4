namespace LoxLang

namespace Files

/-- Why a path cannot be read. -/
inductive Error where
  | notFound
  | notADirectory
  | isADirectory
  | nameTooLong
  | nulInName
  | denied
  /-- Any other error of the system, by its number. -/
  | other (code : Nat)
deriving DecidableEq, Repr

/-- The text that the system has for the error. -/
def Error.message : Error → String
  | notFound => "No such file or directory (os error 2)"
  | notADirectory => "Not a directory (os error 20)"
  | isADirectory => "Is a directory (os error 21)"
  | nameTooLong => "File name too long (os error 36)"
  | denied => "Permission denied (os error 13)"
  | other code => "Unknown error (os error " ++ toString code ++ ")"
  | nulInName => "file name contained an unexpected NUL byte"

end Files

/-- Files, each by the names on the way to it. They lie under a directory, which paths are relative to; the directories
in it are those that the files need, and what lies outside is taken to be empty directories. Such a tree takes the place
of the file system where a command line is answered with files that are given in advance. The program itself reads the
files of the system, and no result about sessions depends on how a path is looked up: they take what was read. -/
structure Files where
  entries : List (List String × List UInt8)

namespace Files

def empty : Files := ⟨[]⟩

/-- The parts of a path between slashes. -/
def parts (path : String) : List String :=
  let step (c : Char) (acc : List Char × List String) : List Char × List String :=
    if c = '/' then ([], String.ofList acc.1 :: acc.2) else (c :: acc.1, acc.2)
  let (first, rest) := path.toList.foldr step ([], [])
  String.ofList first :: rest

/-- Write a file. It takes the place of the one that was there. -/
def put (fs : Files) (names : List String) (contents : List UInt8) : Files :=
  ⟨(names, contents) :: fs.entries.filter (·.1 != names)⟩

def ofList (files : List (String × List UInt8)) : Files :=
  files.foldl (fun fs f => fs.put ((parts f.1).filter (fun p => p != "" && p != ".")) f.2) empty

/-- A place on the way along a path. -/
inductive Place where
  | directory (names : List String)
  | file (contents : List UInt8)
  /-- Above the directory that holds the tree. -/
  | outside

/-- The longest name of a file, in bytes. -/
def maxName : Nat := 255

/-- The longest path, in bytes. -/
def maxPath : Nat := 4095

/-- Some file lies in the directory or below it. -/
def hasDirectory (fs : Files) (names : List String) : Bool :=
  fs.entries.any fun e => names.isPrefixOf e.1 && names.length < e.1.length

/-- Make an empty file of this name in the directory itself. A file that was there is emptied. -/
def create (fs : Files) (name : String) : Except Error Files :=
  if fs.hasDirectory [name] then .error .isADirectory else .ok (fs.put [name] [])

/-- Go one part of a path further. An empty part and a dot stay in a directory; two dots leave it. -/
def step (fs : Files) (place : Place) (part : String) : Except Error Place :=
  match place with
  | .file _ => .error .notADirectory
  | .outside =>
    if part = "" || part = "." || part = ".." then .ok .outside
    else if maxName < part.utf8ByteSize then .error .nameTooLong
    else .error .notFound
  | .directory names =>
    if part = "" || part = "." then .ok place
    else if part = ".." then .ok (if names.isEmpty then .outside else .directory names.dropLast)
    else if maxName < part.utf8ByteSize then .error .nameTooLong
    else
      let there := names ++ [part]
      match fs.entries.lookup there with
      | some contents => .ok (.file contents)
      | none => if fs.hasDirectory there then .ok (.directory there) else .error .notFound

/-- The place where a path starts. -/
def start (path : String) : Place :=
  if path.toList.head? = some '/' then .outside else .directory []

/-- The bytes of the file at a path. -/
def read (fs : Files) (path : String) : Except Error (List UInt8) := do
  if path.toList.contains '\x00' then .error .nulInName
  else if path = "" then .error .notFound
  else if maxPath < path.utf8ByteSize then .error .nameTooLong
  else
    match ← (parts path).foldlM fs.step (start path) with
    | .file contents => pure contents
    | _ => .error .isADirectory

end Files

end LoxLang
