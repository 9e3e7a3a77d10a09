import LittleLisp.Text.Quoted

/-!
Files by their paths. A path is followed part by part from a directory; what comes before a part
must be a directory, even if the part leads back out of it.
-/

namespace LittleLisp.CommandLine

/-- A path without empty and single-dot parts; no parts at all is a single dot. Two slashes at the
start differ from one. -/
def normalizePath (path : String) : String :=
  let root :=
    match path.toList with
    | '/' :: '/' :: '/' :: _ => "/"
    | '/' :: '/' :: _ => "//"
    | '/' :: _ => "/"
    | _ => ""
  let parts := (path.splitOn "/").filter fun part ↦ part ≠ "" && part ≠ "."
  let joined := root ++ "/".intercalate parts
  if joined = "" then "." else joined

inductive FileProblem where
  | missing
  | notDirectory
  | directory
  | nameTooLong
deriving DecidableEq

namespace FileProblem

def code : FileProblem → Nat
  | .missing => 2
  | .notDirectory => 20
  | .directory => 21
  | .nameTooLong => 36

def text : FileProblem → String
  | .missing => "No such file or directory"
  | .notDirectory => "Not a directory"
  | .directory => "Is a directory"
  | .nameTooLong => "File name too long"

end FileProblem

inductive FileFault where
  | refused (problem : FileProblem) (path : String)
  /-- No path holds the null character. -/
  | nullCharacter

def FileFault.message : FileFault → String
  | .refused problem path =>
    "[Errno " ++ toString problem.code ++ "] " ++ problem.text ++ ": " ++ Text.quotedString path
  | .nullCharacter => "embedded null byte"

inductive Place where
  /-- The directory that holds the given files. -/
  | here
  /-- A directory of which nothing is known but the directories around it. -/
  | elsewhere
  | file (content : String)

/-- The bounds on the bytes of a path and of each of its parts. -/
def maxPathBytes : Nat := 4095

def maxNameBytes : Nat := 255

def Place.enter (files : List (String × String)) (place : Place) (part : String) :
    Except FileProblem Place :=
  match place with
  | .file _ => .error .notDirectory
  | .here | .elsewhere =>
    if part = ".." then .ok .elsewhere
    else if maxNameBytes < part.utf8ByteSize then .error .nameTooLong
    else
      match place, files.lookup part with
      | .here, some content => .ok (.file content)
      | _, _ => .error .missing

def readIn (files : List (String × String)) (path : String) : Except FileFault String :=
  if '\x00' ∈ path.toList then .error .nullCharacter
  else
    let start := if path.toList.head? = some '/' then .elsewhere else .here
    let parts := (path.splitOn "/").filter fun part ↦ part ≠ "" && part ≠ "."
    let place : Except FileProblem Place :=
      if maxPathBytes < path.utf8ByteSize then .error .nameTooLong
      else parts.foldlM (Place.enter files) start
    match place with
    | .ok (.file content) => .ok content
    | .ok _ => .error (.refused .directory path)
    | .error problem => .error (.refused problem path)

end LittleLisp.CommandLine
