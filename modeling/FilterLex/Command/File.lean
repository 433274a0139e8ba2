import FilterLex.Text.Quoted

/-!
# Files

What stands under the name of a file, and why a file cannot be opened. A `Folder` holds
files by name and nothing else; `Folder.lookup` follows a path from there, part by part.
-/

namespace FilterLex.Command

/-! ## Looking up a name -/

inductive FileProblem
  | missing
  | directory
  /-- The path goes on after a file. -/
  | notDirectory
  | nameTooLong
  /-- The name holds a character of code point zero. -/
  | zeroCharacter
  deriving DecidableEq, Repr

inductive Lookup
  | content (bytes : List UInt8)
  | problem (p : FileProblem)
  deriving DecidableEq, Repr

/-- A file that cannot be opened: its name as it was given, and the problem. -/
structure FileError where
  name : String
  problem : FileProblem
  deriving DecidableEq, Repr

def FileError.message (e : FileError) : String :=
  match e.problem with
  | .missing => "[Errno 2] No such file or directory: " ++ Text.Quoted.quote e.name
  | .directory => "[Errno 21] Is a directory: " ++ Text.Quoted.quote e.name
  | .notDirectory => "[Errno 20] Not a directory: " ++ Text.Quoted.quote e.name
  | .nameTooLong => "[Errno 36] File name too long: " ++ Text.Quoted.quote e.name
  | .zeroCharacter => "embedded null byte"

/-! ## Paths -/

/-- The parts of a path between its slashes, empty ones included. -/
def pathParts : List Char → List (List Char)
  | [] => [[]]
  | '/' :: rest => [] :: pathParts rest
  | c :: rest =>
      match pathParts rest with
      | [] => [[c]]
      | part :: parts => (c :: part) :: parts

def staysInPlace (part : List Char) : Bool := part = [] ∨ part = ['.']

def goesUp (part : List Char) : Bool := part = ['.', '.']

def maxPathSize : Nat := 4095

def maxPartSize : Nat := 255

/-! ## Folders -/

structure Folder where
  files : List (String × List UInt8) := []
  deriving DecidableEq, Repr

/-- A part that no file system can hold. -/
def isTooLong (part : List Char) : Bool := maxPartSize < (String.ofList part).utf8ByteSize

/-- What a path leads to above and beside a folder: other folders, which hold nothing. -/
def lookupOutside (parts : List (List Char)) : FileProblem :=
  match parts.dropWhile (fun part => staysInPlace part || goesUp part) with
  | [] => .directory
  | part :: _ => if isTooLong part then .nameTooLong else .missing

/-- What the parts of a path lead to from inside a folder. Nothing is below a file, not
even an empty part. -/
def Folder.lookupParts (folder : Folder) (parts : List (List Char)) : Lookup :=
  match parts.dropWhile staysInPlace with
  | [] => .problem .directory
  | part :: below =>
      if goesUp part then .problem (lookupOutside below)
      else if isTooLong part then .problem .nameTooLong
      else
        match folder.files.lookup (String.ofList part) with
        | none => .problem .missing
        | some bytes => if below.isEmpty then .content bytes else .problem .notDirectory

def Folder.lookup (folder : Folder) (path : String) : Lookup :=
  if path.contains '\x00' then .problem .zeroCharacter
  else if maxPathSize < path.utf8ByteSize then .problem .nameTooLong
  else
    let parts := pathParts path.toList
    if path.startsWith "/" then .problem (lookupOutside parts)
    else folder.lookupParts parts

end FilterLex.Command
