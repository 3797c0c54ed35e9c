import PineScript.FilePath
import PineScript.Text.Quoted

/-!
# File trees

The files of a file system, by their parts from the root on, and the working directory. A path is
followed part by part: every part but the last has to be a directory that exists. Names and whole
paths have a greatest length in bytes.
-/

namespace PineScript

inductive FileEntry where
  | file (content : List UInt8)
  | directory
deriving DecidableEq, Repr

/-- Why a file could not be reached. -/
inductive FileFault where
  | missing
  | notADirectory
  | isADirectory
  | nameTooLong
deriving DecidableEq, Repr

namespace FileFault

def number : FileFault → Nat
  | missing => 2
  | notADirectory => 20
  | isADirectory => 21
  | nameTooLong => 36

def reason : FileFault → String
  | missing => "No such file or directory"
  | notADirectory => "Not a directory"
  | isADirectory => "Is a directory"
  | nameTooLong => "File name too long"

def message (fault : FileFault) (path : FilePath) : String :=
  let number := fault.number
  let reason := fault.reason
  let shown := Text.quoted path.text
  s!"[Errno {number}] {reason}: {shown}"

end FileFault

structure FileTree where
  /-- The working directory. -/
  here : List String
  entries : List (List String × FileEntry)

namespace FileTree

/-- What stands at a place. The working directory and whatever lies above an entry are directories. -/
def entry? (tree : FileTree) (place : List String) : Option FileEntry :=
  match tree.entries.lookup place with
  | some e => some e
  | none =>
    if place.isPrefixOf tree.here || tree.entries.any (place.isPrefixOf ·.1) then some .directory
    else none

def nameLimit : Nat := 255

def pathLimit : Nat := 4095

/-- Follows the parts of a path from a place on. -/
def follow (tree : FileTree) (place : List String) : List String → Except FileFault (List String)
  | [] => .ok place
  | part :: more =>
    match tree.entry? place with
    | none => .error .missing
    | some (.file _) => .error .notADirectory
    | some .directory =>
      if nameLimit < part.utf8ByteSize then .error .nameTooLong
      else tree.follow (FilePath.enter place part) more

/-- Where a path starts. -/
def base (tree : FileTree) (path : FilePath) : List String :=
  if path.isAbsolute then [] else tree.here

/-- The place a path leads to. -/
def place (tree : FileTree) (path : FilePath) : Except FileFault (List String) :=
  if pathLimit < path.text.utf8ByteSize then .error .nameTooLong
  else tree.follow (tree.base path) path.parts

/-- The place a path names, whether its parts exist or not. -/
def resolve (tree : FileTree) (path : FilePath) : List String :=
  FilePath.normalize (tree.base path ++ path.parts)

def read (tree : FileTree) (path : FilePath) : Except FileFault (List UInt8) := do
  match tree.entry? (← tree.place path) with
  | none => .error .missing
  | some .directory => .error .isADirectory
  | some (.file content) => .ok content

/-- Whether a path leads to a directory. Of a path that is too long nothing can be said. -/
def isDirectory (tree : FileTree) (path : FilePath) : Except FileFault Bool :=
  match tree.place path with
  | .ok place => .ok (tree.entry? place == some .directory)
  | .error .nameTooLong => .error .nameTooLong
  | .error _ => .ok false

/-- The place of a file that may be written. -/
def writable (tree : FileTree) (path : FilePath) : Except FileFault (List String) := do
  let place ← tree.place path
  match tree.entry? place with
  | some .directory => .error .isADirectory
  | _ => .ok place

/-- The files below a directory, by their parts from there. -/
def filesBelow (tree : FileTree) (place : List String) : List (List String) :=
  tree.entries.filterMap fun (parts, e) =>
    match e with
    | .file _ => if place.isPrefixOf parts then some (parts.drop place.length) else none
    | .directory => none

end FileTree

end PineScript
