/-!
# Paths

A path as it is written: empty parts and single dots are dropped, double dots are kept. Two slashes
at the start, and no more, stand for a root of their own.
-/

namespace PineScript

structure FilePath where
  /-- The slashes at the start. -/
  root : String
  parts : List String
deriving DecidableEq, Repr

namespace FilePath

/-- The pieces of a text between slashes. -/
def splitSlashes : List Char → List (List Char)
  | [] => [[]]
  | c :: rest =>
    if c = '/' then [] :: splitSlashes rest
    else match splitSlashes rest with
      | [] => [[c]]
      | piece :: more => (c :: piece) :: more

def partsOf (text : String) : List String :=
  ((splitSlashes text.toList).filter fun p => p ≠ [] ∧ p ≠ ['.']).map String.ofList

def rootOf (text : String) : String :=
  match (text.toList.takeWhile (· = '/')).length with
  | 0 => ""
  | 2 => "//"
  | _ => "/"

def parse (text : String) : FilePath := ⟨rootOf text, partsOf text⟩

/-- The path from the root through these directories. -/
def ofPlace (place : List String) : FilePath := ⟨"/", place⟩

def isAbsolute (p : FilePath) : Bool := p.root ≠ ""

def text (p : FilePath) : String :=
  if p.root = "" ∧ p.parts = [] then "." else p.root ++ "/".intercalate p.parts

/-- The path of an entry below a directory. -/
def below (p : FilePath) (parts : List String) : FilePath := { p with parts := p.parts ++ parts }

/-- The ending of a name from its last dot on, unless that is its first or last character. -/
def suffixOf (name : String) : String :=
  let tail := name.toList.reverse.takeWhile (· != '.')
  let stem := name.toList.reverse.drop (tail.length + 1)
  if tail.isEmpty ∨ stem.isEmpty then "" else String.ofList ('.' :: tail.reverse)

def suffix (p : FilePath) : String := suffixOf (p.parts.getLast?.getD "")

/-- One step of `normalize`. The root is above itself. -/
def enter (here : List String) (part : String) : List String :=
  if part = ".." then here.dropLast else here ++ [part]

/-- The parts from the root on, with every double dot and the part before it taken out. -/
def normalize (parts : List String) : List String := parts.foldl enter []

/-- The order of paths: part by part, by code points. -/
def partsLe : List String → List String → Bool
  | [], _ => true
  | _ :: _, [] => false
  | a :: as, b :: bs => if a = b then partsLe as bs else decide (a ≤ b)

end FilePath

end PineScript
