import PineScript.CommandLine

/-!
# The program

Reads what the command line asks for into a tree, runs the command on it, and prints the result.
-/

namespace PineScript.CommandLine

def help : String :=
  "usage: pine-lint check [--strict] [--verbose] PATH...\n" ++
  "       pine-lint dump [--output FILE] [--verbose] PATH\n"

/-- The places that a path leads through. -/
def visited (base parts : List String) : List (List String) :=
  (List.range (parts.length + 1)).map fun n => (parts.take n).foldl FilePath.enter base

/-- What stands at a place of the file system. Only files that are wanted are read. -/
def entryAt? (place : List String) (wanted : Bool := true) : IO (Option FileEntry) := do
  let target := (← IO.currentDir) / (FilePath.ofPlace place).text
  if ← target.isDir then return some .directory
  else if ← target.pathExists then
    if wanted then return some (.file (← IO.FS.readBinFile target).toList)
    else return some (.file [])
  else return none

/-- All entries below a directory. -/
partial def entriesBelow (place : List String) : IO (List (List String × FileEntry)) := do
  let target := (← IO.currentDir) / (FilePath.ofPlace place).text
  let mut all := []
  for entry in ← target.readDir do
    let inner := place ++ [entry.fileName]
    let wanted :=
      entry.fileName = "pyproject.toml" || FilePath.suffixOf entry.fileName ∈ Script.endings
    if let some e ← entryAt? inner wanted then
      all := (inner, e) :: all
      if e = .directory then all := (← entriesBelow inner) ++ all
  return all

/-- The entries that a path leads to, and the settings files above them. -/
def entriesFor (here : List String) (path : FilePath) : IO (List (List String × FileEntry)) := do
  let base := FileTree.base ⟨here, []⟩ path
  let place := FilePath.normalize (base ++ path.parts)
  let above := (Settings.upwards (.ofPlace place)).map (·.parts ++ ["pyproject.toml"])
  let mut all := []
  for p in visited base path.parts ++ above do
    if let some e ← entryAt? p then all := (p, e) :: all
  if all.lookup place = some .directory then all := all ++ (← entriesBelow place)
  return all

/-- The part of the file system that a command looks at. -/
def treeFor (command : Command) : IO FileTree := do
  let here := FilePath.partsOf (← IO.currentDir).toString
  let mut entries := []
  for path in command.inputs do
    entries := entries ++ (← entriesFor here (.parse path))
  for path in command.outputs.map FilePath.parse do
    for p in visited (FileTree.base ⟨here, []⟩ path) path.parts do
      if let some e ← entryAt? p false then entries := entries ++ [(p, e)]
  return ⟨here, entries⟩

def printerFor (stream : IO.FS.Stream) : IO Printer := do
  return if ← stream.isTty then .terminal else .piped

def console : IO Console :=
  return ⟨← printerFor (← IO.getStdout), ← printerFor (← IO.getStderr)⟩

def finish (result : Result) : IO UInt32 := do
  IO.print result.out
  IO.eprint result.err
  if let some (path, text) := result.written then IO.FS.writeFile path.text text
  if let some abort := result.abort then IO.eprintln abort.message
  return result.exitCode.toUInt32

end PineScript.CommandLine

open PineScript.CommandLine in
def main (args : List String) : IO UInt32 := do
  match Command.parse args with
  | .ok command => finish (command.run (← console) (← treeFor command))
  | .error refusal =>
    if refusal = .help then IO.print help
    else if refusal = .usage then IO.eprint help
    finish refusal.result
