import PineScript.CommandLine.Arguments
import PineScript.Diagnostic.Payload
import PineScript.Script
import PineScript.Text.ControlSequence

/-!
# The command line

`check` prints the diagnostics of files and directories, `dump` publishes those of one file. What is
printed comes out as the console has it.
-/

namespace PineScript.CommandLine

/-- What ends a command before its time. -/
inductive Abort where
  | settings (fault : SettingsFault)
  | path (fault : Script.PathFault)
deriving DecidableEq, Repr

def Abort.message : Abort → String
  | settings fault => fault.message
  | path fault => fault.message

structure Result where
  exitCode : Nat := 0
  out : String := ""
  err : String := ""
  /-- A file to be written. -/
  written : Option (FilePath × String) := none
  abort : Option Abort := none

/-! ## Consoles -/

/-- A stream to print on. A text without an escape character comes out as it is. -/
structure Printer where
  print : String → String
  faithful : ∀ text, '\x1b' ∉ text.toList → print text = text

namespace Printer

/-- A terminal is left to heed control sequences. -/
def terminal : Printer := ⟨fun text => text, fun _ _ => rfl⟩

/-- What is no terminal gets texts without control sequences. -/
def piped : Printer := ⟨Text.plain, fun _ => Text.plain_of_notMem⟩

end Printer

structure Console where
  out : Printer
  err : Printer

/-- How arguments end that make no command. -/
def Refusal.result : Refusal → Result
  | help => {}
  | usage => { exitCode := 2 }

def paragraph (lines : List String) : String := String.join (lines.map (· ++ "\n"))

/-! ## Lines -/

def diagnosticLine (path : FilePath) (d : Diagnostic) : String :=
  let shown := path.text
  let line := d.range.start.line + 1
  let column := d.range.start.character + 1
  let code := d.code
  let message := d.message
  s!"{shown}:{line}:{column}: {code} {message}"

def readFaultLine (path : FilePath) (fault : Script.ReadFault) : String :=
  let shown := path.text
  let message := fault.message path
  s!"error: {shown}: {message}"

def writeFaultLine (path : FilePath) (fault : FileFault) : String :=
  let message := fault.message path
  s!"error: {message}"

/-- The records to be shown; those for debugging only on request. The trace of calls that is shown
with a failure is left out. -/
def logLines (verbose : Bool) (logs : List LogRecord) : List String :=
  (logs.filter fun r => verbose || r.level ≠ .debug).map LogRecord.line

/-! ## Checking -/

/-- Whether the diagnostics of a file count as a failure. -/
def isFailure (strict : Bool) (ds : List Diagnostic) : Bool :=
  Diagnostic.hasErrors ds || strict && !ds.isEmpty

/-- What checking some files has come to. -/
structure Tally where
  /-- The rules that were set up, by the directory that they are for. -/
  analyzers : List (List String × List Rule) := []
  out : List String := []
  err : List String := []
  failed : Bool := false

namespace Tally

/-- The rules for the files of a directory. They are set up once, for the first of its files. -/
def rulesFor (tree : FileTree) (directory : List String) (t : Tally) :
    Except SettingsFault (List Rule × Tally) :=
  match t.analyzers.lookup directory with
  | some rules => .ok (rules, t)
  | none => do
    let rules ← Script.rulesFor tree directory
    return (rules, { t with analyzers := (directory, rules) :: t.analyzers })

def result (t : Tally) (abort : Option Abort) : Result where
  exitCode := if abort.isSome ∨ t.failed then 1 else 0
  out := paragraph t.out
  err := paragraph t.err
  abort := abort

end Tally

section

variable (console : Console) (tree : FileTree) (strict verbose : Bool)

/-- A file that cannot be read is told of and passed over. -/
def Tally.skip (path : FilePath) (fault : Script.ReadFault) (t : Tally) : Tally :=
  { t with err := t.err ++ [console.err.print (readFaultLine path fault)] }

/-- A file was analysed. -/
def Tally.add (path : FilePath) (ds : List Diagnostic) (logs : List LogRecord) (t : Tally) :
    Tally :=
  { t with
    out := t.out ++ ds.map (console.out.print <| diagnosticLine path ·)
    err := t.err ++ logLines verbose logs
    failed := t.failed || isFailure strict ds }

/-- Checks files one after the other, up to one whose settings are refused. -/
def checkFiles : List FilePath → Tally → Result
  | [], t => t.result none
  | path :: more, t =>
    match Script.read tree path with
    | .error fault => checkFiles more (t.skip console path fault)
    | .ok source =>
      match t.rulesFor tree (Script.directory tree path) with
      | .error fault => t.result (some (.settings fault))
      | .ok (rules, t) =>
        let (ds, logs) := Script.analyse rules source
        checkFiles more (t.add console strict verbose path ds logs)

/-- Checks the files that the paths stand for, each place once. -/
def check (paths : List FilePath) : Result :=
  match Script.expand tree paths with
  | .error fault => { exitCode := 1, abort := some (.path fault) }
  | .ok files => checkFiles console tree strict verbose (Script.distinct tree files) {}

end

/-! ## Dumping -/

/-- Publishes the diagnostics of a file on the output or into another file. -/
def dump (console : Console) (tree : FileTree) (path : FilePath) (output : Option FilePath)
    (verbose : Bool) : Result :=
  match Script.report tree path with
  | .unreadable fault =>
    { exitCode := 2, err := paragraph [console.err.print (readFaultLine path fault)] }
  | .unsettled fault => { exitCode := 1, abort := some (.settings fault) }
  | .analysed ds logs =>
    let exitCode := if Diagnostic.hasErrors ds then 1 else 0
    let logged := logLines verbose logs
    match output with
    | none =>
      { exitCode, out := console.out.print (Diagnostic.publish ds), err := paragraph logged }
    | some target =>
      match tree.writable target with
      | .error fault =>
        let line := console.err.print (writeFaultLine target fault)
        { exitCode := 2, err := paragraph (logged ++ [line]) }
      | .ok _ =>
        { exitCode, err := paragraph logged, written := some (target, Diagnostic.publish ds) }

/-! ## Commands -/

def Command.run (console : Console) (tree : FileTree) : Command → Result
  | check paths strict verbose =>
    CommandLine.check console tree strict verbose (paths.map .parse)
  | dump path output verbose =>
    CommandLine.dump console tree (.parse path) (output.map .parse) verbose

/-- The file that a command adds to a tree, by its place. -/
def Result.created? (tree : FileTree) (result : Result) : Option (List String × String) := do
  let (path, text) ← result.written
  let place ← (tree.place path).toOption
  if (tree.entry? place).isSome then none else return (place, text)

end PineScript.CommandLine
