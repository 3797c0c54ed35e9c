import PineScript.Analysis
import PineScript.Settings.Load

/-!
# Script files

A script file is read as UTF-8 and analysed under the settings of the directory it lies in.
-/

namespace PineScript.Script

inductive ReadFault where
  | file (fault : FileFault)
  | encoding (fault : Text.Utf8Fault)
deriving DecidableEq, Repr

def ReadFault.message (path : FilePath) : ReadFault → String
  | file fault => fault.message path
  | encoding fault => fault.message

/-- The text of a script. Every line break becomes a line feed. -/
def read (tree : FileTree) (path : FilePath) : Except ReadFault String :=
  match tree.read path with
  | .error fault => .error (.file fault)
  | .ok bytes =>
    match Text.decodeUtf8 bytes with
    | .error fault => .error (.encoding fault)
    | .ok text => .ok (String.ofList (Text.unifyBreaks text.toList))

/-- The directory that a file lies in. -/
def directory (tree : FileTree) (path : FilePath) : List String := (tree.resolve path).dropLast

/-- The rules, set up for the files of a directory. -/
def rulesFor (tree : FileTree) (directory : List String) : Except SettingsFault (List Rule) :=
  Settings.rules <$> Settings.load tree (.ofPlace directory)

/-- The diagnostics of a text, and what is logged on the way. -/
def analyse (rules : List Rule) (source : String) : List Diagnostic × List LogRecord :=
  match Analysis.run Host.logging (Registry.ofRules .standard rules) source [] with
  | (.ok ds, logs) => (ds, logs)
  | (.error _, logs) => ([], logs)

/-- What comes of a file on its own. -/
inductive Report where
  | unreadable (fault : ReadFault)
  /-- The settings for the file are refused. -/
  | unsettled (fault : SettingsFault)
  | analysed (diagnostics : List Diagnostic) (logs : List LogRecord)

def report (tree : FileTree) (path : FilePath) : Report :=
  match read tree path with
  | .error fault => .unreadable fault
  | .ok source =>
    match rulesFor tree (directory tree path) with
    | .error fault => .unsettled fault
    | .ok rules =>
      let (ds, logs) := analyse rules source
      .analysed ds logs

/-! ## Finding scripts -/

def endings : List String := [".pine", ".pinescript"]

/-- Directories whose files are no sources. -/
def skipped : List String :=
  [".venv", "venv", "__pycache__", ".git", "node_modules", "build", "dist", ".tox"]

/-- Whether a file that was found is a script to look at. The directories above the one that was
searched count as well, as far as they were written. -/
def isWanted (path : FilePath) : Bool :=
  path.suffix ∈ endings && !path.parts.any (· ∈ skipped)

/-- The scripts below a directory, in order. -/
def below (tree : FileTree) (directory : FilePath) : List FilePath :=
  match tree.place directory with
  | .error _ => []
  | .ok place =>
    let found := (tree.filesBelow place).map directory.below
    stableSort (fun p q => FilePath.partsLe p.parts q.parts) (found.filter isWanted)

/-- A path that nothing can be said of. -/
structure PathFault where
  fault : FileFault
  path : FilePath
deriving DecidableEq, Repr

def PathFault.message (f : PathFault) : String := f.fault.message f.path

/-- The files that some paths stand for. -/
def expand (tree : FileTree) : List FilePath → Except PathFault (List FilePath)
  | [] => .ok []
  | path :: more =>
    match tree.isDirectory path with
    | .error fault => .error ⟨fault, path⟩
    | .ok true => (below tree path ++ ·) <$> expand tree more
    | .ok false => (path :: ·) <$> expand tree more

/-- Drops a path if an earlier one names the same place. -/
def distinct (tree : FileTree) : List FilePath → List FilePath
  | [] => []
  | path :: more =>
    path :: (distinct tree more).filter fun other => tree.resolve other ≠ tree.resolve path

end PineScript.Script
