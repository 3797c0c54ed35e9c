/-!
# Arguments

The arguments of the command line: the name of a command, then options and paths in any order.
Before the name only the options of the program itself may stand. After `--` nothing is an option. A
short option may be followed by others in the same argument, and by its value.
-/

namespace PineScript.CommandLine

inductive Command where
  | check (paths : List String) (strict verbose : Bool)
  | dump (path : String) (output : Option String) (verbose : Bool)
deriving DecidableEq, Repr

/-- The paths that a command reads. -/
def Command.inputs : Command → List String
  | check paths _ _ => paths
  | dump path _ _ => [path]

/-- The paths that a command writes. -/
def Command.outputs : Command → List String
  | check _ _ _ => []
  | dump _ output _ => output.toList

/-- Why no command runs. -/
inductive Refusal where
  | help
  /-- The arguments make no command. -/
  | usage
deriving DecidableEq, Repr

inductive Switch where
  | help | strict | verbose | output | installCompletion | showCompletion
deriving DecidableEq, Repr

namespace Switch

def long : Switch → String
  | help => "--help"
  | strict => "--strict"
  | verbose => "--verbose"
  | output => "--output"
  | installCompletion => "--install-completion"
  | showCompletion => "--show-completion"

def short? : Switch → Option Char
  | verbose => some 'v'
  | output => some 'o'
  | _ => none

def takesValue : Switch → Bool
  | output => true
  | _ => false

end Switch

/-- Arguments taken apart. The values of an option are kept in order. -/
structure Arguments where
  switches : List Switch := []
  outputs : List String := []
  words : List String := []

namespace Arguments

def addSwitch (a : Arguments) (s : Switch) : Arguments := { a with switches := s :: a.switches }

def addOutput (a : Arguments) (text : String) : Arguments := { a with outputs := text :: a.outputs }

def addWords (a : Arguments) (words : List String) : Arguments :=
  { a with words := words ++ a.words }

end Arguments

/-- An option as it is written: which one it is, and a value in the same argument. -/
structure Written where
  switch : Switch
  value : Option String

/-- The text before the first equals sign and the text after it. -/
def splitEquals (text : List Char) : String × Option String :=
  (String.ofList (text.takeWhile (· ≠ '=')),
    (text.dropWhile (· ≠ '=')).tail?.map String.ofList)

/-- The short options of an argument, from its second character on. -/
def shortOptions? (allowed : List Switch) : List Char → Option (List Written)
  | [] => some []
  | c :: rest => do
    let switch ← allowed.find? (·.short? = some c)
    if switch.takesValue then
      return [⟨switch, if rest = [] then none else some (String.ofList rest)⟩]
    else return ⟨switch, none⟩ :: (← shortOptions? allowed rest)

/-- The options that an argument stands for. -/
def options? (allowed : List Switch) (text : List Char) : Option (List Written) :=
  let (name, value) := splitEquals text
  match allowed.find? (·.long = name) with
  | some switch => if switch.takesValue ∨ value = none then some [⟨switch, value⟩] else none
  | none => if ['-', '-'].isPrefixOf text then none else shortOptions? allowed text.tail

def isOption (text : List Char) : Bool := text.head? = some '-' && text.length > 1

/-- Adds the switches of an argument and the value that stands in it. -/
def written (options : List Written) (a : Arguments) : Arguments :=
  options.foldr (fun w a =>
    match w.value with
    | some text => a.addOutput text
    | none => if w.switch.takesValue then a else a.addSwitch w.switch) a

/-- Whether the value of an option stands in the next argument. -/
def wantsValue (options : List Written) : Bool :=
  options.any fun w => w.switch.takesValue && w.value = none

/-- Takes the arguments of a command apart. -/
def scan (allowed : List Switch) : List String → Option Arguments
  | [] => some {}
  | arg :: rest =>
    if arg = "--" then some { words := rest }
    else if isOption arg.toList then
      match options? allowed arg.toList with
      | none => none
      | some options =>
        if wantsValue options then
          match rest with
          | [] => none
          | value :: rest => (scan allowed rest).map fun a => written options (a.addOutput value)
        else (scan allowed rest).map (written options)
    else (scan allowed rest).map (·.addWords [arg])

/-- No path holds a zero character. -/
def isPath (text : String) : Bool := text.toList.all (·.toNat ≠ 0)

def checkCommand (a : Arguments) : Except Refusal Command :=
  if a.words.all isPath then
    .ok (.check a.words (a.switches.contains .strict) (a.switches.contains .verbose))
  else .error .usage

/-- The last output holds. -/
def dumpCommand (a : Arguments) : Except Refusal Command :=
  let output := a.outputs.getLast?
  match a.words with
  | [path] =>
    if isPath path && output.all isPath then
      .ok (.dump path output (a.switches.contains .verbose))
    else .error .usage
  | _ => .error .usage

/-- A command from its arguments. Help is given whenever the options can be read. -/
def command (allowed : List Switch) (make : Arguments → Except Refusal Command)
    (args : List String) : Except Refusal Command :=
  match scan (.help :: allowed) args with
  | none => .error .usage
  | some a => if a.switches.contains .help then .error .help else make a

/-- The command of a name; a command needs arguments. The server for editors has help only. -/
def named? (name : String) (args : List String) : Option (Except Refusal Command) :=
  if name = "check" then some (command [.strict, .verbose] checkCommand args)
  else if name = "dump" then some (command [.output, .verbose] dumpCommand args)
  else if name = "serve" then some (command [] (fun _ => .error .usage) args)
  else none

/-! ## The program's own options -/

/-- The options in front of a command. -/
def ownSwitches : List Switch := [.help, .installCompletion, .showCompletion]

/-- The options in front of a command and what follows them. -/
def leading : List String → Option (List Switch × List String)
  | [] => some ([], [])
  | arg :: rest =>
    if arg = "--" then some ([], rest)
    else if isOption arg.toList then do
      let options ← options? ownSwitches arg.toList
      let (more, words) ← leading rest
      return (options.map (·.switch) ++ more, words)
    else some ([], arg :: rest)

/-- The command that the arguments ask for. What stands in place of a command's name and is none is
read as an option once more. -/
def Command.parse (args : List String) : Except Refusal Command :=
  match leading args with
  | none => .error .usage
  | some (switches, words) =>
    if switches.contains .help then .error .help
    else
      match switches, words with
      | [], name :: more =>
        match named? name more with
        | some result => if more = [] then .error .usage else result
        | none =>
          match leading words with
          | some (again, _) => if again.contains .help then .error .help else .error .usage
          | none => .error .usage
      | _, _ => .error .usage

end PineScript.CommandLine
