import PineScript.Analysis
import PineScript.Schedule

/-!
# Sessions

A session runs passes over documents one at a time. Submitted passes wait in a queue until a step
runs them. Steps may also come while a pass is under way: before its rules run, during each of them,
after they have run, or while its result is delivered. They are given with the pass, as its
interruptions. The ledger of a session holds what concerns its passes, with all that has happened to
them.
-/

namespace PineScript.Session

/-! ## Steps -/

mutual

inductive Step where
  | submit (uri source : String) (interruptions : Interruptions)
  /-- Runs a pass that waits in the queue. -/
  | run (job : Int)
  /-- Runs all passes that wait, also those that come up meanwhile. -/
  | runAll
  | discard (uri : String)
  /-- The document is closed: its pass is discarded and its diagnostics are taken back. -/
  | close (uri : String)
  /-- Cancels all passes, refuses new ones and runs what waits. -/
  | shutdown

/-- What happens while a pass is under way. -/
inductive Interruptions where
  | mk (beforeRules afterRules onDelivery : List Step) (deliveryFault analysisFault : Option String)
  /-- Steps come during the rules as well: those of the first list during the first rule, and so
  on. -/
  | during (rules : List (List Step)) (others : Interruptions)

end

namespace Interruptions

def none : Interruptions := .mk [] [] [] .none .none

def beforeRules : Interruptions → List Step
  | .mk steps _ _ _ _ => steps
  | .during _ others => others.beforeRules

def duringRules : Interruptions → List (List Step)
  | .mk _ _ _ _ _ => []
  | .during rules _ => rules

def afterRules : Interruptions → List Step
  | .mk _ steps _ _ _ => steps
  | .during _ others => others.afterRules

def onDelivery : Interruptions → List Step
  | .mk _ _ steps _ _ => steps
  | .during _ others => others.onDelivery

def deliveryFault : Interruptions → Option String
  | .mk _ _ _ fault _ => fault
  | .during _ others => others.deliveryFault

def analysisFault : Interruptions → Option String
  | .mk _ _ _ _ fault => fault
  | .during _ others => others.analysisFault

end Interruptions

mutual

/-- The number of steps in a step. -/
def Step.weight : Step → Nat
  | .submit _ _ i => 1 + i.weight
  | _ => 1

def Interruptions.weight : Interruptions → Nat
  | .mk before after onDelivery _ _ =>
    Step.weights before + Step.weights after + Step.weights onDelivery
  | .during rules others => Step.totalWeights rules + others.weight

def Step.weights : List Step → Nat
  | [] => 0
  | step :: more => step.weight + Step.weights more

def Step.totalWeights : List (List Step) → Nat
  | [] => 0
  | steps :: more => Step.weights steps + Step.totalWeights more

end

inductive StepKind where
  | submit | run | runAll | discard | close | shutdown
deriving DecidableEq, Repr

def Step.kind : Step → StepKind
  | .submit _ _ _ => .submit
  | .run _ => .run
  | .runAll => .runAll
  | .discard _ => .discard
  | .close _ => .close
  | .shutdown => .shutdown

/-! ## Reports -/

/-- The diagnostics of a document as they are sent out. -/
structure Delivery where
  uri : String
  diagnostics : List Diagnostic
deriving DecidableEq, Repr

mutual

/-- What a step did, the documents with a pass that counts after it, and what was sent and logged
since the last report. -/
inductive Report where
  | mk (kind : StepKind) (outcome : Outcome) (waiting : List String) (sent : List Delivery)
      (logs : List LogRecord)

inductive Outcome where
  | done
  | queued (job : Nat)
  | refused
  /-- There was no such pass to run. -/
  | notRun
  | ran (result : JobResult)
  | drained (results : List JobResult)

/-- Whether a pass published, and the reports of the steps that interrupted it. -/
inductive JobResult where
  | mk (job : Nat) (published : Bool) (nested : List Report)

end

/-! ## Ledgers -/

/-- A pass that waits to be run. -/
structure Job where
  number : Nat
  uri : String
  source : String
  interruptions : Interruptions

/-- What happened to passes and documents. -/
inductive Entry where
  | submitted (pass : Nat) (uri source : String)
  | discarded (uri : String)
  | shutDown
  /-- The analysis of a pass ended, with a result or without one. -/
  | analysed (pass : Nat)
  | published (pass : Nat) (delivery : Delivery)
  /-- The diagnostics of a document were taken back. -/
  | withdrawn (uri : String)
  | returned (pass : Nat) (published : Bool)
deriving DecidableEq, Repr

/-- What was sent out. -/
def Entry.delivery? : Entry → Option Delivery
  | .published _ delivery => some delivery
  | .withdrawn uri => some ⟨uri, []⟩
  | _ => none

structure Ledger where
  schedule : Schedule
  queue : List Job
  /-- Whether new passes are turned away from the queue. -/
  refusing : Bool
  /-- All that has happened, the latest at the end. -/
  history : List Entry

namespace Ledger

def empty : Ledger := ⟨.empty, [], false, []⟩

def record (l : Ledger) (e : Entry) : Ledger := { l with history := l.history ++ [e] }

/-- A new pass for a document. The schedule knows of it even if the queue refuses it. -/
def submit (l : Ledger) (uri source : String) (i : Interruptions) : Ledger where
  schedule := l.schedule.submit uri
  queue := if l.refusing then l.queue else l.queue ++ [⟨l.schedule.submitted, uri, source, i⟩]
  refusing := l.refusing
  history := l.history ++ [.submitted l.schedule.submitted uri source]

def discard (l : Ledger) (uri : String) : Ledger :=
  { l with schedule := l.schedule.discard uri }.record (.discarded uri)

def close (l : Ledger) (uri : String) : Ledger := (l.discard uri).record (.withdrawn uri)

def shutdown (l : Ledger) : Ledger :=
  { l with schedule := l.schedule.shutdown, refusing := true }.record .shutDown

/-- Takes a job out of the queue. -/
def take? (number : Int) (l : Ledger) : Option (Job × Ledger) :=
  (l.queue.find? (fun job => (job.number : Int) == number)).map fun job =>
    (job, { l with queue := l.queue.filter fun other => (other.number : Int) != number })

def finish (l : Ledger) (job : Job) : Ledger :=
  { l with schedule := l.schedule.finish job.uri job.number }

end Ledger

/-! ## State -/

structure State extends Ledger where
  log : List LogRecord
  /-- How much of the log and of the history was reported. -/
  toldLog : Nat
  toldHistory : Nat
  /-- The ledger after each step that was reported. -/
  stops : List Ledger

namespace State

def start : State := { Ledger.empty with log := [], toldLog := 0, toldHistory := 0, stops := [] }

def addLog (s : State) (r : LogRecord) : State := { s with log := s.log ++ [r] }

/-- Changes the ledger. -/
def update (s : State) (f : Ledger → Ledger) : State := { s with toLedger := f s.toLedger }

/-- Reports a step and takes note of what has been reported. -/
def report (s : State) (kind : StepKind) (outcome : Outcome) : Report × State :=
  (.mk kind outcome s.schedule.waiting ((s.history.drop s.toldHistory).filterMap Entry.delivery?)
      (s.log.drop s.toldLog),
    { s with
      toldLog := s.log.length
      toldHistory := s.history.length
      stops := s.stops ++ [s.toLedger] })

end State

/-! ## Passes -/

/-- How a session runs passes. -/
structure Setup where
  rules : List Rule
  /-- Whether a submitted pass runs at once. -/
  immediate : Bool := false
  digits : DigitLimit := .standard

def superseded (uri : String) (stage : Stage) : LogRecord :=
  let stage := stage.text
  ⟨.debug, .scheduler, s!"Pass for {uri} superseded (stopped {stage})", .none⟩

def outdated (uri : String) : LogRecord :=
  ⟨.debug, .scheduler, s!"Pass for {uri} finished after being superseded", .none⟩

def analysisFailed (uri text : String) : LogRecord :=
  ⟨.error, .scheduler, s!"Analysis of {uri} failed", some (.raised "RuntimeError" [.text text])⟩

def deliveryFailed (uri text : String) : LogRecord :=
  ⟨.error, .scheduler, s!"Publishing diagnostics for {uri} failed",
    some (.raised "ConnectionError" [.text text])⟩

/-- The state of a pass under way: the session, and the reports of the steps that interrupted it. -/
abbrev Underway := State × List Report

def host (job : Job) : Host Underway where
  cancelled s := s.1.schedule.isCancelled job.number
  log r s := (s.1.addLog r, s.2)

/-- Takes steps and collects their reports. -/
def interrupt (perform : Step → State → Report × State) (steps : List Step) (s : Underway) :
    Underway :=
  steps.foldl (fun (state, reports) step =>
    let (report, state) := perform step state
    (state, reports ++ [report])) s

/-- A rule during which steps come. -/
def interrupted (digits : DigitLimit) (perform : Step → State → Report × State) (steps : List Step)
    (rule : Rule) : Check Underway :=
  fun program tokens s => (rule.verdict digits program tokens, interrupt perform steps s)

/-- The rules, each with the steps that come during it. -/
def interruptedRules (digits : DigitLimit) (perform : Step → State → Report × State) :
    List Rule → List (List Step) → Registry Underway
  | [], _ => []
  | rule :: more, [] => (rule.id, rule.toCheck digits) :: interruptedRules digits perform more []
  | rule :: more, steps :: others =>
    (rule.id, interrupted digits perform steps rule) :: interruptedRules digits perform more others

/-- A rule that finds nothing; steps come while it runs. -/
def pause (perform : Step → State → Report × State) (steps : List Step) : Check Underway :=
  fun _ _ s => (.items [], interrupt perform steps s)

def registry (setup : Setup) (perform : Step → State → Report × State) (job : Job) :
    Registry Underway :=
  ("HOOK_FIRST", pause perform job.interruptions.beforeRules)
    :: interruptedRules setup.digits perform setup.rules job.interruptions.duringRules
    ++ [("HOOK_LAST", pause perform job.interruptions.afterRules)]

/-- Delivers the result of a pass that is still current. -/
def publish (perform : Step → State → Report × State) (job : Job) (ds : List Diagnostic)
    (s : Underway) : Bool × Underway :=
  let (state, reports) := interrupt perform job.interruptions.onDelivery s
  match job.interruptions.deliveryFault with
  | some text => (false, (state.addLog (deliveryFailed job.uri text)).update (·.finish job), reports)
  | none =>
    let state := state.update (·.record (.published job.number ⟨job.uri, ds⟩))
    (true, state.update (·.finish job), reports)

/-- What becomes of a pass when its analysis has ended. -/
def conclude (perform : Step → State → Report × State) (job : Job)
    (result : Except Stage (List Diagnostic)) (s : Underway) : Bool × Underway :=
  match result with
  | .error stage => (false, (host job).log (superseded job.uri stage) s)
  | .ok ds =>
    if s.1.schedule.isCurrent job.uri job.number then publish perform job ds s
    else (false, (host job).log (outdated job.uri) s)

/-- Runs a pass that was taken out of the queue. -/
def runJob (setup : Setup) (perform : Step → State → Report × State) (job : Job) (s : State) :
    JobResult × State :=
  let ended (s : State) : State := s.update (·.record (.analysed job.number))
  let (published, state, reports) :=
    match job.interruptions.analysisFault with
    | some text =>
      (false, ((ended s).addLog (analysisFailed job.uri text)).update (·.finish job), [])
    | none =>
      let (result, state, reports) :=
        Analysis.run (host job) (registry setup perform job) job.source (s, [])
      conclude perform job result (ended state, reports)
  (.mk job.number published reports, state.update (·.record (.returned job.number published)))

/-- Runs the job with the given number, if it waits. -/
def runOne (run : Job → State → JobResult × State) (kind : StepKind) (number : Int) (s : State) :
    Report × State :=
  match s.take? number with
  | none => s.report kind .notRun
  | some (job, rest) =>
    let (result, s) := run job (s.update fun _ => rest)
    s.report kind (.ran result)

/-- Runs the jobs of the queue from its front, at most so many. -/
def drain (run : Job → State → JobResult × State) : Nat → State → List JobResult × State
  | 0, s => ([], s)
  | bound + 1, s =>
    match s.queue with
    | [] => ([], s)
    | job :: more =>
      let (result, s) := run job (s.update ({ · with queue := more }))
      let (results, s) := drain run bound s
      (result :: results, s)

/-! ## Running steps -/

/-- Takes a step. `bound` is the number of steps there are at all: no more passes can come up, and
steps cannot be nested deeper than `depth`, which starts from it. -/
def performFor (setup : Setup) (bound : Nat) : Nat → Step → State → Report × State
  | 0, step, s => s.report step.kind .done
  | depth + 1, step, s =>
    let run := runJob setup (performFor setup bound depth)
    match step with
    | .submit uri source i =>
      let number := s.schedule.submitted
      let s := s.update (·.submit uri source i)
      if s.refusing then s.report step.kind .refused
      else if setup.immediate then runOne run step.kind number s
      else s.report step.kind (.queued number)
    | .run number => runOne run step.kind number s
    | .runAll =>
      let (results, s) := drain run bound s
      s.report step.kind (.drained results)
    | .discard uri => (s.update (·.discard uri)).report step.kind .done
    | .close uri => (s.update (·.close uri)).report step.kind .done
    | .shutdown =>
      let (results, s) := drain run bound (s.update Ledger.shutdown)
      s.report step.kind (.drained results)

/-- Takes steps one after the other. -/
def performAll (setup : Setup) (bound : Nat) : List Step → State → List Report × State
  | [], s => ([], s)
  | step :: more, s =>
    let (report, s) := performFor setup bound (bound + 1) step s
    let (reports, s) := performAll setup bound more s
    (report :: reports, s)

/-- The reports of a session from its start. -/
def replay (setup : Setup) (steps : List Step) : List Report :=
  (performAll setup (Step.weights steps) steps .start).1

end PineScript.Session
