import Unstack.Command.Arguments
import Unstack.Command.SessionLog
import Unstack.Pipeline.Stage
import Unstack.Printer.Json
import Unstack.Printer.Text
import Unstack.Reader

/-! # Running the command

The command reads a tree, runs the selected passes on it and prints the result.  Here it is a
function from arguments and surroundings to everything a caller can observe. -/

namespace Unstack.Command

/-- What a run finds around it. -/
structure World where
  stdin : ByteArray
  /-- The contents of a file, if it exists. -/
  files : String → Option ByteArray
  /-- The list of passes to skip from the environment. -/
  skipList : Option String
  /-- The log level from the environment. -/
  logLevel : Option String
  logDirectory : LogDirectory

/-- Why a run fails with a report. -/
inductive Failure where
  | noLogDirectory
  | badFile (path : String) (error : FileError)
  | badStdin (error : FileError)
  /-- The passes cannot be put together. -/
  | badPipeline (error : PipelineError)
  /-- The passes cannot be put in order. -/
  | badOrder (error : PipelineError)
deriving DecidableEq, Repr

namespace Failure

/-- What the run was about to do. -/
def context : Failure → String
  | noLogDirectory => "failed to initialize logging"
  | badFile path _ => s!"failed to read tree from {path}"
  | badStdin (.malformed _) => "failed to parse input tree"
  | badStdin _ => "failed to read stdin"
  | badPipeline _ => "failed to build pipeline"
  | badOrder _ => "pipeline failed"

/-- Why it could not, the nearest cause first. -/
def causes : Failure → List String
  | noLogDirectory => ["Not a directory (os error 20)"]
  | badFile _ e => e.message :: e.systemMessage?.toList
  | badStdin e => [e.systemMessage?.getD e.message]
  | badPipeline e | badOrder e => [e.message]

/-- Causes, numbered if there are several. -/
def causeLines (causes : List String) : List String :=
  if causes.length ≤ 1 then causes.map ("    " ++ ·)
  else causes.zipIdx.map fun c => s!"    {c.2}: {c.1}"

/-- The report of a failure. -/
def report (f : Failure) : String :=
  s!"Error: {f.context}\n\nCaused by:\n" ++ String.intercalate "\n" (causeLines f.causes)

end Failure

/-- What a run leaves behind. -/
structure Outcome where
  code : UInt32
  stdout : String
  /-- The events shown on the terminal. -/
  log : List Event
  /-- Whether the terminal log is coloured. -/
  coloured : Bool
  report : Option String
  /-- The fault that broke the run off. -/
  fault : Option Fault
  /-- The log directory's former entries that are still there, if there is a directory. -/
  kept : Option (List LogEntry)
  /-- The events in the new session log, if there is one. -/
  session : Option (List Event)

/-- The result of the passes: the text to print, and whether the run succeeds. -/
structure Verdict where
  output : String
  success : Bool

/-- Reads the tree from the file asked for, or from standard input. -/
def readInput (args : Arguments) (w : World) : Except Failure Arena :=
  match args.input with
  | some path => (Arena.readBytes (w.files path)).mapError (.badFile path)
  | none => (Arena.readBytes (some w.stdin)).mapError .badStdin

/-- The passes that a run applies. -/
def selection (args : Arguments) (w : World) : Traced Selection := do
  let s ← Selection.ofSources w.skipList args.skipPasses
  if args.check then s.requireCheck else return s

/-- The selected passes, put in order and ready to run on a tree. -/
def passes (s : Selection) (a : Arena) : Except Failure (Traced (Arena × Findings)) := do
  let p ← (Pipeline.standard s).mapError .badPipeline
  (p.apply a ⟨[], []⟩).mapError .badOrder

/-- The verdict on a tree that the passes have left. -/
def judge (args : Arguments) (s : Selection) (a : Arena) (f : Findings) : Traced Verdict := do
  let t ← (a.tree : Except Fault Tree)
  let output := (if args.json then Printer.jsonPretty t else Printer.pretty t) ++ "\n"
  if s.check && !f.offenders.isEmpty then do
    Traced.emit (.offendersRemain f.offenders.length)
    return ⟨output, !args.check⟩
  else
    return ⟨output, true⟩

/-- Runs the passes on a tree and prints the result. -/
def process (args : Arguments) (w : World) (a : Arena) : Traced (Except Failure Verdict) := do
  Traced.emit (.treeRead a.size)
  let s ← selection args w
  match passes s a with
  | .error f => return .error f
  | .ok run => do
    let (a, findings) ← run
    let v ← judge args s a findings
    return .ok v

/-- The outcome of a run that ended before it could log anything. -/
def Outcome.silent (code : UInt32) (stdout : String) (report : Option String)
    (kept : Option (List LogEntry)) : Outcome :=
  { code, stdout, log := [], coloured := false, report, fault := none, kept, session := none }

/-- The outcome of a run with its events; `kept` holds the log directory's entries. -/
def Outcome.logged (args : Arguments) (w : World) (kept : Option (List LogEntry))
    (events : List Event) : Outcome :=
  let log := (LogFilter.choose args.logLevel w.logLevel).select events
  { code := 0, stdout := "", log, report := none, fault := none, kept
    coloured := !args.noColor && !log.isEmpty
    session := if args.logFile then some ((LogFilter.atLeast .debug).select events) else none }

/-- Runs the command once its logs are set up. -/
def runLogged (args : Arguments) (w : World) (kept : Option (List LogEntry)) : Outcome :=
  match readInput args w with
  | .error f => { Outcome.logged args w kept [] with code := 1, report := some f.report }
  | .ok a =>
    let r := process args w a
    let o := Outcome.logged args w kept r.events
    match r.result with
    | .error f => { o with code := 101, fault := some f }
    | .ok (.error f) => { o with code := 1, report := some f.report }
    | .ok (.ok v) => { o with code := if v.success then 0 else 1, stdout := v.output }

/-- Runs the command. -/
def run (args : List String) (w : World) : Outcome :=
  match Arguments.parse args with
  | .help => .silent 0 helpText none w.logDirectory.entries?
  | .badUsage => .silent 2 "" none w.logDirectory.entries?
  | .run args =>
    if args.logFile then
      match w.logDirectory.openSession with
      | none => .silent 1 "" (some Failure.noLogDirectory.report) none
      | some kept => runLogged args w (some kept)
    else runLogged args w w.logDirectory.entries?

end Unstack.Command
