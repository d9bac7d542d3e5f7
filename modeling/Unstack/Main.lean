import Unstack.Command.Run

/-! # The command line program

Reads the surroundings of a run, runs the command, and carries out what it says. -/

namespace Unstack.Command

/-- The directory for session logs, below the user's cache directory. -/
def logPath : IO String := do
  let cache ← match ← IO.getEnv "XDG_CACHE_HOME" with
    | some dir =>
      if dir.startsWith "/" then pure dir
      else pure (((← IO.getEnv "HOME").getD "") ++ "/.cache")
    | none => pure (((← IO.getEnv "HOME").getD "") ++ "/.cache")
  return cache ++ "/avm2-ast-normalizer"

/-- Nanoseconds since the epoch. -/
def nanoseconds (t : IO.FS.SystemTime) : Int := t.sec * 1000000000 + t.nsec.toNat

/-- The time at which a fresh file is made. -/
def stamp (dir : String) : IO Int := do
  let path := dir ++ "/.stamp"
  IO.FS.writeFile path ""
  let time := (← (← IO.FS.realPath path).metadata).modified
  IO.FS.removeFile path
  return nanoseconds time

/-- The entries of the log directory. -/
def scanLogs (dir : String) (now : Int) : IO (List LogEntry) := do
  let entries ← (← IO.FS.realPath dir).readDir
  entries.toList.mapM fun e => do
    let m ← e.path.metadata
    return ⟨e.fileName, m.type == .file, now - nanoseconds m.modified⟩

/-- The log directory as a run finds it, and the time; the directory is made if need be. -/
def surveyLogs (dir : String) : IO (LogDirectory × Int) := do
  try
    IO.FS.createDirAll dir
    let now ← stamp dir
    return (.present (← scanLogs dir now), now)
  catch _ => return (.blocked, 0)

/-- The contents of a file, if it can be read. -/
def contents? (path : String) : IO (Option ByteArray) := do
  try return some (← IO.FS.readBinFile path)
  catch _ => return none

/-- A log line; the level is coloured if asked for. -/
def logLine (coloured : Bool) (e : Event) : String :=
  let colour :=
    match e.level with
    | .trace => "35"
    | .debug => "34"
    | .info => "32"
    | .warn => "33"
    | .error => "31"
  if coloured then
    s!"\x1b[{colour}m{e.level.tag}\x1b[0m \x1b[2m{e.source}:\x1b[0m {e.logText}"
  else e.sourcedLine

/-- Writes the session log and removes what has expired. -/
def keepLogs (dir : String) (now : Int) (before kept : List LogEntry) (events : List Event) :
    IO Unit := do
  for e in before do
    if !kept.contains e then
      try IO.FS.removeFile (dir ++ "/" ++ e.name)
      catch err => IO.eprintln s!"Failed to remove old log file {e.name}: {err}"
  let path := s!"{dir}/session-{now}.log"
  IO.FS.writeFile path (String.join (events.map fun e => e.sourcedLine ++ "\n"))
  IO.eprintln s!"Logging to file: {path}"

/-- Runs the command in its surroundings. -/
def execute (args : List String) : IO UInt32 := do
  let request := Arguments.parse args
  let dir ← logPath
  let (logs, now) ← match request with
    | .run a => if a.logFile then surveyLogs dir else pure (.absent, 0)
    | _ => pure (.absent, 0)
  let (stdin, file) ← match request with
    | .run a =>
      match a.input with
      | some path => pure (ByteArray.empty, ← contents? path)
      | none => pure (← (← IO.getStdin).readBinToEnd, none)
    | _ => pure (ByteArray.empty, none)
  let outcome := run args {
    stdin
    files := fun _ => file
    skipList := ← IO.getEnv skipVariable
    logLevel := ← IO.getEnv "RUST_LOG"
    logDirectory := logs }
  match outcome.session, outcome.kept with
  | some events, some kept => keepLogs dir now (logs.entries?.getD []) kept events
  | _, _ => pure ()
  for e in outcome.log do
    IO.eprintln (logLine outcome.coloured e)
  IO.print outcome.stdout
  if let some report := outcome.report then IO.eprintln report
  if let some message := outcome.fault.bind Fault.message? then IO.eprintln message
  if outcome.code == 2 then IO.eprintln helpText
  return outcome.code

end Unstack.Command

/-- The program. -/
def main (args : List String) : IO UInt32 := Unstack.Command.execute args
