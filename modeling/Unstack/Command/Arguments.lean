/-! # Command-line arguments

The options of the command line.  Options may be given in any order around the input; a
valued option takes its value after an equals sign or from the next argument; two dashes end
the options.  Only `--skip-pass` may be repeated. -/

namespace Unstack.Command

/-- What the command line asks for. -/
structure Arguments where
  /-- The file to read, instead of standard input. -/
  input : Option String
  json : Bool
  skipPasses : List String
  logLevel : Option String
  noColor : Bool
  logFile : Bool
  check : Bool
deriving DecidableEq, Repr

/-- A command line, understood or not. -/
inductive Request where
  | run (args : Arguments)
  | help
  | badUsage
deriving DecidableEq, Repr

/-- An option without a value. -/
inductive Switch where
  | json
  | noColor
  | logFile
  | check
deriving DecidableEq, Repr

/-- An option with a value. -/
inductive Setting where
  | skipPass
  | logLevel
deriving DecidableEq, Repr

/-- An option. -/
inductive Flag where
  | switch (s : Switch)
  | setting (s : Setting)
  | help
deriving DecidableEq, Repr

namespace Flag

/-- The option with a given long name. -/
def ofName? (name : String) : Option Flag :=
  if name = "json" then some (.switch .json)
  else if name = "no-color" then some (.switch .noColor)
  else if name = "log-file" then some (.switch .logFile)
  else if name = "check" then some (.switch .check)
  else if name = "skip-pass" then some (.setting .skipPass)
  else if name = "log-level" then some (.setting .logLevel)
  else if name = "help" then some .help
  else none

end Flag

namespace Arguments

/-- No options and no input. -/
def initial : Arguments := ⟨none, false, [], none, false, false, false⟩

/-- Turns a switch on; it must not be on already. -/
def turnOn (a : Arguments) : Switch → Option Arguments
  | .json => if a.json then none else some { a with json := true }
  | .noColor => if a.noColor then none else some { a with noColor := true }
  | .logFile => if a.logFile then none else some { a with logFile := true }
  | .check => if a.check then none else some { a with check := true }

/-- Gives a setting a value; the log level must not have one already. -/
def assign (a : Arguments) (s : Setting) (value : String) : Option Arguments :=
  match s with
  | .skipPass => some { a with skipPasses := a.skipPasses ++ [value] }
  | .logLevel => if a.logLevel.isSome then none else some { a with logLevel := some value }

/-- Takes an argument as the input; there must be none yet, and it must not be empty. -/
def takeInput (a : Arguments) (path : String) : Option Arguments :=
  if a.input.isSome || path.isEmpty then none else some { a with input := some path }

/-- Whether an argument has the look of an option and so cannot be a value. -/
def looksLikeOption : List Char → Bool
  | '-' :: _ :: _ => true
  | _ => false

/-- Takes the arguments that are left as inputs. -/
def takeInputs (a : Arguments) : List String → Request
  | [] => .run a
  | path :: rest =>
    match a.takeInput path with
    | some a => a.takeInputs rest
    | none => .badUsage

/-- How one argument is to be read. -/
inductive Shape where
  | input
  /-- Two dashes. -/
  | endOfOptions
  /-- A single dash and letters. -/
  | short (letters : List Char)
  /-- Two dashes and a name, maybe with a value after an equals sign. -/
  | long (name : String) (value : Option String)

/-- The shape of an argument. -/
def shape (arg : String) : Shape :=
  match arg.toList with
  | ['-', '-'] => .endOfOptions
  | '-' :: '-' :: cs =>
    let name := String.ofList (cs.takeWhile (· ≠ '='))
    match cs.dropWhile (· ≠ '=') with
    | [] => .long name none
    | _ :: value => .long name (some (String.ofList value))
  | '-' :: c :: cs => .short (c :: cs)
  | _ => .input

/-- Reads arguments, one after another; the first mistake or request for help decides. -/
def parseFrom (a : Arguments) : List String → Request
  | [] => .run a
  | arg :: rest =>
    match shape arg with
    | .input =>
      match a.takeInput arg with
      | some a => a.parseFrom rest
      | none => .badUsage
    | .endOfOptions => a.takeInputs rest
    | .short ('h' :: _) => .help
    | .short _ => .badUsage
    | .long name value =>
      match Flag.ofName? name, value with
      | some (.switch s), none =>
        match a.turnOn s with
        | some a => a.parseFrom rest
        | none => .badUsage
      | some (.setting s), some value =>
        match a.assign s value with
        | some a => a.parseFrom rest
        | none => .badUsage
      | some (.setting s), none =>
        match rest with
        | [] => .badUsage
        | value :: rest =>
          if looksLikeOption value.toList then .badUsage
          else
            match a.assign s value with
            | some a => a.parseFrom rest
            | none => .badUsage
      | some .help, none => .help
      | _, _ => .badUsage

/-- Reads a command line. -/
def parse (args : List String) : Request := initial.parseFrom args

end Arguments

/-- The text that explains the command line. -/
def helpText : String := String.intercalate "\n"
  ["Normalize decompiled AVM2 expression trees",
   "",
   "Usage: avm2-normalize [OPTIONS] [INPUT]",
   "",
   "Arguments:",
   "  [INPUT]  S-expression tree to normalize. Reads stdin when omitted",
   "",
   "Options:",
   "      --json                     Print the result as JSON instead of an S-expression",
   "      --skip-pass <SKIP_PASSES>  Passes to skip (\"ast-normalize\", \"canonical-check\")",
   "      --log-level <LOG_LEVEL>    Log level for stderr (otherwise RUST_LOG, then \"info\")",
   "      --no-color                 Disable ANSI colors in log output",
   "      --log-file                 Also write a debug-level session log to the user cache " ++
     "directory",
   "      --check                    Exit with status 1 if non-canonical nodes remain. Runs " ++
     "the canonical check even when it is listed in the skipped passes",
   "  -h, --help                     Print help",
   ""]

end Unstack.Command
