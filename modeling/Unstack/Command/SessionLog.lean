import Unstack.Event
import Unstack.Selection

/-! # Logs

Which events reach the terminal, and the directory of session logs: one file per run, kept for
seven days.

The terminal has a filter, which is written as directives with commas between them.  A directive is
a level, or the beginning of the names of some sources, or both with an equals sign between them.
Of the directives about a source, the one with the longest beginning decides. -/

namespace Unstack.Command

/-- The least level that is shown, or nothing at all. -/
abbrev Threshold := Option Level

namespace Threshold

/-- The threshold of a given name, in any case, or of a given number. -/
def ofName? (name : String) : Option Threshold :=
  match String.ofList (name.toList.map Char.toLower) with
  | "trace" | "5" => some (some .trace)
  | "debug" | "4" => some (some .debug)
  | "info" | "3" => some (some .info)
  | "warn" | "2" => some (some .warn)
  | "error" | "1" => some (some .error)
  | "off" | "0" => some none
  | _ => none

/-- Whether events of a level are shown. -/
def admits (t : Threshold) (level : Level) : Bool :=
  match t with
  | some least => decide (least.rank ≤ level.rank)
  | none => false

end Threshold

/-- One part of a filter. -/
structure Directive where
  /-- How the names of the sources begin that it is about. -/
  target : String
  /-- Whether it is about what happens inside spans only.  There are no spans in this program. -/
  inSpan : Bool
  least : Threshold
deriving DecidableEq, Repr

namespace Directive

/-- Whether a text can be the beginning of a name: it starts like a word. -/
def isTarget : List Char → Bool
  | [] => false
  | c :: _ => c.isAlphanum || c = '_' || c = ':' || c = '-' || decide (128 ≤ c.toNat)

/-- Reads what follows the target: a level after an equals sign, or else all levels. -/
def parseLevel? : List Char → Option Threshold
  | [] | ['='] => some (some .trace)
  | '=' :: name => Threshold.ofName? (String.ofList name)
  | _ => none

/-- Reads a directive.  A part in brackets makes it one about spans. -/
def parse? (text : List Char) : Option Directive :=
  let head := text.takeWhile fun c => c ≠ '=' && c ≠ '['
  let target := String.ofList head
  match text.drop head.length with
  | '[' :: span =>
    match span.dropWhile (· ≠ ']') with
    | _ :: level =>
      if head.isEmpty || isTarget head then (parseLevel? level).map (⟨target, true, ·⟩) else none
    | [] => none
  | level =>
    match Threshold.ofName? target, level with
    | some least, [] => some ⟨"", false, least⟩
    | _, _ => if isTarget head then (parseLevel? level).map (⟨target, false, ·⟩) else none

/-- Whether the directive is about events from a source. -/
def isAbout (d : Directive) (source : String) : Bool :=
  !d.inSpan && d.target.toList.isPrefixOf source.toList

end Directive

/-- A filter of events: its directives, as they are written. -/
abbrev LogFilter := List Directive

namespace LogFilter

/-- Shows all events from a level up. -/
def atLeast (least : Level) : LogFilter := [⟨"", false, some least⟩]

/-- The texts between the commas of a filter, without empty ones. -/
def pieces (text : String) : List (List Char) :=
  (Selection.splitCommas text.toList).filter (!·.isEmpty)

/-- The filter of some directives; if there are none, it shows errors. -/
def ofDirectives (ds : List Directive) : LogFilter := if ds.isEmpty then atLeast .error else ds

/-- Reads a filter, and leaves out the directives that cannot be read. -/
def parse (text : String) : LogFilter := ofDirectives ((pieces text).filterMap Directive.parse?)

/-- Reads a filter all of whose directives can be read. -/
def parse? (text : String) : Option LogFilter :=
  ((pieces text).mapM Directive.parse?).map ofDirectives

/-- The filter for the terminal: the one asked for, else the one in the environment if it can be
read, else informative events. -/
def choose (asked environment : Option String) : LogFilter :=
  match asked with
  | some text => parse text
  | none => (environment.bind parse?).getD (atLeast .info)

/-- The directive that decides about a source: of those about it the most specific one, and of
several such the last. -/
def decisive? (f : LogFilter) (source : String) : Option Directive :=
  (f.reverse.filter (·.isAbout source)).maxOn? (·.target.length)

/-- Whether an event is shown. -/
def admits (f : LogFilter) (e : Event) : Bool :=
  match f.decisive? e.source with
  | some d => d.least.admits e.level
  | none => false

/-- The events that are shown, in order. -/
def select (f : LogFilter) (es : List Event) : List Event := es.filter f.admits

/-- No directive about a source is more specific than the one that decides. -/
theorem length_target_le_of_decisive? {f : LogFilter} {source : String} {d e : Directive}
    (hd : f.decisive? source = some d) (he : e ∈ f) (habout : e.isAbout source = true) :
    e.target.length ≤ d.target.length := by
  have hmem : e ∈ f.reverse.filter (·.isAbout source) :=
    List.mem_filter.mpr ⟨List.mem_reverse.mpr he, habout⟩
  have hle := List.le_apply_get_maxOn?_of_mem (f := fun d : Directive => d.target.length) hmem
  have hget : ((f.reverse.filter (·.isAbout source)).maxOn? (·.target.length)).get
      (List.isSome_maxOn?_of_mem hmem) = d := Option.get_of_eq_some _ hd
  rwa [hget] at hle

/-- A level for all sources, another one for some of them, and a directive that cannot be read. -/
example : (parse "2,avm2_ast_normalizer::ir=Trace,,=x").select
    [.treeRead 3, .runningTransform "x", .checkForced, .canonical]
      = [.runningTransform "x", .checkForced, .canonical] := by
  decide +kernel

end LogFilter

/-- An entry of the log directory.  Its age is in nanoseconds, negative if it was changed in
the future. -/
structure LogEntry where
  name : String
  isFile : Bool
  age : Int
deriving DecidableEq, Repr

namespace LogEntry

/-- How long session logs are kept: seven days. -/
def retention : Int := 7 * 24 * 60 * 60 * 1000000000

/-- Whether the name is that of a session log. -/
def isSessionName (name : String) : Bool :=
  "session-".toList.isPrefixOf name.toList && ".log".toList.isSuffixOf name.toList

/-- Whether the entry is a session log that has been kept long enough. -/
def expired (e : LogEntry) : Bool :=
  e.isFile && isSessionName e.name && decide (retention < e.age)

end LogEntry

/-- The state of the log directory. -/
inductive LogDirectory where
  /-- It does not exist and can be made. -/
  | absent
  /-- Something that is no directory is in its way. -/
  | blocked
  | present (entries : List LogEntry)
deriving DecidableEq, Repr

namespace LogDirectory

/-- Opens the directory for a session: makes it if need be, and removes what has expired. -/
def openSession : LogDirectory → Option (List LogEntry)
  | absent => some []
  | blocked => none
  | present entries => some (entries.filter fun e => !e.expired)

/-- The entries, if there is a directory. -/
def entries? : LogDirectory → Option (List LogEntry)
  | present entries => some entries
  | absent | blocked => none

end LogDirectory

end Unstack.Command
