import Unstack.Fault
import Unstack.Text.Terminal

/-! # Events

What a run reports while it works.  Events are data; their level, their source and their text
are read off afterwards. -/

namespace Unstack

/-- How important an event is. -/
inductive Level where
  | trace
  | debug
  | info
  | warn
  | error
deriving DecidableEq, Repr

namespace Level

/-- The level's name in a log line. -/
def tag : Level → String
  | trace => "TRACE"
  | debug => "DEBUG"
  | info => "INFO"
  | warn => "WARN"
  | error => "ERROR"

/-- Levels by importance, the least important first. -/
def rank : Level → Nat
  | trace => 0
  | debug => 1
  | info => 2
  | warn => 3
  | error => 4

end Level

/-- Something that happened during a run. -/
inductive Event where
  | updated (id : NodeId) (before after : Kind)
  | spliced (child parent : NodeId)
  | displacedFlag (kind : Kind) (displaced : NodeId) (displacedKind : Kind)
  | branchMapped (condition : Condition) (id : NodeId)
  | branchInConditionSlot (condition : Condition) (id parent : NodeId)
  | branchFolded (condition : Condition) (id : NodeId)
  | coercionStripped (coercion : NodeId) (kind : Kind) (id : NodeId)
  | normalizing (root : NodeId) (slots : Nat)
  | canonical
  | notCanonical (kind : Kind) (id : NodeId)
  | runningTransform (id : String)
  | unknownPass (name : String)
  | checkForced
  | treeRead (nodes : Nat)
  | offendersRemain (count : Nat)
deriving DecidableEq, Repr

namespace Event

/-- How important the event is. -/
def level : Event → Level
  | updated .. | spliced .. | branchMapped .. | branchInConditionSlot .. | branchFolded ..
  | coercionStripped .. => .trace
  | normalizing .. | canonical | runningTransform _ | treeRead _ => .debug
  | offendersRemain _ => .info
  | displacedFlag .. | notCanonical .. | unknownPass _ | checkForced => .warn

/-- The part of the program that reports the event, as log lines name it. -/
def source : Event → String
  | updated .. | spliced .. | displacedFlag .. => "avm2_ast_normalizer::ir::ast"
  | branchMapped .. | branchInConditionSlot .. | branchFolded .. | coercionStripped ..
  | normalizing .. => "avm2_ast_normalizer::ir::transforms::ast_normalize"
  | canonical | notCanonical .. => "avm2_ast_normalizer::ir::transforms::canonical_check"
  | runningTransform _ => "avm2_ast_normalizer::ir::pipeline"
  | unknownPass _ | checkForced => "avm2_ast_normalizer::config"
  | treeRead _ | offendersRemain _ => "avm2_normalize"

/-- The text of the event. -/
def message : Event → String
  | updated id before after => s!"update {showId id} {before.tag} -> {after.tag}"
  | spliced child parent => s!"splicing {showId child} into {showId parent}"
  | displacedFlag kind displaced displacedKind =>
    s!"negating {kind.tag} flag slot that holds node {showId displaced} {displacedKind.tag}"
  | branchMapped c id => s!"{c.branchTag} {showId id} -> {(Kind.ofCondition c).tag}"
  | branchInConditionSlot c id parent =>
    s!"{c.branchTag} {showId id} in condition slot of {showId parent}"
  | branchFolded c id => s!"{c.branchTag} {showId id} folded into a ternary"
  | coercionStripped coercion kind id =>
    s!"stripping coerce_b {showId coercion} under {kind.tag} {showId id}"
  | normalizing root slots => s!"normalizing tree rooted at {showId root} ({slots} slots)"
  | canonical => "tree is canonical"
  | notCanonical kind id => s!"non-canonical {kind.tag} node {showId id} remains"
  | runningTransform id => s!"running transform '{id}'"
  | unknownPass name => s!"Unknown pass '{name}' in skip list, ignoring"
  | checkForced =>
    "Pass 'canonical-check' was skipped but a check was requested, running it anyway"
  | treeRead nodes => s!"parsed tree with {nodes} nodes"
  | offendersRemain count => s!"{count} non-canonical nodes remain"

/-- An event as its level and text. -/
def line (e : Event) : String := s!"{e.level.tag} {e.message}"

/-- The text of the event as the logs show it. -/
def logText (e : Event) : String := Text.harmless e.message

/-- An event as the logs show it: its level, source and text. -/
def sourcedLine (e : Event) : String := s!"{e.level.tag} {e.source}: {e.logText}"

end Event

end Unstack
