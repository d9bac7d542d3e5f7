import Unstack.Canonical
import Unstack.Normalize
import Unstack.Pipeline.Basic
import Unstack.Selection

/-! # Stages

What the transforms of a pipeline do: change the tree, or look at it and keep a finding. -/

namespace Unstack

/-- A pass that changes the tree. -/
inductive Pass where
  | normalize
  /-- Appends a text to the root's children. -/
  | mark (text : String)
  /-- Drops the `nop` nodes among the root's children. -/
  | dropNops
deriving DecidableEq, Repr

/-- A pass that only looks at the tree. -/
inductive Observer where
  | check
  /-- Counts the nodes of the tree. -/
  | count
deriving DecidableEq, Repr

/-- What a transform does. -/
inductive Stage where
  | change (pass : Pass)
  | observe (observer : Observer)
deriving DecidableEq, Repr

/-- What observers have found: the latest check, and every count. -/
structure Findings where
  offenders : List Offender
  counts : List Nat

namespace Pass

/-- The name of a pass. -/
def name : Pass → String
  | normalize => normalizeName
  | mark text => text
  | dropNops => "drop-nops"

/-- Runs a pass. -/
def run (pass : Pass) (a : Arena) : Traced Arena :=
  match pass with
  | normalize => a.normalize
  | mark text => Traced.ofExcept (a.pushChildren a.root [.leaf (.text text)])
  | dropNops =>
    let kept := (a.children a.root).filter fun
      | .leaf _ => true
      | .node n => !a.hasKind n .nop
    Traced.ofExcept (a.setChildren a.root kept)

end Pass

namespace Observer

/-- Looks at a tree. -/
def observe (o : Observer) (a : Arena) (f : Findings) : Traced Findings :=
  match o with
  | check => do
    let offenders ← a.check
    return { f with offenders }
  | count => return { f with counts := f.counts ++ [a.descendants.length] }

end Observer

namespace Stage

/-- A stage's sort and name. -/
def describe : Stage → String
  | change pass => "rewrite:" ++ pass.name
  | observe _ => "observe"

/-- Runs a stage on a tree and the findings so far. -/
def run (s : Stage) (w : Arena × Findings) : Traced (Arena × Findings) :=
  match s with
  | change pass => do
    let a ← pass.run w.1
    return (a, w.2)
  | observe o => do
    let f ← o.observe w.1 w.2
    return (w.1, f)

end Stage

namespace Pipeline

/-- Runs the transforms in their order. -/
def apply (p : Pipeline Stage) (a : Arena) (f : Findings) :
    Except PipelineError (Traced (Arena × Findings)) :=
  p.ordered.map fun ts => ts.foldlM (fun w t => do
    Traced.emit (.runningTransform t.id)
    t.action.run w) (a, f)

/-- The normalising transform. -/
def normalizeTransform : Transform Stage := ⟨normalizeName, [], .change .normalize⟩

/-- The checking transform, after the normalising one if there is one. -/
def checkTransform (normalize : Bool) : Transform Stage :=
  ⟨checkName, if normalize then [normalizeName] else [], .observe .check⟩

/-- The standard pipeline: normalise, then check, as far as selected. -/
def standard (s : Selection) : Except PipelineError (Pipeline Stage) :=
  empty.addAll
    ((if s.normalize then [normalizeTransform] else [])
      ++ (if s.check then [checkTransform s.normalize] else []))

end Pipeline

end Unstack
