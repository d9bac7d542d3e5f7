import Unstack.Walk.Basic

/-! # Scripted walks

A scripted walk records every call of its handler and carries out the rules of a script.  It
serves to watch the order of a walk and the effect of edits made during it. -/

namespace Unstack

namespace Kind

/-- The name of the handler that a kind is dispatched to. -/
def handlerName : Kind → String
  | .branch c => "if:" ++ c.suffix
  | .nop | .expand | .callProperty | .callSuper | .ternary | .coerceB | .compare _ | .other _ =>
    "other"
  | k => k.tag

end Kind

namespace Walk

/-- A call of the handler, as things stood on entry. -/
structure Visit where
  handler : String
  id : NodeId
  kind : Kind
  children : List Child

/-- What a rule does to the node it applies to. -/
inductive Action where
  | retag (kind : Kind)
  /-- Gives the parent a new kind, if there is one. -/
  | retagParent (kind : Kind)
  /-- Gives the node a new kind and no children. -/
  | clear (kind : Kind)
  /-- Moves the next sibling below the node, if that is a node. -/
  | adoptNext

/-- A rule: what to do at which handler, and there possibly at one kind only. -/
structure Rule where
  handler : String
  kind : Option Kind
  action : Action

namespace Rule

/-- Whether the rule applies to a call. -/
def applies (r : Rule) (v : Visit) : Bool :=
  r.handler == v.handler && (r.kind.isNone || r.kind == some v.kind)

end Rule

namespace Action

/-- Carries out an action at a node. -/
def run (act : Action) (a : Arena) (id : NodeId) : Traced Arena :=
  match act with
  | retag kind => a.retag id kind
  | retagParent kind =>
    match a.parent? id with
    | some p => a.retag p kind
    | none => pure a
  | clear kind => a.update id kind []
  | adoptNext =>
    match a.parent? id with
    | none => pure a
    | some p =>
      match a.child? p (a.index id + 1) with
      | some (.node n) => Traced.ofExcept (a.pushChildren id [.node n])
      | _ => pure a

end Action

/-- A traced computation that also records calls, the last one first. -/
abbrev Recorded := StateT (List Visit) Traced

/-- Records the call, then carries out the rules that apply to it, in order. -/
def scripted (rules : List Rule) : Handler Recorded := fun a id kind => do
  let v : Visit := ⟨kind.handlerName, id, kind, a.children id⟩
  modify (v :: ·)
  liftM ((rules.filter (·.applies v)).foldlM (fun a r => r.action.run a id) a)

/-- Runs a script over a tree, and gives the calls in order. -/
def runScript (rules : List Rule) (a : Arena) : Traced (Arena × List Visit) := do
  let (a, visits) ← (run (scripted rules) a).run []
  return (a, visits.reverse)

/-- A walk whose handler leaves every node as it is. -/
def runIdle (a : Arena) : Traced Arena := run (fun a _ _ => pure a) a

end Walk

end Unstack
