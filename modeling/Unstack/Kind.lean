import Unstack.Condition

/-! # Node kinds

A node's kind is a tag.  The tags that the rules below know have constructors of their own,
every other tag is kept as text in `Kind.other`. -/

namespace Unstack

/-- The kind of a node. -/
inductive Kind where
  /-- Discards the value of an expression statement. -/
  | pop
  /-- Does nothing. -/
  | nop
  /-- Stands for its children, in place. -/
  | expand
  | callPropertyVoid
  | callProperty
  | callSuperVoid
  | callSuper
  /-- A jump with a flag, a label and a condition. -/
  | jumpIf
  /-- A choice with a flag and an operator node that carries the two branch values. -/
  | ternaryIf
  /-- A choice with a flag, a condition and two branch values. -/
  | ternaryIfBoolean
  /-- A choice with a condition and two branch values. -/
  | ternary
  | and
  | or
  /-- Converts its operand to a boolean. -/
  | coerceB
  | kill
  | debug
  | debugFile
  | debugLine
  /-- A branch on a condition. -/
  | branch (c : Condition)
  | compare (c : Comparison)
  | other (tag : String)
deriving DecidableEq, Repr

namespace Kind

/-- The kinds with a fixed tag of their own. -/
def named : List Kind :=
  [.pop, .nop, .expand, .callPropertyVoid, .callProperty, .callSuperVoid, .callSuper, .jumpIf,
   .ternaryIf, .ternaryIfBoolean, .ternary, .and, .or, .coerceB, .kill, .debug, .debugFile,
   .debugLine]

/-- The text of a kind. -/
def tag : Kind → String
  | pop => "pop"
  | nop => "nop"
  | expand => "expand"
  | callPropertyVoid => "call_property_void"
  | callProperty => "call_property"
  | callSuperVoid => "call_super_void"
  | callSuper => "call_super"
  | jumpIf => "jump_if"
  | ternaryIf => "ternary_if"
  | ternaryIfBoolean => "ternary_if_boolean"
  | ternary => "ternary"
  | and => "and"
  | or => "or"
  | coerceB => "coerce_b"
  | kill => "kill"
  | debug => "debug"
  | debugFile => "debug_file"
  | debugLine => "debug_line"
  | branch c => c.branchTag
  | compare c => c.tag
  | other s => s

/-- The kind with a given text. -/
def ofTag (s : String) : Kind :=
  match named.find? (·.tag == s) with
  | some k => k
  | none =>
    match Condition.ofBranchTag? s with
    | some c => .branch c
    | none =>
      match Comparison.ofTag? s with
      | some c => .compare c
      | none => .other s

/-- The kind that a condition leaves behind: its comparison, or a bare expansion for a test
for truth. -/
def ofCondition (c : Condition) : Kind :=
  match c.comparison? with
  | some k => .compare k
  | none => .expand

/-- Whether normal trees have no node of the kind. -/
def isEliminated : Kind → Bool
  | pop | callPropertyVoid | callSuperVoid | ternaryIf | ternaryIfBoolean | kill | debug
  | debugFile | debugLine | branch _ => true
  | nop | expand | callProperty | callSuper | jumpIf | ternary | and | or | coerceB | compare _
  | other _ => false

/-- Whether the kind takes its operands for their truth, so that coercing them is idle. -/
def consumesBoolean : Kind → Bool
  | and | or | jumpIf => true
  | _ => false

/-! ### Texts and kinds -/

@[simp] theorem tag_branch (c : Condition) : (branch c).tag = c.branchTag := rfl

@[simp] theorem tag_compare (c : Comparison) : (compare c).tag = c.tag := rfl

@[simp] theorem tag_other (s : String) : (other s).tag = s := rfl

@[simp] theorem ofTag_branchTag (c : Condition) : ofTag c.branchTag = .branch c := by
  cases c <;> decide

@[simp] theorem ofTag_comparison_tag (c : Comparison) : ofTag c.tag = .compare c := by
  cases c <;> decide

/-- Reading a text as a kind and writing it again gives the text back. -/
@[simp] theorem tag_ofTag (s : String) : (ofTag s).tag = s := by
  unfold ofTag
  split
  · rename_i k h
    simpa using List.find?_some h
  · split
    · rename_i c h
      simpa [Condition.ofBranchTag?] using List.find?_some h
    · split
      · rename_i c h
        simpa [Comparison.ofTag?] using List.find?_some h
      · rfl

end Kind

end Unstack
