/-! # Branch conditions

A conditional branch of the bytecode tests one of fourteen conditions.  Twelve of them compare
two operands, the other two test one operand for truth.  Several come in a negated form
because a comparison with an undefined value is false either way, so "not less" differs from
"greater or equal".

Outside branches only seven comparisons are left; `Condition.comparison?` and
`Condition.reversed` say which of them a condition stands for and whether its outcome is
turned around. -/

namespace Unstack

/-- The condition of a conditional branch. -/
inductive Condition where
  | eq
  | ne
  | ge
  | nge
  | gt
  | ngt
  | le
  | nle
  | lt
  | nlt
  | strictEq
  | strictNe
  | truthy
  | falsy
deriving DecidableEq, Repr

/-- A comparison of two operands. -/
inductive Comparison where
  | eq
  | ne
  | ge
  | gt
  | le
  | lt
  | strictEq
deriving DecidableEq, Repr

namespace Comparison

/-- Every comparison. -/
def all : List Comparison := [.eq, .ne, .ge, .gt, .le, .lt, .strictEq]

/-- The comparison's operator sign. -/
def tag : Comparison → String
  | eq => "=="
  | ne => "!="
  | ge => ">="
  | gt => ">"
  | le => "<="
  | lt => "<"
  | strictEq => "==="

/-- The comparison with a given operator sign. -/
def ofTag? (s : String) : Option Comparison := all.find? (·.tag == s)

theorem mem_all (c : Comparison) : c ∈ all := by cases c <;> decide

@[simp] theorem ofTag?_tag (c : Comparison) : ofTag? c.tag = some c := by cases c <;> decide

end Comparison

namespace Condition

/-- Every condition. -/
def all : List Condition :=
  [.eq, .ne, .ge, .nge, .gt, .ngt, .le, .nle, .lt, .nlt, .strictEq, .strictNe, .truthy, .falsy]

/-- The condition's name inside a branch kind. -/
def suffix : Condition → String
  | eq => "eq"
  | ne => "ne"
  | ge => "ge"
  | nge => "nge"
  | gt => "gt"
  | ngt => "ngt"
  | le => "le"
  | nle => "nle"
  | lt => "lt"
  | nlt => "nlt"
  | strictEq => "strict_eq"
  | strictNe => "strict_ne"
  | truthy => "true"
  | falsy => "false"

/-- The kind of a branch on the condition. -/
def branchTag (c : Condition) : String := "if_" ++ c.suffix

/-- The condition with a given name. -/
def ofSuffix? (s : String) : Option Condition := all.find? (·.suffix == s)

/-- The condition of the branch kind with a given tag. -/
def ofBranchTag? (s : String) : Option Condition := all.find? (·.branchTag == s)

theorem mem_all (c : Condition) : c ∈ all := by cases c <;> decide

@[simp] theorem ofSuffix?_suffix (c : Condition) : ofSuffix? c.suffix = some c := by
  cases c <;> decide

@[simp] theorem ofBranchTag?_branchTag (c : Condition) : ofBranchTag? c.branchTag = some c := by
  cases c <;> decide

/-! ### Meaning as a comparison -/

/-- The comparison a condition stands for; a test for truth stands for none. -/
def comparison? : Condition → Option Comparison
  | eq => some .eq
  | ne => some .ne
  | ge | nge => some .ge
  | gt | ngt => some .gt
  | le | nle => some .le
  | lt | nlt => some .lt
  | strictEq | strictNe => some .strictEq
  | truthy | falsy => none

/-- Whether the condition holds when its comparison, or its operand, does not. -/
def reversed : Condition → Bool
  | nge | ngt | nle | nlt | strictNe | falsy => true
  | eq | ne | ge | gt | le | lt | strictEq | truthy => false

/-- How many operands the condition tests. -/
def operandCount (c : Condition) : Nat := if c.comparison?.isSome then 2 else 1

/-! ### Bytecode -/

/-- The opcode of the branch instruction. -/
def opcode : Condition → Nat
  | nlt => 0x0c
  | nle => 0x0d
  | ngt => 0x0e
  | nge => 0x0f
  | truthy => 0x11
  | falsy => 0x12
  | eq => 0x13
  | ne => 0x14
  | lt => 0x15
  | le => 0x16
  | gt => 0x17
  | ge => 0x18
  | strictEq => 0x19
  | strictNe => 0x1a

/-- The condition of the branch instruction with a given opcode. -/
def ofOpcode? (code : Nat) : Option Condition := all.find? (·.opcode == code)

@[simp] theorem ofOpcode?_opcode (c : Condition) : ofOpcode? c.opcode = some c := by
  cases c <;> decide

end Condition

end Unstack
