import Unstack.Condition

/-! # Method bodies

Small method bodies of the shapes that a decompiler produces, as data: expressions, statements
and bodies, and their text.  The text is a document for the reader.  Names are written as they
are; in quoted texts only the quote and the backslash are escaped. -/

namespace Unstack

/-- An expression. -/
inductive Expr where
  | localVar (n : Nat)
  | int (n : Int)
  | name (word : String)
  | text (value : String)
  | coerceB (e : Expr)
  | binary (op : String) (lhs rhs : Expr)
  | and (a b : Expr)
  | or (a b : Expr)
  | call (receiver : Expr) (method : String) (args : List Expr)
  /-- A choice on a comparison. -/
  | ternaryCompare (flag : Bool) (c : Condition) (lhs rhs ifTrue ifFalse : Expr)
  /-- A choice on a test for truth. -/
  | ternaryTest (flag positive : Bool) (test ifTrue ifFalse : Expr)
  /-- A test with a value, outside any condition slot. -/
  | selfContained (positive : Bool) (test value : Expr)
  /-- A test without a value, outside any condition slot. -/
  | bare (positive : Bool) (test : Expr)
deriving Repr

/-- A statement. -/
inductive Stmt where
  | pop (e : Expr)
  | callVoid (receiver : Expr) (name : String) (args : List Expr)
  | callSuperVoid (name : String) (args : List Expr)
  | jumpCompare (label : Nat) (c : Condition) (lhs rhs : Expr)
  | jumpTest (label : Nat) (positive : Bool) (test : Expr)
  | setLocal (n : Nat) (e : Expr)
  | returnValue (e : Expr)
  | kill (n : Nat)
  | debugLine (n : Nat)
  | debugFile (file : String)
  | debug (name : String)
deriving Repr

/-- A method body. -/
structure Body where
  stmts : List Stmt
deriving Repr

namespace Body

/-- A quoted text. -/
def quote (s : String) : String :=
  String.ofList ('"' :: s.toList.flatMap (fun c =>
    if c = '\\' ∨ c = '"' then ['\\', c] else [c]) ++ ['"'])

/-- The kind of a test for truth, or for its absence. -/
def testTag (positive : Bool) : String :=
  (if positive then Condition.truthy else Condition.falsy).branchTag

/-- A flag. -/
def flagText (flag : Bool) : String := if flag then "true" else "false"

end Body

namespace Expr

mutual

/-- The text of an expression. -/
def render : Expr → String
  | .localVar n => s!"(get_local {n})"
  | .int n => s!"(push_int {n})"
  | .name word => s!"(get_lex {word})"
  | .text value => s!"(push_string {Body.quote value})"
  | .coerceB e => s!"(coerce_b {e.render})"
  | .binary op lhs rhs => s!"({op} {lhs.render} {rhs.render})"
  | .and a b => s!"(and {a.render} {b.render})"
  | .or a b => s!"(or {a.render} {b.render})"
  | .call receiver method args =>
    s!"(call_property {receiver.render} {method}{renderArgs args})"
  | .ternaryCompare flag c lhs rhs ifTrue ifFalse =>
    s!"(ternary_if {Body.flagText flag} ({c.branchTag} {lhs.render} {rhs.render} "
      ++ s!"{ifTrue.render} {ifFalse.render}))"
  | .ternaryTest flag positive test ifTrue ifFalse =>
    s!"(ternary_if {Body.flagText flag} ({Body.testTag positive} {test.render} "
      ++ s!"{ifTrue.render} {ifFalse.render}))"
  | .selfContained positive test value =>
    s!"({Body.testTag positive} {test.render} {value.render})"
  | .bare positive test => s!"({Body.testTag positive} {test.render})"

/-- The texts of arguments, each after a space. -/
def renderArgs : List Expr → String
  | [] => ""
  | e :: es => s!" {e.render}{renderArgs es}"

end

end Expr

namespace Stmt

/-- The text of a statement. -/
def render : Stmt → String
  | pop e => s!"(pop {e.render})"
  | callVoid receiver name args =>
    s!"(call_property_void {receiver.render} {name}{Expr.renderArgs args})"
  | callSuperVoid name args => s!"(call_super_void (get_local 0) {name}{Expr.renderArgs args})"
  | jumpCompare label c lhs rhs =>
    s!"(jump_if true L{label} ({c.branchTag} {lhs.render} {rhs.render}))"
  | jumpTest label positive test =>
    s!"(jump_if true L{label} ({Body.testTag positive} {test.render}))"
  | setLocal n e => s!"(set_local {n} {e.render})"
  | returnValue e => s!"(return_value {e.render})"
  | kill n => s!"(kill {n})"
  | debugLine n => s!"(debug_line {n})"
  | debugFile file => s!"(debug_file {Body.quote file})"
  | debug name => s!"(debug 1 {Body.quote name} 0 0)"

/-- Whether the statement becomes a `nop`, beside what it may leave of its operand. -/
def leavesNop : Stmt → Bool
  | pop _ | kill _ | debugLine _ | debugFile _ | debug _ => true
  | _ => false

end Stmt

namespace Body

/-- The text of a body. -/
def render (b : Body) : String := "(block" ++ String.join (b.stmts.map (" " ++ ·.render)) ++ ")"

/-- How many statements become a `nop`. -/
def nopCount (b : Body) : Nat := b.stmts.countP Stmt.leavesNop

/-- The bodies with one statement less. -/
def shrinks (b : Body) : List Body :=
  (List.range b.stmts.length).map fun i => ⟨b.stmts.eraseIdx i⟩

end Body

end Unstack
