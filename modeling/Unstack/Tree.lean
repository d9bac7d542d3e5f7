import Unstack.Kind
import Unstack.Signature

/-! # Expression trees

Trees as values: a tree is a leaf, or a node with a kind, an optional note and its children
in order.  Texts are read into trees and trees are printed; between the two they are edited
as an `Arena`. -/

namespace Unstack

/-- What is remembered about a node besides its shape. -/
structure Note where
  label : Option Nat
  signature : Option Signature
deriving DecidableEq, Repr

/-- An expression tree. -/
inductive Tree where
  | leaf (value : Leaf)
  | node (kind : Kind) (note : Option Note) (children : List Tree)
deriving Repr

namespace Tree

/-- A node without a note. -/
def plain (kind : Kind) (children : List Tree) : Tree := .node kind none children

/-- A text leaf. -/
def text (s : String) : Tree := .leaf (.text s)

/-- Whether the tree is a leaf. -/
def isLeaf : Tree → Bool
  | leaf _ => true
  | node .. => false

end Tree

/-! ### Types and signatures as trees -/

namespace TypeRef

mutual

/-- A plain type is a `type` node with its name.  A generic type is a `generic_type` node with
the plain type of its own name and then its parameters. -/
def toTree : TypeRef → Tree
  | mk n [] => .plain (.other "type") [.text n]
  | mk n (p :: ps) =>
    .plain (.other "generic_type")
      (.plain (.other "type") [.text n] :: p.toTree :: toTrees ps)

/-- The trees of several types. -/
def toTrees : List TypeRef → List Tree
  | [] => []
  | t :: ts => t.toTree :: toTrees ts

end

/-- The tree of a type that may be missing. -/
def optionalTree : Option TypeRef → Tree
  | some t => t.toTree
  | none => .leaf .nil

end TypeRef

namespace Signature

/-- The `param` nodes, each with its name and its type. -/
def paramTrees (s : Signature) : List Tree :=
  (s.effectiveNames.zip s.paramTypes).map fun p =>
    .plain (.other "param") [.text p.1, TypeRef.optionalTree p.2]

/-- A signature as a `method` node with its name, its result type and its parameters.  The
node's note keeps the record and the method's index; `rename` goes before the record's own
name. -/
def toTree (s : Signature) (index : Nat) (rename : Option String) : Tree :=
  let name :=
    match rename.or s.name with
    | some n => Tree.text n
    | none => .leaf .nil
  .node (.other "method") (some ⟨some index, some s⟩)
    [name, TypeRef.optionalTree s.returnType, .plain (.other "params") s.paramTrees]

end Signature

end Unstack
