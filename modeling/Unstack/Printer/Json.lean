import Unstack.Arena.View

/-! # Printing trees as JSON

A node is an object with its kind and the list of its children, a leaf a JSON value; numbers
that are not finite become `null`.  The compact form has its keys in alphabetical order, the
indented one has the kind first. -/

namespace Unstack.Printer

/-- One character of a JSON string. -/
def jsonEscape (c : Char) : List Char :=
  if c = '"' then ['\\', '"']
  else if c = '\\' then ['\\', '\\']
  else if c = '\n' then ['\\', 'n']
  else if c = '\r' then ['\\', 'r']
  else if c = '\t' then ['\\', 't']
  else if c.toNat = 8 then ['\\', 'b']
  else if c.toNat = 12 then ['\\', 'f']
  else if c.toNat < 16 then ['\\', 'u', '0', '0', '0'] ++ Nat.toDigits 16 c.toNat
  else if c.toNat < 32 then ['\\', 'u', '0', '0'] ++ Nat.toDigits 16 c.toNat
  else [c]

/-- A JSON string. -/
def jsonString (cs : List Char) : List Char := '"' :: cs.flatMap jsonEscape ++ ['"']

/-- A leaf as a JSON value. -/
def jsonLeaf : Leaf → List Char
  | .nil => "null".toList
  | .bool true => "true".toList
  | .bool false => "false".toList
  | .int n => Leaf.intText n
  | .number x => x.jsonText
  | .text s => jsonString s.toList

/-! ### Trees

A tree is written in front of the text that follows it. -/

mutual

/-- A tree as JSON without blanks, in front of `rest`. -/
def jsonOnto (rest : List Char) : Tree → List Char
  | .leaf l => jsonLeaf l ++ rest
  | .node kind _ ts =>
    "\x7b\"children\":[".toList
      ++ jsonItemsOnto ("],\"kind\":".toList ++ jsonString kind.tag.toList ++ '\x7d' :: rest) ts

/-- Values after one another with commas between them, in front of `rest`. -/
def jsonItemsOnto (rest : List Char) : List Tree → List Char
  | [] => rest
  | [t] => jsonOnto rest t
  | t :: ts => jsonOnto (',' :: jsonItemsOnto rest ts) t

end

/-- A new line, indented to a depth, in front of `rest`. -/
def jsonNewlineOnto (rest : List Char) (depth : Nat) : List Char :=
  '\n' :: (List.replicate (2 * depth) ' ' ++ rest)

mutual

/-- A tree as indented JSON, in front of `rest`. -/
def jsonPrettyOnto (rest : List Char) (depth : Nat) : Tree → List Char
  | .leaf l => jsonLeaf l ++ rest
  | .node kind _ ts =>
    let close := ']' :: jsonNewlineOnto ('\x7d' :: rest) depth
    let children :=
      jsonPrettyItemsOnto (if ts.isEmpty then close else jsonNewlineOnto close (depth + 1))
        (depth + 2) ts
    let fields := jsonNewlineOnto ("\"children\": [".toList ++ children) (depth + 1)
    '\x7b' :: jsonNewlineOnto
      ("\"kind\": ".toList ++ jsonString kind.tag.toList ++ ',' :: fields) (depth + 1)

/-- Values on lines of their own with commas between them, in front of `rest`. -/
def jsonPrettyItemsOnto (rest : List Char) (depth : Nat) : List Tree → List Char
  | [] => rest
  | [t] => jsonNewlineOnto (jsonPrettyOnto rest depth t) depth
  | t :: ts =>
    jsonNewlineOnto (jsonPrettyOnto (',' :: jsonPrettyItemsOnto rest depth ts) depth t) depth

end

/-- A tree as JSON without blanks. -/
def json (t : Tree) : String := String.ofList (jsonOnto [] t)

/-- A tree as indented JSON. -/
def jsonPretty (t : Tree) : String := String.ofList (jsonPrettyOnto [] 0 t)

end Unstack.Printer
