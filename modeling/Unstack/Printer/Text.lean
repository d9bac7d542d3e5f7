import Unstack.Arena.View
import Unstack.Text.Blank

/-! # Printing trees as text

The text form that the reader accepts, on one line or indented.  A text leaf is written bare
where the reader would take it for itself, and quoted otherwise. -/

namespace Unstack.Printer

/-- Characters that a bare text may not hold. -/
def needsQuote (c : Char) : Bool :=
  Text.isBlank c || c == '(' || c == ')' || c == '"' || c == ';' || c == '\\'

/-- Whether a text is written without quotes. -/
def isBare (cs : List Char) : Bool :=
  match cs with
  | [] => false
  | c :: _ =>
    cs != ['t', 'r', 'u', 'e'] && cs != ['f', 'a', 'l', 's', 'e'] && cs != ['n', 'i', 'l']
      && !(c.isDigit || c == '-' || c == '+' || c == '.')
      && !cs.any needsQuote

/-- One character of a quoted text. -/
def escapeChar : Char → List Char
  | '"' => ['\\', '"']
  | '\\' => ['\\', '\\']
  | '\n' => ['\\', 'n']
  | '\t' => ['\\', 't']
  | c => [c]

/-- A text leaf. -/
def textChars (cs : List Char) : List Char :=
  if isBare cs then cs else '"' :: cs.flatMap escapeChar ++ ['"']

/-- A leaf. -/
def leafChars : Leaf → List Char
  | .nil => ['n', 'i', 'l']
  | .bool true => ['t', 'r', 'u', 'e']
  | .bool false => ['f', 'a', 'l', 's', 'e']
  | .int n => Leaf.intText n
  | .number x => x.text
  | .text s => textChars s.toList

/-! ### Trees

A tree is written in front of the text that follows it. -/

mutual

/-- A tree on one line, in front of `rest`. -/
def compactOnto (rest : List Char) : Tree → List Char
  | .leaf l => leafChars l ++ rest
  | .node kind _ ts => '(' :: (kind.tag.toList ++ compactItemsOnto (')' :: rest) ts)

/-- Items on one line, each after a space, in front of `rest`. -/
def compactItemsOnto (rest : List Char) : List Tree → List Char
  | [] => rest
  | t :: ts => ' ' :: compactOnto (compactItemsOnto rest ts) t

end

/-- A new line, indented to a depth, in front of `rest`. -/
def newlineOnto (rest : List Char) (depth : Nat) : List Char :=
  '\n' :: (List.replicate (2 * depth) ' ' ++ rest)

mutual

/-- A tree over several lines, in front of `rest`: a node that has node children puts each
child on a line of its own. -/
def prettyOnto (rest : List Char) (depth : Nat) : Tree → List Char
  | .leaf l => leafChars l ++ rest
  | .node kind _ ts =>
    '(' :: (kind.tag.toList
      ++ if ts.all Tree.isLeaf then compactItemsOnto (')' :: rest) ts
         else prettyItemsOnto (')' :: rest) (depth + 1) ts)

/-- Items on lines of their own, in front of `rest`. -/
def prettyItemsOnto (rest : List Char) (depth : Nat) : List Tree → List Char
  | [] => rest
  | t :: ts => newlineOnto (prettyOnto (prettyItemsOnto rest depth ts) depth t) depth

end

/-- A tree on one line. -/
def compact (t : Tree) : String := String.ofList (compactOnto [] t)

/-- A tree over several lines. -/
def pretty (t : Tree) : String := String.ofList (prettyOnto [] 0 t)

end Unstack.Printer
