import Unstack.Arena.View
import Unstack.Text.Blank

/-! # Reading trees

A document is one list: a parenthesis, a symbol for the node's kind, and items, which are
lists, quoted texts and symbols.  Blanks and comments, from a semicolon to the end of the
line, may stand between any two of them.

The reader is a machine that takes one character at a time.  Its state says what it is in the
middle of; the lists that are still open stand on a stack.  Errors carry the byte offset at
which reading stopped. -/

namespace Unstack

/-- Why a text is not a document. -/
inductive ReadReason where
  /-- A list does not start with a symbol. -/
  | noKind
  /-- The text ends inside a list. -/
  | unclosed
  /-- A quoted text has an unknown escape or no end. -/
  | badText
  /-- The text does not start with a list, or goes on after it. -/
  | unexpected
deriving DecidableEq, Repr

/-- Where and why reading stopped. -/
structure ReadError where
  offset : Nat
  reason : ReadReason
deriving DecidableEq, Repr

namespace ReadReason

/-- The text of a reason. -/
def message : ReadReason → String
  | noKind => "invalid node kind"
  | unclosed => "expected `)`"
  | badText => "invalid string literal"
  | unexpected => "unexpected input"

end ReadReason

namespace ReadError

/-- The text of an error. -/
def message (e : ReadError) : String := s!"parse error at byte {e.offset}: {e.reason.message}"

end ReadError

namespace Leaf

/-- The leaf that a symbol stands for: a constant's name, an integer, a numeral, or else the
text itself. -/
def ofSymbol (cs : List Char) : Leaf :=
  if cs = ['t', 'r', 'u', 'e'] then .bool true
  else if cs = ['f', 'a', 'l', 's', 'e'] then .bool false
  else if cs = ['n', 'i', 'l'] then .nil
  else
    match readInt cs with
    | some n => .int n
    | none =>
      match Numeral.readStrict cs with
      | some x => .number x
      | none => .text (String.ofList cs)

end Leaf

namespace Reader

/-- A character that cannot be part of a symbol. -/
def isDelimiter (c : Char) : Bool :=
  Text.isBlank c || c == '(' || c == ')' || c == '"' || c == ';'

/-- A list that is still open: its kind, and its items so far, the last one first. -/
structure Frame where
  kind : Kind
  items : List Tree

/-- Adds an item to an open list. -/
def Frame.add (f : Frame) (t : Tree) : Frame := { f with items := t :: f.items }

/-- The finished list. -/
def Frame.close (f : Frame) : Tree := .plain f.kind f.items.reverse

/-- What the reader is in the middle of.  Characters of an unfinished symbol or text are kept
in reverse; `outer` holds the lists around the current one, innermost first. -/
inductive State where
  /-- Before the document's list. -/
  | start (comment : Bool)
  /-- After an opening parenthesis, before the kind. -/
  | opened (comment : Bool) (outer : List Frame)
  /-- Inside the symbol for the kind. -/
  | kind (rev : List Char) (outer : List Frame)
  /-- Between the items of a list. -/
  | items (comment : Bool) (list : Frame) (outer : List Frame)
  /-- Inside a symbol. -/
  | symbol (rev : List Char) (list : Frame) (outer : List Frame)
  /-- Inside a quoted text. -/
  | text (rev : List Char) (list : Frame) (outer : List Frame)
  /-- After a backslash in a quoted text. -/
  | escape (rev : List Char) (list : Frame) (outer : List Frame)
  /-- After the document's list. -/
  | done (comment : Bool) (tree : Tree)

/-- The character that an escape stands for. -/
def unescape : Char → Option Char
  | 'n' => some '\n'
  | 't' => some '\t'
  | '"' => some '"'
  | '\\' => some '\\'
  | _ => none

/-- Ends the current list. -/
def closeList (list : Frame) : List Frame → State
  | [] => .done false list.close
  | f :: fs => .items false (f.add list.close) fs

/-- Goes on between the items of a list. -/
def stepItems (list : Frame) (outer : List Frame) (c : Char) : State :=
  if Text.isBlank c then .items false list outer
  else if c = ';' then .items true list outer
  else if c = '(' then .opened false (list :: outer)
  else if c = ')' then closeList list outer
  else if c = '"' then .text [] list outer
  else .symbol [c] list outer

/-- Takes one character. -/
def step : State → Char → Except ReadReason State
  | .start true, c => .ok (.start (c != '\n'))
  | .start false, c =>
    if Text.isBlank c then .ok (.start false)
    else if c = ';' then .ok (.start true)
    else if c = '(' then .ok (.opened false [])
    else .error .unexpected
  | .opened true outer, c => .ok (.opened (c != '\n') outer)
  | .opened false outer, c =>
    if Text.isBlank c then .ok (.opened false outer)
    else if c = ';' then .ok (.opened true outer)
    else if isDelimiter c then .error .noKind
    else .ok (.kind [c] outer)
  | .kind rev outer, c =>
    if isDelimiter c then
      .ok (stepItems ⟨Kind.ofTag (String.ofList rev.reverse), []⟩ outer c)
    else .ok (.kind (c :: rev) outer)
  | .items true list outer, c => .ok (.items (c != '\n') list outer)
  | .items false list outer, c => .ok (stepItems list outer c)
  | .symbol rev list outer, c =>
    if isDelimiter c then
      .ok (stepItems (list.add (.leaf (.ofSymbol rev.reverse))) outer c)
    else .ok (.symbol (c :: rev) list outer)
  | .text rev list outer, c =>
    if c = '"' then .ok (.items false (list.add (.text (String.ofList rev.reverse))) outer)
    else if c = '\\' then .ok (.escape rev list outer)
    else .ok (.text (c :: rev) list outer)
  | .escape rev list outer, c =>
    match unescape c with
    | some d => .ok (.text (d :: rev) list outer)
    | none => .error .badText
  | .done true tree, c => .ok (.done (c != '\n') tree)
  | .done false tree, c =>
    if Text.isBlank c then .ok (.done false tree)
    else if c = ';' then .ok (.done true tree)
    else .error .unexpected

/-- Ends the text. -/
def finish : State → Except ReadReason Tree
  | .start _ => .error .unexpected
  | .opened .. => .error .noKind
  | .kind .. | .items .. | .symbol .. => .error .unclosed
  | .text .. | .escape .. => .error .badText
  | .done _ tree => .ok tree

/-- The offset of an error at the character `c`, which starts at `offset`.  A bad escape has
been read past, anything else has not. -/
def errorOffset (reason : ReadReason) (offset : Nat) (c : Char) : Nat :=
  match reason with
  | .badText => offset + c.utf8Size
  | _ => offset

/-- Runs the machine; `offset` counts the bytes already read. -/
def run (s : State) (offset : Nat) : List Char → Except ReadError Tree
  | [] =>
    match finish s with
    | .ok t => .ok t
    | .error r => .error ⟨offset, r⟩
  | c :: cs =>
    match step s c with
    | .ok s => run s (offset + c.utf8Size) cs
    | .error r => .error ⟨errorOffset r offset c, r⟩

/-- Reads a document. -/
def read (src : String) : Except ReadError Tree := run (.start false) 0 src.toList

end Reader

namespace Arena

/-- Reads a document into an arena. -/
def read (src : String) : Except ReadError Arena := (Reader.read src).map ofTree

end Arena

/-- Why a tree file could not be read. -/
inductive FileError where
  | missing
  | notUtf8
  | malformed (error : ReadError)
deriving DecidableEq, Repr

namespace FileError

/-- What the system says about a file that cannot be read as text. -/
def systemMessage? : FileError → Option String
  | missing => some "No such file or directory (os error 2)"
  | notUtf8 => some "stream did not contain valid UTF-8"
  | malformed _ => none

/-- The text of the error. -/
def message : FileError → String
  | missing => "I/O error: No such file or directory (os error 2)"
  | notUtf8 => "I/O error: stream did not contain valid UTF-8"
  | malformed e => e.message

end FileError

namespace Arena

/-- Reads the contents of a file into an arena; a file that does not exist has none. -/
def readBytes (bytes : Option ByteArray) : Except FileError Arena :=
  match bytes with
  | none => .error .missing
  | some bytes =>
    match String.fromUTF8? bytes with
    | none => .error .notUtf8
    | some src =>
      match Arena.read src with
      | .ok a => .ok a
      | .error e => .error (.malformed e)

end Arena

end Unstack
