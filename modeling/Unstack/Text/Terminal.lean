import Unstack.Text.Quoted

/-! # Texts for a terminal

A log line may be shown on a terminal, which takes certain control characters for commands: it
rings, moves back, clears the screen or changes colours.  A text that came from outside must
not command the terminal of whoever reads the log, so these characters are written by number:

* **one byte:** bell, backspace, form feed, escape and delete, with two hexadecimal digits;
* **the second block of controls:** U+0080 to U+009F, which some terminals take for escape
  sequences, with the number in braces.

Other characters, tabs and line ends among them, stay as they are.  The main statement is that
no command is left (`not_isCommand_of_mem_harmless`). -/

namespace Unstack.Text

/-- Bell, backspace, form feed, escape and delete. -/
def isByteCommand (c : Char) : Bool :=
  c == '\x07' || c == '\x08' || c == '\x0c' || c == '\x1b' || c == '\x7f'

/-- The controls from U+0080 to U+009F. -/
def isWideCommand (c : Char) : Bool := 0x80 ≤ c.toNat && c.toNat ≤ 0x9f

/-- Whether a terminal may take a character for a command. -/
def isCommand (c : Char) : Bool := isByteCommand c || isWideCommand c

/-- One character of a log line. -/
def harmlessChar (c : Char) : List Char :=
  if isByteCommand c then
    ['\\', 'x'] ++ (if c.toNat < 16 then ['0'] else []) ++ hexDigits c.toNat
  else if isWideCommand c then ['\\', 'u', '\x7b'] ++ hexDigits c.toNat ++ ['\x7d']
  else [c]

/-- A text in which no character is a command to a terminal. -/
def harmless (s : String) : String := String.ofList (s.toList.flatMap harmlessChar)

/-! ### No command is left -/

theorem toNat_lt_of_isCommand {c : Char} (h : isCommand c = true) : c.toNat < 0xa0 := by
  simp only [isCommand, isByteCommand, isWideCommand, Bool.or_eq_true, beq_iff_eq,
    Bool.and_eq_true, decide_eq_true_eq] at h
  rcases h with ((((rfl | rfl) | rfl) | rfl) | rfl) | h
  · decide
  · decide
  · decide
  · decide
  · decide
  · omega

theorem harmlessChar_of_not_isCommand {c : Char} (h : isCommand c = false) :
    harmlessChar c = [c] := by
  have ⟨hb, hw⟩ := Bool.or_eq_false_iff.mp h
  simp [harmlessChar, hb, hw]

theorem all_harmlessChar (c : Char) : (harmlessChar c).all (!isCommand ·) = true := by
  cases h : isCommand c with
  | false => simp [harmlessChar_of_not_isCommand h, h]
  | true =>
    have below : ∀ n < 0xa0, (harmlessChar (Char.ofNat n)).all (!isCommand ·) = true := by
      decide +kernel
    have := below c.toNat (toNat_lt_of_isCommand h)
    rwa [Char.ofNat_toNat] at this

theorem not_isCommand_of_mem_harmless (s : String) :
    ∀ c ∈ (harmless s).toList, isCommand c = false := by
  intro c hc
  simp only [harmless, String.toList_ofList, List.mem_flatMap] at hc
  obtain ⟨d, _, hd⟩ := hc
  have := List.all_eq_true.mp (all_harmlessChar d) c hd
  simpa using this

end Unstack.Text
