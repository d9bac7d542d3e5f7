import Unstack.Printer.Json
import Unstack.Proofs.Json.Grammar
import Unstack.Proofs.Printing

/-! # Printed JSON

The JSON of a tree is a value of the tree without its notes, in both layouts.

* **Leaves.**  The JSON of a leaf stands for that leaf: names and numerals are words, and in the
  string of a text the escapes are undone (`value_jsonLeaf`).
* **Trees.**  The layouts differ in the order of the fields and in their blanks (`value_jsonOnto`,
  `value_jsonPrettyOnto`). -/

namespace Unstack.Json

open Grammar

variable {c : Char} {cs text rest : List Char} {t : Tree} {l : Leaf}

/-! ### Printed leaves -/

/-- A text that ends a word in front of it. -/
def EndsWord (rest : List Char) : Prop := ∀ c, rest.head? = some c → Mark c

theorem endsWord_nil : EndsWord [] := by
  intro c hc
  cases hc

theorem endsWord_cons (hc : Mark c) (rest : List Char) : EndsWord (c :: rest) := by
  intro d hd
  cases hd
  exact hc

theorem isDigit_eq_false_of_mark (h : Mark c) : c.isDigit = false := by
  simp only [Mark, Blank, List.mem_cons, List.not_mem_nil, or_false] at h
  rcases h with (rfl | rfl | rfl | rfl) | rfl | rfl | rfl | rfl | rfl | rfl | rfl
  all_goals rfl

theorem not_mark_of_numeral (h : IntegerChar c ∨ c = '.' ∨ c = 'e' ∨ c = 'E') : ¬Mark c := by
  rcases h with (hdigit | rfl | rfl) | rfl | rfl | rfl
  · intro hmark
    rw [isDigit_eq_false_of_mark hmark] at hdigit
    cases hdigit
  all_goals decide

theorem decimal_jsonText (b : Bool) (p : Fin finiteMagnitudes) :
    DecimalNumber (Number.jsonText (.finite b p)) (.finite b p) :=
  Layout.decimal_finite .plus b p

theorem denotes_jsonText (b : Bool) (p : Fin finiteMagnitudes) :
    Denotes (Number.jsonText (.finite b p)) (.number (.finite b p)) := by
  obtain ⟨c, hc, hmark⟩ := Layout.exists_mark_finite Number.jsonLayout b p
  exact (decimal_jsonText b p).denotes (Printer.not_integer_of_mark hc hmark)

/-- A code of one digit, with three zeros in front of it. -/
theorem chars_code_one (hc : c.toNat < 16) (h : Chars text cs rest) :
    Chars (['\\', 'u', '0', '0', '0'] ++ Nat.toDigits 16 c.toNat ++ text) (c :: cs) rest := by
  have hdigits : ∀ n < 16, Nat.toDigits 16 n = [Nat.digitChar n] ∧
      n = hexCode '0' '0' '0' (Nat.digitChar n) := by decide
  obtain ⟨htext, hcode⟩ := hdigits c.toNat hc
  rw [htext]
  exact .code hcode h

/-- A code of two digits, the first of which is a one. -/
theorem chars_code_two (hlow : ¬c.toNat < 16) (hhigh : c.toNat < 32) (h : Chars text cs rest) :
    Chars (['\\', 'u', '0', '0'] ++ Nat.toDigits 16 c.toNat ++ text) (c :: cs) rest := by
  have hdigits : ∀ n < 16, Nat.toDigits 16 (n + 16) = ['1', Nat.digitChar n] ∧
      n + 16 = hexCode '0' '0' '1' (Nat.digitChar n) := by decide
  obtain ⟨n, hn⟩ : ∃ n, c.toNat = n + 16 := ⟨c.toNat - 16, by omega⟩
  obtain ⟨htext, hcode⟩ := hdigits n (by omega)
  rw [hn, htext]
  exact .code (hn.trans hcode) h

/-- Escaping can be undone. -/
theorem chars_jsonEscape (h : Chars text cs rest) :
    Chars (Printer.jsonEscape c ++ text) (c :: cs) rest := by
  unfold Printer.jsonEscape
  split_ifs with hquote hback hline hreturn htab h8 h12 h16 h32
  · subst hquote
    exact .escape rfl h
  · subst hback
    exact .escape rfl h
  · subst hline
    exact .escape rfl h
  · subst hreturn
    exact .escape rfl h
  · subst htab
    exact .escape rfl h
  · have hc : c = '\x08' := Char.toNat_inj.mp h8
    subst hc
    exact .escape rfl h
  · have hc : c = '\x0c' := Char.toNat_inj.mp h12
    subst hc
    exact .escape rfl h
  · exact chars_code_one h16 h
  · exact chars_code_two h16 h32 h
  · exact .plain hquote hback h

theorem chars_flatMap_jsonEscape (cs rest : List Char) :
    Chars (cs.flatMap Printer.jsonEscape ++ '"' :: rest) cs rest := by
  induction cs with
  | nil => exact .close rest
  | cons c cs ih =>
      rw [List.flatMap_cons, List.append_assoc]
      exact chars_jsonEscape ih

theorem jsonString_append (cs rest : List Char) :
    Printer.jsonString cs ++ rest = '"' :: (cs.flatMap Printer.jsonEscape ++ '"' :: rest) := by
  simp [Printer.jsonString]

theorem value_of_scalar (hrest : EndsWord rest) (hl : Scalar cs l) (hcs : ∀ c ∈ cs, ¬Mark c) :
    Value (cs ++ rest) (.leaf l) rest :=
  .word ⟨rfl, hcs, fun c hc => not_not_intro (hrest c hc)⟩ hl

/-- **The JSON of a leaf** is a value that stands for it. -/
theorem value_jsonLeaf (hl : l.IsFinite) (hrest : EndsWord rest) :
    Value (Printer.jsonLeaf l ++ rest) (.leaf l) rest := by
  cases l with
  | nil => exact value_of_scalar hrest .null (not_mark_of_all (by decide))
  | bool b =>
      cases b with
      | true =>
          exact value_of_scalar hrest (.bool (.constant .true)) (not_mark_of_all (by decide))
      | false =>
          exact value_of_scalar hrest (.bool (.constant .false)) (not_mark_of_all (by decide))
  | int n =>
      have hint := Printer.integer_intText n
      exact value_of_scalar hrest (.int hint.denotes) fun c hc =>
        not_mark_of_numeral (.inl (hint.integerChar hc))
  | number x =>
      obtain ⟨b, p, rfl⟩ := hl
      exact value_of_scalar hrest (.number (denotes_jsonText b p)) fun c hc =>
        not_mark_of_numeral ((decimal_jsonText b p).char hc)
  | text s =>
      rw [Printer.jsonLeaf, jsonString_append]
      have hvalue := Value.string (chars_flatMap_jsonEscape s.toList rest)
      rwa [String.ofList_toList] at hvalue

/-! ### Trees on one line -/

theorem kindField_jsonString {tag : List Char}
    (hgap : Gap text (Printer.jsonString tag ++ rest)) : KindField (kindKey ++ text) tag rest := by
  rw [jsonString_append] at hgap
  exact ⟨_, _, rfl, hgap, chars_flatMap_jsonEscape tag rest⟩

/-- A string has no blanks in front of it. -/
theorem gap_jsonString (cs rest : List Char) :
    Gap (Printer.jsonString cs ++ rest) (Printer.jsonString cs ++ rest) := by
  rw [jsonString_append]
  exact gap_none (by decide)

theorem gap_childrenKey (text : List Char) : Gap (childrenKey ++ text) (childrenKey ++ text) :=
  gap_none (by decide)

theorem gap_kindKey (text : List Char) : Gap (kindKey ++ text) (kindKey ++ text) :=
  gap_none (by decide)

theorem Value.gap (h : Value text t rest) : Gap text text := by
  obtain ⟨c, tail, rfl, hc, -⟩ := h.exists_head
  exact gap_none hc

theorem jsonOnto_node (rest : List Char) (k : Kind) (o : Option Note) (ts : List Tree) :
    Printer.jsonOnto rest (.node k o ts) = '\x7b' :: (childrenKey ++ '[' ::
      Printer.jsonItemsOnto
        (']' :: ',' :: (kindKey ++ (Printer.jsonString k.tag.toList ++ '\x7d' :: rest))) ts) := by
  have hopen : "\x7b\"children\":[".toList = '\x7b' :: (childrenKey ++ ['[']) := by decide
  have hclose : "],\"kind\":".toList = ']' :: ',' :: kindKey := by decide
  -- The equations of `jsonOnto` are not used here: they would have the texts evaluated.
  show "\x7b\"children\":[".toList ++ Printer.jsonItemsOnto
    ("],\"kind\":".toList ++ Printer.jsonString k.tag.toList ++ '\x7d' :: rest) ts = _
  rw [hopen, hclose]
  simp only [List.cons_append, List.append_assoc, List.nil_append]

mutual

theorem value_jsonOnto (t : Tree) (h : t.Readable) {rest : List Char} (hrest : EndsWord rest) :
    Value (Printer.jsonOnto rest t) t.bare rest := by
  cases t with
  | leaf l =>
      show Value (Printer.jsonLeaf l ++ rest) (.leaf l) rest
      exact value_jsonLeaf h hrest
  | node k o ts =>
      rw [Tree.Readable] at h
      rw [jsonOnto_node, Tree.bare]
      have hvalue := Value.childrenFirst (gap_childrenKey _) (gap_none (by decide))
        (elements_jsonItemsOnto ts h.2 _) (gap_kindKey _)
        (kindField_jsonString (gap_jsonString k.tag.toList ('\x7d' :: rest)))
        (gap_none (by decide))
      rw [String.ofList_toList, h.1.ofTag_tag] at hvalue
      exact hvalue

theorem elements_jsonItemsOnto (ts : List Tree) (h : Tree.AllReadable ts) (rest : List Char) :
    Elements (Printer.jsonItemsOnto (']' :: rest) ts) (Tree.bares ts) rest := by
  cases ts with
  | nil =>
      show Elements (']' :: rest) [] rest
      exact .none (gap_none (by decide))
  | cons t ts =>
      rw [Tree.AllReadable] at h
      cases ts with
      | nil =>
          show Elements (Printer.jsonOnto (']' :: rest) t) [t.bare] rest
          have hvalue := value_jsonOnto t h.1 (endsWord_cons (c := ']') (by decide) rest)
          exact .some hvalue.gap hvalue (.close (gap_none (by decide)))
      | cons u us =>
          show Elements (Printer.jsonOnto (',' :: Printer.jsonItemsOnto (']' :: rest) (u :: us)) t)
            (t.bare :: Tree.bares (u :: us)) rest
          have hvalue := value_jsonOnto t h.1
            (endsWord_cons (c := ',') (by decide) (Printer.jsonItemsOnto (']' :: rest) (u :: us)))
          exact .some hvalue.gap hvalue
            (.next (gap_none (by decide)) (elements_jsonItemsOnto (u :: us) h.2 rest))

end

/-! ### Trees over several lines -/

theorem gap_jsonNewlineOnto (h : Gap text rest) (depth : Nat) :
    Gap (Printer.jsonNewlineOnto text depth) rest := by
  have hspaces : ∀ n, Gap (List.replicate n ' ' ++ text) rest := by
    intro n
    induction n with
    | zero => exact h
    | succ n ih => exact ih.space
  exact .cons (by decide) (hspaces _)

/-- A gap in front of a mark ends a word. -/
theorem Gap.endsWord (h : Gap text (c :: rest)) (hc : Mark c) : EndsWord text := by
  obtain ⟨cs, rfl, hall, -⟩ := h
  cases cs with
  | nil => exact endsWord_cons hc rest
  | cons d cs => exact endsWord_cons (.inl (hall d List.mem_cons_self)) _

/-- A node over several lines; the brackets of an empty list stay on one line. -/
theorem exists_jsonPrettyOnto_node (rest : List Char) (depth : Nat) (k : Kind) (o : Option Note)
    (ts : List Tree) :
    ∃ close, Gap close (']' :: Printer.jsonNewlineOnto ('\x7d' :: rest) depth) ∧
      Printer.jsonPrettyOnto rest depth (.node k o ts) = '\x7b' :: Printer.jsonNewlineOnto
        (kindKey ++ ' ' :: (Printer.jsonString k.tag.toList ++ ',' :: Printer.jsonNewlineOnto
          (childrenKey ++ ' ' :: '[' :: Printer.jsonPrettyItemsOnto close (depth + 2) ts)
          (depth + 1))) (depth + 1) := by
  have hkind : "\"kind\": ".toList = kindKey ++ [' '] := by decide
  have hchildren : "\"children\": [".toList = childrenKey ++ [' ', '['] := by decide
  rw [Printer.jsonPrettyOnto, hkind, hchildren]
  simp only [List.cons_append, List.append_assoc, List.nil_append]
  refine ⟨_, ?_, rfl⟩
  split_ifs
  · exact gap_none (by decide)
  · exact gap_jsonNewlineOnto (gap_none (by decide)) _

mutual

theorem value_jsonPrettyOnto (t : Tree) (h : t.Readable) (depth : Nat) {rest : List Char}
    (hrest : EndsWord rest) : Value (Printer.jsonPrettyOnto rest depth t) t.bare rest := by
  cases t with
  | leaf l =>
      rw [Printer.jsonPrettyOnto, Tree.bare]
      exact value_jsonLeaf h hrest
  | node k o ts =>
      rw [Tree.Readable] at h
      obtain ⟨close, hclose, hnode⟩ := exists_jsonPrettyOnto_node rest depth k o ts
      rw [hnode, Tree.bare]
      have hvalue := Value.kindFirst (gap_jsonNewlineOnto (gap_kindKey _) (depth + 1))
        (kindField_jsonString (gap_jsonString k.tag.toList _).space)
        (gap_jsonNewlineOnto (gap_childrenKey _) (depth + 1)) (gap_none (by decide)).space
        (elements_jsonPrettyItemsOnto ts h.2 (depth + 2) hclose)
        (gap_jsonNewlineOnto (gap_none (by decide)) depth)
      rw [String.ofList_toList, h.1.ofTag_tag] at hvalue
      exact hvalue

theorem elements_jsonPrettyItemsOnto (ts : List Tree) (h : Tree.AllReadable ts) (depth : Nat)
    {text rest : List Char} (hclose : Gap text (']' :: rest)) :
    Elements (Printer.jsonPrettyItemsOnto text depth ts) (Tree.bares ts) rest := by
  cases ts with
  | nil =>
      rw [Printer.jsonPrettyItemsOnto, Tree.bares]
      exact .none hclose
  | cons t ts =>
      rw [Tree.AllReadable] at h
      cases ts with
      | nil =>
          rw [Printer.jsonPrettyItemsOnto, Tree.bares, Tree.bares]
          have hvalue := value_jsonPrettyOnto t h.1 depth (hclose.endsWord (by decide))
          exact .some (gap_jsonNewlineOnto hvalue.gap depth) hvalue (.close hclose)
      | cons u us =>
          show Elements (Printer.jsonNewlineOnto (Printer.jsonPrettyOnto
            (',' :: Printer.jsonPrettyItemsOnto text depth (u :: us)) depth t) depth)
            (t.bare :: Tree.bares (u :: us)) rest
          have hvalue := value_jsonPrettyOnto t h.1 depth
            (endsWord_cons (c := ',') (by decide)
              (Printer.jsonPrettyItemsOnto text depth (u :: us)))
          exact .some (gap_jsonNewlineOnto hvalue.gap depth) hvalue
            (.next (gap_none (by decide)) (elements_jsonPrettyItemsOnto (u :: us) h.2 depth hclose))

end

end Unstack.Json
