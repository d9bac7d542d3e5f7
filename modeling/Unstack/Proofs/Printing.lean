import Unstack.Printer.Text
import Unstack.Proofs.Number.Layout
import Unstack.Proofs.Reading.Machine

/-! # Printed trees read back

What is printed is a document of the tree without its notes, in both layouts.

* **Leaves.**  The text of a leaf stands for that leaf.  Integers and numbers are read back as such;
  a bare text is none of the names, integers and decimals that would be taken for something else,
  and in a quoted text the escapes are undone (`item_leafChars`).
* **Trees.**  The layouts differ in their trivia only (`item_compactOnto`, `item_prettyOnto`).
* **Arenas.**  So printing a node and reading the text gives the arena of the tree below the node,
  numbered anew (`read_printed`). -/

namespace Unstack

open Grammar

/-! ### What can be printed -/

/-- A leaf that is no infinite number and no failed one. -/
def Leaf.IsFinite : Leaf → Prop
  | .number x => ∃ b p, x = .finite b p
  | _ => True

/-- A kind that its tag names, where the tag is a symbol. -/
structure Kind.Readable (k : Kind) : Prop where
  ofTag_tag : Kind.ofTag k.tag = k
  nonempty : k.tag.toList ≠ []
  plain : ∀ c ∈ k.tag.toList, ¬Delimiter c

namespace Tree

mutual

/-- All kinds can be read and all numbers are finite. -/
def Readable : Tree → Prop
  | leaf l => l.IsFinite
  | node k _ ts => k.Readable ∧ AllReadable ts

/-- Several trees that can be read. -/
def AllReadable : List Tree → Prop
  | [] => True
  | t :: ts => t.Readable ∧ AllReadable ts

end

mutual

/-- The tree without its notes. -/
def bare : Tree → Tree
  | leaf l => leaf l
  | node k _ ts => plain k (bares ts)

/-- Several trees without their notes. -/
def bares : List Tree → List Tree
  | [] => []
  | t :: ts => t.bare :: bares ts

end

theorem allReadable_iff {ts : List Tree} : AllReadable ts ↔ ∀ t ∈ ts, t.Readable := by
  induction ts with
  | nil => simp [AllReadable]
  | cons t ts ih => simp [AllReadable, ih]

end Tree

namespace Printer

/-- A text that ends a symbol in front of it. -/
def EndsSymbol (rest : List Char) : Prop := ∀ c, rest.head? = some c → Delimiter c

theorem endsSymbol_cons {c : Char} (hc : Delimiter c) (rest : List Char) :
    EndsSymbol (c :: rest) := by
  intro d hd
  cases hd
  exact hc

/-! ### Leaves -/

theorem integer_intText (n : Int64) : Integer (Leaf.intText n) n := by
  have hdigits : Digits (Nat.toDigits 10 n.toInt.natAbs) :=
    ⟨Nat.toDigits_ne_nil, fun c hc => Layout.isDigit_of_mem_natText hc⟩
  have hvalue : Numeral.natOfDigits (Nat.toDigits 10 n.toInt.natAbs) = n.toInt.natAbs :=
    Numeral.natOfDigits_natText _
  unfold Leaf.intText
  dsimp only
  split_ifs with hneg
  · refine ⟨['-'], true, _, .minus, hdigits, rfl, ?_⟩
    simp only [signed, hvalue, if_true]
    omega
  · refine ⟨[], false, _, .none, hdigits, rfl, ?_⟩
    simp only [signed, hvalue, Bool.false_eq_true, if_false]
    omega

theorem not_integer_of_mark {cs : List Char} {c : Char} (hc : c ∈ cs) (hmark : c = '.' ∨ c = 'e')
    (n : Int64) : ¬Integer cs n := by
  intro h
  rcases h.integerChar hc with h | rfl | rfl
  · rcases hmark with rfl | rfl <;> cases h
  · rcases hmark with h | h <;> cases h
  · rcases hmark with h | h <;> cases h

/-- What a bare text is not. -/
structure Bare (cs : List Char) : Prop where
  noConstant : ∀ l, ¬Constant cs l
  nonempty : cs ≠ []
  noNumeral : ∀ c tail, cs = c :: tail → ¬IntegerChar c
  plain : ∀ c ∈ cs, ¬Delimiter c

theorem bare_of_isBare {cs : List Char} (h : isBare cs = true) : Bare cs := by
  cases cs with
  | nil => cases h
  | cons c tail =>
      simp only [isBare, Bool.and_eq_true, bne_iff_ne, Bool.not_eq_true', Bool.or_eq_false_iff,
        beq_eq_false_iff_ne, List.any_eq_false] at h
      obtain ⟨⟨⟨⟨htrue, hfalse⟩, hnil⟩, ⟨⟨⟨hdigit, hminus⟩, hplus⟩, -⟩⟩, hchars⟩ := h
      refine ⟨not_constant_iff.mpr ⟨htrue, hfalse, hnil⟩, List.cons_ne_nil _ _, ?_, ?_⟩
      · rintro d _ he (hd | rfl | rfl) <;> cases he
        · rw [hdigit] at hd
          cases hd
        · exact hplus rfl
        · exact hminus rfl
      · intro d hd hdelim
        apply hchars d hd
        rw [← Reader.isDelimiter_iff] at hdelim
        exact Bool.or_eq_true_iff.mpr (.inl hdelim)

theorem Bare.denotes {cs : List Char} (h : Bare cs) : Denotes cs (.text (String.ofList cs)) := by
  refine .text h.noConstant (fun n hn => ?_) fun x hx => ?_
  · obtain ⟨c, tail, he, hc⟩ := hn.exists_head
    exact h.noNumeral c tail he hc
  · obtain ⟨c, tail, he, hc⟩ := hx.exists_head
    exact h.noNumeral c tail he hc

/-- Quoting can be undone. -/
theorem quoted_flatMap_escapeChar (cs rest : List Char) :
    Quoted (cs.flatMap escapeChar ++ '"' :: rest) cs rest := by
  induction cs with
  | nil => exact .close rest
  | cons c cs ih =>
      rw [List.flatMap_cons, List.append_assoc]
      unfold escapeChar
      split
      · exact .escape .quote ih
      · exact .escape .backslash ih
      · exact .escape .newline ih
      · exact .escape .tab ih
      · rename_i hquote hback _ _
        exact .plain hquote hback ih

section leaves

variable {cs rest : List Char} (hrest : EndsSymbol rest)

include hrest

theorem item_of_denotes {l : Leaf} (h : Denotes cs l) (hne : cs ≠ [])
    (hplain : ∀ c ∈ cs, ¬Delimiter c) : Item (cs ++ rest) (.leaf l) rest :=
  .symbol ⟨rfl, hne, hplain, hrest⟩ h

theorem item_intText (n : Int64) : Item (Leaf.intText n ++ rest) (.leaf (.int n)) rest := by
  have hint := integer_intText n
  exact item_of_denotes hrest hint.denotes hint.ne_nil
    fun c hc => (hint.integerChar hc).not_delimiter

theorem item_numberText (b : Bool) (p : Fin finiteMagnitudes) :
    Item (Number.text (.finite b p) ++ rest) (.leaf (.number (.finite b p))) rest := by
  have hdecimal : DecimalNumber (Number.text (.finite b p)) (.finite b p) :=
    Layout.decimal_finite .none b p
  obtain ⟨c, hc, hmark⟩ := Layout.exists_mark_finite Number.textLayout b p
  exact item_of_denotes hrest (hdecimal.denotes (not_integer_of_mark hc hmark)) hdecimal.ne_nil
    fun c hc => hdecimal.not_delimiter hc

theorem item_textChars (s : String) : Item (textChars s.toList ++ rest) (.text s) rest := by
  unfold textChars
  split_ifs with hbare
  · have h := bare_of_isBare hbare
    have hitem := item_of_denotes hrest h.denotes h.nonempty h.plain
    rwa [String.ofList_toList] at hitem
  · have hitem := Item.quoted (quoted_flatMap_escapeChar s.toList rest)
    rw [String.ofList_toList] at hitem
    simpa using hitem

/-- **The text of a leaf** is an item that stands for it. -/
theorem item_leafChars {l : Leaf} (hl : l.IsFinite) :
    Item (leafChars l ++ rest) (.leaf l) rest := by
  cases l with
  | nil =>
      exact item_of_denotes hrest (.constant .nil) (by decide) (not_delimiter_of_all (by decide))
  | bool b =>
      cases b with
      | true =>
          exact item_of_denotes hrest (.constant .true) (by decide)
            (not_delimiter_of_all (by decide))
      | false =>
          exact item_of_denotes hrest (.constant .false) (by decide)
            (not_delimiter_of_all (by decide))
  | int n => exact item_intText hrest n
  | number x =>
      obtain ⟨b, p, rfl⟩ := hl
      exact item_numberText hrest b p
  | text s => exact item_textChars hrest s

end leaves

/-! ### Trees on one line -/

theorem endsSymbol_compactItemsOnto {rest : List Char} (hrest : EndsSymbol rest) (ts : List Tree) :
    EndsSymbol (compactItemsOnto rest ts) := by
  cases ts with
  | nil => exact hrest
  | cons t ts => exact endsSymbol_cons (by decide) _

/-- A kind and what follows it. -/
theorem Readable.symbol {k : Kind} (h : k.Readable) {rest : List Char} (hrest : EndsSymbol rest) :
    Symbol (k.tag.toList ++ rest) k.tag.toList rest :=
  ⟨rfl, h.nonempty, h.plain, hrest⟩

/-- A list of a kind and of items. -/
theorem listText_of_items {k : Kind} (h : k.Readable) {items rest : List Char} {ts : List Tree}
    (hends : EndsSymbol items) (hitems : Items items ts (')' :: rest)) :
    ListText ('(' :: (k.tag.toList ++ items)) (.plain k ts) rest := by
  have hlist := ListText.mk (.none _) (Readable.symbol h hends) hitems (.none _)
  rwa [String.ofList_toList, h.ofTag_tag] at hlist

mutual

theorem item_compactOnto (t : Tree) (h : t.Readable) {rest : List Char} (hrest : EndsSymbol rest) :
    Item (compactOnto rest t) t.bare rest := by
  cases t with
  | leaf l =>
      rw [compactOnto, Tree.bare]
      exact item_leafChars hrest h
  | node k o ts =>
      rw [Tree.Readable] at h
      rw [compactOnto, Tree.bare]
      have hclose : EndsSymbol (')' :: rest) := endsSymbol_cons (by decide) rest
      exact .list (listText_of_items h.1 (endsSymbol_compactItemsOnto hclose ts)
        (items_compactItemsOnto ts h.2 hclose))

theorem items_compactItemsOnto (ts : List Tree) (h : Tree.AllReadable ts) {rest : List Char}
    (hrest : EndsSymbol rest) : Items (compactItemsOnto rest ts) (Tree.bares ts) rest := by
  cases ts with
  | nil =>
      rw [compactItemsOnto, Tree.bares]
      exact .nil rest
  | cons t ts =>
      rw [Tree.AllReadable] at h
      rw [compactItemsOnto, Tree.bares]
      exact .cons (.blank Text.isBlank_space (.none _))
        (item_compactOnto t h.1 (endsSymbol_compactItemsOnto hrest ts))
        (items_compactItemsOnto ts h.2 hrest)

end

/-! ### Trees over several lines -/

theorem trivia_newlineOnto (rest : List Char) (depth : Nat) :
    Trivia (newlineOnto rest depth) rest := by
  have hspaces : ∀ n, Trivia (List.replicate n ' ' ++ rest) rest := by
    intro n
    induction n with
    | zero => exact .none rest
    | succ n ih => exact .blank Text.isBlank_space ih
  exact .blank Text.isBlank_newline (hspaces _)

theorem endsSymbol_prettyItemsOnto {rest : List Char} (hrest : EndsSymbol rest) (depth : Nat)
    (ts : List Tree) : EndsSymbol (prettyItemsOnto rest depth ts) := by
  cases ts with
  | nil => exact hrest
  | cons t ts => exact endsSymbol_cons (by decide) _

mutual

theorem item_prettyOnto (t : Tree) (h : t.Readable) (depth : Nat) {rest : List Char}
    (hrest : EndsSymbol rest) : Item (prettyOnto rest depth t) t.bare rest := by
  cases t with
  | leaf l =>
      rw [prettyOnto, Tree.bare]
      exact item_leafChars hrest h
  | node k o ts =>
      rw [Tree.Readable] at h
      rw [prettyOnto, Tree.bare]
      have hclose : EndsSymbol (')' :: rest) := endsSymbol_cons (by decide) rest
      split_ifs
      · exact .list (listText_of_items h.1 (endsSymbol_compactItemsOnto hclose ts)
          (items_compactItemsOnto ts h.2 hclose))
      · exact .list (listText_of_items h.1 (endsSymbol_prettyItemsOnto hclose _ ts)
          (items_prettyItemsOnto ts h.2 (depth + 1) hclose))

theorem items_prettyItemsOnto (ts : List Tree) (h : Tree.AllReadable ts) (depth : Nat)
    {rest : List Char} (hrest : EndsSymbol rest) :
    Items (prettyItemsOnto rest depth ts) (Tree.bares ts) rest := by
  cases ts with
  | nil =>
      rw [prettyItemsOnto, Tree.bares]
      exact .nil rest
  | cons t ts =>
      rw [Tree.AllReadable] at h
      rw [prettyItemsOnto, Tree.bares]
      exact .cons (trivia_newlineOnto _ depth)
        (item_prettyOnto t h.1 depth (endsSymbol_prettyItemsOnto hrest depth ts))
        (items_prettyItemsOnto ts h.2 depth hrest)

end

/-! ### Documents -/

section documents

variable {text : List Char} {k : Kind} {o : Option Note} {ts : List Tree}

theorem document_of_item (h : Item text (Tree.node k o ts).bare []) :
    Document text (Tree.node k o ts).bare := by
  rw [Tree.bare] at h ⊢
  cases h with
  | list h => exact ⟨text, [], .none text, h, .none []⟩

theorem document_compact (h : (Tree.node k o ts).Readable) :
    Document (compact (.node k o ts)).toList (Tree.node k o ts).bare := by
  rw [compact, String.toList_ofList]
  exact document_of_item (item_compactOnto _ h nofun)

theorem document_pretty (h : (Tree.node k o ts).Readable) :
    Document (pretty (.node k o ts)).toList (Tree.node k o ts).bare := by
  rw [pretty, String.toList_ofList]
  exact document_of_item (item_prettyOnto _ h 0 nofun)

end documents

mutual

/-- Notes are not printed. -/
theorem compactOnto_bare (rest : List Char) (t : Tree) :
    compactOnto rest t.bare = compactOnto rest t := by
  cases t with
  | leaf l => rw [Tree.bare]
  | node k o ts => rw [Tree.bare, Tree.plain, compactOnto, compactOnto, compactItemsOnto_bares]

theorem compactItemsOnto_bares (rest : List Char) (ts : List Tree) :
    compactItemsOnto rest (Tree.bares ts) = compactItemsOnto rest ts := by
  cases ts with
  | nil => rw [Tree.bares]
  | cons t ts =>
      rw [Tree.bares, compactItemsOnto, compactItemsOnto, compactItemsOnto_bares, compactOnto_bare]

end

theorem compact_bare (t : Tree) : compact t.bare = compact t :=
  congrArg String.ofList (compactOnto_bare [] t)

end Printer

namespace Arena

variable {a : Arena} {n : NodeId}

/-! ### Arenas -/

/-- A node that can be printed so that it reads back: its kind is read from its tag, and its numbers
are finite. -/
structure ReadableAt (a : Arena) (n : NodeId) : Prop where
  kind : ∀ k, a.kind? n = some k → k.Readable
  leaves : ∀ l, .leaf l ∈ a.children n → l.IsFinite

theorem readableAt_of_slot {s : Slot} (hs : a.slot? n = some s) (hkind : s.kind.Readable)
    (hleaves : ∀ l, .leaf l ∈ s.children → l.IsFinite) : a.ReadableAt n := by
  refine ⟨fun k hk => ?_, fun l hl => ?_⟩
  · rw [kind?, hs] at hk
    cases hk
    exact hkind
  · rw [children, hs] at hl
    exact hleaves l hl

theorem readable_of_shows (h : a.WellFormed) {t : Tree} (hshows : a.Shows (.node n) t)
    (hread : ∀ m, a.Below m n → a.ReadableAt m) : t.Readable := by
  induction t using Tree.induction generalizing n with
  | leaf l =>
      obtain ⟨_, _, _, he⟩ := hshows.exists_node
      cases he
  | node k o ts ih =>
      obtain ⟨hkind, -, hchildren⟩ := shows_node.mp hshows
      have hn := hread n (.refl a n)
      rw [Tree.Readable, Tree.allReadable_iff]
      refine ⟨hn.kind k hkind, fun u hu => ?_⟩
      obtain ⟨c, hc, hcu⟩ := exists_of_mem_right hchildren hu
      cases c with
      | leaf l =>
          rw [shows_leaf.mp hcu]
          exact hn.leaves l hc
      | node m =>
          have hbelow : a.Below m n := below_of_parent (h.mem_children_iff.mp hc)
          exact ih u hu hcu fun q hq => hread q (hq.trans hbelow)

theorem tree_numbered (k : Kind) (o : Option Note) (ts : List Tree) :
    (numbered (.node k o ts)).tree = .ok (.node k o ts) := by
  rw [← ofTree_eq_numbered, tree_ofTree]

/-- **Printed and read back.**  The tree below a node can be printed, on one line and over several,
and either text is read as the arena that has the tree's nodes in post-order behind the placeholder,
with the same kinds, the same children and the same leaves.  Printing that arena gives the text on
one line again. -/
theorem read_printed (h : a.WellFormed) (hn : n < a.size)
    (hread : ∀ m, a.Below m n → a.ReadableAt m) :
    ∃ t, a.treeAt n = .ok t ∧
      read (Printer.compact t) = .ok (numbered t.bare) ∧
      read (Printer.pretty t) = .ok (numbered t.bare) ∧
      (numbered t.bare).tree.map Printer.compact = .ok (Printer.compact t) := by
  obtain ⟨t, hshows, -⟩ := exists_shows h hn
  have hreadable := readable_of_shows h hshows hread
  obtain ⟨k, o, ts, rfl⟩ := hshows.exists_node
  refine ⟨_, (treeAt_eq_ok_iff h hn).mpr hshows, ?_, ?_, ?_⟩
  · exact read_eq_ok_iff.mpr ⟨_, Reader.reads_of_document (Printer.document_compact hreadable), rfl⟩
  · exact read_eq_ok_iff.mpr ⟨_, Reader.reads_of_document (Printer.document_pretty hreadable), rfl⟩
  · have htree : (numbered (Tree.node k o ts).bare).tree = .ok (Tree.node k o ts).bare := by
      rw [Tree.bare, Tree.plain, tree_numbered]
    rw [htree, ← Printer.compact_bare]
    rfl

/-- A tree with a note, texts that need quotes, and a number. -/
def notedTree : Tree :=
  .node (.other "f") (some ⟨some 7, none⟩)
    [.text "a b", .text "true", .text "-1", .leaf (.int (-1)),
      .leaf (.number (.finite true ⟨4607182418800017408, by decide⟩)), .plain (.branch .truthy) []]

theorem slots_notedTree : (ofTree notedTree).slots =
    #[⟨.other "<document>", [], none, 0, none⟩, ⟨.branch .truthy, [], some 2, 5, none⟩,
      ⟨.other "f", [.leaf (.text "a b"), .leaf (.text "true"), .leaf (.text "-1"),
        .leaf (.int (-1)), .leaf (.number (.finite true ⟨4607182418800017408, by decide⟩)),
        .node 1], none, 0, some ⟨some 7, none⟩⟩] := by
  rw [ofTree_eq_numbered]
  rfl

/-- Both texts of the tree, which are read as the tree without its note. -/
theorem read_printed_notedTree :
    let line := "(f \"a b\" \"true\" \"-1\" -1 -1.0 (if_true))"
    let lines := "(f\n  \"a b\"\n  \"true\"\n  \"-1\"\n  -1\n  -1.0\n  (if_true))"
    (ofTree notedTree).treeAt 2 = .ok notedTree ∧
      Printer.compact notedTree = line ∧ Printer.pretty notedTree = lines ∧
      read line = .ok (numbered notedTree.bare) ∧ read lines = .ok (numbered notedTree.bare) ∧
      (numbered notedTree.bare).tree.map Printer.compact = .ok line := by
  intro line lines
  have hsize : (ofTree notedTree).size = 3 := by
    rw [size, slots_notedTree]
    rfl
  have hn : 2 < (ofTree notedTree).size := by
    rw [hsize]
    decide
  have hreadable : ∀ m, (ofTree notedTree).Below m 2 → (ofTree notedTree).ReadableAt m := by
    intro m hm
    have hslot : (ofTree notedTree).slot? m = (ofTree notedTree).slots[m]? := rfl
    rw [slots_notedTree] at hslot
    have hcases : ∀ k : Nat, k < 3 → k = 0 ∨ k = 1 ∨ k = 2 := by omega
    rcases hcases m (hsize ▸ lt_of_below hm hn) with rfl | rfl | rfl
    · refine readableAt_of_slot hslot
        ⟨by decide, by decide, not_delimiter_of_all (by decide)⟩ fun l hl => ?_
      cases hl
    · refine readableAt_of_slot hslot
        ⟨by decide, by decide, not_delimiter_of_all (by decide)⟩ fun l hl => ?_
      cases hl
    · refine readableAt_of_slot hslot
        ⟨by decide, by decide, not_delimiter_of_all (by decide)⟩ fun l hl => ?_
      simp only [List.getElem_toArray, List.getElem_cons_succ, List.getElem_cons_zero,
        List.mem_cons, Child.leaf.injEq, reduceCtorEq, List.not_mem_nil, or_self, or_false] at hl
      rcases hl with rfl | rfl | rfl | rfl | rfl
      all_goals simp [Leaf.IsFinite]
  have htree : (ofTree notedTree).treeAt 2 = .ok notedTree := by
    rw [ofTree_eq_numbered]
    rfl
  have hline : Printer.compact notedTree = line := by decide +kernel
  have hlines : Printer.pretty notedTree = lines := by decide +kernel
  obtain ⟨t, ht, hcompact, hpretty, hagain⟩ :=
    read_printed (wellFormed_ofTree notedTree) hn hreadable
  cases ht.symm.trans htree
  rw [hline] at hcompact hagain
  rw [hlines] at hpretty
  exact ⟨ht, hline, hlines, hcompact, hpretty, hagain⟩

end Arena

end Unstack
