import Mathlib.Data.List.TFAE
import Unstack.Proofs.Json.Printing

/-! # Four renderings of a tree

A tree can be printed as a list or as JSON, on one line or over several.  All four texts tell the
same about it: the tags of its nodes and its leaves.

* **What is told.**  Kinds are printed by their tags, and notes not at all, so a tree prints as the
  tree in which each kind is the one that its tag names (`Tree.worded`).
* **Nothing is lost.**  That tree can be read back from each of the texts (`Faithful`): lists by the
  grammar of documents, JSON by its own.
* **Equal texts.**  So two nodes print alike in one rendering exactly if they do in every other
  (`renderings_agree`). -/

namespace Unstack

open Grammar

/-! ### What is told -/

namespace Tree

mutual

/-- The tree as its tags tell it, without notes. -/
def worded : Tree → Tree
  | leaf l => leaf l
  | node k _ ts => plain (.ofTag k.tag) (wordeds ts)

/-- Several trees as their tags tell them. -/
def wordeds : List Tree → List Tree
  | [] => []
  | t :: ts => t.worded :: wordeds ts

end

mutual

theorem bare_worded (t : Tree) : t.worded.bare = t.worded := by
  cases t with
  | leaf l => rfl
  | node k o ts => rw [worded, plain, bare, bares_wordeds, plain]

theorem bares_wordeds (ts : List Tree) : bares (wordeds ts) = wordeds ts := by
  cases ts with
  | nil => rw [wordeds, bares]
  | cons t ts => rw [wordeds, bares, bare_worded, bares_wordeds]

end

theorem isLeaf_worded (t : Tree) : t.worded.isLeaf = t.isLeaf := by
  cases t with
  | leaf l => rw [worded]
  | node k o ts => rw [worded, plain, isLeaf, isLeaf]

theorem all_isLeaf_wordeds (ts : List Tree) : (wordeds ts).all isLeaf = ts.all isLeaf := by
  induction ts with
  | nil => rw [wordeds]
  | cons t ts ih => rw [wordeds, List.all_cons, List.all_cons, isLeaf_worded, ih]

theorem allReadable_wordeds {ts : List Tree} :
    AllReadable (wordeds ts) ↔ ∀ t ∈ ts, t.worded.Readable := by
  induction ts with
  | nil => simp [wordeds, AllReadable]
  | cons t ts ih => simp [wordeds, AllReadable, ih]

end Tree

namespace Printer

mutual

theorem compactOnto_worded (rest : List Char) (t : Tree) :
    compactOnto rest t.worded = compactOnto rest t := by
  cases t with
  | leaf l => rw [Tree.worded]
  | node k o ts =>
      rw [Tree.worded, Tree.plain, compactOnto, compactOnto, Kind.tag_ofTag,
        compactItemsOnto_wordeds]

theorem compactItemsOnto_wordeds (rest : List Char) (ts : List Tree) :
    compactItemsOnto rest (Tree.wordeds ts) = compactItemsOnto rest ts := by
  cases ts with
  | nil => rw [Tree.wordeds]
  | cons t ts =>
      rw [Tree.wordeds, compactItemsOnto, compactItemsOnto, compactItemsOnto_wordeds,
        compactOnto_worded]

end

mutual

theorem prettyOnto_worded (rest : List Char) (depth : Nat) (t : Tree) :
    prettyOnto rest depth t.worded = prettyOnto rest depth t := by
  cases t with
  | leaf l => rw [Tree.worded]
  | node k o ts =>
      rw [Tree.worded, Tree.plain, prettyOnto, prettyOnto, Kind.tag_ofTag, Tree.all_isLeaf_wordeds,
        compactItemsOnto_wordeds, prettyItemsOnto_wordeds]

theorem prettyItemsOnto_wordeds (rest : List Char) (depth : Nat) (ts : List Tree) :
    prettyItemsOnto rest depth (Tree.wordeds ts) = prettyItemsOnto rest depth ts := by
  cases ts with
  | nil => rw [Tree.wordeds]
  | cons t ts =>
      rw [Tree.wordeds, prettyItemsOnto, prettyItemsOnto, prettyItemsOnto_wordeds,
        prettyOnto_worded]

end

mutual

theorem jsonOnto_worded (rest : List Char) (t : Tree) :
    jsonOnto rest t.worded = jsonOnto rest t := by
  cases t with
  | leaf l => rw [Tree.worded]
  | node k o ts =>
      rw [Tree.worded, Tree.plain, Json.jsonOnto_node, Json.jsonOnto_node, Kind.tag_ofTag,
        jsonItemsOnto_wordeds]

theorem jsonItemsOnto_wordeds (rest : List Char) (ts : List Tree) :
    jsonItemsOnto rest (Tree.wordeds ts) = jsonItemsOnto rest ts := by
  cases ts with
  | nil => rw [Tree.wordeds]
  | cons t ts =>
      cases ts with
      | nil => exact jsonOnto_worded rest t
      | cons u us =>
          show jsonOnto (',' :: jsonItemsOnto rest (Tree.wordeds (u :: us))) t.worded
            = jsonOnto (',' :: jsonItemsOnto rest (u :: us)) t
          rw [jsonItemsOnto_wordeds, jsonOnto_worded]

end

mutual

theorem jsonPrettyOnto_worded (rest : List Char) (depth : Nat) (t : Tree) :
    jsonPrettyOnto rest depth t.worded = jsonPrettyOnto rest depth t := by
  cases t with
  | leaf l => rw [Tree.worded]
  | node k o ts =>
      have hempty : (Tree.wordeds ts).isEmpty = ts.isEmpty := by cases ts <;> rfl
      rw [Tree.worded, Tree.plain, jsonPrettyOnto, jsonPrettyOnto, Kind.tag_ofTag, hempty,
        jsonPrettyItemsOnto_wordeds]

theorem jsonPrettyItemsOnto_wordeds (rest : List Char) (depth : Nat) (ts : List Tree) :
    jsonPrettyItemsOnto rest depth (Tree.wordeds ts) = jsonPrettyItemsOnto rest depth ts := by
  cases ts with
  | nil => rw [Tree.wordeds]
  | cons t ts =>
      cases ts with
      | nil =>
          show jsonNewlineOnto (jsonPrettyOnto rest depth t.worded) depth
            = jsonNewlineOnto (jsonPrettyOnto rest depth t) depth
          rw [jsonPrettyOnto_worded]
      | cons u us =>
          show jsonNewlineOnto (jsonPrettyOnto
              (',' :: jsonPrettyItemsOnto rest depth (Tree.wordeds (u :: us))) depth t.worded) depth
            = jsonNewlineOnto (jsonPrettyOnto
              (',' :: jsonPrettyItemsOnto rest depth (u :: us)) depth t) depth
          rw [jsonPrettyItemsOnto_wordeds, jsonPrettyOnto_worded]

end

/-! ### Nothing is lost -/

/-- A rendering of nodes that shows tags and leaves, all of them and nothing else. -/
structure Faithful (render : Tree → String) : Prop where
  render_worded : ∀ t, render t.worded = render t
  bare_eq : ∀ {t u}, t.isLeaf = false → u.isLeaf = false → t.Readable → u.Readable →
    render t = render u → t.bare = u.bare

/-- A text is the document of one tree. -/
theorem document_unique {text : List Char} {t u : Tree} (ht : Document text t)
    (hu : Document text u) : t = u :=
  Except.ok.inj ((Reader.reads_of_document ht).symm.trans (Reader.reads_of_document hu))

theorem faithful_compact : Faithful compact where
  render_worded t := congrArg String.ofList (compactOnto_worded [] t)
  bare_eq {t u} ht hu h h' he := by
    cases t with
    | leaf l => cases ht
    | node k o ts =>
        cases u with
        | leaf l => cases hu
        | node k' o' ts' =>
            have hdocument := document_compact h
            rw [he] at hdocument
            exact document_unique hdocument (document_compact h')

theorem faithful_pretty : Faithful pretty where
  render_worded t := congrArg String.ofList (prettyOnto_worded [] 0 t)
  bare_eq {t u} ht hu h h' he := by
    cases t with
    | leaf l => cases ht
    | node k o ts =>
        cases u with
        | leaf l => cases hu
        | node k' o' ts' =>
            have hdocument := document_pretty h
            rw [he] at hdocument
            exact document_unique hdocument (document_pretty h')

theorem faithful_json : Faithful json where
  render_worded t := congrArg String.ofList (jsonOnto_worded [] t)
  bare_eq _ _ h h' he := by
    have hvalue := Json.value_jsonOnto _ h Json.endsWord_nil
    rw [String.ofList_injective he] at hvalue
    exact (hvalue.unique (Json.value_jsonOnto _ h' Json.endsWord_nil)).1

theorem faithful_jsonPretty : Faithful jsonPretty where
  render_worded t := congrArg String.ofList (jsonPrettyOnto_worded [] 0 t)
  bare_eq _ _ h h' he := by
    have hvalue := Json.value_jsonPrettyOnto _ h 0 Json.endsWord_nil
    rw [String.ofList_injective he] at hvalue
    exact (hvalue.unique (Json.value_jsonPrettyOnto _ h' 0 Json.endsWord_nil)).1

/-- **Equal texts** tell that the trees are worded alike. -/
theorem Faithful.eq_iff {render : Tree → String} (h : Faithful render) {t u : Tree}
    (ht : t.isLeaf = false) (hu : u.isLeaf = false) (hrt : t.worded.Readable)
    (hru : u.worded.Readable) : render t = render u ↔ t.worded = u.worded := by
  rw [← h.render_worded t, ← h.render_worded u]
  constructor
  · intro he
    rw [← Tree.isLeaf_worded] at ht hu
    have hbare := h.bare_eq ht hu hrt hru he
    rwa [Tree.bare_worded, Tree.bare_worded] at hbare
  · exact congrArg render

end Printer

/-! ### Nodes -/

/-- A slot that can be printed: its tag is a symbol, and its numbers are finite. -/
structure Slot.Printable (s : Slot) : Prop where
  nonempty : s.kind.tag.toList ≠ []
  plain : ∀ c ∈ s.kind.tag.toList, ¬Delimiter c
  leaves : ∀ l, .leaf l ∈ s.children → l.IsFinite

namespace Arena

variable {a b : Arena} {m n : NodeId}

/-- A node that can be printed. -/
def PrintableAt (a : Arena) (n : NodeId) : Prop := ∀ s, a.slot? n = some s → s.Printable

theorem isLeaf_eq_false_of_shows {t : Tree} (h : a.Shows (.node n) t) : t.isLeaf = false := by
  obtain ⟨k, o, ts, rfl⟩ := h.exists_node
  rfl

theorem readable_worded_of_shows (h : a.WellFormed) {t : Tree} (hshows : a.Shows (.node n) t)
    (hprint : ∀ m, a.Below m n → a.PrintableAt m) : t.worded.Readable := by
  induction t using Tree.induction generalizing n with
  | leaf l =>
      obtain ⟨_, _, _, he⟩ := hshows.exists_node
      cases he
  | node k o ts ih =>
      obtain ⟨hkind, -, hchildren⟩ := shows_node.mp hshows
      obtain ⟨s, hs, rfl⟩ := Option.map_eq_some_iff.mp hkind
      have hn := hprint n (.refl a n) s hs
      rw [Tree.worded, Tree.plain, Tree.Readable, Tree.allReadable_wordeds]
      refine ⟨⟨by rw [Kind.tag_ofTag], ?_, ?_⟩, fun u hu => ?_⟩
      · rw [Kind.tag_ofTag]
        exact hn.nonempty
      · rw [Kind.tag_ofTag]
        exact hn.plain
      · obtain ⟨c, hc, hcu⟩ := exists_of_mem_right hchildren hu
        cases c with
        | leaf l =>
            rw [children, hs] at hc
            rw [shows_leaf.mp hcu]
            exact hn.leaves l hc
        | node m =>
            have hbelow : a.Below m n := below_of_parent (h.mem_children_iff.mp hc)
            exact ih u hu hcu fun q hq => hprint q (hq.trans hbelow)

/-- **Four renderings, one content.**  Any two nodes whose tags are symbols and whose numbers are
finite can be printed, and if two of their texts are equal in one rendering, they are equal in
all: exactly if the trees have the same tags and the same leaves. -/
theorem renderings_agree (ha : a.WellFormed) (hb : b.WellFormed) (hm : m < a.size)
    (hn : n < b.size) (hpa : ∀ q, a.Below q m → a.PrintableAt q)
    (hpb : ∀ q, b.Below q n → b.PrintableAt q) :
    ∃ t u, a.treeAt m = .ok t ∧ b.treeAt n = .ok u ∧
      List.TFAE [Printer.compact t = Printer.compact u, Printer.pretty t = Printer.pretty u,
        Printer.json t = Printer.json u, Printer.jsonPretty t = Printer.jsonPretty u,
        t.worded = u.worded] := by
  obtain ⟨t, ht, -⟩ := exists_shows ha hm
  obtain ⟨u, hu, -⟩ := exists_shows hb hn
  have hrt := readable_worded_of_shows ha ht hpa
  have hru := readable_worded_of_shows hb hu hpb
  refine ⟨t, u, (treeAt_eq_ok_iff ha hm).mpr ht, (treeAt_eq_ok_iff hb hn).mpr hu, ?_⟩
  have hnt : t.isLeaf = false := isLeaf_eq_false_of_shows ht
  have hnu : u.isLeaf = false := isLeaf_eq_false_of_shows hu
  apply List.tfae_of_forall (t.worded = u.worded)
  simp only [List.forall_mem_cons]
  exact ⟨Printer.faithful_compact.eq_iff hnt hnu hrt hru,
    Printer.faithful_pretty.eq_iff hnt hnu hrt hru, Printer.faithful_json.eq_iff hnt hnu hrt hru,
    Printer.faithful_jsonPretty.eq_iff hnt hnu hrt hru, trivial, List.forall_mem_nil _⟩

/-- The magnitude one. -/
theorem one_lt_finiteMagnitudes : 4607182418800017408 < finiteMagnitudes := by decide

/-- A text that looks like an integer, the integer, and the number opposite to it. -/
def spelledLeaves : List Leaf :=
  [.text "1", .int 1, .number (.finite true ⟨4607182418800017408, one_lt_finiteMagnitudes⟩)]

/-- Three nodes of the same tag.  The first has a note and is not of the kind that the tag names;
the last has the integer in place of the text. -/
def spelledTree : Tree :=
  .plain (.other "block")
    [.node (.other "pop") (some ⟨some 7, none⟩) (spelledLeaves.map .leaf),
      .plain .pop (spelledLeaves.map .leaf), .plain .pop ((.int 1 :: spelledLeaves.tail).map .leaf)]

theorem slots_spelledTree : (ofTree spelledTree).slots =
    #[⟨.other "<document>", [], none, 0, none⟩,
      ⟨.other "pop", spelledLeaves.map .leaf, some 4, 0, some ⟨some 7, none⟩⟩,
      ⟨.pop, spelledLeaves.map .leaf, some 4, 1, none⟩,
      ⟨.pop, (.int 1 :: spelledLeaves.tail).map .leaf, some 4, 2, none⟩,
      ⟨.other "block", [.node 1, .node 2, .node 3], none, 0, none⟩] := by
  rw [ofTree_eq_numbered]
  rfl

theorem printable_spelledTree (n : NodeId) : (ofTree spelledTree).PrintableAt n := by
  intro s hs
  have hmem := Array.mem_of_getElem? hs
  rw [slots_spelledTree] at hmem
  simp only [List.mem_toArray, List.mem_cons, List.not_mem_nil, or_false] at hmem
  rcases hmem with rfl | rfl | rfl | rfl | rfl
  all_goals
    refine ⟨by decide, not_delimiter_of_all (by decide), ?_⟩
    simp [spelledLeaves, Leaf.IsFinite]

/-- The first two nodes have the same JSON, and hence the same list.  A text is not the integer that
it looks like: the last two nodes differ in every rendering. -/
theorem renderings_agree_spelled :
    ∃ t u v, (ofTree spelledTree).treeAt 1 = .ok t ∧ (ofTree spelledTree).treeAt 2 = .ok u ∧
      (ofTree spelledTree).treeAt 3 = .ok v ∧
      t ≠ u ∧ (Printer.json t = Printer.json u ↔ Printer.compact t = Printer.compact u) ∧
      Printer.json t = Printer.json u ∧
      Printer.compact u = "(pop \"1\" 1 -1.0)" ∧ Printer.compact v = "(pop 1 1 -1.0)" ∧
      Printer.pretty u ≠ Printer.pretty v ∧ Printer.json u ≠ Printer.json v ∧
      Printer.jsonPretty u ≠ Printer.jsonPretty v := by
  have hsize : (ofTree spelledTree).size = 5 := by
    rw [size, slots_spelledTree]
    rfl
  have hwf := wellFormed_ofTree spelledTree
  have hother : (ofTree spelledTree).treeAt 1
      = .ok (.node (.other "pop") (some ⟨some 7, none⟩) (spelledLeaves.map .leaf)) := by
    rw [ofTree_eq_numbered]
    rfl
  have hpop : (ofTree spelledTree).treeAt 2 = .ok (.plain .pop (spelledLeaves.map .leaf)) := by
    rw [ofTree_eq_numbered]
    rfl
  have hint : (ofTree spelledTree).treeAt 3
      = .ok (.plain .pop ((.int 1 :: spelledLeaves.tail).map .leaf)) := by
    rw [ofTree_eq_numbered]
    rfl
  obtain ⟨t, u, ht, hu, hsame⟩ := renderings_agree (m := 1) (n := 2) hwf hwf
    (by rw [hsize]; decide) (by rw [hsize]; decide) (fun q _ => printable_spelledTree q)
    (fun q _ => printable_spelledTree q)
  obtain ⟨u', v, hu', hv, hdiffer⟩ := renderings_agree (m := 2) (n := 3) hwf hwf
    (by rw [hsize]; decide) (by rw [hsize]; decide) (fun q _ => printable_spelledTree q)
    (fun q _ => printable_spelledTree q)
  cases ht.symm.trans hother
  cases hu.symm.trans hpop
  cases hu'.symm.trans hpop
  cases hv.symm.trans hint
  have htext : Printer.compact (.plain .pop (spelledLeaves.map .leaf)) = "(pop \"1\" 1 -1.0)" := by
    decide +kernel
  have hinteger : Printer.compact (.plain .pop ((.int 1 :: spelledLeaves.tail).map .leaf))
      = "(pop 1 1 -1.0)" := by
    decide +kernel
  have hne : Printer.compact (.plain .pop (spelledLeaves.map .leaf))
      ≠ Printer.compact (.plain .pop ((.int 1 :: spelledLeaves.tail).map .leaf)) := by
    rw [htext, hinteger]
    decide
  refine ⟨_, _, _, ht, hu, hv, fun he => ?_, hsame.out 2 0, (hsame.out 2 4).mpr rfl, htext,
    hinteger, mt (hdiffer.out 1 0).mp hne, mt (hdiffer.out 2 0).mp hne, mt (hdiffer.out 3 0).mp hne⟩
  cases he

end Arena

end Unstack
