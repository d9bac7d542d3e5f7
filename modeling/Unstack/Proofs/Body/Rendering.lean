import Unstack.Body
import Unstack.Proofs.Printing

/-! # Method bodies as documents

The text of a method body is a document of the tree that the body stands for.

* **Proper bodies.**  Names are symbols, comparisons compare, and operators are arithmetic
  (`Body.Proper`).  Quoted texts are arbitrary.
* **Trees.**  `Body.tree` has a node for every list of the text.  Quoted texts are leaves as they
  stand; names and numbers are the leaves that their symbols denote.
* **Reading.**  The text of an expression stands for its tree whatever follows (`Written`), so that
  the texts of a list's items can be put together (`listText_of_written`). -/

namespace Unstack

open Grammar Printer

/-! ### Proper bodies -/

/-- A name that is a single symbol. -/
def IsSymbol (s : String) : Prop := s.toList ≠ [] ∧ ∀ c ∈ s.toList, ¬Delimiter c

/-- A condition that compares two operands. -/
def Condition.Compares (c : Condition) : Prop := c ≠ .truthy ∧ c ≠ .falsy

/-- The condition of a test for truth, or for its absence. -/
def Condition.ofTest (positive : Bool) : Condition := if positive then .truthy else .falsy

/-- The operators of two operands. -/
def arithmetic : List String := ["add", "subtract", "multiply"]

namespace Expr

mutual

/-- Names are symbols, comparisons compare, and operators are arithmetic. -/
def Proper : Expr → Prop
  | .localVar _ | .int _ | .text _ => True
  | .name word => IsSymbol word
  | .coerceB e => e.Proper
  | .binary op lhs rhs => op ∈ arithmetic ∧ lhs.Proper ∧ rhs.Proper
  | .and a b | .or a b => a.Proper ∧ b.Proper
  | .call receiver method args => receiver.Proper ∧ IsSymbol method ∧ AllProper args
  | .ternaryCompare _ c lhs rhs ifTrue ifFalse =>
    c.Compares ∧ lhs.Proper ∧ rhs.Proper ∧ ifTrue.Proper ∧ ifFalse.Proper
  | .ternaryTest _ _ test ifTrue ifFalse => test.Proper ∧ ifTrue.Proper ∧ ifFalse.Proper
  | .selfContained _ test value => test.Proper ∧ value.Proper
  | .bare _ test => test.Proper

/-- Several expressions that are proper. -/
def AllProper : List Expr → Prop
  | [] => True
  | e :: es => e.Proper ∧ AllProper es

end

end Expr

/-- The expressions and names of a statement are proper. -/
def Stmt.Proper : Stmt → Prop
  | .pop e | .jumpTest _ _ e | .setLocal _ e | .returnValue e => e.Proper
  | .callVoid receiver name args => receiver.Proper ∧ IsSymbol name ∧ Expr.AllProper args
  | .callSuperVoid name args => IsSymbol name ∧ Expr.AllProper args
  | .jumpCompare _ c lhs rhs => c.Compares ∧ lhs.Proper ∧ rhs.Proper
  | .kill _ | .debugLine _ | .debugFile _ | .debug _ => True

/-- All statements are proper. -/
def Body.Proper (b : Body) : Prop := ∀ s ∈ b.stmts, s.Proper

/-! ### Trees -/

/-- The leaf that a symbol denotes. -/
def Tree.symbol (s : String) : Tree := .leaf (.ofSymbol s.toList)

/-- A flag. -/
def Tree.flag (b : Bool) : Tree := .leaf (.bool b)

namespace Expr

mutual

/-- The tree of an expression. -/
def tree : Expr → Tree
  | .localVar n => .plain (.other "get_local") [.symbol (toString n)]
  | .int n => .plain (.other "push_int") [.symbol (toString n)]
  | .name word => .plain (.other "get_lex") [.symbol word]
  | .text value => .plain (.other "push_string") [.text value]
  | .coerceB e => .plain .coerceB [e.tree]
  | .binary op lhs rhs => .plain (.other op) [lhs.tree, rhs.tree]
  | .and a b => .plain .and [a.tree, b.tree]
  | .or a b => .plain .or [a.tree, b.tree]
  | .call receiver method args =>
    .plain .callProperty (receiver.tree :: .symbol method :: trees args)
  | .ternaryCompare flag c lhs rhs ifTrue ifFalse =>
    .plain .ternaryIf
      [.flag flag, .plain (.branch c) [lhs.tree, rhs.tree, ifTrue.tree, ifFalse.tree]]
  | .ternaryTest flag positive test ifTrue ifFalse =>
    .plain .ternaryIf
      [.flag flag, .plain (.branch (.ofTest positive)) [test.tree, ifTrue.tree, ifFalse.tree]]
  | .selfContained positive test value =>
    .plain (.branch (.ofTest positive)) [test.tree, value.tree]
  | .bare positive test => .plain (.branch (.ofTest positive)) [test.tree]

/-- The trees of several expressions. -/
def trees : List Expr → List Tree
  | [] => []
  | e :: es => e.tree :: trees es

end

end Expr

/-- The tree of a statement. -/
def Stmt.tree : Stmt → Tree
  | .pop e => .plain .pop [e.tree]
  | .callVoid receiver name args =>
    .plain .callPropertyVoid (receiver.tree :: .symbol name :: Expr.trees args)
  | .callSuperVoid name args =>
    .plain .callSuperVoid ((Expr.localVar 0).tree :: .symbol name :: Expr.trees args)
  | .jumpCompare label c lhs rhs =>
    .plain .jumpIf
      [.flag true, .symbol ("L" ++ toString label), .plain (.branch c) [lhs.tree, rhs.tree]]
  | .jumpTest label positive test =>
    .plain .jumpIf
      [.flag true, .symbol ("L" ++ toString label), .plain (.branch (.ofTest positive)) [test.tree]]
  | .setLocal n e => .plain (.other "set_local") [.symbol (toString n), e.tree]
  | .returnValue e => .plain (.other "return_value") [e.tree]
  | .kill n => .plain .kill [.symbol (toString n)]
  | .debugLine n => .plain .debugLine [.symbol (toString n)]
  | .debugFile file => .plain .debugFile [.text file]
  | .debug name => .plain .debug [.symbol "1", .text name, .symbol "0", .symbol "0"]

/-- The tree of a body. -/
def Body.tree (b : Body) : Tree := .plain (.other "block") (b.stmts.map Stmt.tree)

/-! ### Texts -/

/-- Items, each after a space, in front of a text. -/
def itemsOnto (rest : List Char) : List String → List Char
  | [] => rest
  | s :: ss => ' ' :: (s.toList ++ itemsOnto rest ss)

/-- The text of a list with a tag and items. -/
def listText (tag : String) (items : List String) : String :=
  String.ofList ('(' :: (tag.toList ++ itemsOnto [')'] items))

theorem itemsOnto_append (rest rest' : List Char) (items : List String) :
    itemsOnto rest items ++ rest' = itemsOnto (rest ++ rest') items := by
  induction items with
  | nil => rfl
  | cons s ss ih => simp [itemsOnto, ih]

theorem toString_string (s : String) : toString s = s := rfl

theorem toList_renderArgs (args : List Expr) (rest : List Char) :
    (Expr.renderArgs args).toList ++ rest = itemsOnto rest (args.map Expr.render) := by
  induction args with
  | nil => rfl
  | cons e es ih =>
      have hcons : Expr.renderArgs (e :: es) = " " ++ e.render ++ Expr.renderArgs es := rfl
      rw [hcons, String.toList_append, String.toList_append, List.append_assoc, List.append_assoc,
        ih]
      rfl

/-- The tag and the items of an expression's text. -/
def Expr.listing : Expr → String × List String
  | .localVar n => ("get_local", [toString n])
  | .int n => ("push_int", [toString n])
  | .name word => ("get_lex", [word])
  | .text value => ("push_string", [Body.quote value])
  | .coerceB e => ("coerce_b", [e.render])
  | .binary op lhs rhs => (op, [lhs.render, rhs.render])
  | .and a b => ("and", [a.render, b.render])
  | .or a b => ("or", [a.render, b.render])
  | .call receiver method args => ("call_property", receiver.render :: method :: args.map render)
  | .ternaryCompare flag c lhs rhs ifTrue ifFalse =>
    ("ternary_if", [Body.flagText flag,
      listText c.branchTag [lhs.render, rhs.render, ifTrue.render, ifFalse.render]])
  | .ternaryTest flag positive test ifTrue ifFalse =>
    ("ternary_if", [Body.flagText flag,
      listText (Body.testTag positive) [test.render, ifTrue.render, ifFalse.render]])
  | .selfContained positive test value => (Body.testTag positive, [test.render, value.render])
  | .bare positive test => (Body.testTag positive, [test.render])

theorem Expr.render_eq_listText (e : Expr) : e.render = listText e.listing.1 e.listing.2 := by
  cases e <;> unfold render listing <;>
    simp [listText, itemsOnto, ← String.toList_inj, toList_renderArgs, toString_string]

/-- The tag and the items of a statement's text. -/
def Stmt.listing : Stmt → String × List String
  | .pop e => ("pop", [e.render])
  | .callVoid receiver name args =>
    ("call_property_void", receiver.render :: name :: args.map Expr.render)
  | .callSuperVoid name args =>
    ("call_super_void", (Expr.localVar 0).render :: name :: args.map Expr.render)
  | .jumpCompare label c lhs rhs =>
    ("jump_if", ["true", "L" ++ toString label, listText c.branchTag [lhs.render, rhs.render]])
  | .jumpTest label positive test =>
    ("jump_if", ["true", "L" ++ toString label, listText (Body.testTag positive) [test.render]])
  | .setLocal n e => ("set_local", [toString n, e.render])
  | .returnValue e => ("return_value", [e.render])
  | .kill n => ("kill", [toString n])
  | .debugLine n => ("debug_line", [toString n])
  | .debugFile file => ("debug_file", [Body.quote file])
  | .debug name => ("debug", ["1", Body.quote name, "0", "0"])

theorem Stmt.render_eq_listText (s : Stmt) : s.render = listText s.listing.1 s.listing.2 := by
  have hzero : (Expr.localVar 0).render = "(get_local 0)" := by decide +kernel
  cases s <;> unfold render listing <;>
    simp [listText, itemsOnto, ← String.toList_inj, toList_renderArgs, toString_string, hzero]

theorem Body.render_eq_listText (b : Body) :
    b.render = listText "block" (b.stmts.map Stmt.render) := by
  have hitems (ss : List Stmt) : (ss.map (" " ++ ·.render)).flatMap String.toList ++ [')']
      = itemsOnto [')'] (ss.map Stmt.render) := by
    induction ss with
    | nil => rfl
    | cons s ss ih => simp [itemsOnto, ← ih]
  simp [render, listText, ← String.toList_inj, ← hitems]

/-! ### Items -/

/-- The text stands for the tree, whatever ends it. -/
def Written (s : String) (t : Tree) : Prop :=
  ∀ rest, EndsSymbol rest → Item (s.toList ++ rest) t rest

theorem items_itemsOnto {items : List String} {ts : List Tree}
    (h : List.Forall₂ Written items ts) (rest : List Char) :
    EndsSymbol (itemsOnto (')' :: rest) items) ∧
      Items (itemsOnto (')' :: rest) items) ts (')' :: rest) := by
  induction h with
  | nil => exact ⟨endsSymbol_cons (by decide) _, .nil _⟩
  | cons hitem _ ih =>
      exact ⟨endsSymbol_cons (by decide) _,
        .cons (.blank Text.isBlank_space (.none _)) (hitem _ ih.1) ih.2⟩

theorem listText_of_written {k : Kind} {items : List String} {ts : List Tree} (hk : k.Readable)
    (h : List.Forall₂ Written items ts) (rest : List Char) :
    ListText ((listText k.tag items).toList ++ rest) (.plain k ts) rest := by
  obtain ⟨hends, hitems⟩ := items_itemsOnto h rest
  have htext : (listText k.tag items).toList ++ rest
      = '(' :: (k.tag.toList ++ itemsOnto (')' :: rest) items) := by
    rw [listText, String.toList_ofList, List.cons_append, List.append_assoc, itemsOnto_append]
    rfl
  rw [htext]
  exact listText_of_items hk hends hitems

theorem written_symbol {s : String} (h : IsSymbol s) : Written s (.symbol s) :=
  fun _ hrest => item_of_denotes hrest (denotes_ofSymbol _) h.1 h.2

theorem isSymbol_of_all {s : String}
    (h : s.toList ≠ [] ∧ s.toList.all (fun c => !decide (Delimiter c)) = true) : IsSymbol s :=
  ⟨h.1, not_delimiter_of_all h.2⟩

theorem isSymbol_natText (n : Nat) : IsSymbol (toString n) := by
  rw [Nat.toString_eq_ofList_toDigits]
  refine ⟨?_, fun c hc => ?_⟩
  · rw [String.toList_ofList]
    exact Nat.toDigits_ne_nil
  · rw [String.toList_ofList] at hc
    exact not_delimiter_of_isDigit (Layout.isDigit_of_mem_natText hc)

theorem IsSymbol.append {s s' : String} (h : IsSymbol s) (h' : IsSymbol s') :
    IsSymbol (s ++ s') := by
  refine ⟨?_, fun c hc => ?_⟩
  · rw [String.toList_append]
    exact List.append_ne_nil_of_left_ne_nil h.1 _
  · rw [String.toList_append, List.mem_append] at hc
    exact hc.elim (h.2 c) (h'.2 c)

theorem isSymbol_intText (n : Int) : IsSymbol (toString n) := by
  show IsSymbol n.repr
  cases n with
  | ofNat m => exact isSymbol_natText m
  | negSucc m => exact (isSymbol_of_all (by decide)).append (isSymbol_natText (m + 1))

theorem isSymbol_label (n : Nat) : IsSymbol ("L" ++ toString n) :=
  (isSymbol_of_all (by decide)).append (isSymbol_natText n)

theorem written_flag (b : Bool) : Written (Body.flagText b) (.flag b) := by
  cases b with
  | true => exact written_symbol (isSymbol_of_all (by decide))
  | false => exact written_symbol (isSymbol_of_all (by decide))

/-- A quoted text is read back as it is. -/
theorem written_quote (s : String) : Written (Body.quote s) (.text s) := by
  intro rest _
  have hquoted (cs : List Char) : Quoted (cs.flatMap (fun c =>
      if c = '\\' ∨ c = '"' then ['\\', c] else [c]) ++ '"' :: rest) cs rest := by
    induction cs with
    | nil => exact .close rest
    | cons c cs ih =>
        rw [List.flatMap_cons, List.append_assoc]
        split_ifs with hc
        · rcases hc with rfl | rfl
          · exact .escape .backslash ih
          · exact .escape .quote ih
        · rw [not_or] at hc
          exact .plain hc.2 hc.1 ih
  have hitem := Item.quoted (hquoted s.toList)
  rw [String.ofList_toList] at hitem
  rw [Body.quote, String.toList_ofList]
  simpa using hitem

/-! ### Expressions and statements -/

theorem Kind.readable_branch (c : Condition) : (Kind.branch c).Readable :=
  ⟨Kind.ofTag_branchTag c, by cases c <;> decide,
    not_delimiter_of_all (by cases c <;> decide)⟩

theorem written_branch {items : List String} {ts : List Tree} (c : Condition)
    (h : List.Forall₂ Written items ts) :
    Written (listText c.branchTag items) (.plain (.branch c) ts) := by
  rw [← Kind.tag_branch]
  exact fun rest _ => .list (listText_of_written (Kind.readable_branch c) h rest)

theorem written_test {items : List String} {ts : List Tree} (positive : Bool)
    (h : List.Forall₂ Written items ts) :
    Written (listText (Body.testTag positive) items) (.plain (.branch (.ofTest positive)) ts) := by
  cases positive with
  | true => exact written_branch .truthy h
  | false => exact written_branch .falsy h

/-- The check that a kind can be read. -/
theorem Kind.readable_of_all {k : Kind} (h : Kind.ofTag k.tag = k ∧ k.tag.toList ≠ [] ∧
    k.tag.toList.all (fun c => !decide (Delimiter c)) = true) : k.Readable :=
  ⟨h.1, h.2.1, not_delimiter_of_all h.2.2⟩

/-- A list of a kind whose tag is known. -/
theorem written_known {items : List String} {ts : List Tree} (k : Kind)
    (hk : Kind.ofTag k.tag = k ∧ k.tag.toList ≠ [] ∧
      k.tag.toList.all (fun c => !decide (Delimiter c)) = true)
    (h : List.Forall₂ Written items ts) : Written (listText k.tag items) (.plain k ts) :=
  fun rest _ => .list (listText_of_written (Kind.readable_of_all hk) h rest)

theorem written_arithmetic {op : String} {items : List String} {ts : List Tree}
    (hop : op ∈ arithmetic) (h : List.Forall₂ Written items ts) :
    Written (listText op items) (.plain (.other op) ts) := by
  simp only [arithmetic, List.mem_cons, List.not_mem_nil, or_false] at hop
  rcases hop with rfl | rfl | rfl
  · exact written_known (.other "add") (by decide) h
  · exact written_known (.other "subtract") (by decide) h
  · exact written_known (.other "multiply") (by decide) h

namespace Expr

theorem written_localVar (n : Nat) : Written (localVar n).render (localVar n).tree := by
  rw [render_eq_listText]
  exact written_known (.other "get_local") (by decide)
    (.cons (written_symbol (isSymbol_natText n)) .nil)

mutual

/-- **The text of an expression** stands for its tree. -/
theorem written_render (e : Expr) (h : e.Proper) : Written e.render e.tree := by
  rw [e.render_eq_listText]
  cases e with
  | localVar n =>
      rw [← render_eq_listText]
      exact written_localVar n
  | int n =>
      exact written_known (.other "push_int") (by decide)
        (.cons (written_symbol (isSymbol_intText n)) .nil)
  | name word =>
      exact written_known (.other "get_lex") (by decide) (.cons (written_symbol h) .nil)
  | text value =>
      exact written_known (.other "push_string") (by decide) (.cons (written_quote value) .nil)
  | coerceB e => exact written_known .coerceB (by decide) (.cons (written_render e h) .nil)
  | binary op lhs rhs =>
      obtain ⟨hop, hlhs, hrhs⟩ := h
      exact written_arithmetic hop
        (.cons (written_render lhs hlhs) (.cons (written_render rhs hrhs) .nil))
  | and a b =>
      exact written_known .and (by decide)
        (.cons (written_render a h.1) (.cons (written_render b h.2) .nil))
  | or a b =>
      exact written_known .or (by decide)
        (.cons (written_render a h.1) (.cons (written_render b h.2) .nil))
  | call receiver method args =>
      obtain ⟨hreceiver, hmethod, hargs⟩ := h
      exact written_known .callProperty (by decide)
        (.cons (written_render receiver hreceiver)
          (.cons (written_symbol hmethod) (written_renders args hargs)))
  | ternaryCompare flag c lhs rhs ifTrue ifFalse =>
      obtain ⟨-, hlhs, hrhs, htrue, hfalse⟩ := h
      have hbranch := written_branch c (.cons (written_render lhs hlhs)
        (.cons (written_render rhs hrhs) (.cons (written_render ifTrue htrue)
          (.cons (written_render ifFalse hfalse) .nil))))
      exact written_known .ternaryIf (by decide) (.cons (written_flag flag) (.cons hbranch .nil))
  | ternaryTest flag positive test ifTrue ifFalse =>
      obtain ⟨htest, htrue, hfalse⟩ := h
      have hbranch := written_test positive (.cons (written_render test htest)
        (.cons (written_render ifTrue htrue) (.cons (written_render ifFalse hfalse) .nil)))
      exact written_known .ternaryIf (by decide) (.cons (written_flag flag) (.cons hbranch .nil))
  | selfContained positive test value =>
      exact written_test positive
        (.cons (written_render test h.1) (.cons (written_render value h.2) .nil))
  | bare positive test => exact written_test positive (.cons (written_render test h) .nil)

theorem written_renders (es : List Expr) (h : AllProper es) :
    List.Forall₂ Written (es.map render) (trees es) := by
  cases es with
  | nil => exact .nil
  | cons e es => exact .cons (written_render e h.1) (written_renders es h.2)

end

end Expr

theorem Stmt.written_render (s : Stmt) (h : s.Proper) : Written s.render s.tree := by
  have hjump {label : Nat} {text : String} {t : Tree} (hbranch : Written text t) :
      Written (listText "jump_if" ["true", "L" ++ toString label, text])
        (.plain .jumpIf [.flag true, .symbol ("L" ++ toString label), t]) :=
    written_known .jumpIf (by decide) (.cons (written_flag true)
      (.cons (written_symbol (isSymbol_label label)) (.cons hbranch .nil)))
  have hdigit (s : String) (hs : s = "0" ∨ s = "1") : Written s (.symbol s) := by
    rcases hs with rfl | rfl
    all_goals exact written_symbol (isSymbol_of_all (by decide))
  rw [s.render_eq_listText]
  cases s with
  | pop e => exact written_known .pop (by decide) (.cons (e.written_render h) .nil)
  | callVoid receiver name args =>
      obtain ⟨hreceiver, hname, hargs⟩ := h
      exact written_known .callPropertyVoid (by decide)
        (.cons (receiver.written_render hreceiver)
          (.cons (written_symbol hname) (Expr.written_renders args hargs)))
  | callSuperVoid name args =>
      obtain ⟨hname, hargs⟩ := h
      exact written_known .callSuperVoid (by decide)
        (.cons (Expr.written_localVar 0)
          (.cons (written_symbol hname) (Expr.written_renders args hargs)))
  | jumpCompare label c lhs rhs =>
      obtain ⟨-, hlhs, hrhs⟩ := h
      exact hjump (written_branch c
        (.cons (lhs.written_render hlhs) (.cons (rhs.written_render hrhs) .nil)))
  | jumpTest label positive test =>
      exact hjump (written_test positive (.cons (test.written_render h) .nil))
  | setLocal n e =>
      exact written_known (.other "set_local") (by decide)
        (.cons (written_symbol (isSymbol_natText n)) (.cons (e.written_render h) .nil))
  | returnValue e =>
      exact written_known (.other "return_value") (by decide) (.cons (e.written_render h) .nil)
  | kill n =>
      exact written_known .kill (by decide) (.cons (written_symbol (isSymbol_natText n)) .nil)
  | debugLine n =>
      exact written_known .debugLine (by decide) (.cons (written_symbol (isSymbol_natText n)) .nil)
  | debugFile file => exact written_known .debugFile (by decide) (.cons (written_quote file) .nil)
  | debug name =>
      exact written_known .debug (by decide) (.cons (hdigit "1" (.inr rfl))
        (.cons (written_quote name) (.cons (hdigit "0" (.inl rfl))
          (.cons (hdigit "0" (.inl rfl)) .nil))))

namespace Body

theorem document_render (b : Body) (h : b.Proper) : Document b.render.toList b.tree := by
  have hstmts : List.Forall₂ Written (b.stmts.map Stmt.render) (b.stmts.map Stmt.tree) := by
    rw [List.forall₂_map_left_iff, List.forall₂_map_right_iff]
    exact List.forall₂_same.mpr fun s hs => s.written_render (h s hs)
  have hblock : (Kind.other "block").Readable := Kind.readable_of_all (by decide)
  have hlist := listText_of_written hblock hstmts []
  rw [List.append_nil, Kind.tag_other, ← b.render_eq_listText] at hlist
  exact ⟨_, [], .none _, hlist, .none []⟩

/-- **The text of a body** is read as the arena of its tree. -/
theorem read_render (b : Body) (h : b.Proper) :
    Arena.read b.render = .ok (Arena.numbered b.tree) ∧
      (Arena.numbered b.tree).tree = .ok b.tree := by
  refine ⟨Arena.read_eq_ok_iff.mpr ⟨b.tree, ?_, rfl⟩, Arena.tree_numbered _ _ _⟩
  exact Reader.reads_of_document (b.document_render h)

end Body

end Unstack
