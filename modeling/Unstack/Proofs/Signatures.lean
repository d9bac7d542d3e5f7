import Unstack.Proofs.Renderings

/-! # Signatures in an arena

A method signature is put into an arena as a tree of its own.

* **Appending.**  The nodes come behind the slots that are there, and the tree stands under no
  parent (`Arena.Appended`).
* **Text.**  `Signature.written` says what the tree looks like in print: a parameter for each
  parameter type, whatever the number of declared names, and types nested as deep as they are.
* **Nothing is lost.**  A printed tree determines its names and types: the texts of leaves are told
  apart by their quotes, and a type without parameters from one with parameters by its tag
  (`TypeRef.toTree_injective`, `Signature.eq_of_compact_eq`). -/

namespace Unstack

open Grammar Printer

theorem Tree.bare_plain (k : Kind) (ts : List Tree) : (plain k ts).bare = plain k (bares ts) := by
  rw [plain, bare]

theorem Tree.bares_eq_self {ts : List Tree} (h : ∀ t ∈ ts, t.bare = t) : bares ts = ts := by
  induction ts with
  | nil => rw [bares]
  | cons t ts ih =>
      obtain ⟨ht, hts⟩ := List.forall_mem_cons.mp h
      rw [bares, ht, ih hts]

theorem Printer.compactOnto_plain (rest : List Char) (tag : String) (ts : List Tree) :
    compactOnto rest (.plain (.other tag) ts)
      = '(' :: (tag.toList ++ compactItemsOnto (')' :: rest) ts) := by
  rw [Tree.plain, compactOnto, Kind.tag_other]

/-- Items are printed one after the other, each after a space. -/
theorem Printer.compactItemsOnto_map {α : Type} {f : α → Tree} {text : α → String} {xs : List α}
    (h : ∀ x ∈ xs, ∀ rest, compactOnto rest (f x) = (text x).toList ++ rest) (rest : List Char) :
    compactItemsOnto rest (xs.map f) = xs.flatMap (fun x => ' ' :: (text x).toList) ++ rest := by
  induction xs with
  | nil => rw [List.map_nil, compactItemsOnto, List.flatMap_nil, List.nil_append]
  | cons x xs ih =>
      obtain ⟨hx, hxs⟩ := List.forall_mem_cons.mp h
      rw [List.map_cons, compactItemsOnto, ih hxs, hx, List.flatMap_cons, List.append_assoc,
        List.cons_append]

/-- Lists are known by their images if the entries of one of them are. -/
theorem eq_of_map_eq {α β : Type} {f : α → β} {xs ys : List α}
    (hf : ∀ x ∈ xs, ∀ y, f x = f y → x = y) (h : xs.map f = ys.map f) : xs = ys := by
  induction xs generalizing ys with
  | nil => exact (List.map_eq_nil_iff.mp h.symm).symm
  | cons x xs ih =>
      obtain ⟨y, ys', rfl, hy, hys⟩ := List.map_eq_cons_iff.mp h.symm
      obtain ⟨hx, hxs⟩ := List.forall_mem_cons.mp hf
      rw [hx y hy.symm, ih hxs hys.symm]

/-- A tag that stands for no kind of its own and is a plain word can be read. -/
theorem Kind.readable_other {tag : String} (h : ofTag tag = .other tag ∧ tag.toList ≠ [] ∧
    tag.toList.all (fun c => !decide (Delimiter c)) = true) : (other tag).Readable :=
  ⟨h.1, h.2.1, not_delimiter_of_all h.2.2⟩

/-- A text as the leaf that it is, quoted if need be. -/
def Printer.word (s : String) : String := String.ofList (textChars s.toList)

/-! ### Types -/

namespace TypeRef

/-- Induction over types: a type may use the statement for all its parameters. -/
@[elab_as_elim]
theorem induction {P : TypeRef → Prop} (mk : ∀ n ps, (∀ p ∈ ps, P p) → P (.mk n ps))
    (t : TypeRef) : P t :=
  match t with
  | .mk n ps => mk n ps fun p hp =>
      have := List.sizeOf_lt_of_mem hp
      induction mk p
termination_by sizeOf t
decreasing_by
  simp only [TypeRef.mk.sizeOf_spec]
  omega

theorem toTrees_eq_map (ts : List TypeRef) : toTrees ts = ts.map toTree := by
  induction ts with
  | nil => rw [toTrees, List.map_nil]
  | cons t ts ih => rw [toTrees, ih, List.map_cons]

theorem toTree_plain (n : String) : (mk n []).toTree = .plain (.other "type") [.text n] := by
  rw [toTree]

theorem toTree_generic (n : String) {ps : List TypeRef} (hps : ps ≠ []) :
    (mk n ps).toTree
      = .plain (.other "generic_type") (.plain (.other "type") [.text n] :: ps.map toTree) := by
  cases ps with
  | nil => exact absurd rfl hps
  | cons p ps => rw [toTree, toTrees_eq_map, List.map_cons]

theorem readable_type (n : String) : (Tree.plain (.other "type") [.text n]).Readable := by
  rw [Tree.plain, Tree.Readable]
  exact ⟨Kind.readable_other (by decide), trivial, trivial⟩

theorem readable_toTree (t : TypeRef) : t.toTree.Readable := by
  induction t using induction with
  | mk n ps ih =>
      by_cases hps : ps = []
      · rw [hps, toTree_plain]
        exact readable_type n
      · rw [toTree_generic n hps, Tree.plain, Tree.Readable, Tree.allReadable_iff]
        refine ⟨Kind.readable_other (by decide), ?_⟩
        rintro u (_ | ⟨_, hu⟩)
        · exact readable_type n
        · obtain ⟨p, hp, rfl⟩ := List.mem_map.mp hu
          exact ih p hp

theorem bare_type (n : String) :
    (Tree.plain (.other "type") [.text n]).bare = .plain (.other "type") [.text n] := by
  rw [Tree.bare_plain, Tree.bares, Tree.bares, Tree.text, Tree.bare]

theorem bare_toTree (t : TypeRef) : t.toTree.bare = t.toTree := by
  induction t using induction with
  | mk n ps ih =>
      by_cases hps : ps = []
      · rw [hps, toTree_plain, bare_type]
      · have hall : ∀ t ∈ ps.map toTree, t.bare = t := by
          intro t ht
          obtain ⟨p, hp, rfl⟩ := List.mem_map.mp ht
          exact ih p hp
        rw [toTree_generic n hps, Tree.bare_plain, Tree.bares, bare_type, Tree.bares_eq_self hall]

/-- **Types are known by their trees.** -/
theorem toTree_injective : Function.Injective toTree := by
  intro t
  induction t using induction with
  | mk n ps ih =>
      rintro ⟨m, qs⟩ h
      by_cases hps : ps = []
      · by_cases hqs : qs = []
        · rw [hps, hqs, toTree_plain, toTree_plain] at h
          simp only [Tree.plain, Tree.text, Tree.node.injEq, List.cons.injEq, Tree.leaf.injEq,
            Leaf.text.injEq, true_and, and_true] at h
          rw [hps, hqs, h]
        · rw [hps, toTree_plain, toTree_generic m hqs] at h
          simp [Tree.plain] at h
      · by_cases hqs : qs = []
        · rw [hqs, toTree_plain, toTree_generic n hps] at h
          simp [Tree.plain] at h
        · rw [toTree_generic n hps, toTree_generic m hqs] at h
          simp only [Tree.plain, Tree.text, Tree.node.injEq, List.cons.injEq, Tree.leaf.injEq,
            Leaf.text.injEq, true_and, and_true] at h
          rw [h.1, eq_of_map_eq ih h.2]

theorem isLeaf_toTree (t : TypeRef) : t.toTree.isLeaf = false := by
  obtain ⟨n, ps⟩ := t
  by_cases hps : ps = []
  · rw [hps, toTree_plain, Tree.plain, Tree.isLeaf]
  · rw [toTree_generic n hps, Tree.plain, Tree.isLeaf]

theorem optionalTree_injective : Function.Injective optionalTree := by
  intro o o' h
  have hleaf := congrArg Tree.isLeaf h
  cases o with
  | none =>
      cases o' with
      | none => rfl
      | some u =>
          rw [optionalTree, optionalTree, isLeaf_toTree] at hleaf
          cases hleaf
  | some t =>
      cases o' with
      | none =>
          rw [optionalTree, optionalTree, isLeaf_toTree] at hleaf
          cases hleaf
      | some u => exact congrArg some (toTree_injective h)

theorem readable_optionalTree (o : Option TypeRef) : (optionalTree o).Readable := by
  cases o with
  | none => exact trivial
  | some t => exact readable_toTree t

theorem bare_optionalTree (o : Option TypeRef) : (optionalTree o).bare = optionalTree o := by
  cases o with
  | none => rw [optionalTree, Tree.bare]
  | some t => exact bare_toTree t

/-! #### In print -/

mutual

/-- A type in print. -/
def written : TypeRef → String
  | mk n ps =>
    if ps.isEmpty then "(type " ++ word n ++ ")"
    else "(generic_type (type " ++ word n ++ ")" ++ writtenAll ps ++ ")"

/-- Types in print, each after a space. -/
def writtenAll : List TypeRef → String
  | [] => ""
  | t :: ts => " " ++ t.written ++ writtenAll ts

end

/-- A type in print that may be missing. -/
def writtenOption : Option TypeRef → String
  | some t => t.written
  | none => "nil"

theorem toList_writtenAll (ts : List TypeRef) :
    (writtenAll ts).toList = ts.flatMap fun t => ' ' :: t.written.toList := by
  induction ts with
  | nil => rw [writtenAll, List.flatMap_nil, String.toList_empty]
  | cons t ts ih => simp [writtenAll, ih]

theorem compactOnto_toTree (t : TypeRef) (rest : List Char) :
    compactOnto rest t.toTree = t.written.toList ++ rest := by
  induction t using induction generalizing rest with
  | mk n ps ih =>
      by_cases hps : ps = []
      · rw [hps, toTree_plain, compactOnto_plain]
        simp [written, word, compactItemsOnto, compactOnto, Tree.text, leafChars]
      · have hitems : ∀ rest,
            compactItemsOnto rest (ps.map toTree) = (writtenAll ps).toList ++ rest := by
          intro rest
          rw [compactItemsOnto_map ih, toList_writtenAll]
        rw [toTree_generic n hps, compactOnto_plain]
        simp [written, word, hps, compactItemsOnto, compactOnto, compactOnto_plain, hitems,
          Tree.text, leafChars]

theorem compact_toTree (t : TypeRef) : compact t.toTree = t.written := by
  rw [compact, compactOnto_toTree, List.append_nil, String.ofList_toList]

theorem compactOnto_optionalTree (o : Option TypeRef) (rest : List Char) :
    compactOnto rest (optionalTree o) = (writtenOption o).toList ++ rest := by
  cases o with
  | none => simp [optionalTree, writtenOption, compactOnto, leafChars]
  | some t => exact compactOnto_toTree t rest

end TypeRef

/-! ### Signatures -/

namespace Signature

/-- The name of a method in print. -/
def writtenName : Option String → String
  | some n => word n
  | none => "nil"

/-- A parameter in print. -/
def writtenParam (name : String) (type : Option TypeRef) : String :=
  "(param " ++ word name ++ " " ++ TypeRef.writtenOption type ++ ")"

/-- A signature in print, under another name if one is given. -/
def written (s : Signature) (rename : Option String) : String :=
  "(method " ++ writtenName (rename.or s.name) ++ " " ++ TypeRef.writtenOption s.returnType
    ++ " (params"
    ++ String.join ((s.effectiveNames.zip s.paramTypes).map fun p => " " ++ writtenParam p.1 p.2)
    ++ "))"

theorem compactOnto_param (p : String × Option TypeRef) (rest : List Char) :
    compactOnto rest (.plain (.other "param") [.text p.1, TypeRef.optionalTree p.2])
      = (writtenParam p.1 p.2).toList ++ rest := by
  rw [compactOnto_plain]
  simp [writtenParam, word, compactItemsOnto, compactOnto, Tree.text, leafChars,
    TypeRef.compactOnto_optionalTree]

/-- The leaf of a method's name. -/
def nameTree : Option String → Tree
  | some n => .text n
  | none => .leaf .nil

theorem toTree_eq (s : Signature) (index : Nat) (rename : Option String) :
    s.toTree index rename = .node (.other "method") (some ⟨some index, some s⟩)
      [nameTree (rename.or s.name), TypeRef.optionalTree s.returnType,
        .plain (.other "params") s.paramTrees] := by
  rw [toTree]
  cases rename.or s.name <;> rfl

theorem compactOnto_nameTree (o : Option String) (rest : List Char) :
    compactOnto rest (nameTree o) = (writtenName o).toList ++ rest := by
  cases o <;> simp [nameTree, writtenName, word, compactOnto, Tree.text, leafChars]

/-- What is printed is the signature as it is written. -/
theorem compact_toTree (s : Signature) (index : Nat) (rename : Option String) :
    compact (s.toTree index rename) = s.written rename := by
  have hitems : ∀ rest, compactItemsOnto rest s.paramTrees
      = (String.join ((s.effectiveNames.zip s.paramTypes).map
          fun p => " " ++ writtenParam p.1 p.2)).toList ++ rest := by
    intro rest
    rw [paramTrees, compactItemsOnto_map fun p _ => compactOnto_param p, String.toList_join,
      List.flatMap_map]
    simp
  refine String.toList_inj.mp ?_
  rw [compact, toTree_eq, String.toList_ofList]
  simp only [compactOnto, compactItemsOnto, compactOnto_plain, compactOnto_nameTree,
    TypeRef.compactOnto_optionalTree, hitems, Kind.tag_other, written, String.toList_append]
  simp

/-! #### Nothing is lost -/

theorem nameTree_injective : Function.Injective nameTree := by
  intro o o' h
  cases o <;> cases o' <;> simp_all [nameTree, Tree.text]

theorem readable_paramTrees (s : Signature) : ∀ t ∈ s.paramTrees, t.Readable := by
  intro t ht
  obtain ⟨p, -, rfl⟩ := List.mem_map.mp ht
  rw [Tree.plain, Tree.Readable]
  exact ⟨Kind.readable_other (by decide), trivial,
    TypeRef.readable_optionalTree p.2, trivial⟩

theorem readable_toTree (s : Signature) (index : Nat) (rename : Option String) :
    (s.toTree index rename).Readable := by
  have hname : (nameTree (rename.or s.name)).Readable := by
    cases rename.or s.name <;> exact trivial
  have hparams : (Tree.plain (.other "params") s.paramTrees).Readable := by
    rw [Tree.plain, Tree.Readable, Tree.allReadable_iff]
    exact ⟨Kind.readable_other (by decide), s.readable_paramTrees⟩
  rw [toTree_eq, Tree.Readable]
  exact ⟨Kind.readable_other (by decide), hname,
    TypeRef.readable_optionalTree _, hparams, trivial⟩

theorem bare_paramTrees (s : Signature) : ∀ t ∈ s.paramTrees, t.bare = t := by
  intro t ht
  obtain ⟨p, -, rfl⟩ := List.mem_map.mp ht
  rw [Tree.bare_plain, Tree.bares, Tree.bares, Tree.bares, TypeRef.bare_optionalTree, Tree.text,
    Tree.bare]

theorem bare_toTree (s : Signature) (index : Nat) (rename : Option String) :
    (s.toTree index rename).bare = .plain (.other "method")
      [nameTree (rename.or s.name), TypeRef.optionalTree s.returnType,
        .plain (.other "params") s.paramTrees] := by
  have hname : (nameTree (rename.or s.name)).bare = nameTree (rename.or s.name) := by
    cases rename.or s.name with
    | none => rw [nameTree, Tree.bare]
    | some n => rw [nameTree, Tree.text, Tree.bare]
  rw [toTree_eq, Tree.bare, Tree.bares, Tree.bares, Tree.bares, Tree.bares, hname,
    TypeRef.bare_optionalTree, Tree.bare_plain, Tree.bares_eq_self s.bare_paramTrees]

/-- The parameters are known by their trees, one name and one type for each. -/
theorem eq_of_paramTrees_eq {s s' : Signature} (h : s.paramTrees = s'.paramTrees) :
    s.effectiveNames = s'.effectiveNames ∧ s.paramTypes = s'.paramTypes := by
  have hzip : s.effectiveNames.zip s.paramTypes = s'.effectiveNames.zip s'.paramTypes := by
    refine eq_of_map_eq (fun p _ q hpq => ?_) h
    simp only [Tree.plain, Tree.text, Tree.node.injEq, List.cons.injEq, Tree.leaf.injEq,
      Leaf.text.injEq, true_and, and_true] at hpq
    exact Prod.ext hpq.1 (TypeRef.optionalTree_injective hpq.2)
  have hunzip := congrArg List.unzip hzip
  rw [List.unzip_zip s.length_effectiveNames, List.unzip_zip s'.length_effectiveNames] at hunzip
  exact ⟨congrArg Prod.fst hunzip, congrArg Prod.snd hunzip⟩

/-- **Signatures are known by their texts**, but for what is not printed. -/
theorem eq_of_compact_eq {s s' : Signature} {index index' : Nat} {rename rename' : Option String}
    (h : compact (s.toTree index rename) = compact (s'.toTree index' rename')) :
    rename.or s.name = rename'.or s'.name ∧ s.returnType = s'.returnType ∧
      s.effectiveNames = s'.effectiveNames ∧ s.paramTypes = s'.paramTypes := by
  have hbare := faithful_compact.bare_eq rfl rfl (s.readable_toTree index rename)
    (s'.readable_toTree index' rename') h
  rw [bare_toTree, bare_toTree] at hbare
  simp only [Tree.plain, Tree.node.injEq, List.cons.injEq, true_and, and_true] at hbare
  obtain ⟨hname, hreturn, hparams⟩ := hbare
  exact ⟨nameTree_injective hname, TypeRef.optionalTree_injective hreturn,
    eq_of_paramTrees_eq hparams⟩

theorem getElem?_effectiveNames (s : Signature) {i : Nat} (hi : i < s.paramTypes.length) :
    s.effectiveNames[i]? = some (s.paramName i) := by
  have hrange : (List.range s.paramCount)[i]? = some i := List.getElem?_range hi
  rw [effectiveNames, List.getElem?_map, hrange, Option.map_some]

/-- A declared name is used if the record declares names. -/
theorem effectiveNames_declared (s : Signature) {i : Nat} {name : String}
    (hi : i < s.paramTypes.length) (hflag : s.hasParamNames = true)
    (hname : s.paramNames[i]? = some name) : s.effectiveNames[i]? = some name := by
  rw [getElem?_effectiveNames s hi, paramName, if_pos hflag, hname, Option.getD_some]

/-- Otherwise the name is made from the position. -/
theorem effectiveNames_positional (s : Signature) {i : Nat} (hi : i < s.paramTypes.length)
    (hnone : s.hasParamNames = true → s.paramNames.length ≤ i) :
    s.effectiveNames[i]? = some ("a" ++ toString i) := by
  rw [getElem?_effectiveNames s hi, paramName]
  split_ifs with hflag
  · rw [List.getElem?_eq_none (hnone hflag)]
    rfl
  · rfl

end Signature

/-- **Types are known by their texts.** -/
theorem TypeRef.eq_of_compact_eq {t u : TypeRef} (h : compact t.toTree = compact u.toTree) :
    t = u := by
  have hbare := faithful_compact.bare_eq t.isLeaf_toTree u.isLeaf_toTree t.readable_toTree
    u.readable_toTree h
  rw [bare_toTree, bare_toTree] at hbare
  exact toTree_injective hbare

/-! ### In an arena -/

namespace Arena

variable {a b : Arena} {n : NodeId}

/-- The text of a node. -/
def textAt (a : Arena) (n : NodeId) : Except Fault String := (a.treeAt n).map compact

/-- The arena `b` is `a` with new slots behind the ones that are there.  The last of them is `n`,
which has no parent. -/
structure Appended (a b : Arena) (n : NodeId) : Prop where
  wellFormed : b.WellFormed
  root : b.root = a.root
  slots : ∃ new, b.slots = a.slots ++ new
  new : a.size ≤ n
  last : n + 1 = b.size
  orphan : b.parent? n = none

/-- A tree that is grafted has its root in the last slot. -/
theorem exists_graft {t : Tree} (h : a.WellFormed) (ht : t.isLeaf = false) :
    ∃ b n, a.graft t = (b, .node n) ∧ Appended a b n ∧ b.Shows (.node n) t := by
  cases t with
  | leaf l => cases ht
  | node k o ts =>
      have hgraft := graft_eq h (.node k o ts)
      have hall := grafted_graft h (.node k o ts)
      rw [hgraft] at hall
      rw [Tree.childFrom] at hgraft hall
      have hn : a.size + Tree.nodeCounts ts ∈ nodesOf [.node (a.size + Tree.nodeCounts ts)] :=
        List.mem_singleton_self _
      refine ⟨_, _, hgraft, ⟨hall.grown.wellFormed, hall.grown.root, ⟨_, rfl⟩, Nat.le_add_right _ _,
        ?_, hall.fresh.orphan _ hn⟩, (List.forall₂_cons.mp hall.shows).1⟩
      show _ = (a.pushAll _).size
      rw [size_pushAll, length_slotsFrom, Tree.nodeCount, Nat.add_assoc]

theorem textAt_eq (h : a.WellFormed) {t : Tree} (hshows : a.Shows (.node n) t) :
    a.textAt n = .ok (compact t) := by
  rw [textAt, (treeAt_eq_ok_iff h hshows.lt_size).mpr hshows]
  rfl

/-- What is grafted is printed as it is. -/
theorem textAt_graft {t : Tree} (h : a.WellFormed) (ht : t.isLeaf = false)
    (hgraft : a.graft t = (b, .node n)) : b.textAt n = .ok (compact t) := by
  obtain ⟨b', n', hgraft', happended, hshows⟩ := exists_graft h ht
  cases hgraft.symm.trans hgraft'
  exact textAt_eq happended.wellFormed hshows

/-- **Signatures in an arena.**  Putting a signature into a well-formed arena only appends slots.
The new node is the last slot, has no parent, and is noted with the index and the record.  Its text
is the signature as it is written, with as many parameters as there are parameter types; the name of
a parameter is the declared one if the record declares names and has one there, and made from its
position otherwise.  Wherever two signatures are put, equal texts mean equal names and types, and so
it is for types alone. -/
theorem graft_signature_faithful (h : a.WellFormed) (s : Signature) (index : Nat)
    (rename : Option String) :
    (∃ b n, a.graft (s.toTree index rename) = (b, .node n) ∧ Appended a b n ∧
      b.note? n = some ⟨some index, some s⟩ ∧ b.textAt n = .ok (s.written rename) ∧
      (s.effectiveNames.zip s.paramTypes).length = s.paramTypes.length ∧
      (∀ i name, i < s.paramTypes.length → s.hasParamNames = true →
        s.paramNames[i]? = some name → s.effectiveNames[i]? = some name) ∧
      (∀ i, i < s.paramTypes.length → (s.hasParamNames = true → s.paramNames.length ≤ i) →
        s.effectiveNames[i]? = some ("a" ++ toString i)) ∧
      ∀ (a' b' : Arena) (n' : NodeId) (s' : Signature) (index' : Nat) (rename' : Option String),
        a'.WellFormed → a'.graft (s'.toTree index' rename') = (b', .node n') →
        b'.textAt n' = b.textAt n →
        rename'.or s'.name = rename.or s.name ∧ s'.effectiveNames = s.effectiveNames ∧
          s'.returnType = s.returnType ∧ s'.paramTypes = s.paramTypes) ∧
    ∀ t : TypeRef, ∃ b n, a.graft t.toTree = (b, .node n) ∧ Appended a b n ∧
      b.textAt n = .ok t.written ∧
      ∀ (a' b' : Arena) (n' : NodeId) (t' : TypeRef), a'.WellFormed →
        a'.graft t'.toTree = (b', .node n') → b'.textAt n' = b.textAt n → t' = t := by
  refine ⟨?_, fun t => ?_⟩
  · obtain ⟨b, n, hgraft, happended, hshows⟩ := exists_graft (t := s.toTree index rename) h rfl
    have htext := textAt_eq happended.wellFormed hshows
    refine ⟨b, n, hgraft, happended, ?_, ?_, ?_, fun i name hi => s.effectiveNames_declared hi,
      fun i hi => s.effectiveNames_positional hi, ?_⟩
    · rw [Signature.toTree_eq] at hshows
      exact (shows_node.mp hshows).2.1
    · rw [htext, Signature.compact_toTree]
    · rw [List.length_zip, s.length_effectiveNames, Signature.paramCount, Nat.min_self]
    · intro a' b' n' s' index' rename' ha' hgraft' he
      rw [htext, textAt_graft ha' rfl hgraft', Except.ok.injEq] at he
      obtain ⟨hname, hreturn, hnames, htypes⟩ := Signature.eq_of_compact_eq he
      exact ⟨hname, hnames, hreturn, htypes⟩
  · obtain ⟨b, n, hgraft, happended, hshows⟩ := exists_graft h t.isLeaf_toTree
    have htext := textAt_eq happended.wellFormed hshows
    refine ⟨b, n, hgraft, happended, ?_, fun a' b' n' t' ha' hgraft' he => ?_⟩
    · rw [htext, TypeRef.compact_toTree]
    · rw [htext, textAt_graft ha' t'.isLeaf_toTree hgraft', Except.ok.injEq] at he
      exact TypeRef.eq_of_compact_eq he

/-- A record with two parameters, one declared name, and types whose names need quotes. -/
def updateSignature : Signature where
  name := some "update"
  returnType := some (.mk "Vector" [.mk "a b" [], .mk "nil" [.mk "" []]])
  paramTypes := [some (.mk "int" []), none]
  paramNames := ["dt"]
  flags := 0x82
  options := []

theorem written_updateSignature : updateSignature.written none = "(method update (generic_type " ++
    "(type Vector) (type \"a b\") (generic_type (type \"nil\") (type \"\"))) " ++
    "(params (param dt (type int)) (param a1 nil)))" := by
  decide +kernel

/-- The record goes behind a node that is there.  Another record, which declares both names and is
given the name of the first, looks the same in an arena of its own. -/
theorem graft_signature_faithful_update :
    ∃ a b b' : Arena, ∃ n n' : NodeId, ∃ s' : Signature, a.WellFormed ∧
      a.tree = .ok (.plain (.other "class") [.plain .nop []]) ∧
      a.graft (updateSignature.toTree 4 none) = (b, .node n) ∧ Appended a b n ∧
      b.note? n = some ⟨some 4, some updateSignature⟩ ∧
      b.textAt n = .ok ("(method update (generic_type " ++
        "(type Vector) (type \"a b\") (generic_type (type \"nil\") (type \"\"))) " ++
        "(params (param dt (type int)) (param a1 nil)))") ∧
      updateSignature.effectiveNames[1]? = some "a1" ∧
      (single (.other "class") none).graft (s'.toTree 0 (some "update")) = (b', .node n') ∧
      b'.textAt n' = b.textAt n ∧ s'.paramNames ≠ updateSignature.paramNames ∧
      s'.effectiveNames = updateSignature.effectiveNames := by
  have hwf := wellFormed_ofTree (.plain (.other "class") [.plain .nop []])
  obtain ⟨⟨b, n, hgraft, happended, hnote, htext, -, -, hpositional, hsame⟩, -⟩ :=
    graft_signature_faithful hwf updateSignature 4 none
  obtain ⟨b', n', hgraft', happended', hshows'⟩ :=
    exists_graft (t := Signature.toTree
      { updateSignature with name := none, paramNames := ["dt", "a1"] } 0 (some "update"))
      (wellFormed_single (.other "class") none) rfl
  have htext' : b'.textAt n' = b.textAt n := by
    rw [htext, textAt_eq happended'.wellFormed hshows', Signature.compact_toTree]
    decide +kernel
  refine ⟨_, b, b', n, n', _, hwf, tree_ofTree _ _ _, hgraft, happended, hnote, ?_,
    hpositional 1 (by decide) fun _ => by decide, hgraft', htext', by decide,
    (hsame _ _ _ _ _ _ (wellFormed_single _ _) hgraft' htext').2.1⟩
  rw [htext, written_updateSignature]

end Arena

end Unstack
