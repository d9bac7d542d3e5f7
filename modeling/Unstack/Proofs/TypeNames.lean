import Mathlib.Data.List.Basic
import Unstack.TypeRef

/-! # Reading type names

The text of a type has neither lengths nor escapes.  It can still be read in one way only, as long
as names are free of the marks `<`, `>` and `,`.

* **Names end at marks.**  A run without marks ends where the first mark stands
  (`unmarked_unique`).  If that mark is `<`, the run is a name and the dot behind it, whatever dots
  the name itself has.
* **Brackets match.**  What follows a type inside brackets is a comma or the closing bracket, so a
  type is read off in front of any such text (`display_unique`), and so is a list of parameters
  (`displayRest_unique`). -/

namespace Unstack.TypeRef

/-! ### Marks -/

/-- The characters that tell where a name ends. -/
def Mark (c : Char) : Prop := c = '<' ∨ c = '>' ∨ c = ','

instance : DecidablePred Mark := fun _ => inferInstanceAs (Decidable (_ ∨ _))

mutual

/-- The names in a type, its own first. -/
def names : TypeRef → List String
  | mk n ps => n :: namesAll ps

/-- The names in several types. -/
def namesAll : List TypeRef → List String
  | [] => []
  | p :: ps => p.names ++ namesAll ps

end

/-- No name holds a mark. -/
def Unmarked (ns : List String) : Prop := ∀ n ∈ ns, ∀ c ∈ n.toList, ¬Mark c

-- By the characters of each name; the search for an instance may go through all characters.
instance : DecidablePred Unmarked := fun ns =>
  @List.decidableBAll String (fun n => ∀ c ∈ n.toList, ¬Mark c)
    (fun n => List.decidableBAll (¬Mark ·) n.toList) ns

theorem unmarked_cons {n : String} {ns : List String} :
    Unmarked (n :: ns) ↔ (∀ c ∈ n.toList, ¬Mark c) ∧ Unmarked ns :=
  List.forall_mem_cons

theorem unmarked_append {ms ns : List String} :
    Unmarked (ms ++ ns) ↔ Unmarked ms ∧ Unmarked ns :=
  List.forall_mem_append

/-- The text is at its end or goes on with a mark. -/
def AtMark (text : List Char) : Prop := ∀ c, text.head? = some c → Mark c

theorem atMark_cons {c : Char} (hc : Mark c) (text : List Char) : AtMark (c :: text) := by
  intro d hd
  cases hd
  exact hc

/-- **A run without marks** can be told from what follows it. -/
theorem unmarked_unique {m n rest rest' : List Char} (hm : ∀ c ∈ m, ¬Mark c)
    (hn : ∀ c ∈ n, ¬Mark c) (hrest : AtMark rest) (hrest' : AtMark rest')
    (h : m ++ rest = n ++ rest') : m = n ∧ rest = rest' := by
  induction m generalizing n with
  | nil =>
      cases n with
      | nil => exact ⟨rfl, h⟩
      | cons d n =>
          have hd : rest.head? = some d := congrArg List.head? h
          exact absurd (hrest d hd) (hn d List.mem_cons_self)
  | cons c m ih =>
      cases n with
      | nil =>
          have hc : rest'.head? = some c := congrArg List.head? h.symm
          exact absurd (hrest' c hc) (hm c List.mem_cons_self)
      | cons d n =>
          obtain ⟨rfl, htail⟩ := List.cons.inj h
          obtain ⟨rfl, hr⟩ := ih (fun c hc => hm c (List.mem_cons_of_mem _ hc))
            (fun c hc => hn c (List.mem_cons_of_mem _ hc)) htail
          exact ⟨rfl, hr⟩

/-! ### Texts -/

theorem display_plain_append (n : String) (rest : List Char) :
    (mk n []).display.toList ++ rest = n.toList ++ rest := by
  rw [display]

/-- The run in front of the first bracket is the name with a dot behind it. -/
theorem display_generic_append (n : String) (p : TypeRef) (ps : List TypeRef) (rest : List Char) :
    (mk n (p :: ps)).display.toList ++ rest
      = (n.toList ++ ['.'])
        ++ '<' :: (p.display.toList ++ ((displayRest ps).toList ++ '>' :: rest)) := by
  simp [display, String.toList_append]

theorem displayRest_cons_append (p : TypeRef) (ps : List TypeRef) (rest : List Char) :
    (displayRest (p :: ps)).toList ++ rest
      = ',' :: ' ' :: (p.display.toList ++ ((displayRest ps).toList ++ rest)) := by
  simp [displayRest, String.toList_append]

theorem not_mark_dotted {n : List Char} (hn : ∀ c ∈ n, ¬Mark c) : ∀ c ∈ n ++ ['.'], ¬Mark c := by
  intro c hc
  rcases List.mem_append.mp hc with hc | hc
  · exact hn c hc
  · cases List.mem_singleton.mp hc
    decide

/-- Behind a type stands nothing, a comma, or the bracket that closes a list of parameters. -/
def Behind (text : List Char) : Prop := ∀ c, text.head? = some c → c = ',' ∨ c = '>'

theorem behind_nil : Behind [] := by
  intro c hc
  cases hc

theorem Behind.atMark {text : List Char} (h : Behind text) : AtMark text := by
  intro c hc
  rcases h c hc with rfl | rfl
  · exact .inr (.inr rfl)
  · exact .inr (.inl rfl)

theorem not_behind_open (text : List Char) : ¬Behind ('<' :: text) := by
  intro h
  rcases h '<' rfl with hc | hc <;> cases hc

/-- After a parameter come further ones or the closing bracket. -/
theorem behind_displayRest (ps : List TypeRef) (rest : List Char) :
    Behind ((displayRest ps).toList ++ '>' :: rest) := by
  intro c hc
  cases ps with
  | nil =>
      rw [displayRest] at hc
      cases hc
      exact .inr rfl
  | cons p ps =>
      rw [displayRest_cons_append] at hc
      cases hc
      exact .inl rfl

/-! ### Reading -/

mutual

/-- **A type** is read off in front of whatever may stand behind it. -/
theorem display_unique (t : TypeRef) (ht : Unmarked t.names) {u : TypeRef} (hu : Unmarked u.names)
    {rest rest' : List Char} (hrest : Behind rest) (hrest' : Behind rest')
    (h : t.display.toList ++ rest = u.display.toList ++ rest') : t = u ∧ rest = rest' := by
  obtain ⟨n, ps⟩ := t
  obtain ⟨m, qs⟩ := u
  obtain ⟨hn, hps⟩ := unmarked_cons.mp ht
  obtain ⟨hm, hqs⟩ := unmarked_cons.mp hu
  -- the mark behind the first run tells whether there are parameters
  cases ps with
  | nil =>
      rw [display_plain_append] at h
      cases qs with
      | nil =>
          rw [display_plain_append] at h
          obtain ⟨hname, hr⟩ := unmarked_unique hn hm hrest.atMark hrest'.atMark h
          rw [String.toList_inj.mp hname]
          exact ⟨rfl, hr⟩
      | cons q qs =>
          rw [display_generic_append] at h
          have hopen := (unmarked_unique hn (not_mark_dotted hm) hrest.atMark
            (atMark_cons (.inl rfl) _) h).2
          rw [hopen] at hrest
          exact absurd hrest (not_behind_open _)
  | cons p ps =>
      rw [display_generic_append] at h
      cases qs with
      | nil =>
          rw [display_plain_append] at h
          have hopen := (unmarked_unique (not_mark_dotted hn) hm (atMark_cons (.inl rfl) _)
            hrest'.atMark h).2
          rw [← hopen] at hrest'
          exact absurd hrest' (not_behind_open _)
      | cons q qs =>
          rw [display_generic_append] at h
          obtain ⟨hname, hinside⟩ := unmarked_unique (not_mark_dotted hn) (not_mark_dotted hm)
            (atMark_cons (.inl rfl) _) (atMark_cons (.inl rfl) _) h
          rw [String.toList_inj.mp (List.append_cancel_right hname)]
          obtain ⟨hp, hps'⟩ := unmarked_append.mp hps
          obtain ⟨hq, hqs'⟩ := unmarked_append.mp hqs
          obtain ⟨rfl, hmore⟩ := display_unique p hp hq (behind_displayRest ps rest)
            (behind_displayRest qs rest') (List.cons.inj hinside).2
          obtain ⟨rfl, hr⟩ := displayRest_unique ps hps' hqs' hmore
          exact ⟨rfl, hr⟩

/-- **Further parameters** are read off up to the bracket that closes the list. -/
theorem displayRest_unique (ps : List TypeRef) (hps : Unmarked (namesAll ps)) {qs : List TypeRef}
    (hqs : Unmarked (namesAll qs)) {rest rest' : List Char}
    (h : (displayRest ps).toList ++ '>' :: rest = (displayRest qs).toList ++ '>' :: rest') :
    ps = qs ∧ rest = rest' := by
  cases ps with
  | nil =>
      cases qs with
      | nil => exact ⟨rfl, (List.cons.inj h).2⟩
      | cons q qs =>
          rw [displayRest_cons_append] at h
          cases (List.cons.inj h).1
  | cons p ps =>
      rw [displayRest_cons_append] at h
      cases qs with
      | nil => cases (List.cons.inj h).1
      | cons q qs =>
          rw [displayRest_cons_append] at h
          obtain ⟨hp, hps'⟩ := unmarked_append.mp hps
          obtain ⟨hq, hqs'⟩ := unmarked_append.mp hqs
          obtain ⟨rfl, hmore⟩ := display_unique p hp hq (behind_displayRest ps rest)
            (behind_displayRest qs rest') (List.cons.inj (List.cons.inj h).2).2
          obtain ⟨rfl, hr⟩ := displayRest_unique ps hps' hqs' hmore
          exact ⟨rfl, hr⟩

end

/-- **Types are known by their texts.**  Two types, with parameters of any number and depth, in
which no name holds `<`, `>` or `,` are the same if they are displayed alike. -/
theorem eq_of_display_eq {t u : TypeRef} (ht : ∀ n ∈ t.names, ∀ c ∈ n.toList, ¬Mark c)
    (hu : ∀ n ∈ u.names, ∀ c ∈ n.toList, ¬Mark c) (h : t.display = u.display) : t = u :=
  (display_unique t ht hu behind_nil behind_nil (congrArg (String.toList · ++ []) h)).1

/-- A name that holds a comma can be taken for two. -/
example : (mk "Map" [mk "a, b" []]).display = (mk "Map" [mk "a" [], mk "b" []]).display := by
  decide +kernel

/-- Names that are empty, that are a dot, and that end like a separator begins. -/
theorem eq_of_display_eq_dots : ∃ t u : TypeRef,
    t = mk "v. " [mk "" [mk "" []], mk "" [], mk "a" [mk "." [mk "" []]]] ∧
      t.display = "v. .<.<>, , a.<..<>>>" ∧ u.display = "v. .<.<>, , a.<..<>>>" ∧ t = u := by
  have htext : (mk "v. " [mk "" [mk "" []], mk "" [], mk "a" [mk "." [mk "" []]]]).display
      = "v. .<.<>, , a.<..<>>>" := by
    decide +kernel
  have hnames : Unmarked
      (mk "v. " [mk "" [mk "" []], mk "" [], mk "a" [mk "." [mk "" []]]]).names := by
    decide +kernel
  exact ⟨_, _, rfl, htext, htext, eq_of_display_eq hnames hnames (htext.trans htext.symm)⟩

end Unstack.TypeRef
