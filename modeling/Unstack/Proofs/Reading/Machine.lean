import Unstack.Proofs.Arena.Numbered
import Unstack.Proofs.Reading.Symbols

/-! # The reader accepts exactly its grammar

The reader is a machine that takes one character at a time; the grammar builds a document from its
parts.

* **What is right is accepted.**  A part of a document takes the machine from one state to another:
  from the first state the text is read exactly as what follows the part is read from the second
  (`reads_list`).  There are two patterns behind this, states that pass over trivia (`Resting`) and
  states that collect a symbol (`Spelling`).
* **Nothing wrong is accepted.**  Every state owes a text: what is still to come before the document
  is complete (`Owes`).  If a step leads to a state whose debt is paid by the remaining text, the
  debt before the step is paid by the text with the character in front (`owes_of_step`). -/

namespace Unstack.Reader

open Grammar

variable {s s' : State} {c d : Char} {cs ds text rest : List Char} {t u : Tree} {f : Frame}
  {fs : List Frame} {ts : List Tree}

/-! ### Runs -/

/-- The offset shows in errors only. -/
theorem run_eq_ok_iff (s : State) (m n : Nat) (cs : List Char) (t : Tree) :
    run s m cs = .ok t ↔ run s n cs = .ok t := by
  induction cs generalizing s m n with
  | nil =>
      unfold run
      cases finish s with
      | ok u => exact Iff.rfl
      | error r => exact ⟨nofun, nofun⟩
  | cons c cs ih =>
      unfold run
      cases step s c with
      | ok s' => exact ih s' _ _
      | error r => exact ⟨nofun, nofun⟩

/-- From the state `s` on, the text is read as `t`. -/
def Reads (s : State) (text : List Char) (t : Tree) : Prop := run s 0 text = .ok t

theorem reads_nil : Reads s [] t ↔ finish s = .ok t := by
  unfold Reads
  rw [run]
  cases finish s with
  | ok u => constructor <;> intro h <;> cases h <;> rfl
  | error r => exact ⟨nofun, nofun⟩

theorem reads_step (h : step s c = .ok s') : Reads s (c :: cs) t ↔ Reads s' cs t := by
  unfold Reads
  rw [run, h]
  exact run_eq_ok_iff s' _ _ cs t

theorem not_reads_of_error {r : ReadReason} (h : step s c = .error r) : ¬Reads s (c :: cs) t := by
  unfold Reads
  rw [run, h]
  exact nofun

/-! ### Characters -/

theorem isDelimiter_iff : isDelimiter c = true ↔ Delimiter c := by
  simp [isDelimiter, Delimiter, or_assoc]

theorem isDelimiter_eq_false (h : ¬Delimiter c) : isDelimiter c = false := by
  rw [← Bool.not_eq_true, isDelimiter_iff]
  exact h

theorem isBlank_eq_false (h : ¬Delimiter c) : Text.isBlank c = false :=
  Bool.eq_false_iff.mpr fun hb => h (.inl hb)

theorem not_delimiter_ne (h : ¬Delimiter c) : c ≠ '(' ∧ c ≠ ')' ∧ c ≠ '"' ∧ c ≠ ';' := by
  refine ⟨?_, ?_, ?_, ?_⟩ <;> rintro rfl <;> apply h <;> simp [Delimiter]

theorem unescape_eq_some_iff : unescape c = some d ↔ Escape c d := by
  constructor
  · intro h
    unfold unescape at h
    split at h <;> cases h
    · exact .newline
    · exact .tab
    · exact .quote
    · exact .backslash
  · intro h
    cases h <;> rfl

/-! ### States that pass over trivia -/

/-- The states `s false`, between tokens, and `s true`, in a comment there. -/
structure Resting (s : Bool → State) : Prop where
  blank : ∀ c, Text.isBlank c = true → step (s false) c = .ok (s false)
  comment : step (s false) ';' = .ok (s true)
  skip : ∀ c, step (s true) c = .ok (s (c != '\n'))
  finish : finish (s true) = finish (s false)

theorem resting_start : Resting .start where
  blank c h := by simp [step, h]
  comment := rfl
  skip c := rfl
  finish := rfl

theorem resting_opened (outer : List Frame) : Resting (.opened · outer) where
  blank c h := by simp [step, h]
  comment := rfl
  skip c := rfl
  finish := rfl

theorem resting_items (f : Frame) (fs : List Frame) : Resting (.items · f fs) where
  blank c h := by simp [step, stepItems, h]
  comment := rfl
  skip c := rfl
  finish := rfl

theorem resting_done (u : Tree) : Resting (.done · u) where
  blank c h := by simp [step, h]
  comment := rfl
  skip c := rfl
  finish := rfl

namespace Resting

variable {s : Bool → State}

theorem reads_comment (h : Resting s) {body : List Char} (hbody : '\n' ∉ body)
    (htext : AtLineEnd text) : Reads (s true) (body ++ text) t ↔ Reads (s false) text t := by
  induction body with
  | nil =>
      rcases htext with rfl | ⟨rest, rfl⟩
      · show Reads (s true) [] t ↔ _
        rw [reads_nil, reads_nil, h.finish]
      · show Reads (s true) ('\n' :: rest) t ↔ _
        rw [reads_step (h.skip '\n'), reads_step (h.blank '\n' Text.isBlank_newline)]
        exact Iff.rfl
  | cons c body ih =>
      obtain ⟨hc, hbody⟩ := not_or.mp (mt List.mem_cons.mpr hbody)
      have hstep : step (s true) c = .ok (s true) := by
        rw [h.skip c, bne_iff_ne.mpr (Ne.symm hc)]
      rw [List.cons_append, reads_step hstep, ih hbody]

/-- Trivia change nothing. -/
theorem reads_trivia (h : Resting s) (htrivia : Trivia text rest) :
    Reads (s false) text t ↔ Reads (s false) rest t := by
  induction htrivia with
  | none rest => exact Iff.rfl
  | blank hc _ ih => rw [reads_step (h.blank _ hc), ih]
  | comment hbody hend _ ih => rw [reads_step h.comment, h.reads_comment hbody hend, ih]

end Resting

/-! ### States that collect a symbol -/

/-- Characters that were collected in reverse, and one more. -/
theorem reverse_cons_append (c : Char) (rev cs : List Char) :
    (c :: rev).reverse ++ cs = rev.reverse ++ c :: cs := by
  rw [List.reverse_cons, List.append_assoc, List.singleton_append]

/-- The states `s rev` in a symbol.  Where it ends, the machine goes on as if it were in the state
`next` of its characters. -/
structure Spelling (s next : List Char → State) : Prop where
  more : ∀ rev c, ¬Delimiter c → step (s rev) c = .ok (s (c :: rev))
  ends : ∀ rev c, Delimiter c → ∃ s', step (s rev) c = .ok s' ∧ step (next rev.reverse) c = .ok s'
  finish : ∀ rev t, finish (s rev) = .ok t ↔ finish (next rev.reverse) = .ok t

theorem spelling_kind (outer : List Frame) :
    Spelling (.kind · outer) fun cs => .items false ⟨.ofTag (String.ofList cs), []⟩ outer where
  more rev c h := by simp [step, isDelimiter_eq_false h]
  ends rev c h := by simp [step, isDelimiter_iff.mpr h]
  finish rev t := Iff.rfl

theorem spelling_symbol (f : Frame) (fs : List Frame) :
    Spelling (.symbol · f fs) fun cs => .items false (f.add (.leaf (.ofSymbol cs))) fs where
  more rev c h := by simp [step, isDelimiter_eq_false h]
  ends rev c h := by simp [step, isDelimiter_iff.mpr h]
  finish rev t := Iff.rfl

/-- The rest of a symbol. -/
theorem Spelling.reads {s next : List Char → State} (h : Spelling s next) (rev : List Char)
    (hplain : ∀ c ∈ cs, ¬Delimiter c) (hmax : ∀ c, rest.head? = some c → Delimiter c) :
    Reads (s rev) (cs ++ rest) t ↔ Reads (next (rev.reverse ++ cs)) rest t := by
  induction cs generalizing rev with
  | nil =>
      rw [List.append_nil, List.nil_append]
      cases rest with
      | nil => rw [reads_nil, reads_nil, h.finish]
      | cons c rest =>
          obtain ⟨s', hs, hnext⟩ := h.ends rev c (hmax c rfl)
          rw [reads_step hs, reads_step hnext]
  | cons c cs ih =>
      rw [List.cons_append, reads_step (h.more rev c (hplain c List.mem_cons_self)),
        ih (c :: rev) fun d hd => hplain d (List.mem_cons_of_mem _ hd), reverse_cons_append]

/-! ### What is right is accepted -/

theorem stepItems_plain (h : ¬Delimiter c) : stepItems f fs c = .symbol [c] f fs := by
  obtain ⟨h₁, h₂, h₃, h₄⟩ := not_delimiter_ne h
  simp [stepItems, isBlank_eq_false h, h₁, h₂, h₃, h₄]

/-- A whole symbol, from a state that starts one. -/
theorem Spelling.reads_symbol {s next : List Char → State} (h : Spelling s next) {s₀ : State}
    (hfirst : ∀ c, ¬Delimiter c → step s₀ c = .ok (s [c])) (hsymbol : Symbol text cs rest) :
    Reads s₀ text t ↔ Reads (next cs) rest t := by
  obtain ⟨rfl, hne, hplain, hmax⟩ := hsymbol
  cases cs with
  | nil => exact absurd rfl hne
  | cons c cs =>
      obtain ⟨hc, hcs⟩ := List.forall_mem_cons.mp hplain
      rw [List.cons_append, reads_step (hfirst c hc), h.reads [c] hcs hmax]
      exact Iff.rfl

theorem reads_symbol (h : Symbol text cs rest) : Reads (.items false f fs) text t ↔
    Reads (.items false (f.add (.leaf (.ofSymbol cs))) fs) rest t := by
  refine (spelling_symbol f fs).reads_symbol (fun c hc => ?_) h
  rw [step, stepItems_plain hc]

theorem reads_kind (outer : List Frame) (h : Symbol text cs rest) :
    Reads (.opened false outer) text t ↔
      Reads (.items false ⟨.ofTag (String.ofList cs), []⟩ outer) rest t := by
  refine (spelling_kind outer).reads_symbol (fun c hc => ?_) h
  simp [step, isBlank_eq_false hc, isDelimiter_eq_false hc, (not_delimiter_ne hc).2.2.2]

theorem step_text_plain (rev : List Char) (hquote : c ≠ '"') (hback : c ≠ '\\') :
    step (.text rev f fs) c = .ok (.text (c :: rev) f fs) := by
  rw [step, if_neg hquote, if_neg hback]

theorem reads_text (h : Quoted text cs rest) (rev : List Char) : Reads (.text rev f fs) text t ↔
    Reads (.items false (f.add (.text (String.ofList (rev.reverse ++ cs)))) fs) rest t := by
  induction h generalizing rev with
  | close rest =>
      rw [List.append_nil]
      exact reads_step rfl
  | @escape c d text cs rest hescape _ ih =>
      have hstep : step (.escape rev f fs) c = .ok (.text (d :: rev) f fs) := by
        rw [step, unescape_eq_some_iff.mpr hescape]
      have hback : step (.text rev f fs) '\\' = .ok (.escape rev f fs) := rfl
      rw [reads_step hback, reads_step hstep, ih (d :: rev), reverse_cons_append]
  | @plain c text cs rest hquote hback _ ih =>
      rw [reads_step (step_text_plain rev hquote hback), ih (c :: rev),
        reverse_cons_append]

theorem reads_quoted (h : Quoted text cs rest) : Reads (.items false f fs) ('"' :: text) t ↔
    Reads (.items false (f.add (.text (String.ofList cs))) fs) rest t := by
  have hstep : step (.items false f fs) '"' = .ok (.text [] f fs) := rfl
  rw [reads_step hstep, reads_text h []]
  exact Iff.rfl

/-- Adds several items to an open list. -/
def Frame.addAll (f : Frame) (ts : List Tree) : Frame := { f with items := ts.reverse ++ f.items }

theorem Frame.addAll_cons (f : Frame) (t : Tree) (ts : List Tree) :
    f.addAll (t :: ts) = (f.add t).addAll ts := by
  simp [addAll, add]

theorem Frame.close_addAll (k : Kind) (ts : List Tree) :
    ((⟨k, []⟩ : Frame).addAll ts).close = .plain k ts := by
  simp [addAll, close]

/-- The state in front of a list inside the given lists. -/
def before : List Frame → State
  | [] => .start false
  | f :: fs => .items false f fs

/-- The state behind a list inside the given lists. -/
def after (u : Tree) : List Frame → State
  | [] => .done false u
  | f :: fs => .items false (f.add u) fs

theorem step_before_opening (outer : List Frame) :
    step (before outer) '(' = .ok (.opened false outer) := by
  cases outer <;> rfl

theorem closeList_eq_after (f : Frame) (outer : List Frame) :
    closeList f outer = after f.close outer := by
  cases outer <;> rfl

/-- A list is read from in front of it to behind it, once its items are. -/
theorem reads_list {text₁ text₂ text₃ head : List Char} (outer : List Frame)
    (htrivia : Trivia text text₁) (hhead : Symbol text₁ head text₂)
    (hitems : ∀ f, Reads (.items false f outer) text₂ t ↔
      Reads (.items false (f.addAll ts) outer) text₃ t)
    (hclose : Trivia text₃ (')' :: rest)) :
    Reads (before outer) ('(' :: text) t ↔
      Reads (after (.plain (.ofTag (String.ofList head)) ts) outer) rest t := by
  have hend : step (.items false ((⟨.ofTag (String.ofList head), []⟩ : Frame).addAll ts) outer) ')'
      = .ok (after (.plain (.ofTag (String.ofList head)) ts) outer) := by
    rw [← Frame.close_addAll, ← closeList_eq_after]
    rfl
  rw [reads_step (step_before_opening outer), (resting_opened outer).reads_trivia htrivia,
    reads_kind outer hhead, hitems, (resting_items _ outer).reads_trivia hclose, reads_step hend]

theorem reads_item_and_items :
    (∀ {text u rest}, Item text u rest → ∀ f fs, Reads (.items false f fs) text t ↔
      Reads (.items false (f.add u) fs) rest t) ∧
    ∀ {text ts rest}, Items text ts rest → ∀ f fs, Reads (.items false f fs) text t ↔
      Reads (.items false (f.addAll ts) fs) rest t := by
  refine item_induction ?_ ?_ ?_ ?_ ?_
  · intro text text₁ text₂ text₃ rest head ts htrivia hhead ih hclose f fs
    exact reads_list (f :: fs) htrivia hhead (fun g => ih g (f :: fs)) hclose
  · intro text cs rest hquoted f fs
    exact reads_quoted hquoted
  · intro text cs rest l hsymbol hl f fs
    rw [← denotes_iff.mp hl]
    exact reads_symbol hsymbol
  · intro rest f fs
    exact Iff.rfl
  · intro text text₁ text₂ rest u ts htrivia ih ih' f fs
    rw [(resting_items f fs).reads_trivia htrivia, ih, ih', Frame.addAll_cons]

/-- **Completeness**: every document is read. -/
theorem reads_of_document (h : Document text t) : Reads (.start false) text t := by
  obtain ⟨text₁, rest, hfront, hlist, hback⟩ := h
  rw [resting_start.reads_trivia hfront]
  cases hlist with
  | mk htrivia hhead hitems hclose =>
      apply (reads_list [] htrivia hhead (fun f => reads_item_and_items.2 hitems f []) hclose).mpr
      exact ((resting_done _).reads_trivia hback).mpr (reads_nil.mpr rfl)

/-! ### Nothing wrong is accepted -/

/-- What is owed behind the list `u` inside the lists `outer`, so that the document is `t`. -/
def Closes (t : Tree) : Tree → List Frame → List Char → Prop
  | u, [], text => Trivia text [] ∧ t = u
  | u, f :: fs, text =>
    ∃ ts text₁ rest, Items text ts text₁ ∧ Trivia text₁ (')' :: rest) ∧
      Closes t ((f.add u).addAll ts).close fs rest

/-- What is owed between the items of a list. -/
def Continues (t : Tree) (f : Frame) (fs : List Frame) (text : List Char) : Prop :=
  ∃ ts text₁ rest, Items text ts text₁ ∧ Trivia text₁ (')' :: rest) ∧
    Closes t (f.addAll ts).close fs rest

/-- What is owed after an opening parenthesis. -/
def Opens (t : Tree) (outer : List Frame) (text : List Char) : Prop :=
  ∃ text₁ head rest, Trivia text text₁ ∧ Symbol text₁ head rest ∧
    Continues t ⟨.ofTag (String.ofList head), []⟩ outer rest

/-- What is owed between tokens, or in a comment there. -/
def Within (P : List Char → Prop) : Bool → List Char → Prop
  | false, text => P text
  | true, text => ∃ body rest, '\n' ∉ body ∧ AtLineEnd rest ∧ text = body ++ rest ∧ P rest

/-- What is owed in a symbol. -/
def Spells (P : List Char → List Char → Prop) (rev text : List Char) : Prop :=
  ∃ cs rest, (∀ c ∈ cs, ¬Delimiter c) ∧ (∀ c, rest.head? = some c → Delimiter c) ∧
    text = cs ++ rest ∧ P (rev.reverse ++ cs) rest

/-- What has to follow in a state for the document to be `t`. -/
def Owes (t : Tree) : State → List Char → Prop
  | .start b => Within (Document · t) b
  | .opened b outer => Within (Opens t outer) b
  | .kind rev outer =>
    Spells (fun head => Continues t ⟨.ofTag (String.ofList head), []⟩ outer) rev
  | .items b f fs => Within (Continues t f fs) b
  | .symbol rev f fs => Spells (fun cs => Continues t (f.add (.leaf (.ofSymbol cs))) fs) rev
  | .text rev f fs => fun text =>
    ∃ cs rest, Quoted text cs rest ∧
      Continues t (f.add (.text (String.ofList (rev.reverse ++ cs)))) fs rest
  | .escape rev f fs => fun text =>
    ∃ c d text₁ cs rest, text = c :: text₁ ∧ Escape c d ∧ Quoted text₁ cs rest ∧
      Continues t (f.add (.text (String.ofList (rev.reverse ++ d :: cs)))) fs rest
  | .done b u => Within (fun text => Trivia text [] ∧ t = u) b

/-- Trivia may stand in front. -/
def Lax (P : List Char → Prop) : Prop := ∀ text rest, Trivia text rest → P rest → P text

theorem lax_document (t : Tree) : Lax (Document · t) := by
  rintro text rest h ⟨text₁, rest₁, hfront, hlist, hback⟩
  exact ⟨text₁, rest₁, h.trans hfront, hlist, hback⟩

theorem lax_opens (t : Tree) (outer : List Frame) : Lax (Opens t outer) := by
  rintro text rest h ⟨text₁, head, rest₁, htrivia, hhead, hrest⟩
  exact ⟨text₁, head, rest₁, h.trans htrivia, hhead, hrest⟩

theorem lax_continues (t : Tree) (f : Frame) (fs : List Frame) : Lax (Continues t f fs) := by
  rintro text rest h ⟨ts, text₁, rest₁, hitems, hclose, hrest⟩
  cases hitems with
  | nil => exact ⟨[], text, rest₁, .nil text, h.trans hclose, hrest⟩
  | cons htrivia hitem hitems =>
      exact ⟨_, text₁, rest₁, .cons (h.trans htrivia) hitem hitems, hclose, hrest⟩

theorem lax_done (t u : Tree) : Lax fun text => Trivia text [] ∧ t = u := by
  rintro text rest h ⟨hend, rfl⟩
  exact ⟨h.trans hend, rfl⟩

theorem Lax.within_skip {P : List Char → Prop} (hP : Lax P) (h : Within P (c != '\n') cs) :
    Within P true (c :: cs) := by
  by_cases hc : c = '\n'
  · subst hc
    exact ⟨[], '\n' :: cs, List.not_mem_nil, .inr ⟨cs, rfl⟩, rfl,
      hP _ cs (.blank Text.isBlank_newline (.none cs)) h⟩
  · rw [bne_iff_ne.mpr hc] at h
    obtain ⟨body, rest, hbody, hend, rfl, hrest⟩ := h
    refine ⟨c :: body, rest, ?_, hend, rfl, hrest⟩
    rintro (_ | ⟨_, hmem⟩)
    · exact hc rfl
    · exact hbody hmem

theorem Lax.of_blank {P : List Char → Prop} (hP : Lax P) (hc : Text.isBlank c = true) (h : P cs) :
    P (c :: cs) := hP _ cs (.blank hc (.none cs)) h

theorem Lax.of_comment {P : List Char → Prop} (hP : Lax P) (h : Within P true cs) :
    P (';' :: cs) := by
  obtain ⟨body, rest, hbody, hend, rfl, hrest⟩ := h
  exact hP _ rest (.comment hbody hend (.none rest)) hrest

theorem continues_of_item (h : Item text u rest) (hrest : Continues t (f.add u) fs rest) :
    Continues t f fs text := by
  obtain ⟨ts, text₁, rest₁, hitems, hclose, hrest⟩ := hrest
  rw [← Frame.addAll_cons] at hrest
  exact ⟨u :: ts, text₁, rest₁, .cons (.none text) h hitems, hclose, hrest⟩

theorem exists_list_of_opens {outer : List Frame} (h : Opens t outer text) :
    ∃ u rest, ListText ('(' :: text) u rest ∧ Closes t u outer rest := by
  obtain ⟨text₁, head, rest, htrivia, hhead, ts, text₂, rest₁, hitems, hclose, hrest⟩ := h
  rw [Frame.close_addAll] at hrest
  exact ⟨_, rest₁, .mk htrivia hhead hitems hclose, hrest⟩

theorem owes_closeList {outer : List Frame} :
    Owes t (closeList f outer) text ↔ Closes t f.close outer text := by
  cases outer <;> exact Iff.rfl

/-- A step between the items of a list. -/
theorem continues_of_stepItems (h : Owes t (stepItems f fs c) cs) : Continues t f fs (c :: cs) := by
  unfold stepItems at h
  split_ifs at h with hblank hcomment hopen hclose hquote
  · exact (lax_continues t f fs).of_blank hblank h
  · subst hcomment
    exact (lax_continues t f fs).of_comment h
  · subst hopen
    obtain ⟨u, rest, hlist, hrest⟩ := exists_list_of_opens h
    exact continues_of_item (.list hlist) hrest
  · subst hclose
    exact ⟨[], ')' :: cs, cs, .nil _, .none _, owes_closeList.mp h⟩
  · subst hquote
    obtain ⟨content, rest, hquoted, hrest⟩ := h
    exact continues_of_item (.quoted hquoted) hrest
  · obtain ⟨more, rest, hplain, hmax, rfl, hrest⟩ := h
    have hc : ¬Delimiter c := by
      rintro (h | h | h | h | h)
      · exact hblank h
      · exact hopen h
      · exact hclose h
      · exact hquote h
      · exact hcomment h
    have hsymbol : Symbol (c :: (more ++ rest)) (c :: more) rest :=
      ⟨rfl, List.cons_ne_nil _ _, List.forall_mem_cons.mpr ⟨hc, hplain⟩, hmax⟩
    exact continues_of_item (.symbol hsymbol (denotes_ofSymbol _)) hrest

theorem spells_of_more {P : List Char → List Char → Prop} {rev : List Char} (hc : ¬Delimiter c)
    (h : Spells P (c :: rev) cs) : Spells P rev (c :: cs) := by
  obtain ⟨more, rest, hplain, hmax, rfl, hP⟩ := h
  refine ⟨c :: more, rest, List.forall_mem_cons.mpr ⟨hc, hplain⟩, hmax, rfl, ?_⟩
  rwa [reverse_cons_append] at hP

theorem spells_of_ends {P : List Char → List Char → Prop} {rev : List Char} (hc : Delimiter c)
    (h : P rev.reverse (c :: cs)) : Spells P rev (c :: cs) := by
  refine ⟨[], c :: cs, nofun, ?_, rfl, ?_⟩
  · intro d hd
    cases hd
    exact hc
  · rwa [List.append_nil]

/-- **A step back**: if the rest pays what is owed after a step, it pays what was owed before with
the character in front. -/
theorem owes_of_step (h : step s c = .ok s') (howes : Owes t s' cs) : Owes t s (c :: cs) := by
  cases s with
  | start b =>
      cases b with
      | true =>
          cases h
          exact (lax_document t).within_skip howes
      | false =>
          rw [step] at h
          split_ifs at h with hblank hcomment hopen <;> cases h
          · exact (lax_document t).of_blank hblank howes
          · subst hcomment
            exact (lax_document t).of_comment howes
          · subst hopen
            obtain ⟨u, rest, hlist, hend, rfl⟩ := exists_list_of_opens howes
            exact ⟨_, rest, .none _, hlist, hend⟩
  | opened b outer =>
      cases b with
      | true =>
          cases h
          exact (lax_opens t outer).within_skip howes
      | false =>
          rw [step] at h
          split_ifs at h with hblank hcomment hdelim <;> cases h
          · exact (lax_opens t outer).of_blank hblank howes
          · subst hcomment
            exact (lax_opens t outer).of_comment howes
          · obtain ⟨more, rest, hplain, hmax, rfl, hrest⟩ := howes
            have hc : ¬Delimiter c := mt isDelimiter_iff.mpr hdelim
            exact ⟨_, c :: more, rest, .none _,
              ⟨rfl, List.cons_ne_nil _ _, List.forall_mem_cons.mpr ⟨hc, hplain⟩, hmax⟩, hrest⟩
  | kind rev outer =>
      show Spells (fun head => Continues t ⟨.ofTag (String.ofList head), []⟩ outer) rev (c :: cs)
      rw [step] at h
      split_ifs at h with hdelim <;> cases h
      · exact spells_of_ends (isDelimiter_iff.mp hdelim) (continues_of_stepItems howes)
      · exact spells_of_more (mt isDelimiter_iff.mpr hdelim) howes
  | items b f fs =>
      cases b with
      | true =>
          cases h
          exact (lax_continues t f fs).within_skip howes
      | false =>
          cases h
          exact continues_of_stepItems howes
  | symbol rev f fs =>
      show Spells (fun cs => Continues t (f.add (.leaf (.ofSymbol cs))) fs) rev (c :: cs)
      rw [step] at h
      split_ifs at h with hdelim <;> cases h
      · exact spells_of_ends (isDelimiter_iff.mp hdelim) (continues_of_stepItems howes)
      · exact spells_of_more (mt isDelimiter_iff.mpr hdelim) howes
  | text rev f fs =>
      rw [step] at h
      split_ifs at h with hquote hback <;> cases h
      · subst hquote
        refine ⟨[], cs, .close cs, ?_⟩
        rwa [List.append_nil]
      · subst hback
        obtain ⟨d, e, text₁, content, rest, rfl, hescape, hquoted, hrest⟩ := howes
        exact ⟨e :: content, rest, .escape hescape hquoted, hrest⟩
      · obtain ⟨content, rest, hquoted, hrest⟩ := howes
        refine ⟨c :: content, rest, .plain hquote hback hquoted, ?_⟩
        rwa [reverse_cons_append] at hrest
  | escape rev f fs =>
      rw [step] at h
      cases hd : unescape c with
      | none =>
          rw [hd] at h
          cases h
      | some d =>
          rw [hd] at h
          cases h
          obtain ⟨content, rest, hquoted, hrest⟩ := howes
          refine ⟨c, d, cs, content, rest, rfl, unescape_eq_some_iff.mp hd, hquoted, ?_⟩
          rwa [reverse_cons_append] at hrest
  | done b u =>
      cases b with
      | true =>
          cases h
          exact (lax_done t u).within_skip howes
      | false =>
          rw [step] at h
          split_ifs at h with hblank hcomment <;> cases h
          · exact (lax_done t u).of_blank hblank howes
          · subst hcomment
            exact (lax_done t u).of_comment howes

theorem owes_of_finish (h : finish s = .ok t) : Owes t s [] := by
  cases s with
  | done b u =>
      cases h
      cases b with
      | false => exact ⟨.none [], rfl⟩
      | true => exact ⟨[], [], List.not_mem_nil, .inl rfl, rfl, .none [], rfl⟩
  | _ => cases h

/-- **Soundness**: whatever is read pays what its first state owes. -/
theorem owes_of_reads (h : Reads s text t) : Owes t s text := by
  induction text generalizing s with
  | nil => exact owes_of_finish (reads_nil.mp h)
  | cons c text ih =>
      cases hstep : step s c with
      | error r => exact absurd h (not_reads_of_error hstep)
      | ok s' => exact owes_of_step hstep (ih ((reads_step hstep).mp h))

/-- **The reader accepts exactly the documents.** -/
theorem reads_iff_document : Reads (.start false) text t ↔ Document text t :=
  ⟨owes_of_reads, reads_of_document⟩

/-! ### Tokens

Between tokens the machine is at rest, and one token takes it to the next such state.  So only the
tokens of a text count. -/

/-- The state after a token, if it may stand there. -/
def State.take? : State → Token → Option State
  | .start false, .opening => some (.opened false [])
  | .opened false outer, .symbol cs => some (.items false ⟨.ofTag (String.ofList cs), []⟩ outer)
  | .items false f fs, .opening => some (.opened false (f :: fs))
  | .items false f fs, .closing => some (closeList f fs)
  | .items false f fs, .quoted cs => some (.items false (f.add (.text (String.ofList cs))) fs)
  | .items false f fs, .symbol cs => some (.items false (f.add (.leaf (.ofSymbol cs))) fs)
  | _, _ => none

/-- The states between tokens. -/
inductive AtRest : State → Prop
  | start : AtRest (.start false)
  | opened (outer : List Frame) : AtRest (.opened false outer)
  | items (f : Frame) (fs : List Frame) : AtRest (.items false f fs)
  | done (u : Tree) : AtRest (.done false u)

/-- The first character of a token says whether it is a parenthesis or a symbol. -/
theorem exists_head_of_token {tok : Token} (h : TokenText text tok rest) :
    ∃ c cs, text = c :: cs ∧ Text.isBlank c = false ∧ c ≠ ';' ∧ (c = '(' → tok = .opening) ∧
      (¬Delimiter c → ∃ name, tok = .symbol name) := by
  cases h with
  | opening =>
      exact ⟨'(', _, rfl, by decide, by decide, fun _ => rfl, fun h => absurd (by decide) h⟩
  | closing => exact ⟨')', _, rfl, by decide, by decide, nofun, fun h => absurd (by decide) h⟩
  | quoted => exact ⟨'"', _, rfl, by decide, by decide, nofun, fun h => absurd (by decide) h⟩
  | symbol h =>
      obtain ⟨rfl, hne, hplain, -⟩ := h
      rename_i cs
      cases cs with
      | nil => exact absurd rfl hne
      | cons c cs =>
          have hc := hplain c List.mem_cons_self
          exact ⟨c, cs ++ rest, rfl, isBlank_eq_false hc, (not_delimiter_ne hc).2.2.2,
            fun he => absurd he (not_delimiter_ne hc).1, fun _ => ⟨_, rfl⟩⟩

namespace AtRest

variable {tok : Token} {text₁ text₂ : List Char}

theorem reads_trivia (h : AtRest s) (htrivia : Trivia text rest) :
    Reads s text t ↔ Reads s rest t := by
  cases h with
  | start => exact resting_start.reads_trivia htrivia
  | opened outer => exact (resting_opened outer).reads_trivia htrivia
  | items f fs => exact (resting_items f fs).reads_trivia htrivia
  | done u => exact (resting_done u).reads_trivia htrivia

theorem take (h : AtRest s) (htake : s.take? tok = some s') : AtRest s' := by
  cases h <;> cases tok <;> cases htake
  case items.closing f fs => cases fs <;> constructor
  all_goals constructor

theorem reads_token (h : AtRest s) (htok : TokenText text tok rest)
    (htake : s.take? tok = some s') : Reads s text t ↔ Reads s' rest t := by
  cases h with
  | start =>
      cases htok <;> cases htake
      exact reads_step rfl
  | opened outer =>
      cases htok <;> cases htake
      rename_i hsymbol
      exact reads_kind outer hsymbol
  | items f fs =>
      cases htok with
      | opening =>
          cases htake
          exact reads_step rfl
      | closing =>
          cases htake
          exact reads_step rfl
      | quoted hquoted =>
          cases htake
          exact reads_quoted hquoted
      | symbol hsymbol =>
          cases htake
          exact reads_symbol hsymbol
  | done u => cases htake

theorem not_reads_token (h : AtRest s) (htok : TokenText text tok rest)
    (htake : s.take? tok = none) : ¬Reads s text t := by
  obtain ⟨c, cs, rfl, hblank, hcomment, hopen, hsymbol⟩ := exists_head_of_token htok
  cases h with
  | start =>
      have hc : c ≠ '(' := by
        intro hc
        rw [hopen hc] at htake
        cases htake
      exact not_reads_of_error (by rw [step, hblank, if_neg nofun, if_neg hcomment, if_neg hc])
  | opened outer =>
      have hc : Delimiter c := by
        by_contra hc
        obtain ⟨name, rfl⟩ := hsymbol hc
        cases htake
      exact not_reads_of_error
        (by rw [step, hblank, if_neg nofun, if_neg hcomment, if_pos (isDelimiter_iff.mpr hc)])
  | items f fs => cases tok <;> cases htake
  | done u => exact not_reads_of_error (by rw [step, hblank, if_neg nofun, if_neg hcomment])

/-- Texts of the same tokens are read alike. -/
theorem reads_congr {toks : List Token} (h : AtRest s) (h₁ : Tokens text₁ toks)
    (h₂ : Tokens text₂ toks) : Reads s text₁ t ↔ Reads s text₂ t := by
  induction toks generalizing s text₁ text₂ with
  | nil =>
      cases h₁ with
      | nil h₁ =>
          cases h₂ with
          | nil h₂ => rw [h.reads_trivia h₁, h.reads_trivia h₂]
  | cons tok toks ih =>
      cases h₁ with
      | cons htrivia₁ htok₁ h₁ =>
          cases h₂ with
          | cons htrivia₂ htok₂ h₂ =>
              rw [h.reads_trivia htrivia₁, h.reads_trivia htrivia₂]
              cases htake : s.take? tok with
              | none =>
                  exact iff_of_false (h.not_reads_token htok₁ htake) (h.not_reads_token htok₂ htake)
              | some s' =>
                  rw [h.reads_token htok₁ htake, h.reads_token htok₂ htake]
                  exact ih (h.take htake) h₁ h₂

end AtRest

end Unstack.Reader

namespace Unstack.Arena

open Grammar

theorem read_eq_ok_iff {src : String} {a : Arena} :
    read src = .ok a ↔ ∃ t, Reader.Reads (.start false) src.toList t ∧ a = numbered t := by
  unfold read Reader.Reads Reader.read
  cases Reader.run (.start false) 0 src.toList with
  | error e => exact ⟨nofun, nofun⟩
  | ok t =>
      constructor
      · intro h
        cases h
        exact ⟨t, rfl, ofTree_eq_numbered t⟩
      · rintro ⟨u, hu, rfl⟩
        cases hu
        exact congrArg Except.ok (ofTree_eq_numbered t)

/-- **Reading.**  A text is read exactly if it is a document, and then into the arena that has a
placeholder and, behind it, one slot for each list of the document in post-order.  Nothing but the
tokens counts: texts with the same tokens, whatever trivia stand between them, give the same
arena. -/
theorem read_eq_ok_iff_document :
    (∀ (src : String) (a : Arena),
      read src = .ok a ↔ ∃ t, Document src.toList t ∧ a = numbered t) ∧
    ∀ (src₁ src₂ : String) (toks : List Token), Tokens src₁.toList toks → Tokens src₂.toList toks →
      ∀ a, read src₁ = .ok a ↔ read src₂ = .ok a := by
  constructor
  · intro src a
    simp only [read_eq_ok_iff, Reader.reads_iff_document]
  · intro src₁ src₂ toks h₁ h₂ a
    simp only [read_eq_ok_iff, Reader.AtRest.start.reads_congr h₁ h₂]

/-- The list `(f "a" -1)`, with blanks only and with a comment in place of one of them. -/
theorem read_eq_ok_iff_document_comment :
    read "(f \"a\" -1)" = .ok (numbered (.plain (.ofTag "f") [.text "a", .leaf (.int (-1))])) ∧
      ∀ a, read "(f \"a\" -1)" = .ok a ↔ read "(f;x\n\"a\"-1)" = .ok a := by
  have hblanks : "(f \"a\" -1)".toList = ['(', 'f', ' ', '"', 'a', '"', ' ', '-', '1', ')'] := by
    decide +kernel
  have hcomment : "(f;x\n\"a\"-1)".toList
      = ['(', 'f', ';', 'x', '\n', '"', 'a', '"', '-', '1', ')'] := by
    decide +kernel
  have hf : ∀ c rest, Delimiter c → Symbol ('f' :: c :: rest) ['f'] (c :: rest) := by
    intro c rest hc
    refine ⟨rfl, by decide, not_delimiter_of_all (by decide), fun d hd => ?_⟩
    cases hd
    exact hc
  have ha : ∀ rest, Quoted ('a' :: '"' :: rest) ['a'] rest := fun rest =>
    .plain (by decide) (by decide) (.close rest)
  have hone : Symbol ['-', '1', ')'] ['-', '1'] [')'] := by
    refine ⟨rfl, by decide, not_delimiter_of_all (by decide), fun d hd => ?_⟩
    cases hd
    decide
  have hint : Denotes ['-', '1'] (.int (-1)) :=
    .integer (not_constant_iff.mpr (by decide))
      ⟨['-'], true, ['1'], .minus, by simp [Digits], rfl, by decide⟩
  refine ⟨(read_eq_ok_iff_document.1 _ _).mpr ⟨_, ?_, rfl⟩, read_eq_ok_iff_document.2 _ _
    [.opening, .symbol ['f'], .quoted ['a'], .symbol ['-', '1'], .closing] ?_ ?_⟩
  · rw [hblanks]
    refine ⟨_, [], .none _, .mk (.none _) (hf ' ' _ (by decide)) ?_ (.none _), .none _⟩
    exact .cons (.blank rfl (.none _)) (.quoted (ha _))
      (.cons (.blank rfl (.none _)) (.symbol hone hint) (.nil _))
  · rw [hblanks]
    exact .cons (.none _) (.opening _) (.cons (.none _) (.symbol (hf ' ' _ (by decide)))
      (.cons (.blank rfl (.none _)) (.quoted (ha _)) (.cons (.blank rfl (.none _)) (.symbol hone)
        (.cons (.none _) (.closing _) (.nil (.none _))))))
  · rw [hcomment]
    have hx : ∀ rest, Trivia (';' :: (['x'] ++ '\n' :: rest)) rest := fun rest =>
      .comment (by decide) (.inr ⟨rest, rfl⟩) (.blank rfl (.none rest))
    exact .cons (.none _) (.opening _) (.cons (.none _) (.symbol (hf ';' _ (by decide)))
      (.cons (hx _) (.quoted (ha _)) (.cons (.none _) (.symbol hone)
        (.cons (.none _) (.closing _) (.nil (.none _))))))

end Unstack.Arena
