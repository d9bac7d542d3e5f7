import Unstack.Proofs.Reading.Machine

/-! # Where reading stops

The reader stops at the first character with which no document goes on.

* **States and texts.**  `Reached text s` says that the machine is in the state `s` after `text`.
  Then the documents that start with `text` are those that are read on from `s` (`reads_iff`).
* **Every state can be completed.**  Whatever is open can be closed (`exists_reads`), so every text
  that leads to a state is the front of a document.
* **Errors.**  Reading stops at a character for which there is no step, or at the end of the text
  (`exists_stop`).  A bad escape has been read past, everything else has not (`step_eq_error`). -/

namespace Unstack.Reader

open Grammar

variable {s s' : State} {c d : Char} {cs text rest rev : List Char} {t : Tree} {f : Frame}
  {fs : List Frame} {r : ReadReason} {e : ReadError}

/-! ### States and texts -/

/-- The machine is in a state after a text. -/
inductive Reached : List Char → State → Prop
  | start : Reached [] (.start false)
  | step {text : List Char} {c : Char} {s s' : State} :
      Reached text s → step s c = .ok s' → Reached (text ++ [c]) s'

/-- A document that starts with a text is read on from the state after it. -/
theorem Reached.reads_iff (h : Reached text s) :
    Reads (.start false) (text ++ rest) t ↔ Reads s rest t := by
  induction h generalizing rest with
  | start => exact Iff.rfl
  | step _ hstep ih => rw [List.append_assoc, List.singleton_append, ih, reads_step hstep]

/-! ### Every state can be completed -/

/-- All open lists can be closed. -/
theorem exists_reads_items (f : Frame) (fs : List Frame) :
    ∃ more t, Reads (.items false f fs) more t := by
  induction fs generalizing f with
  | nil => exact ⟨[')'], f.close, (reads_step rfl).mpr (reads_nil.mpr rfl)⟩
  | cons g gs ih =>
      obtain ⟨more, t, h⟩ := ih (g.add f.close)
      exact ⟨')' :: more, t, (reads_step rfl).mpr h⟩

/-- A list can be given a kind and be closed. -/
theorem exists_reads_opened (outer : List Frame) :
    ∃ more t, Reads (.opened false outer) more t := by
  obtain ⟨more, t, h⟩ := exists_reads_items ⟨.ofTag "x", []⟩ outer
  refine ⟨'x' :: ' ' :: more, t, (reads_step rfl).mpr ((reads_step rfl).mpr ?_)⟩
  exact h

theorem exists_reads_start : ∃ more t, Reads (.start false) more t := by
  obtain ⟨more, t, h⟩ := exists_reads_opened []
  exact ⟨'(' :: more, t, (reads_step rfl).mpr h⟩

/-- A comment can be ended. -/
theorem Resting.exists_reads {s : Bool → State} (h : Resting s)
    (hs : ∃ more t, Reads (s false) more t) (b : Bool) : ∃ more t, Reads (s b) more t := by
  obtain ⟨more, t, hmore⟩ := hs
  cases b with
  | false => exact ⟨more, t, hmore⟩
  | true => exact ⟨'\n' :: more, t, (reads_step (h.skip '\n')).mpr hmore⟩

/-- A symbol can be ended. -/
theorem Spelling.exists_reads {s next : List Char → State} (h : Spelling s next) (rev : List Char)
    (hnext : ∃ t, Reads (next rev.reverse) (' ' :: text) t) : ∃ more t, Reads (s rev) more t := by
  obtain ⟨t, ht⟩ := hnext
  obtain ⟨s', hs, hnext⟩ := h.ends rev ' ' (.inl Text.isBlank_space)
  exact ⟨' ' :: text, t, (reads_step hs).mpr ((reads_step hnext).mp ht)⟩

/-- **Every state can be completed.** -/
theorem exists_reads (s : State) : ∃ more t, Reads s more t := by
  cases s with
  | start b => exact resting_start.exists_reads exists_reads_start b
  | opened b outer => exact (resting_opened outer).exists_reads (exists_reads_opened outer) b
  | items b f fs => exact (resting_items f fs).exists_reads (exists_reads_items f fs) b
  | done b u => exact (resting_done u).exists_reads ⟨[], u, reads_nil.mpr rfl⟩ b
  | kind rev outer =>
      obtain ⟨more, t, h⟩ := exists_reads_items ⟨.ofTag (String.ofList rev.reverse), []⟩ outer
      exact (spelling_kind outer).exists_reads rev ⟨t, (reads_step rfl).mpr h⟩
  | symbol rev f fs =>
      obtain ⟨more, t, h⟩ := exists_reads_items (f.add (.leaf (.ofSymbol rev.reverse))) fs
      exact (spelling_symbol f fs).exists_reads rev ⟨t, (reads_step rfl).mpr h⟩
  | text rev f fs =>
      obtain ⟨more, t, h⟩ := exists_reads_items (f.add (.text (String.ofList rev.reverse))) fs
      exact ⟨'"' :: more, t, (reads_step rfl).mpr h⟩
  | escape rev f fs =>
      obtain ⟨more, t, h⟩ := exists_reads_items
        (f.add (.text (String.ofList ('\n' :: rev).reverse))) fs
      exact ⟨'n' :: '"' :: more, t, (reads_step rfl).mpr ((reads_step rfl).mpr h)⟩

/-! ### Quoted texts -/

theorem quote_mem_of_quoted (h : Quoted text cs rest) : '"' ∈ text := by
  induction h with
  | close => exact List.mem_cons_self
  | escape _ _ ih => exact List.mem_cons_of_mem _ (List.mem_cons_of_mem _ ih)
  | plain _ _ _ ih => exact List.mem_cons_of_mem _ ih

/-- A text in the middle of which the end comes lacks its closing quote. -/
theorem quote_mem_of_reads (hs : finish s = .error .badText) (h : Reads s text t) : '"' ∈ text := by
  have howes := owes_of_reads h
  cases s with
  | text rev f fs =>
      obtain ⟨cs, rest, hquoted, -⟩ := howes
      exact quote_mem_of_quoted hquoted
  | escape rev f fs =>
      obtain ⟨c, d, text₁, cs, rest, rfl, -, hquoted, -⟩ := howes
      exact List.mem_cons_of_mem _ (quote_mem_of_quoted hquoted)
  | _ => cases hs

theorem stepItems_ne_escape {g : Frame} {gs : List Frame} :
    stepItems f fs c ≠ .escape rev g gs := by
  intro h
  unfold stepItems at h
  split_ifs at h
  rw [closeList_eq_after] at h
  cases fs <;> cases h

/-- Escapes start with a backslash. -/
theorem eq_backslash_of_step (h : step s c = .ok (.escape rev f fs)) : c = '\\' := by
  cases s with
  | text =>
      rw [step] at h
      split_ifs at h with hquote hback
      · cases h
      · exact hback
      · cases h
  | start b | opened b outer | done b u =>
      cases b with
      | true => cases h
      | false =>
          rw [step] at h
          split_ifs at h <;> cases h
  | kind | symbol =>
      rw [step] at h
      split_ifs at h
      · exact absurd (Except.ok.inj h) stepItems_ne_escape
      · cases h
  | items b g gs =>
      cases b with
      | true => cases h
      | false => exact absurd (Except.ok.inj h) stepItems_ne_escape
  | escape =>
      rw [step] at h
      split at h <;> cases h

theorem Reached.exists_backslash (h : Reached text (.escape rev f fs)) :
    ∃ front, text = front ++ ['\\'] := by
  cases h with
  | step _ hstep => exact ⟨_, by rw [eq_backslash_of_step hstep]⟩

/-! ### Errors -/

/-- A character is fatal for the reason of a bad escape exactly in an escape that it cannot end. -/
theorem step_eq_error (h : step s c = .error r) :
    (r = .badText ∧ unescape c = none ∧ ∃ rev f fs, s = .escape rev f fs) ∨ r ≠ .badText := by
  cases s with
  | escape rev f fs =>
      rw [step] at h
      split at h <;> cases h
      exact .inl ⟨rfl, ‹_›, rev, f, fs, rfl⟩
  | items b f fs => cases b <;> cases h
  | start b | opened b outer | done b u =>
      right
      rintro rfl
      cases b with
      | true => cases h
      | false =>
          rw [step] at h
          split_ifs at h
          cases h
  | kind | symbol | text =>
      rw [step] at h
      split_ifs at h

/-- Only a bad escape is read past. -/
theorem errorOffset_of_ne (hr : r ≠ .badText) (n : Nat) (c : Char) : errorOffset r n c = n := by
  cases r with
  | badText => exact absurd rfl hr
  | _ => rfl

/-- How many bytes some characters take. -/
def byteCount (cs : List Char) : Nat := (String.ofList cs).utf8ByteSize

theorem byteCount_concat (cs : List Char) (c : Char) :
    byteCount (cs ++ [c]) = byteCount cs + c.utf8Size := by
  rw [byteCount, String.ofList_append, String.utf8ByteSize_append, ← String.singleton_eq_ofList,
    String.utf8ByteSize_singleton, byteCount]

/-- **Where a run stops**: at the end of the text, or at a character for which there is no step. -/
theorem exists_stop (hs : Reached text s) (h : run s (byteCount text) rest = .error e) :
    (∃ s' r, Reached (text ++ rest) s' ∧ finish s' = .error r ∧
      e = ⟨byteCount (text ++ rest), r⟩) ∨
    ∃ front c back s' r, text ++ rest = front ++ c :: back ∧ Reached front s' ∧
      step s' c = .error r ∧ e = ⟨errorOffset r (byteCount front) c, r⟩ := by
  induction rest generalizing text s with
  | nil =>
      rw [run] at h
      cases hfinish : finish s with
      | ok t =>
          rw [hfinish] at h
          cases h
      | error r =>
          rw [hfinish] at h
          cases h
          rw [List.append_nil]
          exact .inl ⟨s, r, hs, hfinish, rfl⟩
  | cons c rest ih =>
      rw [run] at h
      cases hstep : step s c with
      | error r =>
          rw [hstep] at h
          cases h
          exact .inr ⟨text, c, rest, s, r, rfl, hs, hstep, rfl⟩
      | ok s' =>
          rw [hstep] at h
          have hnext := ih (.step hs hstep) (by rwa [byteCount_concat])
          rwa [List.append_assoc, List.singleton_append] at hnext

end Unstack.Reader

namespace Unstack.Arena

open Grammar Reader

/-- A document can start with the text. -/
def Completable (text : String) : Prop := ∃ more a, read (text ++ more) = .ok a

variable {text : List Char} {s : State} {c : Char}

theorem completable_iff : Completable (String.ofList text) ↔
    ∃ more t, Reads (.start false) (text ++ more) t := by
  constructor
  · rintro ⟨more, a, h⟩
    obtain ⟨t, ht, -⟩ := read_eq_ok_iff.mp h
    rw [String.toList_append, String.toList_ofList] at ht
    exact ⟨more.toList, t, ht⟩
  · rintro ⟨more, t, ht⟩
    refine ⟨String.ofList more, _, read_eq_ok_iff.mpr ⟨t, ?_, rfl⟩⟩
    rwa [← String.ofList_append, String.toList_ofList]

/-- A text that leads to a state can be completed. -/
theorem completable_of_reached (h : Reached text s) : Completable (String.ofList text) := by
  obtain ⟨more, t, hmore⟩ := exists_reads s
  exact completable_iff.mpr ⟨more, t, h.reads_iff.mpr hmore⟩

theorem push_ofList (text : List Char) (c : Char) :
    (String.ofList text).push c = String.ofList (text ++ [c]) := by
  rw [← String.toList_inj, String.toList_push, String.toList_ofList, String.toList_ofList]

/-- One more character can follow exactly if there is a step. -/
theorem completable_push_iff (h : Reached text s) :
    Completable ((String.ofList text).push c) ↔ ∃ s', step s c = .ok s' := by
  rw [push_ofList]
  constructor
  · intro hc
    obtain ⟨more, t, ht⟩ := completable_iff.mp hc
    rw [List.append_assoc, List.singleton_append, h.reads_iff] at ht
    cases hstep : step s c with
    | ok s' => exact ⟨s', rfl⟩
    | error r => exact absurd ht (not_reads_of_error hstep)
  · rintro ⟨s', hstep⟩
    exact completable_of_reached (.step h hstep)

theorem read_eq_error_iff {src : String} {e : ReadError} :
    read src = .error e ↔ run (.start false) 0 src.toList = .error e := by
  unfold read Reader.read
  cases run (.start false) 0 src.toList <;> simp [Except.map]

theorem message_eq_iff {r : ReadReason} : r.message = "invalid string literal" ↔ r = .badText := by
  cases r <;> decide

/-- The text ends inside a quoted text: no document goes on from it without a quote. -/
def AwaitsQuote (text : String) : Prop := ∀ more a, read (text ++ more) = .ok a → '"' ∈ more.toList

/-- The text ends with the backslash of an escape: only a character that makes an escape may
follow. -/
structure AwaitsEscape (text : String) : Prop where
  backslash : ∃ stem : String, text = stem.push '\\'
  completable_push_iff : ∀ c, Completable (text.push c) ↔ ∃ d, Escape c d

theorem awaitsQuote_of_reached (h : Reached text s) (hs : finish s = .error .badText) :
    AwaitsQuote (String.ofList text) := by
  intro more a hread
  obtain ⟨t, ht, -⟩ := read_eq_ok_iff.mp hread
  rw [String.toList_append, String.toList_ofList, h.reads_iff] at ht
  exact quote_mem_of_reads hs ht

theorem awaitsEscape_of_reached {rev : List Char} {f : Frame} {fs : List Frame}
    (h : Reached text (.escape rev f fs)) : AwaitsEscape (String.ofList text) where
  backslash := by
    obtain ⟨front, rfl⟩ := h.exists_backslash
    exact ⟨String.ofList front, (push_ofList front _).symm⟩
  completable_push_iff c := by
    rw [Arena.completable_push_iff h]
    simp only [← unescape_eq_some_iff, step]
    cases unescape c <;> simp

/-- An error cuts a text in two. -/
theorem exists_cut_of_read_error {src : String} {e : ReadError} (h : read src = .error e) :
    ∃ before rest : String, src = before ++ rest ∧ before.utf8ByteSize = e.offset ∧
      (e.reason ≠ .badText → Completable before ∧
        ∀ c, rest.toList.head? = some c → ¬Completable (before.push c)) ∧
      (e.reason = .badText →
        (e.offset = src.utf8ByteSize ∧ Completable src ∧ AwaitsQuote src) ∨
        ∃ front c, before = front.push c ∧ AwaitsEscape front ∧ (∀ d, ¬Escape c d) ∧
          Completable front ∧ ¬Completable before) := by
  rcases exists_stop .start (read_eq_error_iff.mp h) with
    ⟨s, r, hs, hfinish, rfl⟩ | ⟨front, c, back, s, r, hsplit, hs, hstep, rfl⟩
  · -- the end of the text
    have hsrc : String.ofList ([] ++ src.toList) = src := String.ofList_toList
    have hcomplete := completable_of_reached hs
    rw [hsrc] at hcomplete
    refine ⟨src, "", by simp, ?_, fun _ => ⟨hcomplete, nofun⟩, fun hr => .inl ⟨?_, hcomplete, ?_⟩⟩
    · rw [byteCount, hsrc]
    · rw [byteCount, hsrc]
    · rw [← hsrc]
      exact awaitsQuote_of_reached hs (by rw [hfinish, ← hr])
  · rw [List.nil_append] at hsplit
    have hcut : ∀ xs ys, front ++ c :: back = xs ++ ys →
        src = String.ofList xs ++ String.ofList ys := by
      intro xs ys he
      rw [← String.ofList_append, ← he, ← hsplit, String.ofList_toList]
    rcases step_eq_error hstep with ⟨rfl, hbad, rev, f, fs, rfl⟩ | hr
    · -- a bad escape, which has been read past
      have hescape := awaitsEscape_of_reached hs
      have hnone : ∀ d, ¬Escape c d := by
        intro d hd
        rw [unescape_eq_some_iff.mpr hd] at hbad
        cases hbad
      refine ⟨String.ofList (front ++ [c]), String.ofList back, hcut _ _ (by simp), ?_,
        fun hr => absurd rfl hr, fun _ => .inr ⟨String.ofList front, c, (push_ofList front c).symm,
          hescape, hnone, completable_of_reached hs, ?_⟩⟩
      · exact byteCount_concat front c
      · rw [← push_ofList, hescape.completable_push_iff]
        rintro ⟨d, hd⟩
        exact hnone d hd
    · -- any other character, which has not
      refine ⟨String.ofList front, String.ofList (c :: back), hcut _ _ rfl, ?_,
        fun _ => ⟨completable_of_reached hs, fun d hd => ?_⟩, fun he => absurd he hr⟩
      · exact (errorOffset_of_ne hr _ _).symm
      · rw [String.toList_ofList] at hd
        cases hd
        rw [completable_push_iff hs, hstep]
        exact nofun

/-- **Errors point at the first fatal place.**  If a text is not read, the offset of the error lies
between two of its characters.  Unless the error is about a quoted text, some document starts with
what is in front of the offset, and none with that and the character behind it.  If it is about a
quoted text, the text ends inside one and can be completed, or the character in front of the offset
follows the backslash of an escape and makes none: then some document starts with what is in front
of that character, and none with the character as well. -/
theorem read_stops_at_first_fatal_place {src : String} {e : ReadError} (h : read src = .error e) :
    e.offset ≤ src.utf8ByteSize ∧ String.Pos.Raw.IsValid src ⟨e.offset⟩ ∧
    ∃ before rest : String, src = before ++ rest ∧ before.utf8ByteSize = e.offset ∧
      (e.reason.message ≠ "invalid string literal" → Completable before ∧
        ∀ c, rest.toList.head? = some c → ¬Completable (before.push c)) ∧
      (e.reason.message = "invalid string literal" →
        (e.offset = src.utf8ByteSize ∧ Completable src ∧ AwaitsQuote src) ∨
        ∃ front c, before = front.push c ∧ AwaitsEscape front ∧ (∀ d, ¬Escape c d) ∧
          Completable front ∧ ¬Completable before) := by
  obtain ⟨before, rest, hsrc, hoffset, hstop⟩ := exists_cut_of_read_error h
  refine ⟨?_, ?_, before, rest, hsrc, hoffset, ?_⟩
  · rw [hsrc, String.utf8ByteSize_append, hoffset]
    exact Nat.le_add_right _ _
  · rw [String.Pos.Raw.isValid_iff_exists_append]
    exact ⟨before, rest, hsrc, by rw [← hoffset]; rfl⟩
  · simpa only [ne_eq, message_eq_iff] using hstop

/-- A bad escape behind characters of several bytes, and a list without a kind. -/
theorem read_stops_at_first_fatal_place_escape :
    (read "(é \"ö\\q\")" = .error ⟨9, .badText⟩ ∧
      ∃ before rest front c, "(é \"ö\\q\")" = before ++ rest ∧ before.utf8ByteSize = 9 ∧
        before = front.push c ∧ Completable front ∧ ¬Completable before) ∧
    read "(a ())" = .error ⟨4, .noKind⟩ ∧
      ∃ before rest, "(a ())" = before ++ rest ∧ before.utf8ByteSize = 4 ∧ Completable before ∧
        ∀ c, rest.toList.head? = some c → ¬Completable (before.push c) := by
  have hescape : read "(é \"ö\\q\")" = .error ⟨9, .badText⟩ := by decide +kernel
  have hkind : read "(a ())" = .error ⟨4, .noKind⟩ := by decide +kernel
  obtain ⟨-, -, before, rest, hsrc, hoffset, -, hbad⟩ := read_stops_at_first_fatal_place hescape
  obtain ⟨-, -, before', rest', hsrc', hoffset', hother, -⟩ := read_stops_at_first_fatal_place hkind
  refine ⟨⟨hescape, ?_⟩, hkind, before', rest', hsrc', hoffset', hother (by decide)⟩
  rcases hbad rfl with ⟨hend, -⟩ | ⟨front, c, hpush, -, -, hfront, hnone⟩
  · exact absurd hend (by decide +kernel)
  · exact ⟨before, rest, front, c, hsrc, hoffset, hpush, hfront, hnone⟩

end Unstack.Arena
