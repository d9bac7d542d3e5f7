import Unstack.Proofs.Reading.Symbols

/-! # The JSON of trees

One grammar covers both layouts of the JSON of a tree, and no text has two readings in it.  As in
the grammar of documents, a relation has the text in front of it and what follows the part it
describes.

* **Words.**  A run of characters of one sort goes as far as it can, and so is unique
  (`Run.unique`).  Blanks and words are such runs.  A word is `null`, or it stands for a truth value
  or a number as it does in documents.
* **Strings.**  Everything up to a quote that no backslash escapes.
* **Values.**  A node is an object of its kind and its children, in either order, with blanks
  wherever a line may end (`Value`).
* **One reading.**  The text of a value says which tree it stands for and where it ends
  (`Value.unique`). -/

namespace Unstack.Json

open Grammar

variable {c : Char} {cs cs' text rest rest' : List Char} {t : Tree} {l l' : Leaf}

/-! ### Runs of characters -/

/-- The characters of one sort in front of `rest`, as many as there are. -/
structure Run (P : Char → Prop) (text cs rest : List Char) : Prop where
  split : text = cs ++ rest
  all : ∀ c ∈ cs, P c
  maximal : ∀ c, rest.head? = some c → ¬P c

theorem Run.unique {P : Char → Prop} (h : Run P text cs rest) (h' : Run P text cs' rest') :
    cs = cs' ∧ rest = rest' := by
  obtain ⟨rfl, hall, hmax⟩ := h
  obtain ⟨hsplit, hall', hmax'⟩ := h'
  induction cs generalizing cs' with
  | nil =>
      cases cs' with
      | nil => exact ⟨rfl, hsplit⟩
      | cons c cs' =>
          rw [List.nil_append] at hsplit
          exact absurd (hall' c List.mem_cons_self) (hmax c (by rw [hsplit]; rfl))
  | cons c cs ih =>
      cases cs' with
      | nil =>
          rw [List.nil_append] at hsplit
          exact absurd (hall c List.mem_cons_self) (hmax' c (by rw [← hsplit]; rfl))
      | cons c' cs' =>
          rw [List.cons_append, List.cons_append] at hsplit
          obtain ⟨rfl, htail⟩ := List.cons.inj hsplit
          obtain ⟨rfl, hrest⟩ := ih (List.forall_mem_cons.mp hall).2 htail
            (List.forall_mem_cons.mp hall').2
          exact ⟨rfl, hrest⟩

/-- A character without meaning between two parts. -/
def Blank (c : Char) : Prop := c ∈ [' ', '\n', '\r', '\t']

instance : DecidablePred Blank := fun _ => inferInstanceAs (Decidable (_ ∈ _))

/-- A character that ends a word. -/
def Mark (c : Char) : Prop := Blank c ∨ c ∈ [',', ':', '[', ']', '\x7b', '\x7d', '"']

instance : DecidablePred Mark := fun _ => inferInstanceAs (Decidable (_ ∨ _))

/-- The check that a text has no mark. -/
theorem not_mark_of_all (h : cs.all (fun c => !decide (Mark c)) = true) : ∀ c ∈ cs, ¬Mark c := by
  simpa using h

/-- Blanks in front of `rest`. -/
def Gap (text rest : List Char) : Prop := ∃ cs, Run Blank text cs rest

theorem Gap.cons (hc : Blank c) (h : Gap text rest) : Gap (c :: text) rest := by
  obtain ⟨cs, rfl, hall, hmax⟩ := h
  exact ⟨c :: cs, rfl, List.forall_mem_cons.mpr ⟨hc, hall⟩, hmax⟩

theorem Gap.space (h : Gap text rest) : Gap (' ' :: text) rest := h.cons (by decide)

theorem Gap.unique (h : Gap text rest) (h' : Gap text rest') : rest = rest' := by
  obtain ⟨cs, h⟩ := h
  obtain ⟨cs', h'⟩ := h'
  exact (h.unique h').2

/-- No blank at all. -/
theorem gap_none (hc : ¬Blank c) : Gap (c :: rest) (c :: rest) := by
  refine ⟨[], rfl, ?_, fun d hd => ?_⟩
  · intro d hd
    cases hd
  · cases hd
    exact hc

/-! ### Words -/

/-- The leaf that a word stands for. -/
inductive Scalar : List Char → Leaf → Prop
  | null : Scalar ['n', 'u', 'l', 'l'] .nil
  | bool {cs : List Char} {b : Bool} : Denotes cs (.bool b) → Scalar cs (.bool b)
  | int {cs : List Char} {n : Int64} : Denotes cs (.int n) → Scalar cs (.int n)
  | number {cs : List Char} {x : Number} : Denotes cs (.number x) → Scalar cs (.number x)

/-- In documents the name of the missing value is a text. -/
theorem denotes_null (h : Denotes ['n', 'u', 'l', 'l'] l) : l = .text "null" := by
  rw [← denotes_iff.mp h]
  decide

theorem Scalar.unique (h : Scalar cs l) (h' : Scalar cs l') : l = l' := by
  cases h with
  | null =>
      cases h' with
      | null => rfl
      | bool h' | int h' | number h' => cases denotes_null h'
  | bool h | int h | number h =>
      cases h' with
      | null => cases denotes_null h
      | bool h' | int h' | number h' => exact h.unique h'

/-! ### Strings -/

/-- The character that a letter after a backslash stands for. -/
def escaped : Char → Option Char
  | '"' => some '"'
  | '\\' => some '\\'
  | '/' => some '/'
  | 'b' => some '\x08'
  | 'f' => some '\x0c'
  | 'n' => some '\n'
  | 'r' => some '\r'
  | 't' => some '\t'
  | _ => none

/-- The value of a hexadecimal digit, with small letters. -/
def hexDigit (c : Char) : Nat := if c.isDigit then c.toNat - 48 else c.toNat - 87

/-- The number that four hexadecimal digits write. -/
def hexCode (h₁ h₂ h₃ h₄ : Char) : Nat :=
  ((hexDigit h₁ * 16 + hexDigit h₂) * 16 + hexDigit h₃) * 16 + hexDigit h₄

/-- A string from behind its opening quote, what it stands for, and what follows. -/
inductive Chars : List Char → List Char → List Char → Prop
  | close (rest : List Char) : Chars ('"' :: rest) [] rest
  | escape {c d : Char} {text cs rest : List Char} :
      escaped c = some d → Chars text cs rest → Chars ('\\' :: c :: text) (d :: cs) rest
  | code {h₁ h₂ h₃ h₄ d : Char} {text cs rest : List Char} :
      d.toNat = hexCode h₁ h₂ h₃ h₄ → Chars text cs rest →
        Chars ('\\' :: 'u' :: h₁ :: h₂ :: h₃ :: h₄ :: text) (d :: cs) rest
  | plain {c : Char} {text cs rest : List Char} :
      c ≠ '"' → c ≠ '\\' → Chars text cs rest → Chars (c :: text) (c :: cs) rest

theorem Chars.unique (h : Chars text cs rest) (h' : Chars text cs' rest') :
    cs = cs' ∧ rest = rest' := by
  induction h generalizing cs' with
  | close =>
      cases h' with
      | close => exact ⟨rfl, rfl⟩
      | plain hquote => exact absurd rfl hquote
  | escape hc _ ih =>
      cases h' with
      | escape hc' h' =>
          obtain ⟨rfl, hrest⟩ := ih h'
          rw [hc] at hc'
          cases hc'
          exact ⟨rfl, hrest⟩
      | code => cases hc
      | plain _ hback => exact absurd rfl hback
  | code hd _ ih =>
      cases h' with
      | escape hc => cases hc
      | code hd' h' =>
          obtain ⟨rfl, hrest⟩ := ih h'
          rw [Char.toNat_inj.mp (hd.trans hd'.symm)]
          exact ⟨rfl, hrest⟩
      | plain _ hback => exact absurd rfl hback
  | plain hquote hback _ ih =>
      cases h' with
      | close => exact absurd rfl hquote
      | escape => exact absurd rfl hback
      | code => exact absurd rfl hback
      | plain _ _ h' =>
          obtain ⟨rfl, hrest⟩ := ih h'
          exact ⟨rfl, hrest⟩

/-! ### Values -/

/-- The name of the field for the kind. -/
def kindKey : List Char := ['"', 'k', 'i', 'n', 'd', '"', ':']

/-- The name of the field for the children. -/
def childrenKey : List Char := ['"', 'c', 'h', 'i', 'l', 'd', 'r', 'e', 'n', '"', ':']

/-- The field for a kind with the given tag. -/
def KindField (text tag rest : List Char) : Prop :=
  ∃ text₁ text₂, text = kindKey ++ text₁ ∧ Gap text₁ ('"' :: text₂) ∧ Chars text₂ tag rest

mutual

/-- The value of a tree in front of `rest`. -/
inductive Value : List Char → Tree → List Char → Prop
  | word {text cs rest : List Char} {l : Leaf} :
      Run (¬Mark ·) text cs rest → Scalar cs l → Value text (.leaf l) rest
  | string {text cs rest : List Char} :
      Chars text cs rest → Value ('"' :: text) (.text (String.ofList cs)) rest
  | kindFirst {text text₁ text₂ text₃ text₄ text₅ tag rest : List Char} {ts : List Tree} :
      Gap text text₁ → KindField text₁ tag (',' :: text₂) → Gap text₂ (childrenKey ++ text₃) →
        Gap text₃ ('[' :: text₄) → Elements text₄ ts text₅ → Gap text₅ ('\x7d' :: rest) →
          Value ('\x7b' :: text) (.plain (.ofTag (String.ofList tag)) ts) rest
  | childrenFirst {text text₁ text₂ text₃ text₄ text₅ tag rest : List Char} {ts : List Tree} :
      Gap text (childrenKey ++ text₁) → Gap text₁ ('[' :: text₂) →
        Elements text₂ ts (',' :: text₃) → Gap text₃ text₄ → KindField text₄ tag text₅ →
          Gap text₅ ('\x7d' :: rest) →
            Value ('\x7b' :: text) (.plain (.ofTag (String.ofList tag)) ts) rest

/-- The elements of a list from behind its opening bracket to behind its closing one. -/
inductive Elements : List Char → List Tree → List Char → Prop
  | none {text rest : List Char} : Gap text (']' :: rest) → Elements text [] rest
  | some {text text₁ text₂ rest : List Char} {t : Tree} {ts : List Tree} :
      Gap text text₁ → Value text₁ t text₂ → More text₂ ts rest → Elements text (t :: ts) rest

/-- What follows an element of a list: the closing bracket, or a comma and another element. -/
inductive More : List Char → List Tree → List Char → Prop
  | close {text rest : List Char} : Gap text (']' :: rest) → More text [] rest
  | next {text text₁ rest : List Char} {t : Tree} {ts : List Tree} :
      Gap text (',' :: text₁) → Elements text₁ (t :: ts) rest → More text (t :: ts) rest

end

section induction

variable {P : List Char → Tree → List Char → Prop} {Q R : List Char → List Tree → List Char → Prop}

/-- Values, elements and what follows them, by induction on all three at once. -/
theorem value_induction
    (word : ∀ {text cs rest l}, Run (¬Mark ·) text cs rest → Scalar cs l → P text (.leaf l) rest)
    (string : ∀ {text cs rest}, Chars text cs rest →
      P ('"' :: text) (.text (String.ofList cs)) rest)
    (kindFirst : ∀ {text text₁ text₂ text₃ text₄ text₅ tag rest ts}, Gap text text₁ →
      KindField text₁ tag (',' :: text₂) → Gap text₂ (childrenKey ++ text₃) →
        Gap text₃ ('[' :: text₄) → Q text₄ ts text₅ → Gap text₅ ('\x7d' :: rest) →
          P ('\x7b' :: text) (.plain (.ofTag (String.ofList tag)) ts) rest)
    (childrenFirst : ∀ {text text₁ text₂ text₃ text₄ text₅ tag rest ts},
      Gap text (childrenKey ++ text₁) → Gap text₁ ('[' :: text₂) → Q text₂ ts (',' :: text₃) →
        Gap text₃ text₄ → KindField text₄ tag text₅ → Gap text₅ ('\x7d' :: rest) →
          P ('\x7b' :: text) (.plain (.ofTag (String.ofList tag)) ts) rest)
    (none : ∀ {text rest}, Gap text (']' :: rest) → Q text [] rest)
    (some : ∀ {text text₁ text₂ rest t ts}, Gap text text₁ → Value text₁ t text₂ →
      P text₁ t text₂ → R text₂ ts rest → Q text (t :: ts) rest)
    (close : ∀ {text rest}, Gap text (']' :: rest) → R text [] rest)
    (next : ∀ {text text₁ rest t ts}, Gap text (',' :: text₁) → Q text₁ (t :: ts) rest →
      R text (t :: ts) rest)
    (h : Value text t rest) : P text t rest :=
  @Value.rec (fun text t rest _ => P text t rest) (fun text ts rest _ => Q text ts rest)
    (fun text ts rest _ => R text ts rest) (fun h h' => word h h') (fun h => string h)
    (fun h₁ h₂ h₃ h₄ _ h₅ ih => kindFirst h₁ h₂ h₃ h₄ ih h₅)
    (fun h₁ h₂ _ h₃ h₄ h₅ ih => childrenFirst h₁ h₂ ih h₃ h₄ h₅) (fun h => none h)
    (fun h h' _ ih ih' => some h h' ih ih') (fun h => close h) (fun h _ ih => next h ih) _ _ _ h

end induction

/-! ### One reading -/

theorem Scalar.ne_nil (h : Scalar cs l) : cs ≠ [] := by
  rintro rfl
  cases h with
  | bool h | int h | number h => cases denotes_iff.mp h

/-- A word starts with no mark. -/
theorem Run.exists_head (h : Run (¬Mark ·) text cs rest) (hl : Scalar cs l) :
    ∃ c tail, text = c :: tail ∧ ¬Mark c := by
  obtain ⟨rfl, hall, -⟩ := h
  cases cs with
  | nil => exact absurd rfl hl.ne_nil
  | cons c cs => exact ⟨c, cs ++ rest, rfl, hall c List.mem_cons_self⟩

/-- What a mark starts is no word. -/
theorem not_word_of_mark (hc : Mark c) (h : Run (¬Mark ·) (c :: text) cs rest)
    (hl : Scalar cs l) : False := by
  obtain ⟨d, tail, he, hd⟩ := h.exists_head hl
  cases he
  exact hd hc

/-- A value starts with no blank and no closing bracket. -/
theorem Value.exists_head (h : Value text t rest) :
    ∃ c tail, text = c :: tail ∧ ¬Blank c ∧ c ≠ ']' := by
  cases h with
  | word hrun hl =>
      obtain ⟨c, tail, rfl, hc⟩ := hrun.exists_head hl
      refine ⟨c, tail, rfl, fun hblank => hc (.inl hblank), ?_⟩
      rintro rfl
      exact hc (by decide)
  | string => exact ⟨_, _, rfl, by decide, by decide⟩
  | kindFirst => exact ⟨_, _, rfl, by decide, by decide⟩
  | childrenFirst => exact ⟨_, _, rfl, by decide, by decide⟩

theorem not_value_bracket : ¬Value (']' :: text) t rest := by
  intro h
  obtain ⟨c, tail, he, -, hc⟩ := h.exists_head
  cases he
  exact hc rfl

theorem KindField.unique {tag tag' : List Char} (h : KindField text tag rest)
    (h' : KindField text tag' rest') : tag = tag' ∧ rest = rest' := by
  obtain ⟨text₁, text₂, rfl, hgap, hchars⟩ := h
  obtain ⟨text₁', text₂', hsplit, hgap', hchars'⟩ := h'
  cases List.append_cancel_left hsplit
  cases hgap.unique hgap'
  exact hchars.unique hchars'

/-- The two fields have different names. -/
theorem not_kindField_childrenKey {tag : List Char} :
    ¬KindField (childrenKey ++ text) tag rest := by
  rintro ⟨text₁, text₂, hsplit, -⟩
  cases hsplit

/-- **One reading.**  The text of a value says which tree it stands for and where it ends. -/
theorem Value.unique {t' : Tree} (h : Value text t rest) (h' : Value text t' rest') :
    t = t' ∧ rest = rest' := by
  -- By induction on the first reading: each part is unique, so the second one has no choice.
  refine value_induction
    (P := fun text t rest => ∀ t' rest', Value text t' rest' → t = t' ∧ rest = rest')
    (Q := fun text ts rest => ∀ ts' rest', Elements text ts' rest' → ts = ts' ∧ rest = rest')
    (R := fun text ts rest => ∀ ts' rest', More text ts' rest' → ts = ts' ∧ rest = rest')
    ?word ?string ?kindFirst ?childrenFirst ?none ?some ?close ?next h t' rest' h'
  case word =>
    intro text cs rest l hrun hl t' rest' h'
    cases h' with
    | word hrun' hl' =>
        obtain ⟨rfl, rfl⟩ := hrun.unique hrun'
        rw [hl.unique hl']
        exact ⟨rfl, rfl⟩
    | string | kindFirst | childrenFirst => exact (not_word_of_mark (by decide) hrun hl).elim
  case string =>
    intro text cs rest hchars t' rest' h'
    cases h' with
    | word hrun hl => exact (not_word_of_mark (by decide) hrun hl).elim
    | string hchars' =>
        obtain ⟨rfl, rfl⟩ := hchars.unique hchars'
        exact ⟨rfl, rfl⟩
  case kindFirst =>
    intro text text₁ text₂ text₃ text₄ text₅ tag rest ts h₁ hkind h₂ h₃ ih h₄ t' rest' h'
    cases h' with
    | word hrun hl => exact (not_word_of_mark (by decide) hrun hl).elim
    | kindFirst h₁' hkind' h₂' h₃' helements h₄' =>
        cases h₁.unique h₁'
        obtain ⟨rfl, he⟩ := hkind.unique hkind'
        cases he
        cases List.append_cancel_left (h₂.unique h₂')
        cases h₃.unique h₃'
        obtain ⟨rfl, rfl⟩ := ih _ _ helements
        cases h₄.unique h₄'
        exact ⟨rfl, rfl⟩
    | childrenFirst h₁' =>
        cases h₁.unique h₁'
        exact absurd hkind not_kindField_childrenKey
  case childrenFirst =>
    intro text text₁ text₂ text₃ text₄ text₅ tag rest ts h₁ h₂ ih h₃ hkind h₄ t' rest' h'
    cases h' with
    | word hrun hl => exact (not_word_of_mark (by decide) hrun hl).elim
    | kindFirst h₁' hkind' =>
        cases h₁'.unique h₁
        exact absurd hkind' not_kindField_childrenKey
    | childrenFirst h₁' h₂' helements h₃' hkind' h₄' =>
        cases List.append_cancel_left (h₁.unique h₁')
        cases h₂.unique h₂'
        obtain ⟨rfl, he⟩ := ih _ _ helements
        cases he
        cases h₃.unique h₃'
        obtain ⟨rfl, rfl⟩ := hkind.unique hkind'
        cases h₄.unique h₄'
        exact ⟨rfl, rfl⟩
  case none =>
    intro text rest hgap ts' rest' h'
    cases h' with
    | none hgap' =>
        cases hgap.unique hgap'
        exact ⟨rfl, rfl⟩
    | some hgap' hvalue =>
        cases hgap.unique hgap'
        exact absurd hvalue not_value_bracket
  case some =>
    intro text text₁ text₂ rest t ts hgap hvalue ih ih' ts' rest' h'
    cases h' with
    | none hgap' =>
        cases hgap.unique hgap'
        exact absurd hvalue not_value_bracket
    | some hgap' hvalue' hmore =>
        cases hgap.unique hgap'
        obtain ⟨rfl, rfl⟩ := ih _ _ hvalue'
        obtain ⟨rfl, hrest⟩ := ih' _ _ hmore
        exact ⟨rfl, hrest⟩
  case close =>
    intro text rest hgap ts' rest' h'
    cases h' with
    | close hgap' =>
        cases hgap.unique hgap'
        exact ⟨rfl, rfl⟩
    | next hgap' => cases hgap.unique hgap'
  case next =>
    intro text text₁ rest t ts hgap ih ts' rest' h'
    cases h' with
    | close hgap' => cases hgap.unique hgap'
    | next hgap' helements =>
        cases hgap.unique hgap'
        exact ih _ _ helements

end Unstack.Json
