import Unstack.Reader

/-! # The grammar of documents

What a document is, said without the reader.  A relation has the text in front of it and what
follows the part it describes: `Trivia text rest` says that `text` is blanks and comments, and then
`rest`.

* **Trivia.**  Blanks, and comments from a semicolon to the end of the line or of the text.
* **Symbols.**  Characters that are no delimiters, at least one and as many as there are.  A symbol
  is the name of a constant, or else an integer of 64 bits, or else a decimal, or else a text
  (`Denotes`).
* **Quoted texts.**  Everything up to a quote that no backslash escapes.
* **Lists.**  A parenthesis, a symbol for the kind, items, a parenthesis, with trivia wherever two
  of them meet. -/

namespace Unstack.Grammar

/-! ### Trivia -/

/-- A text at the end of a line: nothing follows, or a new line. -/
def AtLineEnd (text : List Char) : Prop := text = [] ∨ ∃ rest, text = '\n' :: rest

/-- Blanks and comments in front of `rest`. -/
inductive Trivia : List Char → List Char → Prop
  | none (rest : List Char) : Trivia rest rest
  | blank {c : Char} {text rest : List Char} :
      Text.isBlank c = true → Trivia text rest → Trivia (c :: text) rest
  | comment {body text rest : List Char} :
      '\n' ∉ body → AtLineEnd text → Trivia text rest → Trivia (';' :: (body ++ text)) rest

theorem Trivia.trans {text text₁ rest : List Char} (h : Trivia text text₁)
    (h' : Trivia text₁ rest) : Trivia text rest := by
  induction h with
  | none => exact h'
  | blank hc _ ih => exact .blank hc (ih h')
  | comment hbody hend _ ih => exact .comment hbody hend (ih h')

/-! ### Symbols -/

/-- A character that ends a symbol. -/
def Delimiter (c : Char) : Prop :=
  Text.isBlank c = true ∨ c = '(' ∨ c = ')' ∨ c = '"' ∨ c = ';'

instance : DecidablePred Delimiter := fun _ => inferInstanceAs (Decidable (_ ∨ _))

/-- The check that a text has no delimiter. -/
theorem not_delimiter_of_all {cs : List Char} (h : cs.all (fun c => !decide (Delimiter c)) = true) :
    ∀ c ∈ cs, ¬Delimiter c := by
  simpa using h

/-- The symbol `cs` in front of `rest`, which does not go on with it. -/
structure Symbol (text cs rest : List Char) : Prop where
  split : text = cs ++ rest
  nonempty : cs ≠ []
  plain : ∀ c ∈ cs, ¬Delimiter c
  maximal : ∀ c, rest.head? = some c → Delimiter c

/-- An optional sign, and whether it is a minus. -/
inductive Sign : List Char → Bool → Prop
  | none : Sign [] false
  | plus : Sign ['+'] false
  | minus : Sign ['-'] true

/-- At least one decimal digit. -/
def Digits (ds : List Char) : Prop := ds ≠ [] ∧ ∀ c ∈ ds, c.isDigit = true

/-- The whole number that a sign and digits stand for. -/
def signed (negative : Bool) (ds : List Char) : Int :=
  if negative then -(Numeral.natOfDigits ds : Int) else Numeral.natOfDigits ds

/-- An integer of 64 bits. -/
def Integer (cs : List Char) (n : Int64) : Prop :=
  ∃ sign negative ds, Sign sign negative ∧ Digits ds ∧ cs = sign ++ ds ∧
    n.toInt = signed negative ds

/-- An optional point, and the digits after it. -/
inductive Fraction : List Char → List Char → Prop
  | none : Fraction [] []
  | point {ds : List Char} : (∀ c ∈ ds, c.isDigit = true) → Fraction ('.' :: ds) ds

/-- An optional power of ten. -/
inductive Power : List Char → Int → Prop
  | none : Power [] 0
  | mark {c : Char} {sign ds : List Char} {negative : Bool} :
      c = 'e' ∨ c = 'E' → Sign sign negative → Digits ds →
        Power (c :: (sign ++ ds)) (signed negative ds)

/-- A decimal, and the number nearest to it. -/
def DecimalNumber (cs : List Char) (x : Number) : Prop :=
  ∃ sign negative whole fraction ds power e, Sign sign negative ∧ Digits whole ∧
    Fraction fraction ds ∧ Power power e ∧ cs = sign ++ whole ++ fraction ++ power ∧
      x = .ofDecimal negative (Numeral.natOfDigits (whole ++ ds)) (e - ds.length)

/-- The names of constants. -/
inductive Constant : List Char → Leaf → Prop
  | true : Constant ['t', 'r', 'u', 'e'] (.bool true)
  | false : Constant ['f', 'a', 'l', 's', 'e'] (.bool false)
  | nil : Constant ['n', 'i', 'l'] .nil

/-- The leaf that a symbol stands for. -/
inductive Denotes (cs : List Char) : Leaf → Prop
  | constant {l : Leaf} : Constant cs l → Denotes cs l
  | integer {n : Int64} : (∀ l, ¬Constant cs l) → Integer cs n → Denotes cs (.int n)
  | decimal {x : Number} :
      (∀ l, ¬Constant cs l) → (∀ n, ¬Integer cs n) → DecimalNumber cs x → Denotes cs (.number x)
  | text :
      (∀ l, ¬Constant cs l) → (∀ n, ¬Integer cs n) → (∀ x, ¬DecimalNumber cs x) →
        Denotes cs (.text (String.ofList cs))

/-! ### Quoted texts -/

/-- What may follow a backslash, and the character it stands for. -/
inductive Escape : Char → Char → Prop
  | newline : Escape 'n' '\n'
  | tab : Escape 't' '\t'
  | quote : Escape '"' '"'
  | backslash : Escape '\\' '\\'

/-- A quoted text from behind its opening quote, what it stands for, and what follows. -/
inductive Quoted : List Char → List Char → List Char → Prop
  | close (rest : List Char) : Quoted ('"' :: rest) [] rest
  | escape {c d : Char} {text cs rest : List Char} :
      Escape c d → Quoted text cs rest → Quoted ('\\' :: c :: text) (d :: cs) rest
  | plain {c : Char} {text cs rest : List Char} :
      c ≠ '"' → c ≠ '\\' → Quoted text cs rest → Quoted (c :: text) (c :: cs) rest

/-! ### Lists -/

mutual

/-- A list in front of `rest`. -/
inductive ListText : List Char → Tree → List Char → Prop
  | mk {text text₁ text₂ text₃ rest head : List Char} {ts : List Tree} :
      Trivia text text₁ → Symbol text₁ head text₂ → Items text₂ ts text₃ →
        Trivia text₃ (')' :: rest) →
          ListText ('(' :: text) (.plain (.ofTag (String.ofList head)) ts) rest

/-- Items in front of `rest`, each after trivia. -/
inductive Items : List Char → List Tree → List Char → Prop
  | nil (rest : List Char) : Items rest [] rest
  | cons {text text₁ text₂ rest : List Char} {t : Tree} {ts : List Tree} :
      Trivia text text₁ → Item text₁ t text₂ → Items text₂ ts rest → Items text (t :: ts) rest

/-- An item in front of `rest`. -/
inductive Item : List Char → Tree → List Char → Prop
  | list {text rest : List Char} {t : Tree} : ListText text t rest → Item text t rest
  | quoted {text cs rest : List Char} :
      Quoted text cs rest → Item ('"' :: text) (.text (String.ofList cs)) rest
  | symbol {text cs rest : List Char} {l : Leaf} :
      Symbol text cs rest → Denotes cs l → Item text (.leaf l) rest

end

section induction

variable {P : List Char → Tree → List Char → Prop} {Q : List Char → List Tree → List Char → Prop}

/-- Induction over lists and their items: `P` holds of items, lists among them, and `Q` of runs of
items. -/
theorem item_induction
    (list : ∀ {text text₁ text₂ text₃ rest head ts}, Trivia text text₁ → Symbol text₁ head text₂ →
      Q text₂ ts text₃ → Trivia text₃ (')' :: rest) →
        P ('(' :: text) (.plain (.ofTag (String.ofList head)) ts) rest)
    (quoted : ∀ {text cs rest}, Quoted text cs rest →
      P ('"' :: text) (.text (String.ofList cs)) rest)
    (symbol : ∀ {text cs rest l}, Symbol text cs rest → Denotes cs l → P text (.leaf l) rest)
    (nil : ∀ rest, Q rest [] rest)
    (cons : ∀ {text text₁ text₂ rest t ts}, Trivia text text₁ → P text₁ t text₂ → Q text₂ ts rest →
      Q text (t :: ts) rest)
    : (∀ {text t rest}, Item text t rest → P text t rest) ∧
      ∀ {text ts rest}, Items text ts rest → Q text ts rest :=
  ⟨fun h => @Item.rec (fun text t rest _ => P text t rest) (fun text ts rest _ => Q text ts rest)
      (fun text t rest _ => P text t rest) (fun h h' _ h'' ih => list h h' ih h'') nil
      (fun h _ _ ih ih' => cons h ih ih') (fun _ ih => ih) (fun h => quoted h)
      (fun h h' => symbol h h') _ _ _ h,
    fun h => @Items.rec (fun text t rest _ => P text t rest) (fun text ts rest _ => Q text ts rest)
      (fun text t rest _ => P text t rest) (fun h h' _ h'' ih => list h h' ih h'') nil
      (fun h _ _ ih ih' => cons h ih ih') (fun _ ih => ih) (fun h => quoted h)
      (fun h h' => symbol h h') _ _ _ h⟩

end induction

/-- A document: one list with trivia around it. -/
def Document (text : List Char) (t : Tree) : Prop :=
  ∃ text₁ rest, Trivia text text₁ ∧ ListText text₁ t rest ∧ Trivia rest []

/-! ### Tokens -/

/-- What is left of a text when its trivia are forgotten. -/
inductive Token where
  | opening
  | closing
  | quoted (content : List Char)
  | symbol (cs : List Char)
deriving DecidableEq, Repr

/-- One token in front of `rest`. -/
inductive TokenText : List Char → Token → List Char → Prop
  | opening (rest : List Char) : TokenText ('(' :: rest) .opening rest
  | closing (rest : List Char) : TokenText (')' :: rest) .closing rest
  | quoted {text cs rest : List Char} :
      Quoted text cs rest → TokenText ('"' :: text) (.quoted cs) rest
  | symbol {text cs rest : List Char} : Symbol text cs rest → TokenText text (.symbol cs) rest

/-- A text that is made of tokens with trivia between them. -/
inductive Tokens : List Char → List Token → Prop
  | nil {text : List Char} : Trivia text [] → Tokens text []
  | cons {text text₁ rest : List Char} {tok : Token} {toks : List Token} :
      Trivia text text₁ → TokenText text₁ tok rest → Tokens rest toks → Tokens text (tok :: toks)

end Unstack.Grammar
