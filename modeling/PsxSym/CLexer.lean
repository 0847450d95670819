import PsxSym.Listing
/-!
# CLexer — C's lexer, as far as the printed declarations need it

The texts package `c` prints are read back through C's lexer: `EnumReadBack` reads an enum definition, and
`ReadBack` the declarations and definitions `Field.String`, `StructType.Def`, `UnionType.Def` and `Typedef.Def`
print.

`lex` reads a text character by character, its state the word read so far, or a comment, or the start of a `//`,
`/*` or `...`.  The longest run of letters, digits and underscores is one word: a constant when it starts with a
digit (octal after a `0`, decimal otherwise), else a keyword or an identifier.  White space ends a word and is
dropped; a `//` comment runs to the end of its line, a `/* */` comment to its `*/`, and both are dropped, as C
replaces them by a space.  `...` is one punctuator, and any other character is a punctuator of its own.  What
`lex` makes a token, C makes the same token; what C has beyond it (suffixed, hexadecimal and floating constants,
character and string literals, multi-character punctuators but `...`, line splices) it turns into tokens no
grammar here takes.

A text lexes the same wherever it stands, as long as no word runs on into what follows (`LexesTo`), and a text
that ends with no word pending lexes the same before anything (`Closed`): the lexing of what the printers write is
built piece by piece from these.
-/
namespace PsxSym
namespace C

/-! ## Tokens -/

/-- A token of C, as far as the printed declarations need them. -/
inductive CToken where
  | keyword (s : String)
  | ident (s : String)
  | const (n : Nat)
  | punct (c : Char)
  | ellipsis
  /-- A word that starts with a digit and is no constant, or a comment left open. -/
  | invalid
  deriving DecidableEq, Repr

/-- The keywords of C17. -/
def keywords : List String :=
  ["auto", "break", "case", "char", "const", "continue", "default", "do", "double", "else", "enum", "extern",
    "float", "for", "goto", "if", "inline", "int", "long", "register", "restrict", "return", "short", "signed",
    "sizeof", "static", "struct", "switch", "typedef", "union", "unsigned", "void", "volatile", "while", "_Alignas",
    "_Alignof", "_Atomic", "_Bool", "_Complex", "_Generic", "_Imaginary", "_Noreturn", "_Static_assert",
    "_Thread_local"]

def isIdentChar (c : Char) : Bool := c.isAlphanum || c == '_'

/-- The value of an octal digit. -/
def octDigitVal (c : Char) : Option Nat := if '0' ≤ c ∧ c ≤ '7' then some (c.toNat - '0'.toNat) else none

/-- The value of an integer constant with no suffix: octal after a leading `0`, decimal otherwise. -/
def constValue (w : List Char) : Option Nat :=
  if w.head? = some '0' then readDigits octDigitVal 8 0 w else readDigits decDigitVal 10 0 w

/-- The token a word is: a constant when it starts with a digit, else a keyword or an identifier. -/
def wordToken (w : List Char) : CToken :=
  if w.head?.any Char.isDigit then ((constValue w).map .const).getD .invalid
  else if String.mk w ∈ keywords then .keyword (String.mk w) else .ident (String.mk w)

/-- Ends the word `w` read so far: its token, when there is a word, before the tokens after it. -/
def flushWord (w : List Char) (ts : List CToken) : List CToken := if w = [] then ts else wordToken w :: ts

/-- An identifier of C: a word of letters, digits and underscores that starts with no digit and is no keyword. -/
def isIdent (s : String) : Bool :=
  match s.data with
  | [] => false
  | c :: cs => !c.isDigit && (c :: cs).all isIdentChar && !keywords.contains s

/-! ## The lexer -/

/-- Where the lexer stands between two characters. -/
inductive LexState where
  /-- Between tokens (`w = []`), or inside a word, its characters read so far. -/
  | word (w : List Char)
  /-- After a `/`, which may start a comment. -/
  | slash
  /-- Inside a `//` comment. -/
  | lineComment
  /-- Inside a `/* */` comment, `star` right after a `*`. -/
  | blockComment (star : Bool)
  /-- After one or two `.`, which may start a `...`. -/
  | dots (n : Nat)
  deriving DecidableEq, Repr

/-- A character between tokens: the start of a word, white space, a `/` or a `.` that may start more, or a
punctuator of its own. -/
def startToken (c : Char) : List CToken × LexState :=
  if isIdentChar c then ([], .word [c])
  else if c.isWhitespace then ([], .word [])
  else if c = '/' then ([], .slash)
  else if c = '.' then ([], .dots 1)
  else ([.punct c], .word [])

/-- One character: the tokens it completes, and where the lexer stands after it. -/
def lexStep : LexState → Char → List CToken × LexState
  | .word w, c => if isIdentChar c then ([], .word (w ++ [c])) else (flushWord w (startToken c).1, (startToken c).2)
  | .slash, c =>
    if c = '/' then ([], .lineComment)
    else if c = '*' then ([], .blockComment false)
    else (.punct '/' :: (startToken c).1, (startToken c).2)
  | .lineComment, c => if c = '\n' then ([], .word []) else ([], .lineComment)
  | .blockComment star, c => if star && c == '/' then ([], .word []) else ([], .blockComment (c == '*'))
  | .dots n, c =>
    if c = '.' then (if n = 2 then ([.ellipsis], .word []) else ([], .dots (n + 1)))
    else (List.replicate n (.punct '.') ++ (startToken c).1, (startToken c).2)

/-- The end of the text: the word read so far ends, and a comment left open is an error. -/
def lexEnd : LexState → List CToken
  | .word w => flushWord w []
  | .slash => [.punct '/']
  | .lineComment => []
  | .blockComment _ => [.invalid]
  | .dots n => List.replicate n (.punct '.')

def lexAux : LexState → List Char → List CToken
  | st, [] => lexEnd st
  | st, c :: cs => (lexStep st c).1 ++ lexAux (lexStep st c).2 cs

def lex (s : String) : List CToken := lexAux (.word []) s.data

/-! ## The lexer, step by step -/

@[simp] theorem flushWord_nil (ts : List CToken) : flushWord [] ts = ts := rfl

theorem lexAux_identChars : ∀ (u w cs : List Char), (∀ c ∈ u, isIdentChar c) →
    lexAux (.word w) (u ++ cs) = lexAux (.word (w ++ u)) cs
  | [], w, cs, _ => by rw [List.nil_append, List.append_nil]
  | c :: u, w, cs, h => by
    rw [List.cons_append, lexAux, lexStep, if_pos (h c (List.mem_cons_self _ _)), List.nil_append,
      lexAux_identChars u _ cs fun x hx => h x (List.mem_cons_of_mem _ hx), List.append_assoc, List.singleton_append]

/-- A word ends at the first character that continues none, which is then read between tokens. -/
theorem lexAux_word_end (w : List Char) {c : Char} (hc : isIdentChar c = false) (cs : List Char) :
    lexAux (.word w) (c :: cs) = flushWord w [] ++ lexAux (.word []) (c :: cs) := by
  simp only [lexAux, lexStep, hc, Bool.false_eq_true, if_false, flushWord_nil]
  by_cases hw : w = [] <;> simp [flushWord, hw]

theorem lexAux_white {c : Char} (h : isIdentChar c = false ∧ c.isWhitespace = true) (cs : List Char) :
    lexAux (.word []) (c :: cs) = lexAux (.word []) cs := by
  simp [lexAux, lexStep, startToken, h.1, h.2]

/-- A punctuator that starts no longer token. -/
def IsPunct (c : Char) : Prop := isIdentChar c = false ∧ c.isWhitespace = false ∧ c ≠ '/' ∧ c ≠ '.'

instance (c : Char) : Decidable (IsPunct c) := inferInstanceAs (Decidable (_ ∧ _))

theorem lexAux_punct {c : Char} (h : IsPunct c) (cs : List Char) :
    lexAux (.word []) (c :: cs) = .punct c :: lexAux (.word []) cs := by
  obtain ⟨h₁, h₂, h₃, h₄⟩ := h
  simp [lexAux, lexStep, startToken, h₁, h₂, h₃, h₄]

theorem lexAux_lineComment_body : ∀ (body cs : List Char), '\n' ∉ body →
    lexAux .lineComment (body ++ '\n' :: cs) = lexAux (.word []) cs
  | [], cs, _ => by simp [lexAux, lexStep]
  | c :: body, cs, h => by
    have hc : c ≠ '\n' := fun hc => h (hc ▸ List.mem_cons_self _ _)
    rw [List.cons_append, lexAux, lexStep, if_neg hc, List.nil_append,
      lexAux_lineComment_body body cs fun hm => h (List.mem_cons_of_mem _ hm)]

/-- A `//` comment, up to and with its line break, is dropped. -/
theorem lexAux_lineComment {body : List Char} (h : '\n' ∉ body) (cs : List Char) :
    lexAux (.word []) ('/' :: '/' :: (body ++ '\n' :: cs)) = lexAux (.word []) cs := by
  rw [← lexAux_lineComment_body body cs h]
  rfl

theorem lexAux_ellipsis (cs : List Char) : lexAux (.word []) ('.' :: '.' :: '.' :: cs) = .ellipsis :: lexAux (.word []) cs :=
  rfl

/-! ## Texts that lex the same wherever they stand -/

/-- The text that follows starts no word run on from before it. -/
def Sep (rest : List Char) : Prop := ∀ c ∈ rest.head?, isIdentChar c = false

/-- `s` lexes as `toks` before any text that starts with no letter, digit or underscore. -/
def LexesTo (s : List Char) (toks : List CToken) : Prop :=
  ∀ rest, Sep rest → lexAux (.word []) (s ++ rest) = toks ++ lexAux (.word []) rest

/-- `s` lexes as `toks` before any text at all: it ends with no word pending. -/
def Closed (s : List Char) (toks : List CToken) : Prop :=
  ∀ rest, lexAux (.word []) (s ++ rest) = toks ++ lexAux (.word []) rest

/-- A whole text that ends with no word pending lexes as its tokens. -/
theorem Closed.lexAux_eq {s : List Char} {toks : List CToken} (h : Closed s toks) : lexAux (.word []) s = toks := by
  simpa [lexAux, lexEnd] using h []

/-- A whole text lexes as its tokens: the end of the text ends a word. -/
theorem LexesTo.lexAux_eq {s : List Char} {toks : List CToken} (h : LexesTo s toks) : lexAux (.word []) s = toks := by
  simpa [lexAux, lexEnd] using h [] fun _ hc => by cases hc

theorem Closed.lexesTo {s : List Char} {toks : List CToken} (h : Closed s toks) : LexesTo s toks := fun rest _ => h rest

theorem sep_cons {c : Char} (h : isIdentChar c = false) (s : List Char) : c :: s ≠ [] ∧ Sep (c :: s) :=
  ⟨List.cons_ne_nil _ _, fun _ hx => Option.mem_some_iff.1 hx ▸ h⟩

theorem sep_append {s rest : List Char} (hs : s ≠ [] ∧ Sep s) : Sep (s ++ rest) := by
  obtain ⟨c, s, rfl⟩ := List.exists_cons_of_ne_nil hs.1
  exact hs.2

section Append

variable {s s' : List Char} {ts ts' : List CToken}

theorem Closed.append (h : Closed s ts) (h' : Closed s' ts') : Closed (s ++ s') (ts ++ ts') := fun rest => by
  rw [List.append_assoc, h, h', List.append_assoc]

theorem Closed.append_lexesTo (h : Closed s ts) (h' : LexesTo s' ts') : LexesTo (s ++ s') (ts ++ ts') :=
  fun rest hr => by rw [List.append_assoc, h, h' rest hr, List.append_assoc]

/-- A word is ended by a text that starts with no letter, digit or underscore. -/
theorem LexesTo.append_closed (h : LexesTo s ts) (h' : Closed s' ts') (hs : s' ≠ [] ∧ Sep s') :
    Closed (s ++ s') (ts ++ ts') := fun rest => by
  rw [List.append_assoc, h _ (sep_append hs), h', List.append_assoc]

theorem LexesTo.append (h : LexesTo s ts) (h' : LexesTo s' ts') (hs : s' ≠ [] ∧ Sep s') :
    LexesTo (s ++ s') (ts ++ ts') := fun rest hr => by
  rw [List.append_assoc, h _ (sep_append hs), h' rest hr, List.append_assoc]

end Append

theorem closed_nil : Closed [] [] := fun _ => rfl

theorem closed_white {c : Char} (h : isIdentChar c = false ∧ c.isWhitespace = true) : Closed [c] [] :=
  fun rest => lexAux_white h rest

theorem closed_punct {c : Char} (h : IsPunct c) : Closed [c] [.punct c] := fun rest => lexAux_punct h rest

theorem closed_lineComment {body : List Char} (h : '\n' ∉ body) : Closed ('/' :: '/' :: (body ++ ['\n'])) [] :=
  fun rest => by rw [List.cons_append, List.cons_append, List.append_assoc, List.singleton_append,
    lexAux_lineComment h]; rfl

theorem closed_ellipsis : Closed ['.', '.', '.'] [.ellipsis] := fun rest => lexAux_ellipsis rest

/-- A word lexes as its token. -/
theorem lexesTo_word {w : List Char} (hw : w ≠ []) (hid : ∀ c ∈ w, isIdentChar c) : LexesTo w [wordToken w] := by
  intro rest hr
  rw [lexAux_identChars w [] rest hid, List.nil_append]
  cases rest with
  | nil => simp [lexAux, lexEnd, flushWord, hw]
  | cons c cs => rw [lexAux_word_end w (hr c rfl), flushWord, if_neg hw, List.singleton_append]

/-- Blanks lex as nothing. -/
theorem closed_blanks : ∀ {s : List Char}, (∀ c ∈ s, c = ' ' ∨ c = '\t' ∨ c = '\n') → Closed s []
  | [], _ => closed_nil
  | c :: s, h => by
    have hc : isIdentChar c = false ∧ c.isWhitespace = true := by
      rcases h c (List.mem_cons_self _ _) with rfl | rfl | rfl <;> decide
    exact (closed_white hc).append (closed_blanks fun x hx => h x (List.mem_cons_of_mem _ hx))

/-! ## Words -/

theorem digitChar_ne_zero : ∀ d < 10, 0 < d → Nat.digitChar d ≠ '0' := by decide

/-- The first digit `Nat.toDigits` writes for a positive number is no `0`. -/
theorem toDigitsCore_head : ∀ f n (ds : List Char), 0 < n → n < f →
    ∃ c cs, Nat.toDigitsCore 10 f n ds = c :: cs ∧ c ≠ '0'
  | f + 1, n, ds, hn, hf => by
    rw [Nat.toDigitsCore]
    split_ifs with h₀
    · exact ⟨_, _, rfl, digitChar_ne_zero _ (Nat.mod_lt _ (by omega)) (by omega)⟩
    · exact toDigitsCore_head f _ _ (by omega) (by omega)

/-- The decimal digits `%d` prints read as the number: no number but `0` is printed with a leading `0`, which would
make C read it in octal. -/
theorem wordToken_toString (n : Nat) : wordToken (toString n).data = .const n := by
  have hr := readDigits_toString n
  rcases Nat.eq_zero_or_pos n with rfl | hn
  · rfl
  · obtain ⟨c, cs, he, hc⟩ := toDigitsCore_head (n + 1) n [] hn (Nat.lt_succ_self n)
    have he : (toString n).data = c :: cs := he
    have hd : c.isDigit := isDigit_of_mem_toString n c (by rw [he]; exact List.mem_cons_self _ _)
    rw [he] at hr ⊢
    simp [wordToken, constValue, hd, hc, hr]

theorem identChars_toString (n : Nat) : ∀ x ∈ (toString n).data, isIdentChar x := fun x hx => by
  simp [isIdentChar, Char.isAlphanum, isDigit_of_mem_toString n x hx]

/-- `%d` lexes as the constant it prints. -/
theorem lexesTo_toString (n : Nat) : LexesTo (toString n).data [.const n] := by
  rw [← wordToken_toString n]
  exact lexesTo_word (toDigitsCore_ne_nil 10 _ _ [] (.inr (Nat.succ_pos _))) (identChars_toString n)

theorem isIdent_spec {s : String} (h : isIdent s) :
    s.data ≠ [] ∧ (∀ x ∈ s.data, isIdentChar x) ∧ wordToken s.data = .ident s := by
  obtain ⟨cs⟩ := s
  cases cs with
  | nil => cases h
  | cons c cs =>
    simp only [isIdent, Bool.and_eq_true, Bool.not_eq_true', List.all_eq_true] at h
    have hk : (⟨c :: cs⟩ : String) ∉ keywords := by simpa using h.2
    exact ⟨List.cons_ne_nil _ _, h.1.2, by simp [wordToken, h.1.1, hk]⟩

/-- An identifier lexes as itself. -/
theorem lexesTo_ident {s : String} (h : isIdent s) : LexesTo s.data [.ident s] := by
  obtain ⟨hne, hid, hw⟩ := isIdent_spec h
  rw [← hw]
  exact lexesTo_word hne hid

/-- A keyword lexes as itself. -/
theorem lexesTo_keyword {s : String} (h : s.data ≠ [] ∧ (∀ x ∈ s.data, isIdentChar x) ∧ wordToken s.data = .keyword s) :
    LexesTo s.data [.keyword s] := by
  rw [← h.2.2]
  exact lexesTo_word h.1 h.2.1

end C
end PsxSym
