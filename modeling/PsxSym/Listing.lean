import PsxSym.CType
import PsxSym.Symbol
/-!
# Listing — the numbers the listings print read back

`Overlay.String` prints an overlay's length with `%08x` and its ID with `%x`.  Before each field line,
`StructType.Def`, `UnionType.Def` and `fakeUnionString` print a comment with the field's offset in `%04X` and, when
it has one, its size in `%d`.  Each of these numbers reads back as the number printed.  `%08x` never cuts a
`uint32` short, and the zeros that pad it and `%04X` read as nothing (`readOverlayString_string`,
`readOffsetComment_offsetComment`).  `Dimensions.String` lists a group's lengths
before its `0` in decimal, or `0` when there are none, and the list reads back (`readDimensionsString_string`).

Go's `fmt` writes the digits of `strconv.FormatUint`, the digits `Nat.toDigits` gives, in the case the verb asks
for.  The reading is one fold over the digits, `readDigits`, and one lemma about it, `readDigits_toDigitsCore`.
-/
namespace PsxSym

/-! ## Digits -/

/-- The value of a digit in base 16, of either case. -/
def hexVal (c : Char) : Option Nat :=
  if c.isDigit then some (digitVal c)
  else if 'a' ≤ c ∧ c ≤ 'f' then some (c.toNat - 'a'.toNat + 10)
  else if 'A' ≤ c ∧ c ≤ 'F' then some (c.toNat - 'A'.toNat + 10)
  else none

/-- The value of a decimal digit. -/
def decDigitVal (c : Char) : Option Nat := if c.isDigit then some (digitVal c) else none

/-- The value of a run of digits in base `b`, each valued by `val`, read after the value `acc`; none at a character
that is no digit. -/
def readDigits (val : Char → Option Nat) (b acc : Nat) : List Char → Option Nat
  | [] => some acc
  | c :: cs => (val c).bind fun d => readDigits val b (acc * b + d) cs

theorem hexVal_digitChar : ∀ d < 16, hexVal (Nat.digitChar d) = some d := by decide

theorem hexVal_toUpper_digitChar : ∀ d < 16, hexVal (Nat.digitChar d).toUpper = some d := by decide

theorem decDigitVal_digitChar : ∀ d < 10, decDigitVal (Nat.digitChar d) = some d := by decide

section Digits

variable {val : Char → Option Nat} {b : Nat}

/-- **Reading the digits `Nat.toDigits` writes.**  Whatever the case the digits are written in, reading the digits
of `n` in front of `ds` is reading `ds` after the value `n`. -/
theorem readDigits_toDigitsCore (hb : 1 < b) (φ : Char → Char) (hφ : ∀ d < b, val (φ (Nat.digitChar d)) = some d) :
    ∀ f n ds, n < f → readDigits val b 0 ((Nat.toDigitsCore b f n ds).map φ) = readDigits val b n (ds.map φ)
  | f + 1, n, ds, h => by
    have hd := hφ (n % b) (Nat.mod_lt _ (by omega))
    rw [Nat.toDigitsCore]
    split_ifs with h₀
    · simp only [List.map_cons, readDigits, hd, Option.some_bind, zero_mul, zero_add]
      rw [Nat.mod_eq_of_lt ((Nat.div_eq_zero_iff (by omega)).1 h₀)]
    · have hn : 0 < n := Nat.pos_of_ne_zero fun h => h₀ (by simp [h])
      rw [readDigits_toDigitsCore hb φ hφ f (n / b) _ (by have := Nat.div_lt_self hn hb; omega)]
      simp only [List.map_cons, readDigits, hd, Option.some_bind, Nat.div_add_mod']

theorem readDigits_toDigits (hb : 1 < b) (φ : Char → Char) (hφ : ∀ d < b, val (φ (Nat.digitChar d)) = some d)
    (n : Nat) : readDigits val b 0 ((Nat.toDigits b n).map φ) = some n :=
  readDigits_toDigitsCore hb φ hφ (n + 1) n [] (Nat.lt_succ_self n)

/-- Leading zeros read as nothing. -/
theorem readDigits_zeros (h₀ : val '0' = some 0) (k : Nat) (cs : List Char) :
    readDigits val b 0 (List.replicate k '0' ++ cs) = readDigits val b 0 cs := by
  induction k with
  | zero => rfl
  | succ k ih => rw [List.replicate_succ, List.cons_append, readDigits, h₀, Option.some_bind, zero_mul, ih]

theorem isSome_of_readDigits : ∀ {acc v : Nat} {cs : List Char}, readDigits val b acc cs = some v →
    ∀ c ∈ cs, (val c).isSome
  | _, _, [], _ => fun _ h => absurd h (List.not_mem_nil _)
  | acc, v, c :: cs, h => by
    cases hc : val c with
    | none => rw [readDigits, hc] at h; cases h
    | some d =>
      rw [readDigits, hc, Option.some_bind] at h
      intro x hx
      rcases List.mem_cons.1 hx with rfl | hx
      · rw [hc]; rfl
      · exact isSome_of_readDigits h x hx

/-- A run of digits ends at the first character that is none. -/
theorem takeWhile_dropWhile_digits {acc v : Nat} {cs : List Char} (h : readDigits val b acc cs = some v) {c : Char}
    (hc : val c = none) (rest : List Char) :
    (cs ++ c :: rest).takeWhile (fun c => (val c).isSome) = cs ∧
      (cs ++ c :: rest).dropWhile (fun c => (val c).isSome) = c :: rest := by
  have hall := isSome_of_readDigits h
  rw [List.takeWhile_append_of_pos hall, List.dropWhile_append_of_pos hall, List.takeWhile_cons_of_neg (by simp [hc]),
    List.dropWhile_cons_of_neg (by simp [hc]), List.append_nil]
  exact ⟨rfl, rfl⟩

end Digits

theorem toDigitsCore_ne_nil (b : Nat) : ∀ f n (ds : List Char), ds ≠ [] ∨ 0 < f → Nat.toDigitsCore b f n ds ≠ []
  | 0, _, _, h => h.resolve_right (lt_irrefl 0)
  | f + 1, n, ds, _ => by
    rw [Nat.toDigitsCore]
    split_ifs
    · exact List.cons_ne_nil _ _
    · exact toDigitsCore_ne_nil b f _ _ (.inl (List.cons_ne_nil _ _))

theorem length_toDigits_le_eight {n : Nat} (h : n < 2 ^ 32) : (Nat.toDigits 16 n).length ≤ 8 :=
  Nat.toDigitsCore_length 16 (by norm_num) (n + 1) n 8 (by simpa using h) (by norm_num)

/-! ## `Overlay.String` -/

/-- `%08x`: lower-case hexadecimal, padded with zeros to eight digits. -/
def hex08x (n : Nat) : String :=
  let h := Nat.toDigits 16 n
  String.mk (List.replicate (8 - h.length) '0' ++ h)

/-- `%x`: lower-case hexadecimal. -/
def hexx (n : Nat) : String := String.mk (Nat.toDigits 16 n)

/-- `Overlay.String`: `length $%08x id $%x`. -/
def Overlay.string (body : Overlay) : String := "length $" ++ hex08x body.length.toNat ++ " id $" ++ hexx body.id.toNat

/-- Reading an overlay's listing: the eight digits after `length $`, then ` id $` and the digits after it. -/
def readOverlayString (s : String) : Option (Nat × Nat) :=
  if s.data.take 8 = "length $".data ∧ (s.data.drop 16).take 5 = " id $".data then
    (readDigits hexVal 16 0 ((s.data.drop 8).take 8)).bind fun length =>
      (readDigits hexVal 16 0 (s.data.drop 21)).map fun id => (length, id)
  else none

theorem length_hex08x (n : Nat) (h : n < 2 ^ 32) : (hex08x n).data.length = 8 := by
  have := length_toDigits_le_eight h
  simp only [hex08x, List.length_append, List.length_replicate]
  omega

/-- **An overlay's listing reads back as its length and ID.**  For every overlay, the eight digits `%08x` prints
after `length $` read as its length, and the digits `%x` prints after ` id $` read as its ID. -/
theorem readOverlayString_string (body : Overlay) :
    readOverlayString body.string = some (body.length.toNat, body.id.toNat) := by
  have h8 := length_hex08x body.length.toNat body.length.toNat_lt
  have hs : body.string.data = "length $".data ++ ((hex08x body.length.toNat).data ++ (" id $".data ++
      Nat.toDigits 16 body.id.toNat)) := by
    simp [Overlay.string, hexx]
  have t8 : body.string.data.take 8 = "length $".data := by rw [hs, List.take_left' (show "length $".data.length = 8 from rfl)]
  have d8 : (body.string.data.drop 8).take 8 = (hex08x body.length.toNat).data := by
    rw [hs, List.drop_left' (show "length $".data.length = 8 from rfl), List.take_left' h8]
  have d16 : body.string.data.drop 16 = " id $".data ++ Nat.toDigits 16 body.id.toNat := by
    rw [hs, ← List.append_assoc, List.drop_left' (by simp [h8])]
  have d21 : body.string.data.drop 21 = Nat.toDigits 16 body.id.toNat := by
    rw [hs, ← List.append_assoc, ← List.append_assoc, List.drop_left' (by simp [h8])]
  have hl : readDigits hexVal 16 0 (hex08x body.length.toNat).data = some body.length.toNat := by
    rw [hex08x, readDigits_zeros (by decide)]
    simpa using readDigits_toDigits (by norm_num : 1 < 16) id hexVal_digitChar body.length.toNat
  have hi : readDigits hexVal 16 0 (Nat.toDigits 16 body.id.toNat) = some body.id.toNat := by
    simpa using readDigits_toDigits (by norm_num : 1 < 16) id hexVal_digitChar body.id.toNat
  rw [readOverlayString, t8, d8, d16, List.take_left' (show " id $".data.length = 5 from rfl), d21,
    if_pos ⟨rfl, rfl⟩, hl, hi]
  rfl

/-- The overlay of the source's comment. -/
example : Overlay.string ⟨0x9e4, 4⟩ = "length $000009e4 id $4" := by decide

/-! ## The error messages -/

/-- `%02X`: upper-case hexadecimal, padded with zeros to two digits. -/
def hex02X (n : Nat) : String :=
  let h := C.hexX n
  String.mk (List.replicate (2 - h.length) '0') ++ h

/-- The text of each error `parseSymbol` returns, `err.Error()`: `errors.WithStack` keeps the text of the error it
wraps, `io.EOF` and `io.ErrUnexpectedEOF` have theirs, and `parseSymbolBody` formats the unknown kind. -/
def Cause.message : Cause → String
  | .eof => "EOF"
  | .unexpectedEOF => "unexpected EOF"
  | .unknownKind kind => "support for symbol kind 0x" ++ hex02X kind.toNat ++ " not yet implemented"

example : Cause.message (.unknownKind 0x9a) = "support for symbol kind 0x9A not yet implemented" := by decide

/-! ## The offset comments -/

namespace C

/-- Reading the comment before a field line, at its indentation: the `%04X` offset after `// offset: `, and the
`%d` size in ` (… bytes)` when there is one; none when there is no comment. -/
def readOffsetComment (indent s : String) : Option (Nat × Option Nat) :=
  let pre := (indent ++ "// offset: ").data
  if s.data.take pre.length = pre then
    let r := s.data.drop pre.length
    (readDigits hexVal 16 0 (r.takeWhile fun c => (hexVal c).isSome)).bind fun offset =>
      let rest := r.dropWhile fun c => (hexVal c).isSome
      if rest = ['\n'] then some (offset, none)
      else if rest.take 2 = " (".data then
        (readDigits decDigitVal 10 0 ((rest.drop 2).takeWhile fun c => (decDigitVal c).isSome)).bind fun size =>
          if (rest.drop 2).dropWhile (fun c => (decDigitVal c).isSome) = " bytes)\n".data then some (offset, some size)
          else none
      else none
  else none

theorem readDigits_hex04X (n : Nat) : readDigits hexVal 16 0 (hex04X n).data = some n := by
  simp only [hex04X, hexX, String.data_append, readDigits_zeros (show hexVal '0' = some 0 by decide)]
  exact readDigits_toDigits (by norm_num) Char.toUpper hexVal_toUpper_digitChar n

theorem readDigits_toString (n : Nat) : readDigits decDigitVal 10 0 (toString n).data = some n := by
  simpa using readDigits_toDigits (by norm_num : 1 < 10) id decDigitVal_digitChar n

/-- `%d` writes decimal digits only. -/
theorem isDigit_of_mem_toString (n : Nat) : ∀ c ∈ (toString n).data, c.isDigit := fun c hc => by
  simpa [decDigitVal] using isSome_of_readDigits (readDigits_toString n) c hc

/-- **The offset comments read back.**  For every field, the comment `StructType.Def`, `UnionType.Def` and
`fakeUnionString` print before its line reads back, at the line's indentation, as its offset and size when it has a
size, as its offset when it has none and the second field has an offset, and as no comment otherwise. -/
theorem readOffsetComment_offsetComment {τ : Type} (indent : String) (second : Bool) (f : FieldOf τ) :
    readOffsetComment indent (offsetComment indent second f) =
      if f.size > 0 then some (f.offset.toNat, some f.size.toNat)
      else if second then some (f.offset.toNat, none) else none := by
  have hh := readDigits_hex04X f.offset.toNat
  unfold offsetComment
  split_ifs with hs hsec
  · have hd := readDigits_toString f.size.toNat
    obtain ⟨t₁, d₁⟩ := takeWhile_dropWhile_digits hh (show hexVal ' ' = none by decide)
      ("(".data ++ (toString f.size.toNat).data ++ " bytes)\n".data)
    obtain ⟨t₂, d₂⟩ := takeWhile_dropWhile_digits hd (show decDigitVal ' ' = none by decide) "bytes)\n".data
    have e : (indent ++ "// offset: " ++ hex04X f.offset.toNat ++ " (" ++ toString f.size.toNat ++ " bytes)\n").data =
        (indent ++ "// offset: ").data ++ ((hex04X f.offset.toNat).data ++ ' ' :: ("(".data ++
          (toString f.size.toNat).data ++ " bytes)\n".data)) := by simp
    simp only [readOffsetComment, e, List.take_left', List.drop_left', t₁, d₁, hh, Option.some_bind]
    simp [t₂, d₂, hd]
  · have e : (indent ++ "// offset: " ++ hex04X f.offset.toNat ++ "\n").data =
        (indent ++ "// offset: ").data ++ ((hex04X f.offset.toNat).data ++ '\n' :: []) := by simp
    obtain ⟨t₁, d₁⟩ := takeWhile_dropWhile_digits hh (show hexVal '\n' = none by decide) []
    simp only [readOffsetComment, e, List.take_left', List.drop_left', t₁, d₁, hh, Option.some_bind, if_true]
  · simp [readOffsetComment]

example : offsetComment "\t" false (⟨0x1a, 4, (), "x"⟩ : FieldOf Unit) = "\t// offset: 001A (4 bytes)\n" := by decide

end C

/-! ## `Dimensions.String` -/

theorem data_intercalate (s : String) : ∀ l : List String,
    (s.intercalate l).data = s.data.intercalate (l.map String.data)
  | [] => rfl
  | [_] => by simp [String.intercalate, String.intercalate.go, List.intercalate]
  | x :: y :: l => by
    rw [C.intercalate_cons_cons, String.data_append, String.data_append, data_intercalate s (y :: l)]
    simp [List.intercalate, List.intersperse_cons_cons]

/-- A decimal number: one digit or more. -/
def readDecimal (cs : List Char) : Option Nat := if cs = [] then none else readDigits decDigitVal 10 0 cs

theorem readDecimal_toString (n : Nat) : readDecimal (toString n).data = some n := by
  have h : (toString n).data ≠ [] := toDigitsCore_ne_nil 10 _ n [] (.inr (Nat.succ_pos n))
  rw [readDecimal, if_neg h, C.readDigits_toString]

theorem mapM_readDecimal : ∀ ns : List Nat, (ns.map fun n => (toString n).data).mapM readDecimal = some ns
  | [] => rfl
  | n :: ns => by rw [List.map_cons, List.mapM_cons, readDecimal_toString, mapM_readDecimal ns]; rfl

/-- Reading a dimension group's listing: the lengths between single spaces, in decimal, and none for `0`. -/
def readDimensionsString (s : String) : Option (List Nat) :=
  if s = "0" then some [] else (s.data.splitOn ' ').mapM readDecimal

/-- The listing of nonzero lengths reads back as the lengths. -/
theorem readDimensionsString_listing (ns : List Nat) (hv : ∀ n ∈ ns, n ≠ 0) :
    readDimensionsString (if ns = [] then "0" else " ".intercalate (ns.map toString)) = some ns := by
  split_ifs with h₀
  · rw [h₀]; rfl
  · have hd : (" ".intercalate (ns.map toString)).data.splitOn ' ' = ns.map fun n => (toString n).data := by
      rw [data_intercalate, List.map_map]
      refine List.splitOn_intercalate _ ' ' (fun l hl h => ?_) (by simpa using h₀)
      obtain ⟨n, -, rfl⟩ := List.mem_map.1 hl
      exact absurd (isSome_of_readDigits (C.readDigits_toString n) ' ' h) (by decide)
    have hr := mapM_readDecimal ns
    have hne : " ".intercalate (ns.map toString) ≠ "0" := fun h => by
      rw [h, show "0".data.splitOn ' ' = [['0']] by decide] at hd
      rw [← hd, show [['0']].mapM readDecimal = some [0] by decide] at hr
      cases hr
      exact hv 0 (List.mem_singleton_self 0) rfl
    rw [readDimensionsString, if_neg hne, hd, hr]

/-- **A dimension group's listing reads back** as the lengths before its first `0`: `Dimensions.String` prints them
in decimal between single spaces, and when there are none prints `0`, which no length prints as. -/
theorem readDimensionsString_string (dims : Dimensions) :
    readDimensionsString dims.string = some ((dims.takeWhile (· ≠ 0)).map UInt16.toNat) := by
  have hv : ∀ n ∈ (dims.takeWhile (· ≠ 0)).map UInt16.toNat, n ≠ 0 := by
    simp only [List.mem_map]
    rintro _ ⟨v, hv, rfl⟩ h
    have := List.mem_takeWhile_imp hv
    simp only [decide_eq_true_eq] at this
    exact this (UInt16.toNat.inj h)
  have e : dims.string = if (dims.takeWhile (· ≠ 0)).map UInt16.toNat = [] then "0"
      else " ".intercalate (((dims.takeWhile (· ≠ 0)).map UInt16.toNat).map toString) := by
    simp [Dimensions.string, List.map_map, Function.comp_def]
  rw [e, readDimensionsString_listing _ hv]

end PsxSym
