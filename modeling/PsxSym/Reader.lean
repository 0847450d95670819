import Mathlib
/-!
# Reader — the byte stream the decoder reads from

`parseSymbol` reads one symbol from an `io.Reader` with three kinds of calls: `binary.Read` of a fixed-size
little-endian integer, `struc.Unpack`, which reads a struct field by field, each field with one `io.ReadFull`, and
`io.ReadFull` of a byte buffer.  All three come down to `io.ReadFull` of `n` bytes, so this module models the reader
as the bytes it has left and `readFull` as the one primitive: a decoder step takes the remaining bytes and returns
what it read with the bytes after it.

`io.ReadFull` tells its two ends of stream apart: `io.EOF` when no byte of the buffer could be read, and
`io.ErrUnexpectedEOF` when some were.  `errors.WithStack` only adds a stack trace, and `errors.Cause` takes it off
again, so an error is modelled by its cause.
-/
namespace PsxSym

/-- The cause of a decoding error, as `errors.Cause` returns it. -/
inductive Cause where
  /-- `io.EOF`: the stream was empty when a read began. -/
  | eof
  /-- `io.ErrUnexpectedEOF`: the stream ended inside a read. -/
  | unexpectedEOF
  /-- `errors.Errorf("support for symbol kind 0x%02X not yet implemented", kind)`. -/
  | unknownKind (kind : UInt8)
  deriving DecidableEq, Repr

instance decEqExcept {ε α : Type} [DecidableEq ε] [DecidableEq α] : DecidableEq (Except ε α)
  | .error a, .error b => if h : a = b then isTrue (h ▸ rfl) else isFalse (by rintro ⟨⟩; exact h rfl)
  | .error _, .ok _ => isFalse (by rintro ⟨⟩)
  | .ok _, .error _ => isFalse (by rintro ⟨⟩)
  | .ok a, .ok b => if h : a = b then isTrue (h ▸ rfl) else isFalse (by rintro ⟨⟩; exact h rfl)

/-- A decoder step: state passing over the bytes the reader has left. -/
abbrev Decoder (α : Type) := StateT (List UInt8) (Except Cause) α

/-- `io.ReadFull(r, buf)` with `len(buf) = n`, on a reader that returns `io.EOF` exactly at its end. -/
def readFull (n : Nat) : Decoder (List UInt8) := fun s =>
  if n = 0 then .ok ([], s)
  else if s = [] then .error .eof
  else if s.length < n then .error .unexpectedEOF
  else .ok (s.take n, s.drop n)

/-- The value of little-endian bytes. -/
def ofLE : List UInt8 → Nat
  | [] => 0
  | b :: bs => b.toNat + 256 * ofLE bs

/-- `binary.Read(r, binary.LittleEndian, &x)`, and `struc`'s read of one `little` field, for `x` of `w` bytes. -/
def readLE (w : Nat) : Decoder Nat := do
  let bs ← readFull w
  pure (ofLE bs)

def readU8 : Decoder UInt8 := do
  let v ← readLE 1
  pure (UInt8.ofNat v)

def readU16 : Decoder UInt16 := do
  let v ← readLE 2
  pure (UInt16.ofNat v)

def readU32 : Decoder UInt32 := do
  let v ← readLE 4
  pure (UInt32.ofNat v)

/-! ## Running a step

One lemma per way a `bind` can end, so that the decoders above and every parser built from them are read step by
step without unfolding `StateT`. -/

section Bind

variable {α β : Type} {x : Decoder α} {f : α → Decoder β} {s s' : List UInt8}

theorem bind_of_ok {a : α} (h : x s = .ok (a, s')) : (x >>= f) s = f a s' := by
  show (x s).bind _ = _
  rw [h]; rfl

theorem bind_of_error {e : Cause} (h : x s = .error e) : (x >>= f) s = .error e := by
  show (x s).bind _ = _
  rw [h]; rfl

theorem bind_eq_ok {b : β} :
    (x >>= f) s = .ok (b, s') ↔ ∃ a s₁, x s = .ok (a, s₁) ∧ f a s₁ = .ok (b, s') := by
  show (x s).bind _ = _ ↔ _
  cases h : x s with
  | error e => simp [Except.bind]
  | ok p => obtain ⟨a, s₁⟩ := p; simp [Except.bind, and_assoc]

theorem bind_eq_error {e : Cause} :
    (x >>= f) s = .error e ↔ x s = .error e ∨ ∃ a s₁, x s = .ok (a, s₁) ∧ f a s₁ = .error e := by
  show (x s).bind _ = _ ↔ _
  cases h : x s with
  | error e' => simp [Except.bind]
  | ok p => obtain ⟨a, s₁⟩ := p; simp [Except.bind, and_assoc]

@[simp] theorem pure_apply (a : α) : (pure a : Decoder α) s = .ok (a, s) := rfl

end Bind

/-! ## `io.ReadFull` -/

theorem readFull_append (bs rest : List UInt8) : readFull bs.length (bs ++ rest) = .ok (bs, rest) := by
  unfold readFull
  split
  · rename_i h; simp [List.length_eq_zero.1 h]
  · rename_i h
    have hne : bs ++ rest ≠ [] := by simpa using fun hb _ => h (by simp [hb])
    simp [hne]

theorem readFull_eq_ok {n : Nat} {bs : List UInt8} :
    readFull n s = .ok (bs, s') ↔ bs.length = n ∧ s = bs ++ s' := by
  constructor
  · unfold readFull
    intro h
    split at h
    · cases h; simp_all
    · split at h; · cases h
      split at h; · cases h
      cases h
      rename_i h1 h2 h3
      exact ⟨by simp; omega, (List.take_append_drop n s).symm⟩
  · rintro ⟨rfl, rfl⟩; exact readFull_append bs s'

theorem readFull_of_lt {n : Nat} (hn : s.length < n) :
    readFull n s = .error (if s = [] then .eof else .unexpectedEOF) := by
  unfold readFull
  have : n ≠ 0 := by omega
  by_cases h : s = [] <;> simp [h, hn, this]

/-! ## Little-endian integers -/

/-- The `w` little-endian bytes of `n`: the encoding `binary.Read` decodes. -/
def toLE : Nat → Nat → List UInt8
  | 0, _ => []
  | w + 1, n => UInt8.ofNat (n % 256) :: toLE w (n / 256)

@[simp] theorem length_toLE (w n : Nat) : (toLE w n).length = w := by
  induction w generalizing n with
  | zero => rfl
  | succ w ih => simp [toLE, ih]

theorem toNat_ofNat_mod (n : Nat) : (UInt8.ofNat (n % 256)).toNat = n % 256 :=
  UInt8.toNat_ofNat_of_lt (Nat.mod_lt _ (by decide))

theorem ofLE_lt : ∀ bs : List UInt8, ofLE bs < 256 ^ bs.length
  | [] => by simp [ofLE]
  | b :: bs => by
    have ih := ofLE_lt bs
    have hb : b.toNat < 256 := b.toNat_lt_size
    rw [ofLE, List.length_cons, Nat.pow_succ]
    omega

theorem ofLE_toLE : ∀ (w n : Nat), ofLE (toLE w n) = n % 256 ^ w
  | 0, n => by simp [toLE, ofLE, Nat.mod_one]
  | w + 1, n => by
    rw [toLE, ofLE, ofLE_toLE w, toNat_ofNat_mod, Nat.pow_succ, Nat.mul_comm (256 ^ w), Nat.mod_mul]

theorem toLE_ofLE : ∀ bs : List UInt8, toLE bs.length (ofLE bs) = bs
  | [] => rfl
  | b :: bs => by
    have hb : b.toNat < 256 := b.toNat_lt_size
    simp only [List.length_cons, toLE, ofLE]
    rw [Nat.add_mul_mod_self_left, Nat.mod_eq_of_lt hb, Nat.add_mul_div_left _ _ (by decide),
      Nat.div_eq_of_lt hb, Nat.zero_add, toLE_ofLE bs]
    exact congrArg (· :: bs) (UInt8.toNat.inj (UInt8.toNat_ofNat_of_lt hb))

theorem readLE_eq_ok {w v : Nat} : readLE w s = .ok (v, s') ↔ v < 256 ^ w ∧ s = toLE w v ++ s' := by
  simp only [readLE, bind_eq_ok, readFull_eq_ok, pure_apply, Except.ok.injEq, Prod.mk.injEq]
  constructor
  · rintro ⟨bs, s₁, ⟨rfl, rfl⟩, rfl, rfl⟩
    exact ⟨ofLE_lt bs, by rw [toLE_ofLE]⟩
  · rintro ⟨hv, rfl⟩
    exact ⟨toLE w v, s', ⟨length_toLE w v, rfl⟩, by rw [ofLE_toLE, Nat.mod_eq_of_lt hv], rfl⟩

theorem readU8_eq_ok {v : UInt8} : readU8 s = .ok (v, s') ↔ s = v :: s' := by
  simp only [readU8, bind_eq_ok, readLE_eq_ok, pure_apply, Except.ok.injEq, Prod.mk.injEq]
  constructor
  · rintro ⟨n, s₁, ⟨hn, rfl⟩, rfl, rfl⟩
    simp only [toLE, Nat.div_eq_of_lt (show n < 256 by simpa using hn), Nat.mod_eq_of_lt (show n < 256 by simpa using hn),
      List.singleton_append]
  · rintro rfl
    have hv : v.toNat < 256 := v.toNat_lt_size
    refine ⟨v.toNat, s', ⟨by simpa using hv, ?_⟩, UInt8.toNat.inj (UInt8.toNat_ofNat_of_lt hv), rfl⟩
    simp only [toLE, Nat.mod_eq_of_lt hv, List.singleton_append]
    exact congrArg (· :: s') (UInt8.toNat.inj (UInt8.toNat_ofNat_of_lt hv)).symm

theorem readU16_eq_ok {v : UInt16} : readU16 s = .ok (v, s') ↔ s = toLE 2 v.toNat ++ s' := by
  simp only [readU16, bind_eq_ok, readLE_eq_ok, pure_apply, Except.ok.injEq, Prod.mk.injEq]
  constructor
  · rintro ⟨n, s₁, ⟨hn, rfl⟩, rfl, rfl⟩
    rw [UInt16.toNat_ofNat_of_lt (by simpa using hn)]
  · rintro rfl
    exact ⟨v.toNat, s', ⟨by simpa using v.toNat_lt_size, rfl⟩,
      UInt16.toNat.inj (UInt16.toNat_ofNat_of_lt v.toNat_lt_size), rfl⟩

theorem readU32_eq_ok {v : UInt32} : readU32 s = .ok (v, s') ↔ s = toLE 4 v.toNat ++ s' := by
  simp only [readU32, bind_eq_ok, readLE_eq_ok, pure_apply, Except.ok.injEq, Prod.mk.injEq]
  constructor
  · rintro ⟨n, s₁, ⟨hn, rfl⟩, rfl, rfl⟩
    rw [UInt32.toNat_ofNat_of_lt (by simpa using hn)]
  · rintro rfl
    exact ⟨v.toNat, s', ⟨by simpa using v.toNat_lt_size, rfl⟩,
      UInt32.toNat.inj (UInt32.toNat_ofNat_of_lt v.toNat_lt_size), rfl⟩

end PsxSym
