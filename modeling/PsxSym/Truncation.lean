import PsxSym.Format
/-!
# Truncation — how `parseSymbol` reports a stream that ends inside a record

Every error a decoder of `Symbol.lean` can raise is an end of stream, `io.EOF` or `io.ErrUnexpectedEOF`
(`EndsOnly`), except the unknown kind of `parseSymbolBody`.  A proper prefix of a well-formed record therefore
always fails, with one of the two (`parseSymbol_truncated`); which one depends on where the stream ends.  Only
`Dimensions.Unpack` turns `io.EOF` into `io.ErrUnexpectedEOF`: a stream that ends right before any other field of a
record is reported as `io.EOF`, the cause a clean end of stream has (`parseSymbol_header_only`).

A header of any other kind is reported with the kind, and with the header read, whatever follows it: the decoder
reads no byte of a body whose shape it does not know (`parseSymbol_unknown_kind`).
-/
namespace PsxSym

/-- Every error of the decoder is an end of stream. -/
def EndsOnly {α : Type} (d : Decoder α) : Prop :=
  ∀ s c, d s = .error c → c = .eof ∨ c = .unexpectedEOF

section EndsOnly

variable {α β : Type}

theorem EndsOnly.bind {x : Decoder α} {f : α → Decoder β} (hx : EndsOnly x) (hf : ∀ a, EndsOnly (f a)) :
    EndsOnly (x >>= f) := by
  intro s c h
  rcases bind_eq_error.1 h with h | ⟨a, s₁, -, h⟩
  · exact hx s c h
  · exact hf a s₁ c h

theorem EndsOnly.pure (a : α) : EndsOnly (pure a : Decoder α) := by
  intro s c h; cases h

theorem endsOnly_readFull (n : Nat) : EndsOnly (readFull n) := by
  intro s c h
  unfold readFull at h
  split_ifs at h <;> cases h <;> simp

theorem endsOnly_readLE (w : Nat) : EndsOnly (readLE w) :=
  (endsOnly_readFull w).bind fun _ => .pure _

theorem endsOnly_readU8 : EndsOnly readU8 := (endsOnly_readLE 1).bind fun _ => .pure _
theorem endsOnly_readU16 : EndsOnly readU16 := (endsOnly_readLE 2).bind fun _ => .pure _
theorem endsOnly_readU32 : EndsOnly readU32 := (endsOnly_readLE 4).bind fun _ => .pure _

theorem endsOnly_readIfPos (n : UInt8) : EndsOnly (readIfPos n) := by
  unfold readIfPos
  split
  · exact endsOnly_readFull _
  · exact .pure _

theorem endsOnly_readDims : ∀ n, EndsOnly (readDims n)
  | 0 => .pure _
  | n + 1 => EndsOnly.bind (fun _ _ h => .inr (unpack_error h)) fun _ =>
      (endsOnly_readDims n).bind fun _ => .pure _

theorem endsOnly_parseSymbolHeader : EndsOnly parseSymbolHeader :=
  endsOnly_readU32.bind fun _ => endsOnly_readU8.bind fun _ => .pure _

theorem endsOnly_parseSymbolBody (mods : UInt16 → List Nat) {kind : Kind}
    (hk : kind ∈ [kindName1, kindName2, kindDef, kindDef2, kindOverlay]) : EndsOnly (parseSymbolBody mods kind) := by
  have name : EndsOnly Name.unpack := endsOnly_readU8.bind fun _ => (endsOnly_readFull _).bind fun _ => .pure _
  unfold parseSymbolBody
  split_ifs
  · exact name.bind fun _ => .pure _
  · exact name.bind fun _ => .pure _
  · exact (endsOnly_readU16.bind fun _ => endsOnly_readU16.bind fun _ => endsOnly_readU32.bind fun _ =>
      endsOnly_readU8.bind fun _ => (endsOnly_readFull _).bind fun _ => .pure _).bind fun _ => .pure _
  · exact (endsOnly_readU16.bind fun _ => endsOnly_readU16.bind fun _ => endsOnly_readU32.bind fun _ =>
      (endsOnly_readDims _).bind fun _ => endsOnly_readU8.bind fun _ => (endsOnly_readIfPos _).bind fun _ =>
      endsOnly_readU8.bind fun _ => (endsOnly_readIfPos _).bind fun _ => .pure _).bind fun _ => .pure _
  · exact (endsOnly_readU32.bind fun _ => endsOnly_readU32.bind fun _ => .pure _).bind fun _ => .pure _
  · simp_all

end EndsOnly

/-- The header of an encoded symbol is its first five bytes. -/
theorem parseSymbolHeader_of_encode {sym : Symbol} {p : List UInt8} (hp : SymbolHeader.size ≤ p.length)
    (hpre : p <+: sym.encode) : parseSymbolHeader p = .ok (sym.hdr, p.drop SymbolHeader.size) := by
  obtain ⟨q, hq⟩ := hpre
  have hlen : sym.hdr.encode.length = SymbolHeader.size := by simp [SymbolHeader.encode, SymbolHeader.size]
  have htake : p.take SymbolHeader.size = sym.hdr.encode := by
    rw [← List.take_append_of_le_length hp, hq, Symbol.encode, List.take_left' hlen]
  exact parseSymbolHeader_eq_ok.2 (by rw [← htake, List.take_append_drop])

theorem kind_mem (sym : Symbol) : sym.body.kind ∈ [kindName1, kindName2, kindDef, kindDef2, kindOverlay] := by
  cases sym.body <;> simp [SymbolBody.kind]

/-- **A truncated record is always reported, as an end of stream.**  On every proper prefix of a well-formed
record, `parseSymbol` fails, and the error's cause is `io.EOF` or `io.ErrUnexpectedEOF`. -/
theorem parseSymbol_truncated (mods : UInt16 → List Nat) (sym : Symbol) (hw : sym.WellFormed mods)
    (p : List UInt8) (hpre : p <+: sym.encode) (hne : p ≠ sym.encode) :
    ∃ h c, parseSymbol mods p = .error (h, c) ∧ (c = .eof ∨ c = .unexpectedEOF) := by
  obtain ⟨q, hq⟩ := hpre
  cases hparse : parseSymbol mods p with
  | ok r =>
    obtain ⟨hw', hp⟩ := parseSymbol_eq_ok.1 hparse
    have h₁ := parseSymbol_eq_ok.2 ⟨hw', (rfl : r.1.encode ++ (r.2 ++ q) = _)⟩
    rw [← List.append_assoc, ← hp, hq, ← List.append_nil sym.encode, parseSymbol_eq_ok.2 ⟨hw, rfl⟩] at h₁
    simp only [Except.ok.injEq, Prod.mk.injEq] at h₁
    have hq0 : q = [] := (List.append_eq_nil.1 h₁.2.symm).2
    exact absurd (by rw [← hq, hq0, List.append_nil]) hne
  | error e =>
    obtain ⟨h, c⟩ := e
    refine ⟨h, c, rfl, ?_⟩
    unfold parseSymbol at hparse
    split at hparse
    · cases hparse; exact endsOnly_parseSymbolHeader _ _ (by assumption)
    · rename_i hdr s₁ hh
      split at hparse
      · cases hparse
        rename_i hb
        by_cases hlen : SymbolHeader.size ≤ p.length
        · rw [parseSymbolHeader_of_encode hlen ⟨q, hq⟩] at hh
          cases hh
          exact endsOnly_parseSymbolBody mods (hw.1 ▸ kind_mem sym) _ _ hb
        · have := congrArg List.length (parseSymbolHeader_eq_ok.1 hh)
          simp only [List.length_append, SymbolHeader.encode, length_toLE, List.length_singleton] at this
          exact absurd (by rw [this, SymbolHeader.size]; omega) hlen
      · cases hparse

theorem parseSymbol_truncated_header :
    Symbol.WellFormed (fun _ => []) ⟨⟨0, kindName1⟩, .name1 ⟨0, []⟩⟩ ∧
      [0, 0, 0, 0, kindName1] <+: Symbol.encode ⟨⟨0, kindName1⟩, .name1 ⟨0, []⟩⟩ ∧
      [0, 0, 0, 0, kindName1] ≠ Symbol.encode ⟨⟨0, kindName1⟩, .name1 ⟨0, []⟩⟩ ∧
      ∃ h c, parseSymbol (fun _ => []) [0, 0, 0, 0, kindName1] = .error (h, c) ∧ (c = .eof ∨ c = .unexpectedEOF) :=
  ⟨by decide, ⟨[0], rfl⟩, by decide,
    parseSymbol_truncated (fun _ => []) ⟨⟨0, kindName1⟩, .name1 ⟨0, []⟩⟩ (by decide) _ ⟨[0], rfl⟩ (by decide)⟩

/-- A full header of kind `Name1`, and nothing after it: the stream ends right before the body. -/
theorem parseSymbol_header_only (mods : UInt16 → List Nat) :
    [0, 0, 0, 0, kindName1] ≠ [] ∧ [0, 0, 0, 0, kindName1] <+: Symbol.encode ⟨⟨0, kindName1⟩, .name1 ⟨0, []⟩⟩ ∧
      parseSymbol mods [0, 0, 0, 0, kindName1] = .error (some ⟨0, kindName1⟩, .eof) :=
  ⟨by simp, ⟨[0], rfl⟩, rfl⟩

/-! ## Unknown kinds -/

/-- A kind with no body is an error before any byte of the body is read. -/
theorem parseSymbolBody_unknown (mods : UInt16 → List Nat) {kind : Kind}
    (hk : kind ∉ [kindName1, kindName2, kindDef, kindDef2, kindOverlay]) (s : List UInt8) :
    parseSymbolBody mods kind s = .error (.unknownKind kind) := by
  simp only [List.mem_cons, List.not_mem_nil, or_false, not_or] at hk
  obtain ⟨h₁, h₂, h₃, h₄, h₅⟩ := hk
  simp only [parseSymbolBody, if_neg h₁, if_neg h₂, if_neg h₃, if_neg h₄, if_neg h₅]

/-- **`parseSymbol` reports an unknown kind exactly after a header of a kind with no body.**  The error carries
that header and its kind, whatever bytes follow the header: no byte of the body is read.  Every other error of
`parseSymbol` is an end of stream. -/
theorem parseSymbol_unknown_kind (mods : UInt16 → List Nat) (s : List UInt8) (h : Option SymbolHeader) (k : Kind) :
    parseSymbol mods s = .error (h, .unknownKind k) ↔
      ∃ hdr rest, s = hdr.encode ++ rest ∧ hdr.kind ∉ [kindName1, kindName2, kindDef, kindDef2, kindOverlay] ∧
        h = some hdr ∧ k = hdr.kind := by
  constructor
  · intro he
    unfold parseSymbol at he
    split at he
    · rename_i c hh
      cases he
      rcases endsOnly_parseSymbolHeader s _ hh with h | h <;> cases h
    · rename_i hdr rest hh
      split at he
      · rename_i c hb
        cases he
        by_cases hk : hdr.kind ∈ [kindName1, kindName2, kindDef, kindDef2, kindOverlay]
        · rcases endsOnly_parseSymbolBody mods hk rest _ hb with h | h <;> cases h
        · rw [parseSymbolBody_unknown mods hk] at hb
          cases hb
          exact ⟨hdr, rest, parseSymbolHeader_eq_ok.1 hh, hk, rfl, rfl⟩
      · cases he
  · rintro ⟨hdr, rest, rfl, hk, rfl, rfl⟩
    simp only [parseSymbol, parseSymbolHeader_eq_ok.2 rfl, parseSymbolBody_unknown mods hk]

/-- A header of kind `0xFF` and one more byte. -/
example : parseSymbol (fun _ => []) (SymbolHeader.encode ⟨0, 0xFF⟩ ++ [0x41]) =
    .error (some ⟨0, 0xFF⟩, .unknownKind 0xFF) := by
  decide

end PsxSym
