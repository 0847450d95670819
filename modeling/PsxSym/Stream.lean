import PsxSym.Cuts
/-!
# Stream — decoding a whole stream of records

`parseSymbol` reads one record; its caller reads a whole stream by calling it again and again, each call from where
the last one ended, until one fails.  A failure whose cause is `io.EOF` is the clean end of the stream, any other
failure is an error (spec §4.2 and §5; the loop itself is not among the sources, so `decodeSymbols` follows the
spec's words).

The decode gives back every stream of well-formed records as the records, and a stream cut inside its last record
as the records before it: with an error where the cut falls inside a field, and, because `parseSymbol` reports a
cut right before most fields as `io.EOF` (`parseSymbol_cut`), with no error at all where it falls between two
fields, the partial record dropped without a trace (`decodeAll_records`).  On every stream, the records the decode
returns are well formed and are, in order, the stream's first bytes (`decodeAll_sound`); so more bytes at the end
never take a record back, and after an unknown kind they change nothing at all (`decodeAll_append`).
-/
namespace PsxSym

/-- Modelled from the spec: the whole-stream decode of §5, `parseSymbol` from where the last call ended, until a call fails.  It
returns the records read, in order, and the failure that ended it, or nothing when that failure's cause is `io.EOF`.
The fuel bounds the number of calls. -/
def decodeSymbols (mods : UInt16 → List Nat) : Nat → List UInt8 → List Symbol × Option (Option SymbolHeader × Cause)
  | 0, _ => ([], none)
  | fuel + 1, s =>
    match parseSymbol mods s with
    | .ok (sym, rest) => (sym :: (decodeSymbols mods fuel rest).1, (decodeSymbols mods fuel rest).2)
    | .error e => ([], if e.2 = .eof then none else some e)

/-- The decode with one more call than the stream has bytes: each record is at least five bytes long, so the loop
ends at a failure of `parseSymbol`, never for want of fuel. -/
def decodeAll (mods : UInt16 → List Nat) (s : List UInt8) : List Symbol × Option (Option SymbolHeader × Cause) :=
  decodeSymbols mods (s.length + 1) s

section Decode

variable {mods : UInt16 → List Nat}

theorem length_lt_of_parseSymbol {s rest : List UInt8} {sym : Symbol} (h : parseSymbol mods s = .ok (sym, rest)) :
    rest.length < s.length := by
  obtain ⟨-, rfl⟩ := parseSymbol_eq_ok.1 h
  simp [Symbol.encode, SymbolHeader.encode]; omega

/-- Any fuel beyond the stream's length gives the same decode. -/
theorem decodeSymbols_fuel : ∀ {fuel fuel' : Nat} {s : List UInt8}, s.length < fuel → s.length < fuel' →
    decodeSymbols mods fuel s = decodeSymbols mods fuel' s
  | fuel + 1, fuel' + 1, s, h, h' => by
    unfold decodeSymbols
    split
    · rename_i sym rest hp
      have hr := length_lt_of_parseSymbol hp
      rw [decodeSymbols_fuel (show rest.length < fuel by omega) (show rest.length < fuel' by omega)]
    · rfl

/-- A record in front: the decode reads it, then decodes the rest. -/
theorem decodeAll_encode_append {sym : Symbol} (hw : sym.WellFormed mods) (rest : List UInt8) :
    decodeAll mods (sym.encode ++ rest) = (sym :: (decodeAll mods rest).1, (decodeAll mods rest).2) := by
  have hlen : rest.length < (sym.encode ++ rest).length := by simp [Symbol.encode, SymbolHeader.encode]; omega
  unfold decodeAll
  rw [decodeSymbols, parseSymbol_eq_ok.2 ⟨hw, rfl⟩]
  dsimp only
  rw [decodeSymbols_fuel (by omega) (Nat.lt_succ_self rest.length)]

theorem decodeAll_flatMap (syms : List Symbol) (hw : ∀ sym ∈ syms, sym.WellFormed mods) (t : List UInt8) :
    decodeAll mods (syms.flatMap Symbol.encode ++ t) = (syms ++ (decodeAll mods t).1, (decodeAll mods t).2) := by
  induction syms with
  | nil => rfl
  | cons sym syms ih =>
    rw [List.flatMap_cons, List.append_assoc, decodeAll_encode_append (hw sym (List.mem_cons_self _ _)),
      ih fun x hx => hw x (List.mem_cons_of_mem _ hx), List.cons_append]

/-- The empty stream is a clean end. -/
theorem decodeAll_nil : decodeAll mods [] = ([], none) := rfl

/-- The decode of what is left when `parseSymbol` fails on it. -/
theorem decodeAll_of_error {t : List UInt8} {e : Option SymbolHeader × Cause} (h : parseSymbol mods t = .error e) :
    decodeAll mods t = ([], if e.2 = .eof then none else some e) := by
  rw [decodeAll, decodeSymbols, h]

/-- **A stream of records decodes to the records, and a cut last record is dropped silently at a field's start.**
For every list of well-formed records, the decode of their bytes returns them with no error.  Followed by the first
`k` bytes of one more well-formed record, `k` short of the whole record, the stream decodes to the same records:
with an error when the cut falls inside a field or at a dimension group, and with no error, as at a clean end of
stream, when `parseSymbol` reports the cut as `io.EOF`. -/
theorem decodeAll_records (mods : UInt16 → List Nat) (syms : List Symbol) (hw : ∀ sym ∈ syms, sym.WellFormed mods) :
    decodeAll mods (syms.flatMap Symbol.encode) = (syms, none) ∧
      ∀ sym : Symbol, sym.WellFormed mods → ∀ k < sym.size,
        decodeAll mods (syms.flatMap Symbol.encode ++ sym.encode.take k) =
          (syms, if cutCause sym.chunks k = .eof then none
            else some (if k < SymbolHeader.size then none else some sym.hdr, cutCause sym.chunks k)) := by
  refine ⟨?_, fun sym hs k hk => ?_⟩
  · simpa [decodeAll_nil] using decodeAll_flatMap syms hw []
  · rw [decodeAll_flatMap syms hw, decodeAll_of_error (parseSymbol_take hs hk), List.append_nil]

theorem decodeAll_records_name1 :
    (∀ sym ∈ [(⟨⟨0x80010000, kindName1⟩, .name1 ⟨2, [0x41, 0x42]⟩⟩ : Symbol)], sym.WellFormed (fun _ => [])) ∧
      (decodeAll (fun _ => []) ([(⟨⟨0x80010000, kindName1⟩, .name1 ⟨2, [0x41, 0x42]⟩⟩ : Symbol)].flatMap Symbol.encode) =
          ([⟨⟨0x80010000, kindName1⟩, .name1 ⟨2, [0x41, 0x42]⟩⟩], none) ∧
        ∀ sym : Symbol, sym.WellFormed (fun _ => []) → ∀ k < sym.size,
          decodeAll (fun _ => [])
              ([(⟨⟨0x80010000, kindName1⟩, .name1 ⟨2, [0x41, 0x42]⟩⟩ : Symbol)].flatMap Symbol.encode ++ sym.encode.take k) =
            ([⟨⟨0x80010000, kindName1⟩, .name1 ⟨2, [0x41, 0x42]⟩⟩], if cutCause sym.chunks k = .eof then none
              else some (if k < SymbolHeader.size then none else some sym.hdr, cutCause sym.chunks k))) :=
  ⟨by decide, decodeAll_records (fun _ => []) _ (by decide)⟩

/-- A `Name1` record, then the header of a second one and nothing more: the decode returns the first record and no
error. -/
example : decodeAll (fun _ => []) [0, 0, 1, 0x80, 0x01, 2, 0x41, 0x42, 0, 0, 0, 0, 0x01] =
    ([⟨⟨0x80010000, kindName1⟩, .name1 ⟨2, [0x41, 0x42]⟩⟩], none) := by decide

/-- The decode with any fuel beyond the stream's length: every record it returns is well formed, their encodings
are the stream's first bytes, and it stopped where `parseSymbol` failed. -/
theorem decodeSymbols_sound : ∀ fuel s, s.length < fuel →
    (∀ sym ∈ (decodeSymbols mods fuel s).1, sym.WellFormed mods) ∧
      ∃ t e, s = (decodeSymbols mods fuel s).1.flatMap Symbol.encode ++ t ∧ parseSymbol mods t = .error e ∧
        (decodeSymbols mods fuel s).2 = if e.2 = .eof then none else some e
  | 0, _, hs => absurd hs (Nat.not_lt_zero _)
  | fuel + 1, s, hs => by
    cases hp : parseSymbol mods s with
    | error e =>
      rw [decodeSymbols, hp]
      exact ⟨fun _ h => absurd h (List.not_mem_nil _), s, e, rfl, hp, rfl⟩
    | ok r =>
      obtain ⟨sym, rest⟩ := r
      obtain ⟨hw, rfl⟩ := parseSymbol_eq_ok.1 hp
      have hr := length_lt_of_parseSymbol hp
      obtain ⟨hall, t, e, ht, he, herr⟩ := decodeSymbols_sound fuel rest (by omega)
      simp only [decodeSymbols, hp, List.mem_cons, forall_eq_or_imp, List.flatMap_cons, List.append_assoc]
      exact ⟨⟨hw, hall⟩, t, e, by rw [← ht], he, herr⟩

/-- The unknown-kind error reads no byte of the body: it comes the same whatever the stream holds. -/
theorem parseSymbolBody_of_unknownKind {kind k : Kind} {s : List UInt8}
    (h : parseSymbolBody mods kind s = .error (.unknownKind k)) (s' : List UInt8) :
    parseSymbolBody mods kind s' = .error (.unknownKind k) := by
  by_cases hk : kind ∈ [kindName1, kindName2, kindDef, kindDef2, kindOverlay]
  · rcases endsOnly_parseSymbolBody mods hk s _ h with h | h <;> cases h
  · rw [parseSymbolBody_unknown mods hk] at h ⊢
    exact h

/-- An unknown kind is reported the same whatever follows the stream. -/
theorem parseSymbol_append_of_unknownKind {s : List UInt8} {e : Option SymbolHeader × Cause} {k : Kind}
    (h : parseSymbol mods s = .error e) (hk : e.2 = .unknownKind k) (t : List UInt8) :
    parseSymbol mods (s ++ t) = .error e := by
  unfold parseSymbol at h ⊢
  split at h
  · rename_i c hh
    cases h
    rcases endsOnly_parseSymbolHeader s _ hh with rfl | rfl <;> cases hk
  · rename_i hdr s₁ hh
    have hh' : parseSymbolHeader (s ++ t) = .ok (hdr, s₁ ++ t) :=
      parseSymbolHeader_eq_ok.2 (by rw [parseSymbolHeader_eq_ok.1 hh, List.append_assoc])
    split at h
    · rename_i c hb
      cases h; cases hk
      rw [hh']; dsimp only; rw [parseSymbolBody_of_unknownKind hb (s₁ ++ t)]
    · cases h

end Decode

/-- **The decode returns only what the stream holds.**  For every stream, the records the decode returns are well
formed, their encodings are the stream's first bytes, in order and with nothing skipped, and the decode stopped
where `parseSymbol` failed on the bytes left: with no error when the failure's cause is `io.EOF`, with the failure
otherwise. -/
theorem decodeAll_sound (mods : UInt16 → List Nat) (s : List UInt8) :
    (∀ sym ∈ (decodeAll mods s).1, sym.WellFormed mods) ∧
      ∃ t e, s = (decodeAll mods s).1.flatMap Symbol.encode ++ t ∧ parseSymbol mods t = .error e ∧
        (decodeAll mods s).2 = if e.2 = .eof then none else some e :=
  decodeSymbols_sound _ s (Nat.lt_succ_self _)

/-- **Reading more of a stream never takes back a record.**  For every stream and every continuation of it, the
records the decode returns for the stream are the first records it returns for the longer stream.  And when the
decode ended at an unknown kind, more bytes change nothing: `parseSymbol` reads no byte of a body whose kind it does
not know, so the longer stream's decode ends at the same error. -/
theorem decodeAll_append (mods : UInt16 → List Nat) (s t : List UInt8) :
    (decodeAll mods s).1 <+: (decodeAll mods (s ++ t)).1 ∧
      ∀ hdr k, (decodeAll mods s).2 = some (hdr, .unknownKind k) → decodeAll mods (s ++ t) = decodeAll mods s := by
  have hsnd := @decodeSymbols_sound mods (s.length + 1) s (Nat.lt_succ_self _)
  rw [← decodeAll] at hsnd
  obtain ⟨hw, t₀, e, hs, he, herr⟩ := hsnd
  have hst := decodeAll_flatMap _ hw (t₀ ++ t)
  rw [← List.append_assoc, ← hs] at hst
  refine ⟨⟨_, by rw [hst]⟩, fun hdr k hk => ?_⟩
  rw [herr] at hk
  split_ifs at hk; cases hk
  rw [hst, decodeAll_of_error (parseSymbol_append_of_unknownKind he rfl t), List.append_nil]
  exact Prod.ext rfl herr.symm

end PsxSym
