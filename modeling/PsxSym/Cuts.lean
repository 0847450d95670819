import PsxSym.Truncation
/-!
# Cuts — what `parseSymbol` reports at every point a record can be cut

`parseSymbol` reads a record field by field: each field with one `io.ReadFull` (through `binary.Read` or `struc`),
and each dimension group with `Dimensions.Unpack`.  A stream that ends inside a field is reported as
`io.ErrUnexpectedEOF`.  One that ends right before a field is reported as `io.EOF`, the cause of a clean end of
stream, except right before a dimension group, whose `io.EOF` `Dimensions.Unpack` turns into
`io.ErrUnexpectedEOF`.

`Symbol.chunks` lists a record's fields in the order `parseSymbol` reads them, each with whether an end right before
it is `io.EOF`, and `cutCause` reads the cause of a cut after `k` bytes off that list.  `ReadsChunks d v cs` says
that `d` reads `v` from the fields `cs` and fails as `cutCause` says on each of their cuts: it holds of `readFull`,
`bind` keeps it, and so it holds of every decoder of `Symbol.lean` and of `parseSymbol` (`parseSymbol_cut`).
-/
namespace PsxSym

/-! ## Fields and their cuts -/

/-- A field as the decoder reads it: its bytes, and whether a stream that ends right before it is reported as
`io.EOF`. -/
structure Chunk where
  bytes : List UInt8
  eofBefore : Bool
  deriving DecidableEq, Repr

/-- The bytes of a list of fields, in order. -/
def joinChunks (cs : List Chunk) : List UInt8 := cs.flatMap Chunk.bytes

/-- The cause of an end of stream after `k` bytes of the fields `cs`: `io.EOF` right before a field that reports
it so, `io.ErrUnexpectedEOF` anywhere else. -/
def cutCause : List Chunk → Nat → Cause
  | [], _ => .unexpectedEOF
  | c :: cs, k =>
    if k < c.bytes.length then (if k = 0 ∧ c.eofBefore = true then .eof else .unexpectedEOF)
    else cutCause cs (k - c.bytes.length)

@[simp] theorem joinChunks_nil : joinChunks [] = [] := rfl

@[simp] theorem joinChunks_cons (c : Chunk) (cs : List Chunk) : joinChunks (c :: cs) = c.bytes ++ joinChunks cs :=
  rfl

theorem joinChunks_append (cs ds : List Chunk) : joinChunks (cs ++ ds) = joinChunks cs ++ joinChunks ds :=
  List.flatMap_append _ _ _

theorem cutCause_append (cs ds : List Chunk) (k : Nat) :
    cutCause (cs ++ ds) k =
      if k < (joinChunks cs).length then cutCause cs k else cutCause ds (k - (joinChunks cs).length) := by
  induction cs generalizing k with
  | nil => simp [cutCause]
  | cons c cs ih =>
    simp only [List.cons_append, List.append_eq, cutCause, ih, joinChunks_cons, List.length_append]
    by_cases h : k < c.bytes.length
    · simp only [if_pos h, if_pos (show k < c.bytes.length + (joinChunks cs).length by omega)]
    · have e : k - c.bytes.length < (joinChunks cs).length ↔ k < c.bytes.length + (joinChunks cs).length := by omega
      simp only [if_neg h, e, Nat.sub_sub]

/-! ## Decoders that fail so on every cut -/

section Reads

variable {α β : Type}

/-- `d` reads `v` from the fields `cs`, whatever follows them, and fails on their first `k` bytes, for every `k`
short of all of them, with the cause `cutCause cs k`. -/
def ReadsChunks (d : Decoder α) (v : α) (cs : List Chunk) : Prop :=
  (∀ s, d (joinChunks cs ++ s) = .ok (v, s)) ∧
    ∀ k < (joinChunks cs).length, d ((joinChunks cs).take k) = .error (cutCause cs k)

theorem readsChunks_pure (a : α) : ReadsChunks (pure a : Decoder α) a [] :=
  ⟨fun _ => rfl, fun k hk => absurd hk (Nat.not_lt_zero k)⟩

theorem ReadsChunks.bind {x : Decoder α} {f : α → Decoder β} {a : α} {b : β} {cs ds : List Chunk}
    (hx : ReadsChunks x a cs) (hf : ReadsChunks (f a) b ds) : ReadsChunks (x >>= f) b (cs ++ ds) := by
  refine ⟨fun s => ?_, fun k hk => ?_⟩
  · rw [joinChunks_append, List.append_assoc, bind_of_ok (hx.1 _), hf.1]
  · rw [joinChunks_append, List.length_append] at hk
    rw [cutCause_append, joinChunks_append]
    by_cases h : k < (joinChunks cs).length
    · rw [if_pos h, List.take_append_of_le_length h.le, bind_of_error (hx.2 k h)]
    · rw [if_neg h, List.take_append_eq_append_take, List.take_of_length_le (by omega), bind_of_ok (hx.1 _),
        hf.2 _ (by omega)]

theorem ReadsChunks.map {d : Decoder α} {a : α} {cs : List Chunk} (hd : ReadsChunks d a cs) (g : α → β) :
    ReadsChunks (d >>= fun a => pure (g a)) (g a) cs := by
  simpa using ReadsChunks.bind (f := fun a => pure (g a)) hd (readsChunks_pure (g a))

end Reads

/-! ## The reads of one field -/

theorem readsChunks_readFull (bs : List UInt8) : ReadsChunks (readFull bs.length) bs [⟨bs, true⟩] := by
  have hj : joinChunks [⟨bs, true⟩] = bs := List.append_nil bs
  refine ⟨fun s => by rw [hj]; exact readFull_append bs s, fun k hk => ?_⟩
  rw [hj] at hk ⊢
  rw [readFull_of_lt (by rw [List.length_take]; omega), cutCause, if_pos hk]
  rcases Nat.eq_zero_or_pos k with rfl | hk₀
  · rfl
  · have : bs.take k ≠ [] := List.ne_nil_of_length_pos (by rw [List.length_take]; omega)
    simp [this, hk₀.ne']

theorem readsChunks_readLE {w v : Nat} (hv : v < 256 ^ w) : ReadsChunks (readLE w) v [⟨toLE w v, true⟩] := by
  have h := (readsChunks_readFull (toLE w v)).map ofLE
  rwa [length_toLE, ofLE_toLE, Nat.mod_eq_of_lt hv] at h

theorem readsChunks_readU8 (b : UInt8) : ReadsChunks readU8 b [⟨[b], true⟩] := by
  have h := (readsChunks_readLE (w := 1) (by simpa using b.toNat_lt_size)).map UInt8.ofNat
  have hb : UInt8.ofNat b.toNat = b := UInt8.toNat.inj (UInt8.toNat_ofNat_of_lt b.toNat_lt_size)
  rwa [hb, show toLE 1 b.toNat = [b] by simp [toLE, Nat.mod_eq_of_lt b.toNat_lt_size, hb]] at h

theorem readsChunks_readU16 (c : UInt16) : ReadsChunks readU16 c [⟨toLE 2 c.toNat, true⟩] := by
  have h := (readsChunks_readLE (w := 2) (by simpa using c.toNat_lt_size)).map UInt16.ofNat
  rwa [show UInt16.ofNat c.toNat = c from UInt16.toNat.inj (UInt16.toNat_ofNat_of_lt c.toNat_lt_size)] at h

theorem readsChunks_readU32 (c : UInt32) : ReadsChunks readU32 c [⟨toLE 4 c.toNat, true⟩] := by
  have h := (readsChunks_readLE (w := 4) (by simpa using c.toNat_lt_size)).map UInt32.ofNat
  rwa [show UInt32.ofNat c.toNat = c from UInt32.toNat.inj (UInt32.toNat_ofNat_of_lt c.toNat_lt_size)] at h

theorem readsChunks_readIfPos {n : UInt8} {bs : List UInt8} (h : bs.length = n.toNat) :
    ReadsChunks (readIfPos n) bs [⟨bs, true⟩] := by
  unfold readIfPos
  split
  · rw [← h]; exact readsChunks_readFull bs
  · rename_i hn
    have hbs : bs = [] := List.length_eq_zero.1 (h.trans (by
      have h' := UInt8.not_lt.1 hn
      rw [UInt8.le_def, BitVec.le_def] at h'
      exact Nat.le_zero.1 h'))
    subst hbs
    exact ⟨fun _ => rfl, fun k hk => absurd hk (Nat.not_lt_zero k)⟩

/-- A dimension group: every cut of it is `io.ErrUnexpectedEOF`, the one right before it included. -/
theorem readsChunks_unpack {dims : Dimensions} (hd : dims.Terminated) :
    ReadsChunks (Dimensions.unpack [] : Decoder Dimensions) dims [⟨encodeDims dims, false⟩] := by
  have hj : joinChunks [⟨encodeDims dims, false⟩] = encodeDims dims := List.append_nil _
  refine ⟨fun s => by rw [hj]; exact unpack_eq_ok.2 ⟨hd, rfl⟩, fun k hk => ?_⟩
  rw [hj] at hk ⊢
  rw [cutCause, if_pos hk, if_neg (by simp)]
  cases hp : Dimensions.unpack [] ((encodeDims dims).take k) with
  | error c => rw [unpack_error hp]
  | ok r =>
    obtain ⟨d', r'⟩ := r
    obtain ⟨hd', hs⟩ := unpack_eq_ok.1 hp
    have h₁ : Dimensions.unpack [] (encodeDims dims) = .ok (d', r' ++ (encodeDims dims).drop k) :=
      unpack_eq_ok.2 ⟨hd', by rw [← List.append_assoc, ← hs, List.take_append_drop]⟩
    rw [← List.append_nil (encodeDims dims), unpack_eq_ok.2 ⟨hd, rfl⟩, List.append_nil] at h₁
    have h₂ := (List.append_eq_nil.1 (Prod.mk.inj (Except.ok.inj h₁)).2.symm).2
    exact absurd (List.drop_eq_nil_iff.1 h₂) (by omega)

theorem readsChunks_readDims : ∀ ds : List Dimensions, (∀ dims ∈ ds, dims.Terminated) →
    ReadsChunks (readDims ds.length) ds (ds.map fun dims => ⟨encodeDims dims, false⟩)
  | [], _ => readsChunks_pure _
  | d :: ds, h => (readsChunks_unpack (h d (List.mem_cons_self d ds))).bind
      ((readsChunks_readDims ds fun x hx => h x (List.mem_cons_of_mem d hx)).map (d :: ·))

/-! ## The fields of a record -/

def SymbolHeader.chunks (hdr : SymbolHeader) : List Chunk := [⟨toLE 4 hdr.value.toNat, true⟩, ⟨[hdr.kind], true⟩]

/-- The fields of a body, in the order its decoder reads them; only a dimension group reports a stream that ends
right before it as `io.ErrUnexpectedEOF`. -/
def SymbolBody.chunks : SymbolBody → List Chunk
  | .name1 b | .name2 b => [⟨[b.nameLen], true⟩, ⟨b.name, true⟩]
  | .def b => [⟨toLE 2 b.class.toNat, true⟩, ⟨toLE 2 b.type.toNat, true⟩, ⟨toLE 4 b.size.toNat, true⟩,
      ⟨[b.nameLen], true⟩, ⟨b.name, true⟩]
  | .def2 b => [⟨toLE 2 b.class.toNat, true⟩, ⟨toLE 2 b.type.toNat, true⟩, ⟨toLE 4 b.size.toNat, true⟩] ++
      b.dims.map (fun dims => ⟨encodeDims dims, false⟩) ++
      [⟨[b.tagLen], true⟩, ⟨b.tag, true⟩, ⟨[b.nameLen], true⟩, ⟨b.name, true⟩]
  | .overlay b => [⟨toLE 4 b.length.toNat, true⟩, ⟨toLE 4 b.id.toNat, true⟩]

/-- The fields of a record: its header's, then its body's. -/
def Symbol.chunks (sym : Symbol) : List Chunk := sym.hdr.chunks ++ sym.body.chunks

theorem joinChunks_header (hdr : SymbolHeader) : joinChunks hdr.chunks = hdr.encode := by
  simp [SymbolHeader.chunks, SymbolHeader.encode]

theorem joinChunks_body (body : SymbolBody) : joinChunks body.chunks = body.encode := by
  cases body <;>
    simp [SymbolBody.chunks, SymbolBody.encode, Name.encode, Def.encode, Def2.encode, Overlay.encode, joinChunks_append,
      joinChunks, List.flatMap_map]

theorem readsChunks_parseSymbolHeader (hdr : SymbolHeader) : ReadsChunks parseSymbolHeader hdr hdr.chunks :=
  (readsChunks_readU32 hdr.value).bind ((readsChunks_readU8 hdr.kind).map _)

theorem readsChunks_parseSymbolBody (mods : UInt16 → List Nat) {body : SymbolBody} (hf : body.Faithful mods) :
    ReadsChunks (parseSymbolBody mods body.kind) body body.chunks := by
  have name (b : Name) (h : b.name.length = b.nameLen.toNat) :
      ReadsChunks Name.unpack b [⟨[b.nameLen], true⟩, ⟨b.name, true⟩] :=
    (readsChunks_readU8 b.nameLen).bind (h ▸ (readsChunks_readFull b.name).map _)
  cases body with
  | name1 b => exact (name b hf).map _
  | name2 b =>
    rw [parseSymbolBody, SymbolBody.kind, if_neg (by decide), if_pos rfl]
    exact (name b hf).map _
  | «def» b =>
    rw [parseSymbolBody, SymbolBody.kind, if_neg (by decide), if_neg (by decide), if_pos rfl]
    exact ((readsChunks_readU16 b.class).bind <| (readsChunks_readU16 b.type).bind <|
      (readsChunks_readU32 b.size).bind <| (readsChunks_readU8 b.nameLen).bind <|
      (hf ▸ (readsChunks_readFull b.name).map _ :)).map _
  | def2 b =>
    obtain ⟨hl, hds, htg, hnm⟩ := hf
    rw [parseSymbolBody, SymbolBody.kind, if_neg (by decide), if_neg (by decide), if_neg (by decide), if_pos rfl]
    have hdims : ReadsChunks (readDims (narray mods b.type)) b.dims
        (b.dims.map fun dims => ⟨encodeDims dims, false⟩) := by
      rw [narray_eq, ← hl]; exact readsChunks_readDims b.dims hds
    exact ((readsChunks_readU16 b.class).bind <| (readsChunks_readU16 b.type).bind <|
      (readsChunks_readU32 b.size).bind <| hdims.bind <| (readsChunks_readU8 b.tagLen).bind <|
      (readsChunks_readIfPos htg).bind <| (readsChunks_readU8 b.nameLen).bind <|
      (readsChunks_readIfPos hnm).map _).map _
  | overlay b =>
    rw [parseSymbolBody, SymbolBody.kind, if_neg (by decide), if_neg (by decide), if_neg (by decide),
      if_neg (by decide), if_pos rfl]
    exact ((readsChunks_readU32 b.length).bind ((readsChunks_readU32 b.id).map _)).map _

/-- `parseSymbol` on the first `k` bytes of a well-formed record, `k` short of the whole record. -/
theorem parseSymbol_take {mods : UInt16 → List Nat} {sym : Symbol} (hw : sym.WellFormed mods) {k : Nat}
    (hk : k < sym.size) :
    parseSymbol mods (sym.encode.take k) =
      .error (if k < SymbolHeader.size then none else some sym.hdr, cutCause sym.chunks k) := by
  have hh := readsChunks_parseSymbolHeader sym.hdr
  have hb := hw.1 ▸ readsChunks_parseSymbolBody mods hw.2
  have h5 : (joinChunks sym.hdr.chunks).length = SymbolHeader.size := by
    simp [joinChunks_header, SymbolHeader.encode, SymbolHeader.size]
  have hlen : (joinChunks sym.body.chunks).length = sym.body.bodySize := by
    rw [joinChunks_body, length_encode_body mods hw.2]
  rw [Symbol.chunks, cutCause_append, h5, Symbol.encode, ← joinChunks_header, ← joinChunks_body]
  unfold parseSymbol
  by_cases hk5 : k < SymbolHeader.size
  · rw [List.take_append_of_le_length (by omega), hh.2 k (by omega), if_pos hk5, if_pos hk5]
  · rw [List.take_append_eq_append_take, List.take_of_length_le (by omega), hh.1, h5, if_neg hk5, if_neg hk5]
    dsimp only
    rw [hb.2 _ (by simp only [Symbol.size] at hk; omega)]

/-- **Where a cut record is reported as a clean end of stream.**  On the first `k` bytes of a well-formed record,
for every `k` short of the whole record, `parseSymbol` fails, with the header once its five bytes are there, and
with the cause `cutCause sym.chunks k`: `io.EOF` when the cut falls right before a field read by `binary.Read`,
`struc` or `io.ReadFull` (before the header, its kind, a length, a name or tag, or an integer field), and
`io.ErrUnexpectedEOF` inside a field and anywhere in or right before a dimension group. -/
theorem parseSymbol_cut (mods : UInt16 → List Nat) (sym : Symbol) (hw : sym.WellFormed mods) (k : Nat)
    (hk : k < sym.size) :
    parseSymbol mods (sym.encode.take k) =
      .error (if k < SymbolHeader.size then none else some sym.hdr, cutCause sym.chunks k) :=
  parseSymbol_take hw hk

theorem parseSymbol_cut_before_dims :
    Symbol.WellFormed (fun _ => []) ⟨⟨0, kindDef2⟩, .def2 ⟨8, 4, 4, [[0]], 0, [], 1, [0x72]⟩⟩ ∧
      13 < Symbol.size ⟨⟨0, kindDef2⟩, .def2 ⟨8, 4, 4, [[0]], 0, [], 1, [0x72]⟩⟩ ∧
      parseSymbol (fun _ => []) ((Symbol.encode ⟨⟨0, kindDef2⟩, .def2 ⟨8, 4, 4, [[0]], 0, [], 1, [0x72]⟩⟩).take 13) =
        .error (if 13 < SymbolHeader.size then none else some ⟨0, kindDef2⟩,
          cutCause (Symbol.chunks ⟨⟨0, kindDef2⟩, .def2 ⟨8, 4, 4, [[0]], 0, [], 1, [0x72]⟩⟩) 13) :=
  ⟨by decide, by decide, parseSymbol_cut _ _ (by decide) 13 (by decide)⟩

/-- The cuts of an 18-byte `Def2` record reported as `io.EOF`: before the header and its kind, before `Class`,
`Type` and `Size`, and, past its one dimension group, before `TagLen`, `NameLen` (its tag is empty) and `Name`. -/
example : (List.range 18).filter (fun k =>
      cutCause (Symbol.chunks ⟨⟨0, kindDef2⟩, .def2 ⟨8, 4, 4, [[0]], 0, [], 1, [0x72]⟩⟩) k = .eof) =
    [0, 4, 5, 7, 9, 15, 16, 17] := by decide

end PsxSym
