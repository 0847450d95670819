import PsxSym.Dimensions
/-!
# Format — the record grammar, and `parseSymbol` against it

The symbol format as the spec writes it (§6): a header `Value:u32 Kind:u8`, then the kind's body, every integer
little-endian, every name and tag prefixed by its one-byte length, and a `Def2` body carrying
`max(1, count of array modifiers)` dimension groups.  `Symbol.encode` lays a symbol out in that grammar and
`Symbol.WellFormed` says which symbols it lays out faithfully: lengths that match, groups that end at their first
`0`, as many groups as the type asks for, and the body the kind names.

`parseSymbol_eq_ok` is the round trip: `parseSymbol` succeeds on exactly the streams that begin with the encoding of
a well-formed symbol, returns that symbol and hands back the rest.  Every decoder of `Symbol.lean` gets one such
`_eq_ok` lemma, and each is proved from the ones below it, never by unfolding them.
-/
namespace PsxSym

/-! ## The grammar -/

def SymbolHeader.encode (hdr : SymbolHeader) : List UInt8 := toLE 4 hdr.value.toNat ++ [hdr.kind]

def Name.encode (body : Name) : List UInt8 := body.nameLen :: body.name

def Def.encode (body : Def) : List UInt8 :=
  toLE 2 body.class.toNat ++ toLE 2 body.type.toNat ++ toLE 4 body.size.toNat ++ body.nameLen :: body.name

def Def2.encode (body : Def2) : List UInt8 :=
  toLE 2 body.class.toNat ++ toLE 2 body.type.toNat ++ toLE 4 body.size.toNat ++ body.dims.flatMap encodeDims ++
    body.tagLen :: body.tag ++ body.nameLen :: body.name

def Overlay.encode (body : Overlay) : List UInt8 := toLE 4 body.length.toNat ++ toLE 4 body.id.toNat

def SymbolBody.encode : SymbolBody → List UInt8
  | .name1 body => body.encode
  | .name2 body => body.encode
  | .def body => body.encode
  | .def2 body => body.encode
  | .overlay body => body.encode

def Symbol.encode (sym : Symbol) : List UInt8 := sym.hdr.encode ++ sym.body.encode

/-- A dimension group: lengths up to and including the first `0`. -/
def Dimensions.Terminated (dims : Dimensions) : Prop := dims.getLast? = some 0 ∧ 0 ∉ dims.dropLast

instance (dims : Dimensions) : Decidable dims.Terminated := instDecidableAnd

/-- The number of dimension groups the spec gives a `Def2` body: `max(1, count of array modifiers)`. -/
def dimsCount (mods : UInt16 → List Nat) (type : UInt16) : Nat := max 1 ((mods type).count 0x3)

/-- The kind that selects each body. -/
def SymbolBody.kind : SymbolBody → Kind
  | .name1 _ => kindName1
  | .name2 _ => kindName2
  | .def _ => kindDef
  | .def2 _ => kindDef2
  | .overlay _ => kindOverlay

/-- The body's length fields and dimension groups agree with what they describe. -/
def SymbolBody.Faithful (mods : UInt16 → List Nat) : SymbolBody → Prop
  | .name1 body => body.name.length = body.nameLen.toNat
  | .name2 body => body.name.length = body.nameLen.toNat
  | .def body => body.name.length = body.nameLen.toNat
  | .def2 body => body.dims.length = dimsCount mods body.type ∧ (∀ dims ∈ body.dims, dims.Terminated) ∧
      body.tag.length = body.tagLen.toNat ∧ body.name.length = body.nameLen.toNat
  | .overlay _ => True

instance (mods : UInt16 → List Nat) : ∀ body : SymbolBody, Decidable (body.Faithful mods)
  | .name1 _ => Nat.decEq _ _
  | .name2 _ => Nat.decEq _ _
  | .def _ => Nat.decEq _ _
  | .def2 _ => instDecidableAnd
  | .overlay _ => instDecidableTrue

/-- A symbol the grammar lays out: its kind selects its body, and the body is faithful. -/
def Symbol.WellFormed (mods : UInt16 → List Nat) (sym : Symbol) : Prop :=
  sym.hdr.kind = sym.body.kind ∧ sym.body.Faithful mods

instance (mods : UInt16 → List Nat) (sym : Symbol) : Decidable (sym.WellFormed mods) := instDecidableAnd

theorem terminated_iff {dims : Dimensions} : dims.Terminated ↔ ∃ vs, 0 ∉ vs ∧ dims = vs ++ [0] := by
  constructor
  · rintro ⟨hl, hd⟩
    exact ⟨dims.dropLast, hd, (List.dropLast_append_getLast? 0 hl).symm⟩
  · rintro ⟨vs, hvs, rfl⟩
    simp [Dimensions.Terminated, hvs]

/-- The loop of `parseDef2` that counts the `ARY` modifiers. -/
theorem foldl_count_ary : ∀ (l : List Nat) (k : Nat),
    l.foldl (fun narray mod => if mod = 0x3 then narray + 1 else narray) k = k + l.count 0x3
  | [], k => rfl
  | m :: l, k => by
    rw [List.foldl_cons, foldl_count_ary l, List.count_cons]
    by_cases hm : m = 0x3
    · simp only [hm, if_true, beq_self_eq_true]; omega
    · simp only [hm, if_false, beq_iff_eq, Nat.add_zero]

theorem narray_eq (mods : UInt16 → List Nat) (type : UInt16) : narray mods type = dimsCount mods type := by
  simp only [narray, dimsCount, foldl_count_ary, Nat.zero_add]
  split <;> omega

theorem unpack_eq_ok {dims : Dimensions} {s s' : List UInt8} :
    Dimensions.unpack [] s = .ok (dims, s') ↔ dims.Terminated ∧ s = encodeDims dims ++ s' := by
  constructor
  · intro h
    obtain ⟨vs, hvs, rfl, rfl⟩ := unpack_sound h
    exact ⟨terminated_iff.2 ⟨vs, hvs, by simp⟩, by simp⟩
  · rintro ⟨hd, rfl⟩
    obtain ⟨vs, hvs, rfl⟩ := terminated_iff.1 hd
    simpa using unpack_encodeDims vs hvs [] s'

/-! ## One lemma per decoder -/

section Decoders

variable {mods : UInt16 → List Nat} {s s' : List UInt8}

theorem parseSymbolHeader_eq_ok {hdr : SymbolHeader} : parseSymbolHeader s = .ok (hdr, s') ↔ s = hdr.encode ++ s' := by
  simp only [parseSymbolHeader, bind_eq_ok, readU32_eq_ok, readU8_eq_ok, pure_apply, Except.ok.injEq, Prod.mk.injEq,
    SymbolHeader.encode]
  constructor
  · rintro ⟨v, s₁, rfl, k, s₂, rfl, rfl, rfl⟩; simp
  · rintro rfl; exact ⟨hdr.value, _, rfl, hdr.kind, s', by simp, rfl, rfl⟩

theorem Name.unpack_eq_ok {body : Name} :
    Name.unpack s = .ok (body, s') ↔ body.name.length = body.nameLen.toNat ∧ s = body.encode ++ s' := by
  simp only [Name.unpack, bind_eq_ok, readU8_eq_ok, readFull_eq_ok, pure_apply, Except.ok.injEq, Prod.mk.injEq,
    Name.encode]
  constructor
  · rintro ⟨l, s₁, rfl, n, s₂, ⟨hn, rfl⟩, rfl, rfl⟩; exact ⟨hn, rfl⟩
  · rintro ⟨hn, rfl⟩; exact ⟨_, _, rfl, _, s', ⟨hn, rfl⟩, rfl, rfl⟩

theorem Def.unpack_eq_ok {body : Def} :
    Def.unpack s = .ok (body, s') ↔ body.name.length = body.nameLen.toNat ∧ s = body.encode ++ s' := by
  simp only [Def.unpack, bind_eq_ok, readU16_eq_ok, readU32_eq_ok, readU8_eq_ok, readFull_eq_ok, pure_apply,
    Except.ok.injEq, Prod.mk.injEq, Def.encode]
  constructor
  · rintro ⟨c, s₁, rfl, t, s₂, rfl, z, s₃, rfl, l, s₄, rfl, n, s₅, ⟨hn, rfl⟩, rfl, rfl⟩; simp [hn]
  · rintro ⟨hn, rfl⟩; exact ⟨_, _, by simp, _, _, rfl, _, _, rfl, _, _, rfl, _, s', ⟨hn, rfl⟩, rfl, rfl⟩

theorem Overlay.unpack_eq_ok {body : Overlay} : Overlay.unpack s = .ok (body, s') ↔ s = body.encode ++ s' := by
  simp only [Overlay.unpack, bind_eq_ok, readU32_eq_ok, pure_apply, Except.ok.injEq, Prod.mk.injEq, Overlay.encode]
  constructor
  · rintro ⟨l, s₁, rfl, i, s₂, rfl, rfl, rfl⟩; simp
  · rintro rfl; exact ⟨_, _, by simp, _, s', rfl, rfl, rfl⟩

theorem readDims_eq_ok {n : Nat} {ds : List Dimensions} :
    readDims n s = .ok (ds, s') ↔
      ds.length = n ∧ (∀ dims ∈ ds, dims.Terminated) ∧ s = ds.flatMap encodeDims ++ s' := by
  induction n generalizing s s' ds with
  | zero =>
    simp only [readDims, pure_apply, Except.ok.injEq, Prod.mk.injEq, List.length_eq_zero]
    constructor
    · rintro ⟨rfl, rfl⟩; simp
    · rintro ⟨rfl, -, rfl⟩; simp
  | succ n ih =>
    simp only [readDims, bind_eq_ok, unpack_eq_ok, ih, pure_apply, Except.ok.injEq, Prod.mk.injEq]
    constructor
    · rintro ⟨d, s₁, ⟨hd, rfl⟩, ds, s₂, ⟨rfl, hds, rfl⟩, rfl, rfl⟩
      exact ⟨rfl, by simpa [hd] using hds, by simp⟩
    · rintro ⟨hl, hds, rfl⟩
      obtain ⟨d, ds, rfl⟩ := List.exists_cons_of_length_eq_add_one hl
      exact ⟨d, _, ⟨hds d (List.mem_cons_self d ds), by simp⟩, ds, s', ⟨by simpa using hl,
        fun x hx => hds x (List.mem_cons_of_mem d hx), rfl⟩, rfl, rfl⟩

theorem readIfPos_eq_ok {n : UInt8} {bs : List UInt8} :
    readIfPos n s = .ok (bs, s') ↔ bs.length = n.toNat ∧ s = bs ++ s' := by
  unfold readIfPos
  split
  · exact readFull_eq_ok
  · rename_i hn
    have hn : n.toNat = 0 := by
      have h := UInt8.not_lt.1 hn
      rw [UInt8.le_def, BitVec.le_def] at h
      exact Nat.le_zero.1 h
    simp only [pure_apply, Except.ok.injEq, Prod.mk.injEq, hn, List.length_eq_zero]
    constructor
    · rintro ⟨rfl, rfl⟩; simp
    · rintro ⟨rfl, rfl⟩; simp

theorem parseDef2_eq_ok {body : Def2} :
    parseDef2 mods s = .ok (body, s') ↔ (SymbolBody.def2 body).Faithful mods ∧ s = body.encode ++ s' := by
  simp only [parseDef2, bind_eq_ok, readU16_eq_ok, readU32_eq_ok, readDims_eq_ok, readU8_eq_ok, readIfPos_eq_ok,
    pure_apply, Except.ok.injEq, Prod.mk.injEq, SymbolBody.Faithful, Def2.encode, narray_eq]
  constructor
  · rintro ⟨c, s₁, rfl, t, s₂, rfl, z, s₃, rfl, ds, s₄, ⟨hl, hds, rfl⟩, tl, s₅, rfl, tg, s₆, ⟨htg, rfl⟩,
      nl, s₇, rfl, nm, s₈, ⟨hnm, rfl⟩, rfl, rfl⟩
    exact ⟨⟨hl, hds, htg, hnm⟩, by simp⟩
  · rintro ⟨⟨hl, hds, htg, hnm⟩, rfl⟩
    exact ⟨_, _, by simp, _, _, rfl, _, _, rfl, _, _, ⟨hl, hds, rfl⟩, _, _, rfl, _, _, ⟨htg, rfl⟩, _, _, rfl,
      _, s', ⟨hnm, rfl⟩, rfl, rfl⟩

theorem bind_pure_eq_ok {α β : Type} {d : Decoder α} {f : α → β} {b : β} :
    (d >>= fun a => pure (f a)) s = .ok (b, s') ↔ ∃ a, d s = .ok (a, s') ∧ f a = b := by
  simp only [bind_eq_ok, pure_apply, Except.ok.injEq, Prod.mk.injEq]
  constructor
  · rintro ⟨a, s₁, h, rfl, rfl⟩; exact ⟨a, h, rfl⟩
  · rintro ⟨a, h, rfl⟩; exact ⟨a, s', h, rfl, rfl⟩

theorem parseSymbolBody_eq_ok {kind : Kind} {body : SymbolBody} :
    parseSymbolBody mods kind s = .ok (body, s') ↔ kind = body.kind ∧ body.Faithful mods ∧ s = body.encode ++ s' := by
  constructor
  · intro h
    unfold parseSymbolBody at h
    split_ifs at h with h₁ h₂ h₃ h₄ h₅
    · obtain ⟨b, hb, rfl⟩ := bind_pure_eq_ok.1 h; exact ⟨h₁, Name.unpack_eq_ok.1 hb⟩
    · obtain ⟨b, hb, rfl⟩ := bind_pure_eq_ok.1 h; exact ⟨h₂, Name.unpack_eq_ok.1 hb⟩
    · obtain ⟨b, hb, rfl⟩ := bind_pure_eq_ok.1 h; exact ⟨h₃, Def.unpack_eq_ok.1 hb⟩
    · obtain ⟨b, hb, rfl⟩ := bind_pure_eq_ok.1 h; exact ⟨h₄, parseDef2_eq_ok.1 hb⟩
    · obtain ⟨b, hb, rfl⟩ := bind_pure_eq_ok.1 h; exact ⟨h₅, trivial, Overlay.unpack_eq_ok.1 hb⟩
  · rintro ⟨rfl, hf, rfl⟩
    cases body with
    | name1 b => exact bind_pure_eq_ok.2 ⟨b, Name.unpack_eq_ok.2 ⟨hf, rfl⟩, rfl⟩
    | name2 b =>
      rw [parseSymbolBody, SymbolBody.kind, if_neg (by decide), if_pos rfl]
      exact bind_pure_eq_ok.2 ⟨b, Name.unpack_eq_ok.2 ⟨hf, rfl⟩, rfl⟩
    | «def» b =>
      rw [parseSymbolBody, SymbolBody.kind, if_neg (by decide), if_neg (by decide), if_pos rfl]
      exact bind_pure_eq_ok.2 ⟨b, Def.unpack_eq_ok.2 ⟨hf, rfl⟩, rfl⟩
    | def2 b =>
      rw [parseSymbolBody, SymbolBody.kind, if_neg (by decide), if_neg (by decide), if_neg (by decide), if_pos rfl]
      exact bind_pure_eq_ok.2 ⟨b, parseDef2_eq_ok.2 ⟨hf, rfl⟩, rfl⟩
    | overlay b =>
      rw [parseSymbolBody, SymbolBody.kind, if_neg (by decide), if_neg (by decide), if_neg (by decide), if_neg (by decide), if_pos rfl]
      exact bind_pure_eq_ok.2 ⟨b, Overlay.unpack_eq_ok.2 rfl, rfl⟩

theorem parseSymbol_eq_ok {sym : Symbol} :
    parseSymbol mods s = .ok (sym, s') ↔ sym.WellFormed mods ∧ s = sym.encode ++ s' := by
  unfold parseSymbol
  constructor
  · intro h
    split at h
    · cases h
    · rename_i hdr s₁ hh
      split at h
      · cases h
      · rename_i body s₂ hb
        cases h
        obtain ⟨hk, hf, rfl⟩ := parseSymbolBody_eq_ok.1 hb
        exact ⟨⟨hk, hf⟩, by rw [parseSymbolHeader_eq_ok.1 hh, Symbol.encode, List.append_assoc]⟩
  · rintro ⟨⟨hk, hf⟩, rfl⟩
    rw [Symbol.encode, List.append_assoc, parseSymbolHeader_eq_ok.2 rfl]
    simp only [parseSymbolBody_eq_ok.2 ⟨hk, hf, rfl⟩]

end Decoders

/-! ## Sizes -/

theorem dimsLen_eq (ds : List Dimensions) (k : Nat) :
    ds.foldl (fun dimsLen dims => dimsLen + 2 * dims.length) k = k + (ds.flatMap encodeDims).length := by
  induction ds generalizing k with
  | nil => rfl
  | cons d ds ih => simp only [List.foldl_cons, ih, List.flatMap_cons, List.length_append, length_encodeDims]; omega

/-- A faithful body's `BodySize` is the length of its encoding. -/
theorem length_encode_body (mods : UInt16 → List Nat) {body : SymbolBody} (h : body.Faithful mods) :
    body.encode.length = body.bodySize := by
  cases body with
  | name1 b | name2 b =>
    simp only [SymbolBody.Faithful] at h
    simp only [SymbolBody.encode, SymbolBody.bodySize, Name.encode, Name1.bodySize, Name2.bodySize, Name.bodySize, List.length_cons, h]
    omega
  | «def» b =>
    simp only [SymbolBody.Faithful] at h
    simp only [SymbolBody.encode, SymbolBody.bodySize, Def.encode, Def.bodySize, List.length_append, List.length_cons,
      length_toLE, h]
    omega
  | def2 b =>
    simp only [SymbolBody.Faithful] at h
    simp only [SymbolBody.encode, SymbolBody.bodySize, Def2.encode, Def2.bodySize, dimsLen_eq, List.length_append,
      List.length_cons, length_toLE, h.2.2.1, h.2.2.2]
    omega
  | overlay b => simp [SymbolBody.encode, SymbolBody.bodySize, Overlay.encode, Overlay.bodySize]

theorem length_encode {mods : UInt16 → List Nat} {sym : Symbol} (h : sym.WellFormed mods) :
    sym.encode.length = sym.size := by
  simp only [Symbol.encode, Symbol.size, SymbolHeader.encode, SymbolHeader.size, List.length_append, length_toLE,
    List.length_singleton, length_encode_body mods h.2]

/-! ## The two laws -/

/-- **`parseSymbol` decodes exactly the record grammar.**  It succeeds on `s` exactly when `s` begins with a
well-formed record; and it succeeds with `sym` and `rest` exactly when `sym` is well formed and `s` is its encoding
followed by `rest` — so the fields are the encoded ones, the record's bytes are what is consumed, and the bytes after
it play no part. -/
theorem parseSymbol_decodes_grammar (mods : UInt16 → List Nat) (s : List UInt8) :
    ((∃ sym rest, parseSymbol mods s = .ok (sym, rest)) ↔ ∃ sym : Symbol, sym.WellFormed mods ∧ sym.encode <+: s) ∧
    ∀ sym rest, parseSymbol mods s = .ok (sym, rest) ↔ sym.WellFormed mods ∧ s = sym.encode ++ rest := by
  refine ⟨⟨fun ⟨sym, rest, h⟩ => ?_, fun ⟨sym, hw, rest, hs⟩ => ⟨sym, rest, parseSymbol_eq_ok.2 ⟨hw, hs.symm⟩⟩⟩,
    fun _ _ => parseSymbol_eq_ok⟩
  obtain ⟨hw, rfl⟩ := parseSymbol_eq_ok.1 h
  exact ⟨sym, hw, List.prefix_append _ _⟩

/-- **The size accessors are in lock-step with the parser**: a decoded symbol's `Size` is the number of bytes
`parseSymbol` consumed. -/
theorem parseSymbol_consumed_eq_size (mods : UInt16 → List Nat) (s rest : List UInt8) (sym : Symbol)
    (h : parseSymbol mods s = .ok (sym, rest)) :
    s.length - rest.length = sym.size ∧ sym.size = SymbolHeader.size + sym.body.bodySize := by
  obtain ⟨hw, rfl⟩ := parseSymbol_eq_ok.1 h
  simp [length_encode hw, Symbol.size]

/-- A `Name1` record, and a `Def2` record with one dimension group, `[3]`, no tag and the name `x`. -/
theorem parseSymbol_consumed_eq_size_name1_def2 :
    (parseSymbol (fun _ => []) [0, 0, 1, 0x80, 0x01, 2, 0x41, 0x42, 7] =
        .ok (⟨⟨0x80010000, kindName1⟩, .name1 ⟨2, [0x41, 0x42]⟩⟩, [7]) ∧
      [0, 0, 1, 0x80, 0x01, 2, 0x41, 0x42, 7].length - [7].length =
        Symbol.size ⟨⟨0x80010000, kindName1⟩, .name1 ⟨2, [0x41, 0x42]⟩⟩ ∧
      Symbol.size ⟨⟨0x80010000, kindName1⟩, .name1 ⟨2, [0x41, 0x42]⟩⟩ =
        SymbolHeader.size + SymbolBody.bodySize (.name1 ⟨2, [0x41, 0x42]⟩)) ∧
    (parseSymbol (fun _ => []) [0, 0, 0, 0, 0x96, 8, 0, 0x34, 0, 12, 0, 0, 0, 3, 0, 0, 0, 0, 1, 0x78, 7] =
        .ok (⟨⟨0, kindDef2⟩, .def2 ⟨8, 0x34, 12, [[3, 0]], 0, [], 1, [0x78]⟩⟩, [7]) ∧
      [0, 0, 0, 0, 0x96, 8, 0, 0x34, 0, 12, 0, 0, 0, 3, 0, 0, 0, 0, 1, 0x78, 7].length - [7].length =
        Symbol.size ⟨⟨0, kindDef2⟩, .def2 ⟨8, 0x34, 12, [[3, 0]], 0, [], 1, [0x78]⟩⟩ ∧
      Symbol.size ⟨⟨0, kindDef2⟩, .def2 ⟨8, 0x34, 12, [[3, 0]], 0, [], 1, [0x78]⟩⟩ =
        SymbolHeader.size + SymbolBody.bodySize (.def2 ⟨8, 0x34, 12, [[3, 0]], 0, [], 1, [0x78]⟩)) :=
  have h₁ : parseSymbol (fun _ => []) [0, 0, 1, 0x80, 0x01, 2, 0x41, 0x42, 7] =
      .ok (⟨⟨0x80010000, kindName1⟩, .name1 ⟨2, [0x41, 0x42]⟩⟩, [7]) := by decide
  have h₂ : parseSymbol (fun _ => []) [0, 0, 0, 0, 0x96, 8, 0, 0x34, 0, 12, 0, 0, 0, 3, 0, 0, 0, 0, 1, 0x78, 7] =
      .ok (⟨⟨0, kindDef2⟩, .def2 ⟨8, 0x34, 12, [[3, 0]], 0, [], 1, [0x78]⟩⟩, [7]) := by decide
  ⟨⟨h₁, parseSymbol_consumed_eq_size (fun _ => []) _ _ _ h₁⟩, ⟨h₂, parseSymbol_consumed_eq_size (fun _ => []) _ _ _ h₂⟩⟩

end PsxSym
