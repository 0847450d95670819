import PsxSym.PrintedTokens
/-!
# ReadBack — C reads back what package `c` prints

C reads a declaration in two steps: its lexer makes tokens of the text, and its grammar reads the tokens.  When every
tag and name printed is an identifier, the lexer makes of what `Field.String`, `StructType.Def`, `UnionType.Def` and
`Typedef.Def` print the tokens `declToks`, `aggregateToks` and `typedefToks` (`PrintedTokens`); this module reads
those tokens with C's grammar (`Declaration`).

The reading follows `Field.String` from the name outwards.  Each wrapper changes the declarator in the form the
grammar reads it (`DeclForm.rename`), and the form keeps reading as what it says (`DeclForm.Reads`).
`Field.String` writes no parentheses around a `*`, and a `*` binds looser than the suffixes after it.  So C reads
every declaration as `CType.readAs` says: each array a pointer wraps is read outside the pointer, up to a function's
parentheses, and each struct, union or enum printed by its tag is read by its tag (`fieldString_parseDeclaration`).
That is the type itself, in that reference form, exactly when no pointer wraps an array, at any depth
(`parseDeclaration_eq_erase_iff`).  A struct or union definition reads back as its tag and its fields, each read the
same way, when it has a field; with none, C reads no definition at all (`aggregateDef_parseDefinition`).  So it reads
back as the aggregate itself exactly when no pointer in its fields wraps an array
(`aggregateDef_parseDefinition_eq_erase_iff`).  A typedef reads back as its name and the type read the same way
(`typedefDef_parseTypedef`).
-/
namespace PsxSym
namespace C

section Reading

variable (env : String → Option CType)

/-! ## Reading, one level at a time -/

/-- What may follow a declarator in what the printers write: nothing, the `)` around it or after it, the `,` before
the next parameter, or the `;` that ends a field line or a typedef. -/
def DeclEnd (ts : List CToken) : Prop := ts = [] ∨ ∃ c ∈ [')', ',', ';'], ∃ rest, ts = .punct c :: rest

/-- What starts a declarator: a `*`, a `(` or its name, never the `{` of a body. -/
def DeclStart (ts : List CToken) : Prop :=
  (∃ rest, ts = .punct '*' :: rest) ∨ (∃ rest, ts = .punct '(' :: rest) ∨ ∃ name rest, ts = .ident name :: rest

theorem parseSuffixes_end {ts : List CToken} (h : DeclEnd ts) (g : Nat) :
    parseSuffixes env (g + 1) ts = some ([], ts) := by
  rcases h with rfl | ⟨c, hc, rest, rfl⟩
  · rfl
  · simp only [List.mem_cons, List.mem_singleton, List.not_mem_nil, or_false] at hc
    rcases hc with rfl | rfl | rfl <;> rfl

/-- The direct declarator at the head of the tokens: the name, or a declarator in parentheses. -/
def parseDirect (fuel : Nat) : List CToken → Option ((List Wrapper × String) × List CToken)
  | .ident name :: ts => some (([], name), ts)
  | .punct '(' :: ts =>
    match parseDeclarator env fuel ts with
    | some (r, .punct ')' :: ts) => some (r, ts)
    | _ => none
  | _ => none

theorem parseDeclarator_succ (fuel : Nat) (ts : List CToken) :
    parseDeclarator env (fuel + 1) ts = (parseDirect env fuel (starsOf ts).2).bind fun r =>
      (parseSuffixes env fuel r.2).map fun s => ((r.1.1 ++ s.1 ++ List.replicate (starsOf ts).1 .pointer, r.1.2), s.2) := by
  rw [parseDeclarator]
  rfl

theorem starsOf_replicate (k : Nat) (ts : List CToken) :
    starsOf (List.replicate k (.punct '*') ++ ts) = (k + (starsOf ts).1, (starsOf ts).2) := by
  induction k with
  | zero => simp
  | succ k ih => rw [List.replicate_succ, List.cons_append, starsOf, ih]; simp only [Nat.add_right_comm]

/-- A direct declarator starts with its name or a `(`. -/
theorem head_of_parseDirect {fuel : Nat} {ts : List CToken} {r : (List Wrapper × String) × List CToken}
    (h : parseDirect env fuel ts = some r) : (∃ rest, ts = .punct '(' :: rest) ∨ ∃ name rest, ts = .ident name :: rest := by
  unfold parseDirect at h
  split at h
  · exact .inr ⟨_, _, rfl⟩
  · exact .inl ⟨_, rfl⟩
  · cases h

theorem starsOf_of_parseDirect {fuel : Nat} {ts : List CToken} {r : (List Wrapper × String) × List CToken}
    (h : parseDirect env fuel ts = some r) : starsOf ts = (0, ts) := by
  rcases head_of_parseDirect env h with ⟨_, rfl⟩ | ⟨_, _, rfl⟩ <;> rfl

/-- A suffix with the tokens `st` reads as `w`, whatever follows it, with one unit of fuel. -/
def SuffixReads (st : List CToken) (w : Wrapper) : Prop :=
  st ≠ [] ∧ ∀ g ts, (st ++ ts).length < g →
    parseSuffixes env (g + 1) (st ++ ts) = (parseSuffixes env g ts).map fun s => (w :: s.1, s.2)

/-- An array's suffix reads as the array, when its length, written with `%d`, is no negative number. -/
theorem suffixReads_index {len : Int} (h : 0 ≤ len) :
    SuffixReads env (.punct '[' :: intToks len ++ [.punct ']']) (.array len) := by
  refine ⟨List.cons_ne_nil _ _, fun _ _ _ => ?_⟩
  obtain ⟨n, rfl⟩ := Int.eq_ofNat_of_zero_le h
  rfl

theorem length_le_length_flatten : ∀ sfx : List (List CToken × Wrapper), (∀ s ∈ sfx, SuffixReads env s.1 s.2) →
    sfx.length ≤ (sfx.map Prod.fst).flatten.length
  | [], _ => le_rfl
  | s :: sfx, h => by
    have := List.length_pos.2 (h s (List.mem_cons_self _ _)).1
    have := length_le_length_flatten sfx fun x hx => h x (List.mem_cons_of_mem _ hx)
    simp only [List.length_cons, List.map_cons, List.flatten_cons, List.length_append]
    omega

/-- Suffixes one after another read one after another. -/
theorem parseSuffixes_flatten : ∀ sfx : List (List CToken × Wrapper), (∀ s ∈ sfx, SuffixReads env s.1 s.2) →
    ∀ g ts, ((sfx.map Prod.fst).flatten ++ ts).length + 1 < g →
      parseSuffixes env g ((sfx.map Prod.fst).flatten ++ ts) =
        (parseSuffixes env (g - sfx.length) ts).map fun s => (sfx.map Prod.snd ++ s.1, s.2)
  | [], _, g, ts, _ => by simp
  | s :: sfx, h, g, ts, hg => by
    have hs := h s (List.mem_cons_self _ _)
    have hsfx : ∀ x ∈ sfx, SuffixReads env x.1 x.2 := fun x hx => h x (List.mem_cons_of_mem _ hx)
    have hne := List.length_pos.2 hs.1
    simp only [List.map_cons, List.flatten_cons, List.append_assoc, List.length_append] at hg ⊢
    obtain ⟨g, rfl⟩ : ∃ g', g = g' + 1 := ⟨g - 1, by omega⟩
    rw [hs.2 g _ (by simp only [List.length_append]; omega),
      parseSuffixes_flatten sfx hsfx g ts (by simp only [List.length_append]; omega), Option.map_map]
    simp [Function.comp_def]

/-! ## The declarator written so far -/

/-- A declarator in the form C's grammar reads it: `stars` leading `*`s, a direct declarator `base` that reads as
`inner` and the name, and suffixes, each with its tokens. -/
structure DeclForm where
  stars : Nat
  base : List CToken
  inner : List Wrapper
  name : String
  sfx : List (List CToken × Wrapper)

def DeclForm.toks (d : DeclForm) : List CToken :=
  List.replicate d.stars (.punct '*') ++ d.base ++ (d.sfx.map Prod.fst).flatten

/-- What C reads in the declarator before its `*`s: the direct declarator's wrappers, then the suffixes'. -/
def DeclForm.said (d : DeclForm) : List Wrapper := d.inner ++ d.sfx.map Prod.snd

/-- What C reads in the declarator: what it says before its `*`s, then a pointer per `*`. -/
def DeclForm.shapes (d : DeclForm) : List Wrapper := d.said ++ List.replicate d.stars .pointer

/-- The declarator of a name. -/
def DeclForm.init (name : String) : DeclForm := ⟨0, [.ident name], [], name, []⟩

@[simp] theorem DeclForm.toks_init (name : String) : (DeclForm.init name).toks = [.ident name] := rfl

/-- The form reads as it says: the direct declarator reads as `inner` and the name, and each suffix as its
wrapper, whatever follows. -/
def DeclForm.Reads (d : DeclForm) : Prop :=
  (∀ g rest, (d.base ++ rest).length < g → parseDirect env g (d.base ++ rest) = some ((d.inner, d.name), rest)) ∧
    ∀ s ∈ d.sfx, SuffixReads env s.1 s.2

theorem DeclForm.reads_init (name : String) : (DeclForm.init name).Reads env :=
  ⟨fun _ _ _ => rfl, fun _ h => absurd h (List.not_mem_nil _)⟩

variable {env}

/-- A declarator in a form that reads starts as a declarator does, whatever follows it. -/
theorem DeclForm.Reads.declStart {d : DeclForm} (hd : d.Reads env) (ts : List CToken) : DeclStart (d.toks ++ ts) := by
  cases hs : d.stars with
  | succ k => exact .inl ⟨_, by rw [DeclForm.toks, hs, List.replicate_succ]; rfl⟩
  | zero =>
    have h := head_of_parseDirect env (hd.1 _ ((d.sfx.map Prod.fst).flatten ++ ts) (Nat.lt_succ_self _))
    simp only [DeclForm.toks, hs, List.replicate_zero, List.nil_append, List.append_assoc]
    exact .inr h

/-- **C reads a declarator in that form as `shapes` says**, whatever ends it. -/
theorem DeclForm.Reads.parseDeclarator_toks {d : DeclForm} (hd : d.Reads env) {ts : List CToken} (hts : DeclEnd ts)
    {g : Nat} (hg : (d.toks ++ ts).length + 1 < g) :
    parseDeclarator env g (d.toks ++ ts) = some ((d.shapes, d.name), ts) := by
  obtain ⟨g, rfl⟩ : ∃ g', g = g' + 1 := ⟨g - 1, by omega⟩
  have hb : d.base ≠ [] := fun h => by
    have h₀ := hd.1 1 [] (by simp [h])
    rw [h] at h₀
    cases h₀
  have hj := length_le_length_flatten env d.sfx hd.2
  have hlen := List.length_pos.2 hb
  simp only [DeclForm.toks, List.length_append, List.length_replicate] at hg
  have hdir := hd.1 g ((d.sfx.map Prod.fst).flatten ++ ts) (by simp only [List.length_append]; omega)
  rw [parseDeclarator_succ, DeclForm.toks, List.append_assoc, List.append_assoc, starsOf_replicate,
    starsOf_of_parseDirect env hdir]
  dsimp only
  rw [hdir, Option.some_bind, parseSuffixes_flatten env d.sfx hd.2 g ts (by simp only [List.length_append]; omega)]
  obtain ⟨k, hk⟩ : ∃ k, g - d.sfx.length = k + 1 := ⟨g - d.sfx.length - 1, by omega⟩
  rw [hk, parseSuffixes_end env hts]
  simp [DeclForm.shapes, DeclForm.said]

/-! ## Each wrapper -/

/-- How each wrapper changes the declarator `Field.String` writes, in the form C's grammar reads it: a pointer adds
a leading `*`, an array a suffix, and a function puts the whole declarator in parentheses before its parameter
list, which reads as `readFields` says. -/
def DeclForm.rename (d : DeclForm) : Wrapper → DeclForm
  | .pointer => { d with stars := d.stars + 1 }
  | .array len => { d with sfx := d.sfx ++ [(.punct '[' :: intToks len ++ [.punct ']'], .array len)] }
  | .func params variadic => ⟨0, .punct '(' :: d.toks ++ [.punct ')'], d.shapes, d.name,
      [(.punct '(' :: paramToks (fieldToks params) variadic ++ [.punct ')'], .func (readFields params) variadic)]⟩

section Rename

variable (d : DeclForm)

theorem DeclForm.toks_rename_array (len : Int) :
    (d.rename (.array len)).toks = d.toks ++ .punct '[' :: intToks len ++ [.punct ']'] := by
  simp [DeclForm.rename, DeclForm.toks]

theorem DeclForm.toks_rename_func (params : List Field) (variadic : Bool) :
    (d.rename (.func params variadic)).toks =
      .punct '(' :: d.toks ++ .punct ')' :: .punct '(' :: paramToks (fieldToks params) variadic ++ [.punct ')'] := by
  simp [DeclForm.rename, DeclForm.toks]

theorem DeclForm.said_rename_array (len : Int) : (d.rename (.array len)).said = d.said ++ [.array len] := by
  simp [DeclForm.rename, DeclForm.said]

theorem DeclForm.said_rename_func (params : List Field) (variadic : Bool) :
    (d.rename (.func params variadic)).said = d.said ++ List.replicate d.stars .pointer ++
      [.func (readFields params) variadic] := by
  simp [DeclForm.rename, DeclForm.said, DeclForm.shapes]

end Rename

theorem wrapAll_append_singleton (ws : List Wrapper) (w : Wrapper) (t : CType) :
    wrapAll (ws ++ [w]) t = wrapAll ws (w.wrap t) :=
  List.foldr_append _ _ _ _

/-- The parameter list `Field.String` writes, up to its `)`, reads as `readFields` says. -/
def ParamsRead (env : String → Option CType) (params : List Field) (variadic : Bool) : Prop :=
  ∀ g ts, (paramToks (fieldToks params) variadic ++ .punct ')' :: ts).length + 1 < g →
    parseParams env g true (paramToks (fieldToks params) variadic ++ .punct ')' :: ts) =
      some ((readFields params, variadic), .punct ')' :: ts)

/-- A function's suffix reads as the function, its parameters as `readFields` says, when its parameter list reads
so. -/
theorem suffixReads_func {params : List Field} {variadic : Bool} (h : ParamsRead env params variadic) :
    SuffixReads env (.punct '(' :: paramToks (fieldToks params) variadic ++ [.punct ')'])
      (.func (readFields params) variadic) := by
  refine ⟨List.cons_ne_nil _ _, fun g ts hg => ?_⟩
  simp only [List.cons_append, List.append_assoc, List.singleton_append, List.nil_append, List.length_cons,
    List.length_append] at hg ⊢
  rw [parseSuffixes, h g ts (by simp only [List.length_append, List.length_cons]; omega)]
  rfl

theorem DeclForm.Reads.rename_pointer {d : DeclForm} (hd : d.Reads env) : (d.rename .pointer).Reads env := hd

theorem DeclForm.Reads.rename_array {d : DeclForm} (hd : d.Reads env) {len : Int} (hlen : 0 ≤ len) :
    (d.rename (.array len)).Reads env :=
  ⟨hd.1, fun s hs => by
    rcases List.mem_append.1 hs with hs | hs
    · exact hd.2 s hs
    · rw [List.mem_singleton.1 hs]; exact suffixReads_index env hlen⟩

theorem DeclForm.Reads.rename_func {d : DeclForm} (hd : d.Reads env) {params : List Field} {variadic : Bool}
    (h : ParamsRead env params variadic) : (d.rename (.func params variadic)).Reads env :=
  ⟨fun g rest hg => by
    obtain ⟨g, rfl⟩ : ∃ g', g = g' + 1 := ⟨g - 1, by simp at hg; omega⟩
    simp only [DeclForm.rename, List.cons_append, List.append_assoc, List.singleton_append, List.nil_append,
      List.length_cons, List.length_append] at hg ⊢
    rw [parseDirect, hd.parseDeclarator_toks (.inr ⟨')', by simp, rest, rfl⟩) (by
      simp only [List.length_append, List.length_cons]; omega)]
    rfl,
    fun s hs => by rw [List.mem_singleton.1 hs]; exact suffixReads_func h⟩

/-! ## Specifiers -/

/-- A declaration whose specifier has read as `c`, its declarator in a form that reads. -/
theorem declOf_toks {d : DeclForm} (hd : d.Reads env) {ts : List CToken} (hts : DeclEnd ts) {c : CType} {g : Nat}
    (hg : (d.toks ++ ts).length + 1 < g) :
    declOf (some (c, d.toks ++ ts)) (parseDeclarator env g) = some ((wrapAll d.shapes c, d.name), ts) := by
  rw [declOf, Option.some_bind, hd.parseDeclarator_toks hts hg]
  rfl

/-- What `declToks` writes starts with a keyword or a name. -/
theorem declToks_head : ∀ (t : CType) (d : List CToken),
    (∃ k xs, declToks t d = .keyword k :: xs) ∨ ∃ name xs, declToks t d = .ident name :: xs
  | .pointer elem, _ => declToks_head elem _
  | .array elem _, _ => declToks_head elem _
  | .func retType _ _, _ => declToks_head retType _
  | .union ⟨_, tag, _⟩, _ => .inl (by by_cases hf : isFakeTag tag = true <;> simp [declToks, hf])
  | .typedef _ _, _ => .inr ⟨_, _, rfl⟩
  | .base t, _ => .inl (by cases t <;> exact ⟨_, _, rfl⟩)
  | .struct _, _ | .enum _, _ => .inl ⟨_, _, rfl⟩

/-- A parameter the printers write, then `,`: the rest of the list is read after it. -/
theorem parseParams_comma {g : Nat} {first : Bool} {t type : CType} {d rest ts : List CToken} {name : String}
    (h : parseDecl env g (declToks t d ++ rest) = some ((type, name), .punct ',' :: ts)) :
    parseParams env (g + 1) first (declToks t d ++ rest) =
      (parseParams env g false ts).map fun p => ((⟨0, 0, type, name⟩ :: p.1.1, p.1.2), p.2) := by
  rcases declToks_head t d with ⟨_, _, hx⟩ | ⟨_, _, hx⟩ <;>
    rw [parseParams.eq_4 env first _ g (by simp [hx]) (by simp [hx]), show declOf _ _ = _ from h] <;> rfl

/-- The last parameter the printers write, then `)`. -/
theorem parseParams_last {g : Nat} {first : Bool} {t type : CType} {d rest ts : List CToken} {name : String}
    (h : parseDecl env g (declToks t d ++ rest) = some ((type, name), .punct ')' :: ts)) :
    parseParams env (g + 1) first (declToks t d ++ rest) = some (([⟨0, 0, type, name⟩], false), .punct ')' :: ts) := by
  rcases declToks_head t d with ⟨_, _, hx⟩ | ⟨_, _, hx⟩ <;>
    rw [parseParams.eq_4 env first _ g (by simp [hx]) (by simp [hx]), show declOf _ _ = _ from h] <;> rfl

/-- A field line the printers write: the field lines after its `;` are read after it. -/
theorem parseFieldDecls_line {g : Nat} {t type : CType} {d rest ts : List CToken} {name : String}
    (h : parseDecl env g (declToks t d ++ rest) = some ((type, name), .punct ';' :: ts)) :
    parseFieldDecls env (g + 1) (declToks t d ++ rest) =
      (parseFieldDecls env g ts).map fun r => (⟨0, 0, type, name⟩ :: r.1, r.2) := by
  rcases declToks_head t d with ⟨_, _, hx⟩ | ⟨_, _, hx⟩ <;>
    rw [parseFieldDecls.eq_3 env _ g (by simp [hx]), show declOf _ _ = _ from h] <;> rfl

theorem readFields_isEmpty (fields : List Field) : (readFields fields).isEmpty = fields.isEmpty := by
  cases fields <;> rfl

/-- A body whose field lines read as `fields`, up to its `}`. -/
theorem bodyOf_some (keyword tag : String) (fields : List Field) (ts : List CToken) :
    bodyOf keyword tag (some (fields, .punct '\x7d' :: ts)) =
      if fields.isEmpty then none
      else if keyword = "struct" then some (.struct ⟨0, tag, fields⟩, ts) else some (.union ⟨0, tag, fields⟩, ts) :=
  rfl

/-! ## Whole declarations -/

mutual

/-- C reads the declaration `Field.String` writes for a type, around a declarator in a form that reads, as
`CType.readAs` says. -/
theorem parseDecl_declToks : ∀ (t : CType) (d : DeclForm), t.Readable env → d.Reads env → ∀ g ts, DeclEnd ts →
    (declToks t d.toks ++ ts).length < g →
      parseDecl env g (declToks t d.toks ++ ts) = some ((t.readAs d.said d.stars, d.name), ts)
  | .pointer elem, d, ht, hd, g, ts, hts, hg => parseDecl_declToks elem (d.rename .pointer) ht hd.rename_pointer g ts hts hg
  | .array elem len, d, ht, hd, g, ts, hts, hg => by
    rw [declToks, ← DeclForm.toks_rename_array] at hg ⊢
    rw [parseDecl_declToks elem _ ht.2 (hd.rename_array ht.1) g ts hts hg, DeclForm.said_rename_array]
    rfl
  | .func retType params variadic, d, ht, hd, g, ts, hts, hg => by
    rw [declToks, ← DeclForm.toks_rename_func] at hg ⊢
    rw [parseDecl_declToks retType _ ht.1 (hd.rename_func (parseParams_paramToks params variadic true ht.2 fun _ _ => rfl))
      g ts hts hg, DeclForm.said_rename_func]
    rfl
  | .union ⟨size, tag, fields⟩, d, ht, hd, g, ts, hts, hg => by
    by_cases hf : isFakeTag tag = true
    · simp only [CType.Readable, hf, if_true] at ht
      simp only [declToks, hf, if_true, List.cons_append, List.append_assoc, List.length_cons,
        List.length_append] at hg ⊢
      obtain ⟨g, rfl⟩ : ∃ g', g = g' + 1 := ⟨g - 1, by omega⟩
      have hfl := parseFieldDecls_fieldLineToks fields ht.2 g (d.toks ++ ts)
        (by simp only [List.length_append, List.length_cons]; omega)
      have hne : (readFields fields).isEmpty = false := by
        rw [readFields_isEmpty]; cases fields; exact absurd rfl ht.1; rfl
      rw [parseDecl, parseSpec.eq_6, hfl,
        bodyOf_some, if_neg (by simp [hne]), if_neg (by decide),
        declOf_toks hd hts (by simp only [List.length_append]; omega)]
      simp [CType.readAs, hf, DeclForm.shapes]
    · simp only [CType.Readable, hf, Bool.false_eq_true, if_false] at ht
      simp only [declToks, hf, Bool.false_eq_true, if_false, List.cons_append, List.length_cons] at hg ⊢
      obtain ⟨g, rfl⟩ : ∃ g', g = g' + 1 := ⟨g - 1, by omega⟩
      have hs : parseSpec env (g + 1) (.keyword "union" :: .ident tag :: (d.toks ++ ts)) =
          some (.union ⟨0, tag, []⟩, d.toks ++ ts) := by
        rcases hd.declStart ts with ⟨_, h⟩ | ⟨_, h⟩ | ⟨_, _, h⟩ <;> rw [h] <;> rfl
      rw [parseDecl, hs, declOf_toks hd hts (by omega)]
      simp [CType.readAs, hf, DeclForm.shapes]
  | .typedef type name, d, ht, hd, g, ts, hts, hg => by
    simp only [declToks, List.cons_append, List.length_cons] at hg ⊢
    obtain ⟨g, rfl⟩ : ∃ g', g = g' + 1 := ⟨g - 1, by omega⟩
    rw [parseDecl, parseSpec.eq_9, ht.2, Option.map_some', declOf_toks hd hts (by omega)]
    rfl
  | .base t, d, _, hd, g, ts, hts, hg => by
    simp only [declToks, List.append_assoc, List.length_append] at hg ⊢
    obtain ⟨g, rfl⟩ : ∃ g', g = g' + 1 := ⟨g - 1, by omega⟩
    have hs : parseSpec env (g + 1) (t.toks ++ (d.toks ++ ts)) = some (.base t, d.toks ++ ts) := by
      cases t <;> rfl
    have hb : 0 < t.toks.length := by cases t <;> decide
    rw [parseDecl, hs, declOf_toks hd hts (by simp only [List.length_append]; omega)]
    rfl
  | .struct ⟨size, tag, fields⟩, d, _, hd, g, ts, hts, hg => by
    simp only [declToks, List.cons_append, List.length_cons] at hg ⊢
    obtain ⟨g, rfl⟩ : ∃ g', g = g' + 1 := ⟨g - 1, by omega⟩
    have hs : parseSpec env (g + 1) (.keyword "struct" :: .ident tag :: (d.toks ++ ts)) =
        some (.struct ⟨0, tag, []⟩, d.toks ++ ts) := by
      rcases hd.declStart ts with ⟨_, h⟩ | ⟨_, h⟩ | ⟨_, _, h⟩ <;> rw [h] <;> rfl
    rw [parseDecl, hs, declOf_toks hd hts (by omega)]
    rfl
  | .enum ⟨tag, members⟩, d, _, hd, g, ts, hts, hg => by
    simp only [declToks, List.cons_append, List.length_cons] at hg ⊢
    obtain ⟨g, rfl⟩ : ∃ g', g = g' + 1 := ⟨g - 1, by omega⟩
    rw [parseDecl, show parseSpec env (g + 1) (.keyword "enum" :: .ident tag :: (d.toks ++ ts)) =
      some (.enum ⟨tag, []⟩, d.toks ++ ts) from rfl, declOf_toks hd hts (by omega)]
    rfl

/-- C reads the parameter list `Field.String` writes as `readFields` says, up to its `)`. -/
theorem parseParams_paramToks : ∀ (params : List Field) (variadic first : Bool), FieldsReadable env params →
    (params = [] → variadic = false → first = true) → ∀ g ts,
      (paramToks (fieldToks params) variadic ++ .punct ')' :: ts).length + 1 < g →
        parseParams env g first (paramToks (fieldToks params) variadic ++ .punct ')' :: ts) =
          some ((readFields params, variadic), .punct ')' :: ts)
  | [], variadic, first, _, hf, g, ts, hg => by
    obtain ⟨g, rfl⟩ : ∃ g', g = g' + 1 := ⟨g - 1, by omega⟩
    cases variadic with
    | false => rw [hf rfl rfl]; rfl
    | true => cases first <;> rfl
  | [⟨_, _, type, name⟩], variadic, first, h, _, g, ts, hg => by
    obtain ⟨g, rfl⟩ : ∃ g', g = g' + 1 := ⟨g - 1, by omega⟩
    change (declToks type [.ident name] ++ (if variadic then [CToken.punct ',', .ellipsis] else []) ++
      .punct ')' :: ts).length + 1 < g + 1 at hg
    change parseParams env (g + 1) first (declToks type [.ident name] ++
      (if variadic then [CToken.punct ',', .ellipsis] else []) ++ .punct ')' :: ts) =
        some (([⟨0, 0, type.readAs [] 0, name⟩], variadic), .punct ')' :: ts)
    rw [List.append_assoc] at hg ⊢
    cases variadic with
    | false =>
      exact parseParams_last (parseDecl_declToks type (DeclForm.init name) h.2.1 (DeclForm.reads_init env name) g
        (.punct ')' :: ts) (.inr ⟨')', by simp, ts, rfl⟩) (by simpa using hg))
    | true =>
      simp only [List.length_append, List.length_cons, if_true, List.cons_append, List.nil_append] at hg ⊢
      have hp : parseDecl env g (declToks type [.ident name] ++ .punct ',' :: .ellipsis :: .punct ')' :: ts) = _ :=
        parseDecl_declToks type (DeclForm.init name) h.2.1 (DeclForm.reads_init env name) g _
          (.inr ⟨',', by simp, _, rfl⟩) (by simp only [DeclForm.toks_init, List.length_append, List.length_cons]; omega)
      rw [parseParams_comma hp]
      obtain ⟨g, rfl⟩ : ∃ g', g = g' + 1 := ⟨g - 1, by omega⟩
      rfl
  | ⟨_, _, type, name⟩ :: ⟨o, sz, type', name'⟩ :: qs, variadic, first, h, _, g, ts, hg => by
    obtain ⟨g, rfl⟩ : ∃ g', g = g' + 1 := ⟨g - 1, by omega⟩
    change (declToks type [.ident name] ++ .punct ',' :: paramToks (fieldToks (⟨o, sz, type', name'⟩ :: qs)) variadic ++
      .punct ')' :: ts).length + 1 < g + 1 at hg
    change parseParams env (g + 1) first (declToks type [.ident name] ++ .punct ',' ::
      paramToks (fieldToks (⟨o, sz, type', name'⟩ :: qs)) variadic ++ .punct ')' :: ts) =
        some ((⟨0, 0, type.readAs [] 0, name⟩ :: readFields (⟨o, sz, type', name'⟩ :: qs), variadic), .punct ')' :: ts)
    rw [List.append_assoc, List.cons_append] at hg ⊢
    simp only [List.length_append, List.length_cons] at hg
    have hp : parseDecl env g (declToks type [.ident name] ++
        .punct ',' :: (paramToks (fieldToks (⟨o, sz, type', name'⟩ :: qs)) variadic ++ .punct ')' :: ts)) = _ :=
      parseDecl_declToks type (DeclForm.init name) h.2.1 (DeclForm.reads_init env name) g _
        (.inr ⟨',', by simp, _, rfl⟩) (by simp only [DeclForm.toks_init, List.length_append, List.length_cons]; omega)
    rw [parseParams_comma hp,
      parseParams_paramToks (⟨o, sz, type', name'⟩ :: qs) variadic false h.2.2 (fun h => absurd h (List.cons_ne_nil _ _))
        g ts (by simp only [List.length_append, List.length_cons]; omega), Option.map_some']
    rfl

/-- C reads the field lines `fieldLines` writes as `readFields` says, up to the `}` after them. -/
theorem parseFieldDecls_fieldLineToks : ∀ (fields : List Field), FieldsReadable env fields → ∀ g ts,
    (fieldLineToks fields ++ .punct '\x7d' :: ts).length + 1 < g →
      parseFieldDecls env g (fieldLineToks fields ++ .punct '\x7d' :: ts) = some (readFields fields, .punct '\x7d' :: ts)
  | [], _, g, ts, hg => by
    obtain ⟨g, rfl⟩ : ∃ g', g = g' + 1 := ⟨g - 1, by simp at hg; omega⟩
    rfl
  | ⟨_, _, type, name⟩ :: fs, h, g, ts, hg => by
    simp only [fieldLineToks, List.cons_append, List.append_assoc, List.length_cons, List.length_append] at hg ⊢
    obtain ⟨g, rfl⟩ : ∃ g', g = g' + 1 := ⟨g - 1, by omega⟩
    have hp : parseDecl env g (declToks type [.ident name] ++ .punct ';' :: (fieldLineToks fs ++ .punct '\x7d' :: ts)) =
        _ := parseDecl_declToks type (DeclForm.init name) h.2.1 (DeclForm.reads_init env name) g _
          (.inr ⟨';', by simp, _, rfl⟩) (by simp only [DeclForm.toks_init, List.length_append, List.length_cons]; omega)
    rw [parseFieldDecls_line hp,
      parseFieldDecls_fieldLineToks fs h.2.2 g ts (by simp only [List.length_append, List.length_cons]; omega)]
    rfl

end

variable (env)

/-- C reads the declaration of a name `Field.String` writes, with nothing left over, as `CType.readAs` says. -/
theorem parseDeclaration_declToks (t : CType) (name : String) (ht : t.Readable env) :
    parseDeclaration env (declToks t [.ident name]) = some ((t.readAs [] 0, name), []) := by
  have h := parseDecl_declToks t (DeclForm.init name) ht (DeclForm.reads_init env name)
    ((declToks t [.ident name]).length + 1) [] (.inl rfl) (by simp)
  rwa [DeclForm.toks_init, List.append_nil] at h

/-- The typedef `u8` of `unsigned char`. -/
def u8Env (name : String) : Option CType := if name = "u8" then some (.base .uchar) else none

/-- A pointer to an array of four `u8`s, which `Field.String` prints `u8 *buf[4]`. -/
def bufField : Field := ⟨0, 16, .pointer (.array (.typedef (.base .uchar) "u8") 4), "buf"⟩

/-- C reads `u8 *buf[4]` as an array of four pointers. -/
example : parseDeclaration u8Env (lex (Field.string bufField)) =
    some ((.array (.pointer (.typedef (.base .uchar) "u8")) 4, "buf"), []) := rfl

/-- A pointer to a variadic function of an array of four `char` pointers. -/
example : Field.string ⟨0, 0, .pointer (.func (.base .int) [⟨4, 16, .array (.pointer (.base .char)) 4, "argv"⟩] true),
    "fp"⟩ = "int (*fp)(char *argv[4], ...)" := by decide

/-- A union with the tag `_1fake`, printed inline, reads as a union with no tag; a struct, by its tag alone. -/
example : (CType.union ⟨4, "_1fake", [⟨0, 4, .struct ⟨8, "s", [⟨0, 8, .base .long, "x"⟩]⟩, "a"⟩]⟩).readAs [] 0 =
    .union ⟨0, "", [⟨0, 0, .struct ⟨0, "s", []⟩, "a"⟩]⟩ := rfl

/-! ## When C reads the type back -/

theorem wrapAll_append (ws ws' : List Wrapper) (t : CType) : wrapAll (ws ++ ws') t = wrapAll ws (wrapAll ws' t) :=
  List.foldr_append _ _ _ _

theorem wrapAll_inj : ∀ (ws : List Wrapper) {x y : CType}, wrapAll ws x = wrapAll ws y → x = y
  | [], _, _, h => h
  | w :: ws, _, _, h => wrapAll_inj ws (by cases w <;> simpa [wrapAll, Wrapper.wrap] using h)

/-- The wrappers the declarator around a type reads as are the outermost of what C reads. -/
theorem readAs_append : ∀ (t : CType) (ws ws' : List Wrapper) (k : Nat),
    t.readAs (ws ++ ws') k = wrapAll ws (t.readAs ws' k)
  | .pointer elem, ws, ws', k => readAs_append elem ws ws' (k + 1)
  | .array elem len, ws, ws', k => by rw [CType.readAs, CType.readAs, List.append_assoc, readAs_append elem]
  | .func retType params variadic, ws, ws', k => by
    rw [CType.readAs, CType.readAs, List.append_assoc, List.append_assoc, readAs_append retType, List.append_assoc]
  | .union _, ws, ws', k | .typedef _ _, ws, ws', k | .base _, ws, ws', k | .struct _, ws, ws', k
  | .enum _, ws, ws', k => by rw [CType.readAs, CType.readAs, List.append_assoc, wrapAll_append]

theorem noPointerArray_pointer_iff {elem : CType} :
    (CType.pointer elem).noPointerArray ↔ elem.noPointerArray ∧ ∀ e len, elem ≠ .array e len := by
  cases elem <;> simp [CType.noPointerArray]

mutual

/-- Where no pointer wraps an array, C reads the type back, the declarator's wrappers around it. -/
theorem readAs_of_noPointerArray : ∀ t : CType, t.noPointerArray → ∀ ws k, (0 < k → ∀ e len, t ≠ .array e len) →
    t.readAs ws k = wrapAll (ws ++ List.replicate k .pointer) t.erase
  | .pointer elem, h, ws, k, _ => by
    obtain ⟨he, hna⟩ := noPointerArray_pointer_iff.1 h
    rw [CType.readAs, readAs_of_noPointerArray elem he ws (k + 1) fun _ => hna, List.replicate_succ',
      ← List.append_assoc, wrapAll_append_singleton]
    rfl
  | .array elem len, h, ws, k, hk => by
    obtain rfl : k = 0 := Nat.eq_zero_of_not_pos fun hp => hk hp elem len rfl
    rw [CType.readAs, readAs_of_noPointerArray elem h _ 0 fun hp => absurd hp (lt_irrefl 0)]
    simp only [List.replicate_zero, List.append_nil, wrapAll_append_singleton]
    rfl
  | .func retType params variadic, h, ws, k, _ => by
    simp only [CType.noPointerArray, Bool.and_eq_true] at h
    rw [CType.readAs, readAs_of_noPointerArray retType h.1 _ 0 fun hp => absurd hp (lt_irrefl 0),
      readFields_of_noPointerArray params h.2]
    simp only [List.replicate_zero, List.append_nil, wrapAll_append_singleton]
    rfl
  | .union ⟨size, tag, fields⟩, h, ws, k, _ => by
    by_cases hf : isFakeTag tag = true
    · have hfs : fieldsNoPointerArray fields := by simpa [CType.noPointerArray, hf] using h
      rw [CType.readAs, CType.erase, if_pos hf, if_pos hf, readFields_of_noPointerArray fields hfs]
    · rw [CType.readAs, CType.erase, if_neg hf, if_neg hf]
  | .typedef _ _, _, _, _, _ | .base _, _, _, _, _ | .struct _, _, _, _, _ | .enum _, _, _, _, _ => rfl

theorem readFields_of_noPointerArray : ∀ params : List Field, fieldsNoPointerArray params →
    readFields params = eraseFields params
  | [], _ => rfl
  | ⟨_, _, type, name⟩ :: fs, h => by
    rw [fieldsNoPointerArray, Bool.and_eq_true] at h
    rw [readFields, eraseFields, readAs_of_noPointerArray type h.1 [] 0 fun hp => absurd hp (lt_irrefl 0),
      readFields_of_noPointerArray fs h.2]
    rfl

end

mutual

/-- Where C reads a type back, no pointer wraps an array in it: a pointer around an array reads inside it. -/
theorem noPointerArray_of_readAs : ∀ (t : CType) (k : Nat),
    t.readAs [] k = wrapAll (List.replicate k .pointer) t.erase → t.noPointerArray ∧ (0 < k → ∀ e len, t ≠ .array e len)
  | .pointer elem, k, h => by
    have h' : elem.readAs [] (k + 1) = wrapAll (List.replicate (k + 1) .pointer) elem.erase := by
      rw [List.replicate_succ', wrapAll_append_singleton]; exact h
    obtain ⟨he, hna⟩ := noPointerArray_of_readAs elem (k + 1) h'
    exact ⟨noPointerArray_pointer_iff.2 ⟨he, hna (Nat.succ_pos k)⟩, fun _ _ _ h => CType.noConfusion h⟩
  | .array elem len, k, h => by
    rw [CType.readAs, List.nil_append, ← List.append_nil [_], readAs_append, CType.erase] at h
    cases k with
    | zero =>
      obtain ⟨h, -⟩ := CType.array.inj h
      exact ⟨(noPointerArray_of_readAs elem 0 h).1, fun hp => absurd hp (lt_irrefl 0)⟩
    | succ k => exact absurd h (by simp [List.replicate_succ, wrapAll, Wrapper.wrap])
  | .func retType params variadic, k, h => by
    rw [CType.readAs, List.nil_append, ← List.append_nil (_ ++ _), readAs_append, wrapAll_append_singleton,
      CType.erase] at h
    obtain ⟨hr, hp, -⟩ := CType.func.inj (wrapAll_inj _ h)
    refine ⟨?_, fun _ _ _ h => CType.noConfusion h⟩
    simp only [CType.noPointerArray, (noPointerArray_of_readAs retType 0 hr).1,
      fieldsNoPointerArray_of_readFields params hp, Bool.and_self]
  | .union ⟨size, tag, fields⟩, k, h => by
    refine ⟨?_, fun _ _ _ h => CType.noConfusion h⟩
    by_cases hf : isFakeTag tag = true
    · rw [CType.readAs, CType.erase, if_pos hf, if_pos hf, List.nil_append] at h
      obtain ⟨-, -, hfs⟩ := AggregateOf.mk.inj (CType.union.inj (wrapAll_inj _ h))
      simp [CType.noPointerArray, fieldsNoPointerArray_of_readFields fields hfs]
    · simp [CType.noPointerArray, hf]
  | .typedef _ _, _, _ | .base _, _, _ | .struct _, _, _ | .enum _, _, _ => ⟨rfl, fun _ _ _ h => CType.noConfusion h⟩

theorem fieldsNoPointerArray_of_readFields : ∀ params : List Field, readFields params = eraseFields params →
    fieldsNoPointerArray params
  | [], _ => rfl
  | ⟨_, _, type, _⟩ :: fs, h => by
    obtain ⟨hf, hfs⟩ := List.cons.inj h
    obtain ⟨-, -, ht, -⟩ := FieldOf.mk.inj hf
    simp only [fieldsNoPointerArray, (noPointerArray_of_readAs type 0 ht).1, fieldsNoPointerArray_of_readFields fs hfs,
      Bool.and_self]

end

/-- C reads a type back exactly when no pointer wraps an array in it. -/
theorem readAs_eq_erase_iff (t : CType) : t.readAs [] 0 = t.erase ↔ t.noPointerArray :=
  ⟨fun h => (noPointerArray_of_readAs t 0 h).1,
    fun h => readAs_of_noPointerArray t h [] 0 fun hp => absurd hp (lt_irrefl 0)⟩

/-- C reads a list of fields back exactly when no pointer wraps an array in them. -/
theorem readFields_eq_eraseFields_iff (fields : List Field) : readFields fields = eraseFields fields ↔
    fieldsNoPointerArray fields :=
  ⟨fieldsNoPointerArray_of_readFields fields, readFields_of_noPointerArray fields⟩

/-- C reads the tokens of `StructType.Def` or `UnionType.Def` as a body at the keyword, its tag the aggregate's and
its fields as `readFields` says. -/
theorem parseDefinition_aggregateToks {keyword : String} (hk : keyword = "struct" ∨ keyword = "union")
    (t : AggregateOf CType) (htag : t.tag = "" ∨ isIdent t.tag) (hf : FieldsReadable env t.fields) :
    parseDefinition env (aggregateToks keyword t) =
      bodyOf keyword t.tag (some (readFields t.fields, [.punct '\x7d'])) := by
  have hfl := parseFieldDecls_fieldLineToks t.fields hf (aggregateToks keyword t).length []
    (by simp only [aggregateToks, List.length_cons, List.length_append, List.length_singleton]; omega)
  rw [parseDefinition]
  generalize (aggregateToks keyword t).length = n at hfl
  rcases htag with htag | htag
  · simp only [aggregateToks, htag, String.length, List.length_nil, gt_iff_lt, lt_irrefl, if_false, List.nil_append,
      List.cons_append, List.append_assoc]
    rcases hk with rfl | rfl
    · rw [parseSpec.eq_3, hfl]
    · rw [parseSpec.eq_6, hfl]
  · have hlen : t.tag.length > 0 := List.length_pos.2 (isIdent_spec htag).1
    simp only [aggregateToks, hlen, if_true, List.singleton_append, List.cons_append, List.append_assoc, List.nil_append]
    rcases hk with rfl | rfl
    · rw [parseSpec.eq_2, hfl]
    · rw [parseSpec.eq_5, hfl]

/-- C reads what `StructType.Def` or `UnionType.Def` prints as a body at the keyword. -/
theorem parseDefinition_aggregateDef {keyword : String} (hk : keyword = "struct" ∨ keyword = "union")
    (t : AggregateOf CType) (htag : t.tag = "" ∨ isIdent t.tag) (hf : FieldsReadable env t.fields) :
    parseDefinition env (lex (aggregateDef keyword t)) =
      if t.fields.isEmpty then none
      else if keyword = "struct" then some (.struct ⟨0, t.tag, readFields t.fields⟩, [])
      else some (.union ⟨0, t.tag, readFields t.fields⟩, []) := by
  have hlex : keyword.data ≠ [] ∧ (∀ x ∈ keyword.data, isIdentChar x) ∧ wordToken keyword.data = .keyword keyword := by
    rcases hk with rfl | rfl <;> decide
  rw [lex_aggregateDef env hlex t htag hf, parseDefinition_aggregateToks env hk t htag hf, bodyOf_some,
    readFields_isEmpty]

/-- A struct with no tag, of a `u8` and an unsigned `int`. -/
def pairStruct : StructType := ⟨8, "", [⟨0, 1, .typedef (.base .uchar) "u8", "tag"⟩, ⟨4, 4, .base .uint, "value"⟩]⟩

/-- `struct {}` is no definition C reads. -/
example : parseDefinition (fun _ => none) (lex (StructType.def ⟨0, "", []⟩)) = none := rfl

end Reading

end C
end PsxSym
