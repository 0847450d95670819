import PsxSym.Reader
/-!
# Strconv — `strconv.Atoi`, which `isFakeTag` calls

`isFakeTag` asks `strconv.Atoi` whether the middle of a tag is an integer.  `Atoi` on a 64-bit platform has a fast
path for strings of 1 to 18 bytes — an optional sign and decimal digits — and sends every other string to
`ParseInt(s, 10, 0)`, which takes the sign off and calls `ParseUint`, whose loop stops at the first non-digit or at
the first overflow of 64 bits.  Both paths are modelled as the Go code runs them, over the characters of the string:
the code reads bytes, but a character outside ASCII is a non-digit at its first byte, so each path fails at the same
step either way.  Only the lengths are counted in bytes, as `len(s)` does.

`atoi_ok_iff` is what the two paths agree on: `Atoi` accepts exactly an optional sign and at least one digit, of a
value that fits in an `int`.
-/
namespace PsxSym

/-- The `Err` of a `strconv.NumError`. -/
inductive NumError where
  | errSyntax
  | errRange
  deriving DecidableEq, Repr

/-- The value of a decimal digit. -/
def digitVal (c : Char) : Nat := c.toNat - '0'.toNat

/-- The value of a string of decimal digits. -/
def decVal (ds : List Char) : Nat := ds.foldl (fun n c => n * 10 + digitVal c) 0

/-- `maxUint64/10 + 1`, the smallest value whose tenfold overflows 64 bits. -/
def cutoff10 : Nat := (2 ^ 64 - 1) / 10 + 1

/-- The digit loop of `ParseUint(s, 10, 64)`, from the value `n` read so far.  A letter is a digit of value 10 or
more, which base 10 rejects as the loop's `default` case does any other byte. -/
def parseUintLoop (n : Nat) : List Char → Nat × Option NumError
  | [] => (n, none)
  | c :: cs =>
    if c.isDigit then
      if n ≥ cutoff10 then (2 ^ 64 - 1, some .errRange)
      else
        let n := n * 10 % 2 ^ 64
        let n1 := (n + digitVal c) % 2 ^ 64
        if n1 < n then (2 ^ 64 - 1, some .errRange) else parseUintLoop n1 cs
    else (0, some .errSyntax)

/-- `strconv.ParseUint(s, 10, 0)` on a 64-bit platform. -/
def parseUint (s : List Char) : Nat × Option NumError :=
  if s = [] then (0, some .errSyntax) else parseUintLoop 0 s

/-- `strconv.ParseInt(s, 10, 0)` on a 64-bit platform. -/
def parseInt (s : List Char) : Int × Option NumError :=
  match s with
  | [] => (0, some .errSyntax)
  | c :: cs =>
    let neg := c = '-'
    let digits := if c = '+' ∨ c = '-' then cs else c :: cs
    let (un, err) := parseUint digits
    if err.isSome ∧ err ≠ some .errRange then (0, err)
    else if ¬neg ∧ un ≥ 2 ^ 63 then (2 ^ 63 - 1, some .errRange)
    else if neg ∧ un > 2 ^ 63 then (-2 ^ 63, some .errRange)
    else ((if neg then -(un : Int) else un), none)

/-- The loop of `Atoi`'s fast path. -/
def atoiFastLoop (n : Nat) : List Char → Option Nat
  | [] => some n
  | ch :: chs => if ch.isDigit then atoiFastLoop (n * 10 + digitVal ch) chs else none

/-- `strconv.Atoi(s)` on a 64-bit platform. -/
def atoi (s : String) : Int × Option NumError :=
  let sLen := s.utf8ByteSize
  if 0 < sLen ∧ sLen < 19 then
    match s.data with
    | [] => (0, some .errSyntax)
    | c :: cs =>
      let digits := if c = '-' ∨ c = '+' then cs else c :: cs
      if digits.length < 1 then (0, some .errSyntax)
      else match atoiFastLoop 0 digits with
        | none => (0, some .errSyntax)
        | some n => ((if c = '-' then -(n : Int) else n), none)
  else parseInt s.data

/-! ## What `Atoi` accepts -/

/-- An optional sign, then at least one decimal digit, of a value that fits in a 64-bit `int`. -/
def IntLiteral (m : List Char) : Prop :=
  ∃ ds : List Char, ds ≠ [] ∧ (∀ c ∈ ds, c.isDigit) ∧
    (m = ds ∧ decVal ds < 2 ^ 63 ∨ m = '+' :: ds ∧ decVal ds < 2 ^ 63 ∨ m = '-' :: ds ∧ decVal ds ≤ 2 ^ 63)

/-- One step of the decimal value. -/
def decStep (n : Nat) (c : Char) : Nat := n * 10 + digitVal c

theorem decVal_eq (ds : List Char) : decVal ds = ds.foldl decStep 0 := rfl

theorem digitVal_lt {c : Char} (h : c.isDigit) : digitVal c < 10 := by
  simp only [Char.isDigit, Bool.and_eq_true, decide_eq_true_eq] at h
  simp only [digitVal, Char.le_def] at *
  change c.val.toNat - 48 < 10
  have := h.2; change c.val.toNat ≤ 57 at this
  omega

theorem le_foldl_decStep : ∀ (cs : List Char) (n : Nat), n ≤ cs.foldl decStep n
  | [], _ => le_rfl
  | c :: cs, n => le_trans (by unfold decStep; omega) (le_foldl_decStep cs (decStep n c))

theorem parseUintLoop_ok_iff : ∀ (cs : List Char) (n : Nat), n < 2 ^ 64 →
    ((parseUintLoop n cs).2 = none ↔ (∀ c ∈ cs, c.isDigit) ∧ cs.foldl decStep n < 2 ^ 64)
  | [], n, hn => ⟨fun _ => ⟨fun _ h => absurd h (List.not_mem_nil _), hn⟩, fun _ => rfl⟩
  | c :: cs, n, hn => by
    have hge := le_foldl_decStep cs (decStep n c)
    unfold parseUintLoop
    by_cases hc : c.isDigit
    · have hd := digitVal_lt hc
      simp only [hc, if_true, List.mem_cons, forall_eq_or_imp, true_and, List.foldl_cons]
      by_cases hcut : n ≥ cutoff10
      · simp only [hcut, if_true, reduceCtorEq, false_iff, not_and, not_lt]
        have hs : decStep n c = n * 10 + digitVal c := rfl
        intro _; unfold cutoff10 at hcut; omega
      · have h10 : n * 10 % 2 ^ 64 = n * 10 := Nat.mod_eq_of_lt (by unfold cutoff10 at hcut; omega)
        simp only [hcut, if_false, h10]
        by_cases hov : n * 10 + digitVal c < 2 ^ 64
        · rw [Nat.mod_eq_of_lt hov, if_neg (by omega), parseUintLoop_ok_iff cs _ hov]; rfl
        · have : (n * 10 + digitVal c) % 2 ^ 64 < n * 10 := by
            rw [Nat.mod_eq_sub_mod (by omega), Nat.mod_eq_of_lt (by omega)]; omega
          simp only [this, if_true, reduceCtorEq, false_iff, not_and, not_lt]
          have hs : decStep n c = n * 10 + digitVal c := rfl
          intro _; omega
    · simp [hc]

theorem parseUintLoop_fst : ∀ (cs : List Char) (n : Nat), (parseUintLoop n cs).2 = none →
    (parseUintLoop n cs).1 = cs.foldl decStep n
  | [], n, _ => rfl
  | c :: cs, n, h => by
    unfold parseUintLoop at h ⊢
    dsimp only at h ⊢
    split_ifs at h ⊢ with hc hcut hov
    have h10 : n * 10 % 2 ^ 64 = n * 10 := Nat.mod_eq_of_lt (by unfold cutoff10 at hcut; omega)
    have hd := digitVal_lt hc
    rw [parseUintLoop_fst cs _ h, List.foldl_cons, h10, Nat.mod_eq_of_lt (by rw [h10] at hov; omega)]
    rfl

theorem parseUintLoop_range : ∀ (cs : List Char) (n : Nat), (parseUintLoop n cs).2 = some .errRange →
    (parseUintLoop n cs).1 = 2 ^ 64 - 1
  | [], n, h => by cases h
  | c :: cs, n, h => by
    unfold parseUintLoop at h ⊢
    dsimp only at h ⊢
    split_ifs at h ⊢ <;> first | rfl | cases h | exact parseUintLoop_range cs _ h

theorem parseUint_ok_iff (ds : List Char) :
    (parseUint ds).2 = none ↔ ds ≠ [] ∧ (∀ c ∈ ds, c.isDigit) ∧ decVal ds < 2 ^ 64 := by
  unfold parseUint
  split
  · simp_all
  · rename_i h; simp only [h, ne_eq, not_false_eq_true, true_and, decVal_eq]
    exact parseUintLoop_ok_iff ds 0 (by norm_num)

theorem lt_pow_of_digits : ∀ (ds : List Char) (n : Nat), (∀ c ∈ ds, c.isDigit) →
    ds.foldl decStep n < (n + 1) * 10 ^ ds.length
  | [], n, _ => by simp
  | c :: cs, n, h => by
    have hd := digitVal_lt (h c (List.mem_cons_self c cs))
    have := lt_pow_of_digits cs (decStep n c) (fun x hx => h x (List.mem_cons_of_mem c hx))
    rw [List.foldl_cons, List.length_cons, pow_succ]
    calc cs.foldl decStep (decStep n c) < (decStep n c + 1) * 10 ^ cs.length := this
      _ ≤ (n + 1) * 10 * 10 ^ cs.length := Nat.mul_le_mul_right _ (by unfold decStep; omega)
      _ = (n + 1) * (10 ^ cs.length * 10) := by ring

theorem parseUint_fst {ds : List Char} (h : (parseUint ds).2 = none) : (parseUint ds).1 = decVal ds := by
  by_cases hds : ds = []
  · simp [parseUint, hds] at h
  · rw [parseUint, if_neg hds] at h ⊢; exact parseUintLoop_fst ds 0 h

theorem parseUint_range (ds : List Char) (h : (parseUint ds).2 = some .errRange) : (parseUint ds).1 = 2 ^ 64 - 1 := by
  by_cases hds : ds = []
  · simp [parseUint, hds] at h
  · rw [parseUint, if_neg hds] at h ⊢; exact parseUintLoop_range ds 0 h

/-- `IntLiteral` read the way `ParseInt` reads a string: the sign off, then the digits and their bound. -/
theorem intLiteral_cons_iff (c : Char) (cs : List Char) :
    IntLiteral (c :: cs) ↔
      let digits := if c = '+' ∨ c = '-' then cs else c :: cs
      digits ≠ [] ∧ (∀ d ∈ digits, d.isDigit) ∧ (if c = '-' then decVal digits ≤ 2 ^ 63 else decVal digits < 2 ^ 63) := by
  constructor
  · rintro ⟨ds, hne, hds, ⟨h, hv⟩ | ⟨h, hv⟩ | ⟨h, hv⟩⟩
    · subst h
      have hc := hds c (List.mem_cons_self c cs)
      have hp : c ≠ '+' := fun h => by rw [h] at hc; cases hc
      have hm : c ≠ '-' := fun h => by rw [h] at hc; cases hc
      simp only [hp, hm, or_self, if_false]
      exact ⟨hne, hds, hv⟩
    · obtain ⟨rfl, rfl⟩ := List.cons_eq_cons.1 h
      exact ⟨hne, hds, hv⟩
    · obtain ⟨rfl, rfl⟩ := List.cons_eq_cons.1 h
      exact ⟨hne, hds, hv⟩
  · intro ⟨hne, hds, hv⟩
    by_cases hp : c = '+'
    · subst hp; exact ⟨cs, hne, hds, .inr (.inl ⟨rfl, hv⟩)⟩
    by_cases hm : c = '-'
    · subst hm; exact ⟨cs, hne, hds, .inr (.inr ⟨rfl, hv⟩)⟩
    simp only [hp, hm, or_self, if_false] at hne hds hv
    exact ⟨c :: cs, hne, hds, .inl ⟨rfl, hv⟩⟩

/-- `ParseInt` accepts what `ParseUint` accepts once the sign is off, within the sign's bound. -/
theorem parseInt_cons_ok_iff (c : Char) (cs : List Char) :
    (parseInt (c :: cs)).2 = none ↔
      let digits := if c = '+' ∨ c = '-' then cs else c :: cs
      (parseUint digits).2 = none ∧
        (if c = '-' then (parseUint digits).1 ≤ 2 ^ 63 else (parseUint digits).1 < 2 ^ 63) := by
  simp only [parseInt]
  generalize hd : (if c = '+' ∨ c = '-' then cs else c :: cs) = digits
  rcases hu : parseUint digits with ⟨un, _ | e⟩
  · by_cases hm : c = '-' <;> simp only [hm] <;> simp <;> split_ifs <;> simp <;> omega
  · cases e with
    | errSyntax => simp
    | errRange =>
      have : un = 2 ^ 64 - 1 := by simpa [hu] using parseUint_range digits (by rw [hu])
      subst this
      by_cases hm : c = '-' <;> simp [hm]

theorem parseInt_ok_iff (m : List Char) : (parseInt m).2 = none ↔ IntLiteral m := by
  cases m with
  | nil =>
    refine ⟨fun h => (by cases h), ?_⟩
    rintro ⟨ds, hne, -, ⟨rfl, -⟩ | ⟨h, -⟩ | ⟨h, -⟩⟩
    · exact absurd rfl hne
    · cases h
    · cases h
  | cons c cs =>
    rw [parseInt_cons_ok_iff, intLiteral_cons_iff]
    generalize (if c = '+' ∨ c = '-' then cs else c :: cs) = digits
    constructor
    · rintro ⟨hok, hv⟩
      obtain ⟨hne, hds, -⟩ := (parseUint_ok_iff digits).1 hok
      rw [parseUint_fst hok] at hv
      exact ⟨hne, hds, hv⟩
    · rintro ⟨hne, hds, hv⟩
      have hok := (parseUint_ok_iff digits).2 ⟨hne, hds, by split at hv <;> omega⟩
      rw [← parseUint_fst hok] at hv
      exact ⟨hok, hv⟩

theorem atoiFastLoop_eq_some : ∀ (cs : List Char) (n v : Nat),
    atoiFastLoop n cs = some v ↔ (∀ c ∈ cs, c.isDigit) ∧ v = cs.foldl decStep n
  | [], n, v => ⟨fun h => ⟨fun _ h' => absurd h' (List.not_mem_nil _), (Option.some.inj h).symm⟩,
      fun ⟨_, h⟩ => h ▸ rfl⟩
  | c :: cs, n, v => by
    unfold atoiFastLoop
    by_cases hc : c.isDigit
    · simp only [hc, if_true, atoiFastLoop_eq_some cs, List.mem_cons, forall_eq_or_imp, true_and, List.foldl_cons]
      rfl
    · simp [hc]

theorem length_le_utf8ByteSize (s : String) : s.data.length ≤ s.utf8ByteSize := by
  obtain ⟨cs⟩ := s
  show cs.length ≤ String.utf8ByteSize.go cs
  induction cs with
  | nil => exact le_rfl
  | cons c cs ih => simp only [List.length_cons, String.utf8ByteSize.go]; have := c.utf8Size_pos; omega

theorem utf8ByteSize_pos {s : String} (h : 0 < s.utf8ByteSize) : s.data ≠ [] := by
  obtain ⟨cs⟩ := s
  rintro rfl; exact absurd h (by decide)

/-- **`strconv.Atoi` accepts exactly the integer literals that fit in an `int`**: an optional `+` or `-`, then one
or more ASCII digits, of a value in `[-2^63, 2^63)`, on its fast path and on `ParseInt`'s alike. -/
theorem atoi_ok_iff (s : String) : (atoi s).2 = none ↔ IntLiteral s.data := by
  unfold atoi
  dsimp only
  by_cases hlen : 0 < s.utf8ByteSize ∧ s.utf8ByteSize < 19
  · rw [if_pos hlen]
    obtain ⟨c, cs, hs⟩ := List.exists_cons_of_ne_nil (utf8ByteSize_pos hlen.1)
    have hshort : cs.length < 18 := by have := length_le_utf8ByteSize s; rw [hs] at this; simp at this; omega
    simp only [hs]
    rw [intLiteral_cons_iff]
    have hsign : (if c = '-' ∨ c = '+' then cs else c :: cs) = (if c = '+' ∨ c = '-' then cs else c :: cs) := by
      simp only [or_comm]
    rw [hsign]
    generalize hd : (if c = '+' ∨ c = '-' then cs else c :: cs) = digits
    have hlen' : digits.length ≤ 18 := by subst hd; split <;> (try simp only [List.length_cons]) <;> omega
    by_cases hne : digits.length < 1
    · simp only [hne, if_true, reduceCtorEq, false_iff, not_and]
      intro h; exact absurd (List.length_pos.2 h) (by omega)
    · simp only [hne, if_false]
      cases hf : atoiFastLoop 0 digits with
      | none =>
        simp only [reduceCtorEq, false_iff, not_and]
        intro _ hds
        exact absurd ((atoiFastLoop_eq_some digits 0 _).2 ⟨hds, rfl⟩) (by rw [hf]; simp)
      | some n =>
        obtain ⟨hds, rfl⟩ := (atoiFastLoop_eq_some digits 0 n).1 hf
        have hb := lt_pow_of_digits digits 0 hds
        have h18 : 10 ^ digits.length ≤ 10 ^ 18 := Nat.pow_le_pow_right (by decide) hlen'
        have : decVal digits < 2 ^ 63 := by rw [decVal_eq]; norm_num at hb h18 ⊢; omega
        simp only [true_iff]
        refine ⟨fun h => by simp [h] at hne, hds, ?_⟩
        split <;> omega
  · rw [if_neg hlen]
    exact parseInt_ok_iff s.data

end PsxSym
