import PsxSym.Symbol
/-!
# Dimensions — the dimension-group loop

`Dimensions.Unpack` reads little-endian `u16` values until it has read a `0`.  A stream holds a group when it starts
with the bytes of some nonzero values and a `0` (`encodeDims (vs ++ [0])`); the loop then stops right after that
`0`, having appended exactly those values, and on any other stream it fails with `io.ErrUnexpectedEOF`, never with
`io.EOF` (`unpack_terminates_with_group`).
-/
namespace PsxSym

/-- The bytes of a dimension group: its values, little-endian. -/
def encodeDims (dims : Dimensions) : List UInt8 := dims.flatMap fun dim => toLE 2 dim.toNat

@[simp] theorem encodeDims_nil : encodeDims [] = [] := rfl

@[simp] theorem encodeDims_cons (dim : UInt16) (dims : Dimensions) :
    encodeDims (dim :: dims) = toLE 2 dim.toNat ++ encodeDims dims := rfl

@[simp] theorem length_encodeDims (dims : Dimensions) : (encodeDims dims).length = 2 * dims.length := by
  induction dims with
  | nil => rfl
  | cons d ds ih => simp [ih]; omega

/-- The loop body of `Dimensions.Unpack`, with `binary.Read` of the next value. -/
theorem unpack_eq (dims : Dimensions) (s : List UInt8) :
    Dimensions.unpack dims s =
      match readU16 s with
      | .error e => .error (if e = .eof then .unexpectedEOF else e)
      | .ok (dim, s') => if dim = 0 then .ok (dims ++ [dim], s') else Dimensions.unpack (dims ++ [dim]) s' := by
  match s with
  | [] => rfl
  | [_] => rfl
  | b₀ :: b₁ :: s => rfl

theorem unpack_cons_cons (dims : Dimensions) (dim : UInt16) (s : List UInt8) :
    Dimensions.unpack dims (toLE 2 dim.toNat ++ s) =
      if dim = 0 then .ok (dims ++ [dim], s) else Dimensions.unpack (dims ++ [dim]) s := by
  rw [unpack_eq, (readU16_eq_ok (v := dim)).2 rfl]

theorem unpack_encodeDims (vs : Dimensions) (h : 0 ∉ vs) :
    ∀ (dims : Dimensions) (rest : List UInt8),
      Dimensions.unpack dims (encodeDims (vs ++ [0]) ++ rest) = .ok (dims ++ vs ++ [0], rest) := by
  induction vs with
  | nil =>
    intro dims rest
    rw [List.nil_append, encodeDims_cons, encodeDims_nil, List.append_nil, unpack_cons_cons, if_pos rfl,
      List.append_nil]
  | cons v vs ih =>
    intro dims rest
    have hv : v ≠ 0 := fun hv => h (hv ▸ List.mem_cons_self v vs)
    rw [List.cons_append, encodeDims_cons, List.append_assoc, unpack_cons_cons, if_neg hv,
      ih (fun h' => h (List.mem_cons_of_mem v h'))]
    simp

/-- The two bytes the loop reads are the encoding of the value it appends. -/
theorem cons_cons_eq_toLE (b₀ b₁ : UInt8) (s : List UInt8) :
    b₀ :: b₁ :: s = toLE 2 (UInt16.ofNat (ofLE [b₀, b₁])).toNat ++ s :=
  readU16_eq_ok.1 rfl

theorem unpack_sound {dims out : Dimensions} {s rest : List UInt8}
    (h : Dimensions.unpack dims s = .ok (out, rest)) :
    ∃ vs, 0 ∉ vs ∧ out = dims ++ vs ++ [0] ∧ s = encodeDims (vs ++ [0]) ++ rest := by
  induction dims, s using Dimensions.unpack.induct with
  | case1 => cases h
  | case2 => cases h
  | case3 dims b₀ b₁ s dim hdim =>
    have hs := cons_cons_eq_toLE b₀ b₁ s
    rw [hs, unpack_cons_cons, if_pos hdim] at h
    cases h
    have hdim' : UInt16.ofNat (ofLE [b₀, b₁]) = 0 := hdim
    exact ⟨[], List.not_mem_nil 0, by rw [hdim', List.append_nil], by rw [hs, hdim']; rfl⟩
  | case4 dims b₀ b₁ s dim hdim ih =>
    have hs := cons_cons_eq_toLE b₀ b₁ s
    rw [hs, unpack_cons_cons, if_neg hdim] at h
    obtain ⟨vs, hvs, rfl, rfl⟩ := ih h
    refine ⟨dim :: vs, by simp [hvs, Ne.symm hdim], by simp, ?_⟩
    rw [hs, List.cons_append, encodeDims_cons, List.append_assoc]

theorem unpack_error {dims : Dimensions} {s : List UInt8} {e : Cause} (h : Dimensions.unpack dims s = .error e) :
    e = .unexpectedEOF := by
  induction dims, s using Dimensions.unpack.induct with
  | case1 => cases h; rfl
  | case2 => cases h; rfl
  | case3 dims b₀ b₁ s dim hdim =>
    rw [cons_cons_eq_toLE b₀ b₁ s, unpack_cons_cons, if_pos hdim] at h
    cases h
  | case4 dims b₀ b₁ s dim hdim ih =>
    rw [cons_cons_eq_toLE b₀ b₁ s, unpack_cons_cons, if_neg hdim] at h
    exact ih h

theorem string_group (vs : Dimensions) (h : 0 ∉ vs) :
    Dimensions.string (vs ++ [0]) = if vs = [] then "0" else " ".intercalate (vs.map fun v => toString v.toNat) := by
  have : (vs ++ [0]).takeWhile (· ≠ 0) = vs := by
    rw [List.takeWhile_append_of_pos (fun v hv => by simpa using fun h0 : v = 0 => h (h0 ▸ hv))]
    simp
  simp only [Dimensions.string, this, List.length_map, List.length_eq_zero]

/-- **The dimension-group loop.**  On every stream, `Dimensions.Unpack` into an empty `Dimensions` either finds a
group at the front — nonzero values and a `0` — and returns exactly its values after consuming exactly their bytes,
which is its `Size`, its `String` listing the values before the `0`; or there is no group at the front and it fails
with `io.ErrUnexpectedEOF`. -/
theorem unpack_terminates_with_group (s : List UInt8) :
    (∃ vs rest, 0 ∉ vs ∧ s = encodeDims (vs ++ [0]) ++ rest ∧
      Dimensions.unpack [] s = .ok (vs ++ [0], rest) ∧
      Dimensions.size (vs ++ [0]) = s.length - rest.length ∧
      Dimensions.string (vs ++ [0]) =
        (if vs = [] then "0" else " ".intercalate (vs.map fun v => toString v.toNat))) ∨
    ((¬ ∃ vs rest, 0 ∉ vs ∧ s = encodeDims (vs ++ [0]) ++ rest) ∧
      Dimensions.unpack [] s = .error .unexpectedEOF) := by
  by_cases hg : ∃ vs rest, 0 ∉ vs ∧ s = encodeDims (vs ++ [0]) ++ rest
  · obtain ⟨vs, rest, hvs, rfl⟩ := hg
    refine .inl ⟨vs, rest, hvs, rfl, by simpa using unpack_encodeDims vs hvs [] rest, ?_, string_group vs hvs⟩
    simp [Dimensions.size]
  · refine .inr ⟨hg, ?_⟩
    cases hu : Dimensions.unpack [] s with
    | error e => rw [unpack_error hu]
    | ok p =>
      obtain ⟨vs, hvs, -, hs⟩ := unpack_sound hu
      exact absurd ⟨vs, p.2, hvs, hs⟩ hg

end PsxSym
