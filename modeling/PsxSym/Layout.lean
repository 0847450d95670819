import PsxSym.CType
/-!
# Layout — the lines of an inlined union

A union with a fake tag is printed inside the field line of the definition that holds it, by `fakeUnionString`,
which writes the lines `UnionType.Def` would write with their tabs hard-coded one level deeper: `\tunion {`, the
field lines at `\t\t`, and `\t}`.  Its size comment gets no tab; the field line's own tab stands before it.  So the
inlined text is the union's definition indented by one tab exactly when there is a size comment to carry the field
line's tab (`fakeUnionString_eq_indentLines_iff`).  Without it, that tab lands before `\tunion {`, which then stands
two tabs deep, as deep as its own fields.

The field lines of the union are indented one level in the code, whatever they hold, so the result needs the fields
to print on one line each; a nested fake union does not.
-/
namespace PsxSym
namespace C

/-- What indenting a text by one tab does to each of its characters: a line break is followed by a tab. -/
def indentChar (c : Char) : List Char := if c = '\n' then ['\n', '\t'] else [c]

/-- `s` with each of its lines indented by one more tab. -/
def indentLines (s : String) : String := ⟨'\t' :: s.data.flatMap indentChar⟩

/-! ## Texts without a line break -/

/-- A text on one line. -/
def OneLine (s : List Char) : Prop := '\n' ∉ s

instance decOneLine (s : List Char) : Decidable (OneLine s) := inferInstanceAs (Decidable ('\n' ∉ s))

theorem flatMap_indentChar_of_oneLine : ∀ {s : List Char}, OneLine s → s.flatMap indentChar = s
  | [], _ => rfl
  | c :: cs, h => by
    have hc : c ≠ '\n' := fun hc => h (hc ▸ List.mem_cons_self _ _)
    simp only [List.flatMap_cons, indentChar, hc, if_false, List.singleton_append,
      flatMap_indentChar_of_oneLine (fun hm => h (List.mem_cons_of_mem _ hm))]

theorem flatMap_indentChar_line {s : List Char} (h : OneLine s) (rest : List Char) :
    (s ++ '\n' :: rest).flatMap indentChar = s ++ '\n' :: '\t' :: rest.flatMap indentChar := by
  simp [List.flatMap_append, flatMap_indentChar_of_oneLine h, indentChar]

theorem oneLine_append {s t : List Char} : OneLine (s ++ t) ↔ OneLine s ∧ OneLine t := by
  simp [OneLine, not_or]

theorem digitChar_ne_newline (d : Nat) : (Nat.digitChar d).toUpper ≠ '\n' ∧ Nat.digitChar d ≠ '\n' := by
  rcases Nat.lt_or_ge d 16 with h | h
  · interval_cases d <;> decide
  · have : Nat.digitChar d = '*' := by
      unfold Nat.digitChar
      repeat rw [if_neg (by omega)]
    rw [this]; decide

theorem toDigitsCore_digits (b : Nat) : ∀ (f n : Nat) (ds : List Char) (c : Char),
    c ∈ Nat.toDigitsCore b f n ds → c ∈ ds ∨ ∃ d, c = Nat.digitChar d
  | 0, _, _, _, h => .inl h
  | f + 1, n, ds, c, h => by
    simp only [Nat.toDigitsCore] at h
    split_ifs at h
    · rcases List.mem_cons.1 h with rfl | h
      · exact .inr ⟨_, rfl⟩
      · exact .inl h
    · rcases toDigitsCore_digits b f _ _ c h with h | h
      · rcases List.mem_cons.1 h with rfl | h
        · exact .inr ⟨_, rfl⟩
        · exact .inl h
      · exact .inr h

theorem oneLine_hexX (n : Nat) : OneLine (hexX n).data := by
  intro h
  simp only [hexX, List.mem_map] at h
  obtain ⟨c, hc, hu⟩ := h
  rcases toDigitsCore_digits 16 _ n [] c hc with h | ⟨d, rfl⟩
  · cases h
  · exact (digitChar_ne_newline d).1 hu

theorem oneLine_hex04X (n : Nat) : OneLine (hex04X n).data := by
  simp only [hex04X, String.data_append, oneLine_append]
  exact ⟨fun h => by simp at h, oneLine_hexX n⟩

theorem oneLine_toString (n : Nat) : OneLine (toString n).data := by
  intro h
  rcases toDigitsCore_digits 10 _ n [] _ h with h | ⟨d, hd⟩
  · cases h
  · exact (digitChar_ne_newline d).2 hd.symm

/-! ## The field loop, one level deeper -/

theorem tab_indent_offsetComment (second : Bool) (f : Field) (rest : List Char) :
    '\t' :: ((offsetComment "\t" second f).data ++ rest).flatMap indentChar =
      (offsetComment "\t\t" second f).data ++ '\t' :: rest.flatMap indentChar := by
  have h₁ := oneLine_hex04X f.offset.toNat
  have h₂ := oneLine_toString f.size.toNat
  unfold offsetComment
  split_ifs
  · have hl : OneLine ("\t// offset: " ++ hex04X f.offset.toNat ++ " (" ++ toString f.size.toNat ++ " bytes)").data := by
      simp only [String.data_append, oneLine_append]
      exact ⟨⟨⟨⟨by decide, h₁⟩, by decide⟩, h₂⟩, by decide⟩
    have := flatMap_indentChar_line hl rest
    simp_all [String.append_assoc]
  · have hl : OneLine ("\t// offset: " ++ hex04X f.offset.toNat).data := by
      simp only [String.data_append, oneLine_append]
      exact ⟨by decide, h₁⟩
    have := flatMap_indentChar_line hl rest
    simp_all [String.append_assoc]
  · rfl

/-- **The field loop at two tabs is the field loop at one tab, indented**, when every field prints on one line. -/
theorem tab_indent_fieldLines (second : Bool) :
    ∀ fs : List Field, (∀ f ∈ fs, OneLine (declString f.type f.name).data) →
      '\t' :: (fieldLines "\t" second fs).data.flatMap indentChar = (fieldLines "\t\t" second fs).data ++ ['\t']
  | [], _ => rfl
  | ⟨offset, size, type, name⟩ :: fs, h => by
    have hd : OneLine ("\t" ++ declString type name ++ ";").data := by
      simp only [String.data_append, oneLine_append]
      exact ⟨⟨by decide, h _ (List.mem_cons_self _ _)⟩, by decide⟩
    have ih := tab_indent_fieldLines second fs fun f hf => h f (List.mem_cons_of_mem _ hf)
    simp only [fieldLines, String.data_append, List.append_assoc]
    rw [tab_indent_offsetComment, ← ih]
    have := flatMap_indentChar_line hd ((fieldLines "\t" second fs).data)
    simp_all [String.append_assoc]

/-! ## The inlined union against its definition -/

/-- **The inlined union is its definition indented by one tab exactly when it has a size.**  For a union whose
fields print on one line each, the text a field line holds after its tab, `fakeUnionString`, is
`UnionType.Def` of the union without its tag, indented by one tab, if and only if the size is not zero. -/
theorem fakeUnionString_eq_indentLines_iff (u : UnionType)
    (h : ∀ f ∈ u.fields, OneLine (declString f.type f.name).data) :
    "\t" ++ fakeUnionString u = indentLines (UnionType.def ⟨u.size, "", u.fields⟩) ↔ 0 < u.size := by
  obtain ⟨size, tag, fields⟩ := u
  have hf := tab_indent_fieldLines (secondOffset fields) fields h
  rw [String.ext_iff]
  simp only [fakeUnionString, UnionType.def, aggregateDef, sizeComment, indentLines]
  by_cases hs : 0 < size
  · -- the size comment's line break carries the tab of `\tunion {`; the fields' last one that of `\t}`
    simp only [hs, iff_true, if_true, if_neg (show ¬ "".length > 0 by decide), String.data_append,
      List.flatMap_append, List.append_assoc, flatMap_indentChar_of_oneLine (oneLine_hexX _)]
    simp [indentChar]
    rw [← List.cons_append, hf, List.append_assoc]
    rfl
  · -- `\tunion {` follows the field line's tab: its second character is a tab, not `u`
    simp [hs, indentChar]

theorem fakeUnionString_eq_indentLines_iff_sized :
    (∀ f ∈ [(⟨0, 4, .base .int, "a"⟩ : Field)], OneLine (declString f.type f.name).data) ∧
      ("\t" ++ fakeUnionString ⟨4, "_0fake", [⟨0, 4, .base .int, "a"⟩]⟩ =
        indentLines (UnionType.def ⟨4, "", [⟨0, 4, .base .int, "a"⟩]⟩) ↔ 0 < (4 : UInt32)) :=
  ⟨by decide, fakeUnionString_eq_indentLines_iff _ (by decide)⟩

/-- A union with a fake tag and no size, as the field of a struct: its `union {` line stands two tabs deep, as deep
as its own field, where its definition has the field one level deeper. -/
theorem fakeUnion_unsized_field :
    StructType.def ⟨0, "s", [⟨0, 0, .union ⟨0, "_0fake", [⟨0, 0, .base .int, "a"⟩]⟩, "u"⟩]⟩ =
        "struct s \x7b\n\t\tunion \x7b\n\t\tint a;\n\t\x7d u;\n\x7d" ∧
      UnionType.def ⟨0, "", [⟨0, 0, .base .int, "a"⟩]⟩ = "union \x7b\n\tint a;\n\x7d" := by
  decide

end C
end PsxSym
