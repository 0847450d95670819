import PsxSym.CType
/-!
# FakeTag — the tags `isFakeTag` takes for made-up ones

`isFakeTag` checks the prefix `_` and the suffix `fake`, and asks `strconv.Atoi` about what stands between.  The
prefix and the suffix cannot overlap, so a tag with both is five bytes long at least and the slice
`tag[len("_") : len(tag)-len("fake")]` is in bounds.  `Atoi` accepts an optional sign and decimal digits of a value
that fits in an `int` (`atoi_ok_iff`), so `isFakeTag` takes exactly the tags `_<n>fake` whose middle is such a
literal (`isFakeTag_iff`): a signed middle is taken, a counter of twenty digits is not.
-/
namespace PsxSym
namespace C

/-- The prefix and the suffix checks pass exactly on the tags `_ m fake`. -/
theorem affixes_iff (tag : String) :
    ("_".data.isPrefixOf tag.data && "fake".data.isSuffixOf tag.data) = true ↔
      ∃ m, tag.data = '_' :: m ++ "fake".data := by
  simp only [Bool.and_eq_true, List.isPrefixOf_iff_prefix, List.isSuffixOf_iff_suffix]
  constructor
  · rintro ⟨⟨r, hr⟩, ⟨m', hm'⟩⟩
    rw [← hr] at hm'
    cases m' with
    | nil => cases hm'
    | cons c m =>
      have hr' : m ++ "fake".data = r := (List.cons.inj hm').2
      exact ⟨m, by rw [← hr, ← hr']; rfl⟩
  · rintro ⟨m, hm⟩
    exact ⟨⟨m ++ "fake".data, by rw [hm]; rfl⟩, ⟨'_' :: m, by rw [hm]⟩⟩

/-- What the slice takes from a tag `_ m fake`. -/
theorem middle_eq (m : List Char) :
    (('_' :: m ++ "fake".data).take (('_' :: m ++ "fake".data).length - "fake".length)).drop "_".length = m := by
  simp [show "fake".length = 4 from rfl, show "_".length = 1 from rfl, show "fake".data.length = 4 from rfl]

/-- **`isFakeTag` takes exactly `_`, an integer literal that fits in an `int`, and `fake`**, and the slice it takes
is in bounds whenever it is taken. -/
theorem isFakeTag_iff (tag : String) :
    (isFakeTag tag = true ↔ ∃ m, tag.data = '_' :: m ++ "fake".data ∧ IntLiteral m) ∧
      (("_".data.isPrefixOf tag.data && "fake".data.isSuffixOf tag.data) = true →
        "_".utf8ByteSize ≤ tag.utf8ByteSize - "fake".utf8ByteSize) := by
  refine ⟨?_, fun h => ?_⟩
  · unfold isFakeTag
    split_ifs with h
    · obtain ⟨m, hm⟩ := (affixes_iff tag).1 h
      rw [hm, middle_eq, Option.isNone_iff_eq_none, atoi_ok_iff]
      refine ⟨fun hl => ⟨m, rfl, hl⟩, fun ⟨m', hm', hl⟩ => ?_⟩
      rwa [List.append_cancel_right (List.cons.inj hm').2]
    · simp only [Bool.false_eq_true, false_iff, not_exists, not_and]
      exact fun m hm _ => h ((affixes_iff tag).2 ⟨m, hm⟩)
  · obtain ⟨m, hm⟩ := (affixes_iff tag).1 h
    have := length_le_utf8ByteSize tag
    rw [hm] at this
    simp only [List.length_cons, List.length_append] at this
    simp only [show "_".utf8ByteSize = 1 from rfl, show "fake".utf8ByteSize = 4 from rfl,
      show "fake".data.length = 4 from rfl] at *
    omega

theorem isFakeTag_signed_and_long :
    isFakeTag "_+5fake" = true ∧ isFakeTag "_-1fake" = true ∧ isFakeTag "_99999999999999999999fake" = false := by
  decide

end C
end PsxSym
