import PsxSym.SortCorrect
/-!
# SortSorted — `sort.Slice` leaves a sorted slice as it is

On a range whose keys ascend, no `Less` that `pdqsort_func` asks before moving an element holds: insertion sort
swaps nothing, the medians of `choosePivot_func` swap nothing (so the hint is `increasingHint`), and
`partialInsertionSort_func` walks to the end of the range and reports it sorted.  `pdqsort_func` therefore returns
in its first turn with the slice unchanged (`pdqsortLoop_of_sorted`), and `sort.Slice` of a sorted slice is the
slice itself (`sortSlice_of_sorted`).
-/
namespace PsxSym

section SortSorted

variable {α : Type} [Inhabited α] {key : α → Nat}

theorem lessAt_of_sorted {v : List α} {lo hi i j : Nat} (hs : Sorted key v lo hi) (hi' : lo ≤ i) (hij : i ≤ j)
    (hj : j < hi) : lessAt key v j i = false := by
  simpa [lessAt_eq] using hs i j hi' hij hj

theorem sorted_of_list_sorted {v : List α} (h : (v.map key).Sorted (· ≤ ·)) : Sorted key v 0 v.length := by
  intro i j _ hij hj
  rcases Nat.eq_or_lt_of_le hij with rfl | hlt
  · exact le_rfl
  · have := List.pairwise_iff_getElem.1 h i j (by simpa using hij.trans_lt hj) (by simpa using hj) hlt
    simpa [read, List.getElem?_eq_getElem (hij.trans_lt hj), List.getElem?_eq_getElem hj] using this

/-! ## Each step swaps nothing -/

section Steps

variable {v : List α} {lo hi : Nat} (hs : Sorted key v lo hi)
include hs

theorem siftLeft_of_sorted : ∀ d, lo + d < hi → siftLeft key lo d v = v
  | 0, _ => rfl
  | d + 1, h => by rw [siftLeft, lessAt_of_sorted hs (Nat.le_add_right lo d) (Nat.le_succ _) h]; rfl

theorem insertionSortLoop_of_sorted : ∀ n i, lo ≤ i → i + n ≤ hi → insertionSortLoop key lo i n v = v
  | 0, _, _, _ => rfl
  | n + 1, i, h₁, h₂ => by
    rw [insertionSortLoop, siftLeft_of_sorted hs (i - lo) (by omega)]
    exact insertionSortLoop_of_sorted n (i + 1) (by omega) (by omega)

theorem insertionSortFunc_of_sorted : insertionSortFunc key v lo hi = v := by
  rw [insertionSortFunc]
  rcases Nat.lt_or_ge lo hi with h | h
  · exact insertionSortLoop_of_sorted hs _ _ (by omega) (by omega)
  · rw [show hi - (lo + 1) = 0 by omega]; rfl

theorem order2Func_of_sorted {a b : Nat} (ha : lo ≤ a) (hab : a ≤ b) (hb : b < hi) (swaps : Nat) :
    order2Func key v a b swaps = (a, b, swaps) := by
  rw [order2Func, lessAt_of_sorted hs ha hab hb]; rfl

theorem medianFunc_of_sorted {a b c : Nat} (ha : lo ≤ a) (hab : a ≤ b) (hbc : b ≤ c) (hc : c < hi) (swaps : Nat) :
    medianFunc key v a b c swaps = (b, swaps) := by
  simp only [medianFunc, order2Func_of_sorted hs ha hab (hbc.trans_lt hc), order2Func_of_sorted hs (ha.trans hab) hbc hc]

theorem medianAdjacentFunc_of_sorted {a : Nat} (ha : lo < a) (hb : a + 1 < hi) (swaps : Nat) :
    medianAdjacentFunc key v a swaps = (a, swaps) :=
  medianFunc_of_sorted hs (by omega) (by omega) (by omega) hb swaps

/-- On a sorted range the medians count no swap. -/
theorem pivotSwaps_of_sorted : (pivotSwaps key v lo hi).2 = 0 := by
  unfold pivotSwaps
  dsimp only
  split_ifs with h₈ h₅₀
  · rw [medianAdjacentFunc_of_sorted hs (by omega) (by omega), medianAdjacentFunc_of_sorted hs (by omega) (by omega),
      medianAdjacentFunc_of_sorted hs (by omega) (by omega)]
    dsimp only
    rw [medianFunc_of_sorted hs (by omega) (by omega) (by omega) (by omega)]
  · rw [medianFunc_of_sorted hs (by omega) (by omega) (by omega) (by omega)]
  · rfl

theorem choosePivotFunc_of_sorted : (choosePivotFunc key v lo hi).2 = .increasingHint := by
  simp only [choosePivotFunc, pivotSwaps_of_sorted hs, if_true]

theorem partialInsertionSortFunc_of_sorted (hlh : lo < hi) : partialInsertionSortFunc key v lo hi = (true, v) := by
  have hscan : scanUp (fun i => !lessAt key v i (i - 1)) (hi - (lo + 1)) (lo + 1) = hi := by
    obtain ⟨h₁, h₂, -, h₄⟩ := scanUp_spec (fun i => !lessAt key v i (i - 1)) (hi - (lo + 1)) (lo + 1)
    by_contra hne
    have := h₄ (by omega)
    rw [lessAt_of_sorted hs (by omega) (by omega) (by omega)] at this
    exact Bool.noConfusion this
  simp only [partialInsertionSortFunc, partialInsertionSortLoop, hscan, if_true]

theorem pdqsortPrepare_of_sorted (hlh : lo < hi) (limit : Nat) :
    pdqsortPrepare key v lo hi limit true true = (true, v, (choosePivotFunc key v lo hi).1, limit) := by
  simp [pdqsortPrepare, choosePivotFunc_of_sorted hs, partialInsertionSortFunc_of_sorted hs hlh]

/-- **`pdqsort_func` returns a sorted range as it is**, in its first turn: by insertion sort on at most 12
elements, and otherwise since `partialInsertionSort_func` finds the range sorted (the limit, positive, skips
heapsort). -/
theorem pdqsortLoop_of_sorted (fuel limit : Nat) (hl : hi - lo ≤ 12 ∨ 0 < limit) :
    pdqsortLoop key fuel v lo hi limit true true = v := by
  cases fuel with
  | zero => rfl
  | succ fuel =>
    rw [pdqsortLoop]
    dsimp only
    by_cases h₁₂ : hi - lo ≤ 12
    · rw [if_pos h₁₂, insertionSortFunc_of_sorted hs]
    · rw [if_neg h₁₂, if_neg (by omega), pdqsortPrepare_of_sorted hs (by omega)]
      rfl

end Steps

theorem bitsLen_pos {n : Nat} (hn : 0 < n) : 0 < bitsLen n := by
  rw [bitsLen, if_neg (by omega)]; omega

/-- **`sort.Slice` leaves a slice whose keys ascend as it is.** -/
theorem sortSlice_of_sorted (v : List α) (h : (v.map key).Sorted (· ≤ ·)) : sortSlice key v = v :=
  pdqsortLoop_of_sorted (sorted_of_list_sorted h) _ _ <| by
    rcases Nat.eq_zero_or_pos v.length with h₀ | h₀
    · exact .inl (by omega)
    · exact .inr (bitsLen_pos h₀)

/-- On distinct keys, `sort.Slice` returns the same slice whatever order the elements come in: a sorted
permutation with distinct keys is unique. -/
theorem sortSlice_eq_of_perm {v w : List α} (hp : v.Perm w) (hd : (v.map key).Nodup) :
    sortSlice key v = sortSlice key w := by
  have hv : (sortSlice key v).Perm v ∧ ((sortSlice key v).map key).Sorted (· ≤ ·) := sortSlice_perm_sorted v
  have hw : (sortSlice key w).Perm w ∧ ((sortSlice key w).map key).Sorted (· ≤ ·) := sortSlice_perm_sorted w
  have hdw : ((sortSlice key w).map key).Nodup := ((hw.1.trans hp.symm).map key).nodup_iff.2 hd
  have hdv : ((sortSlice key v).map key).Nodup := (hv.1.map key).nodup_iff.2 hd
  haveI : IsAntisymm α (fun a b => key a < key b) := ⟨fun _ _ h h' => absurd (h.trans h') (lt_irrefl _)⟩
  exact List.eq_of_perm_of_sorted (hv.1.trans (hp.trans hw.1.symm)) (List.pairwise_map.1 (hv.2.lt_of_le hdv))
    (List.pairwise_map.1 (hw.2.lt_of_le hdw))

end SortSorted

end PsxSym
