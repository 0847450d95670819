import PsxSym.SortPerm
/-!
# SortParts — what each step of `pdqsort_func` does to the range it is given

One spec lemma per function of the sort, each about the slice as `read` sees it: the insertion sorts sort their
range, the reversal and the pattern breaking only permute it, the two partitions split it around the pivot, and
`partialInsertionSort_func` permutes it and reports `true` only for a sorted range.  The left shift of
`partialInsertionSort_func` runs down to index 1, not to the start of the range; it stops at the range's start all
the same, because the element left of the range is at most every element in it (`siftLeft_zero_eq`).
-/
namespace PsxSym

section SortParts

variable {α : Type} [Inhabited α] {key : α → Nat}

/-! ## Scans -/

theorem scanUp_spec (p : Nat → Bool) : ∀ n i : Nat,
    i ≤ scanUp p n i ∧ scanUp p n i ≤ i + n ∧ (∀ k, i ≤ k → k < scanUp p n i → p k) ∧
      (scanUp p n i < i + n → p (scanUp p n i) = false)
  | 0, i => ⟨le_rfl, by simp [scanUp], fun k h₁ h₂ => by simp [scanUp] at h₂; omega, fun h => by simp [scanUp] at h⟩
  | n + 1, i => by
    by_cases hp : p i
    · obtain ⟨h₁, h₂, h₃, h₄⟩ := scanUp_spec p n (i + 1)
      simp only [scanUp, hp, if_true]
      refine ⟨by omega, by omega, fun k hk₁ hk₂ => ?_, fun h => h₄ (by omega)⟩
      rcases Nat.eq_or_lt_of_le hk₁ with rfl | hk₁
      · exact hp
      · exact h₃ k hk₁ hk₂
    · simp only [scanUp, hp, Bool.false_eq_true, if_false]
      exact ⟨le_rfl, by omega, fun k h₁ h₂ => by omega, fun _ => by simp [hp]⟩

theorem scanDown_spec (p : Nat → Bool) : ∀ n j : Nat, n ≤ j →
    scanDown p n j ≤ j ∧ j ≤ scanDown p n j + n ∧ (∀ k, scanDown p n j < k → k ≤ j → p k) ∧
      (j < scanDown p n j + n → p (scanDown p n j) = false)
  | 0, j, _ => ⟨le_rfl, by simp [scanDown], fun k h₁ h₂ => by simp [scanDown] at h₁; omega,
      fun h => by simp [scanDown] at h⟩
  | n + 1, j, hn => by
    by_cases hp : p j
    · obtain ⟨h₁, h₂, h₃, h₄⟩ := scanDown_spec p n (j - 1) (by omega)
      simp only [scanDown, hp, if_true]
      refine ⟨by omega, by omega, fun k hk₁ hk₂ => ?_, fun h => h₄ (by omega)⟩
      rcases Nat.eq_or_lt_of_le hk₂ with rfl | hk₂
      · exact hp
      · exact h₃ k hk₁ (by omega)
    · simp only [scanDown, hp, Bool.false_eq_true, if_false]
      exact ⟨le_rfl, by omega, fun k h₁ h₂ => by omega, fun _ => by simp [hp]⟩

/-! ## Insertion sort -/

/-- A swap of two indices at or past `m` keeps the range below `m`. -/
theorem read_swapAt_of_lt {v : List α} {i j k : Nat} (hi : i < v.length) (hj : j < v.length) (hk : k < i)
    (hk' : k < j) : read (swapAt v i j) k = read v k := by
  rw [read_swapAt hi hj, Equiv.swap_apply_of_ne_of_ne (by omega) (by omega)]

variable (key) in
/-- **`siftLeft` inserts the element at `lo + d` into the sorted range before it.** -/
theorem siftLeft_spec (lo : Nat) : ∀ (d : Nat) (v : List α), lo + d < v.length → Sorted key v lo (lo + d) →
    PermOn v (siftLeft key lo d v) lo (lo + d + 1) ∧ Sorted key (siftLeft key lo d v) lo (lo + d + 1)
  | 0, v, _, _ => ⟨PermOn.refl v _ _, sorted_of_le_succ v (by omega)⟩
  | d + 1, v, hv, hs => by
    have hd : lo + d + 1 < v.length := by omega
    rw [siftLeft]
    split
    · rename_i hlt
      set v' := swapAt v (lo + d + 1) (lo + d)
      have hs' : Sorted key v' lo (lo + d) := hs.mono le_rfl (by omega) |>.congr fun k _ hk =>
        read_swapAt_of_lt hd (by omega) (by omega) hk
      obtain ⟨hp, hw⟩ := siftLeft_spec lo d v' (by simp [v']; omega) hs'
      have hlast : read (siftLeft key lo d v') (lo + d + 1) = read v (lo + d) := by
        rw [hp.read_eq (Or.inr le_rfl), read_swapAt hd (by omega), Equiv.swap_apply_left]
      have hle : ∀ k, lo ≤ k → k < lo + d + 1 → key (read v' k) ≤ key (read v (lo + d)) := by
        intro k h₁ h₂
        by_cases hk : k = lo + d
        · rw [hk, read_swapAt hd (by omega), Equiv.swap_apply_right]
          simp only [lessAt_eq, decide_eq_true_eq] at hlt
          exact hlt.le
        · rw [read_swapAt_of_lt hd (by omega) (by omega) (by omega)]
          exact hs k (lo + d) h₁ (by omega) (by omega)
      refine ⟨(permOn_swapAt (by omega) (by omega) (by omega) (by omega) (by omega)).trans (hp.mono le_rfl (by omega)),
        ?_⟩
      refine hw.snoc fun k h₁ h₂ => ?_
      rw [hlast]
      exact hp.forall_mem (P := fun x => key x ≤ key (read v (lo + d))) hle k h₁ h₂
    · rename_i hge
      simp only [lessAt_eq, decide_eq_true_eq, not_lt] at hge
      refine ⟨PermOn.refl v _ _, hs.snoc fun k h₁ h₂ => le_trans (hs k (lo + d) h₁ (by omega) (by omega)) ?_⟩
      simpa [Nat.add_assoc] using hge

variable (key) in
theorem insertionSortLoop_spec (a : Nat) : ∀ (n i : Nat) (v : List α), a < i → i + n ≤ v.length →
    Sorted key v a i →
    PermOn v (insertionSortLoop key a i n v) a (i + n) ∧ Sorted key (insertionSortLoop key a i n v) a (i + n)
  | 0, _, v, _, _, hs => ⟨PermOn.refl v _ _, hs⟩
  | n + 1, i, v, hai, hn, hs => by
    have hi : a + (i - a) = i := by omega
    obtain ⟨hp, hs'⟩ := siftLeft_spec key a (i - a) v (by omega) (by rwa [hi])
    rw [hi] at hp hs'
    obtain ⟨hp', hs''⟩ := insertionSortLoop_spec a n (i + 1) _ (by omega) (by simp [hp.1]; omega) hs'
    rw [insertionSortLoop]
    rw [show i + (n + 1) = i + 1 + n by omega]
    exact ⟨(hp.mono le_rfl (by omega)).trans hp', hs''⟩

/-- **`insertionSort_func` sorts its range.** -/
theorem insertionSortFunc_spec (v : List α) {a b : Nat} (hb : b ≤ v.length) :
    PermOn v (insertionSortFunc key v a b) a b ∧ Sorted key (insertionSortFunc key v a b) a b := by
  by_cases hab : b ≤ a + 1
  · rw [insertionSortFunc, show b - (a + 1) = 0 by omega]
    exact ⟨PermOn.refl v _ _, sorted_of_le_succ v hab⟩
  · have := insertionSortLoop_spec key a (b - (a + 1)) (a + 1) v (by omega) (by omega)
      (sorted_of_le_succ v le_rfl)
    rwa [show a + 1 + (b - (a + 1)) = b by omega] at this

/-! ## Partitions -/

/-- **The loop of both partitions keeps what it passed on the left (`left`) and on the right (not `left`), and
ends where the two meet.**  Each turn swaps the two elements the scans stop at, one of each kind. -/
theorem partitionLoop_spec (left : α → Bool) {lo b : Nat} (hlo : 0 < lo) :
    ∀ {fuel i j : Nat} {v : List α} {i' j' : Nat} {w : List α}, partitionLoop left fuel i j v = (i', j', w) →
      lo ≤ i → i ≤ j + 1 → j < b → b ≤ v.length → j + 1 - i ≤ fuel →
      (∀ k, lo ≤ k → k < i → left (read v k)) → (∀ k, j < k → k < b → left (read v k) = false) →
      i' = j' + 1 ∧ i ≤ i' ∧ j' ≤ j ∧ PermOn v w lo b ∧ (∀ k, lo ≤ k → k < i' → left (read w k)) ∧
        (∀ k, i' ≤ k → k < b → left (read w k) = false)
  | 0, i, j, v, _, _, _, h, h₁, h₂, h₃, _, hf, hl, hr => by
    simp only [partitionLoop, Prod.mk.injEq] at h
    obtain ⟨rfl, rfl, rfl⟩ := h
    exact ⟨by omega, le_rfl, le_rfl, PermOn.refl v _ _, hl, fun k h₁ h₂ => hr k (by omega) h₂⟩
  | fuel + 1, i, j, v, i', j', w, h, h₁, h₂, h₃, hb, hf, hl, hr => by
    obtain ⟨u₁, u₂, u₃, u₄⟩ := scanUp_spec (fun i => left (read v i)) (j + 1 - i) i
    set i₁ := scanUp (fun i => left (read v i)) (j + 1 - i) i
    obtain ⟨d₁, d₂, d₃, d₄⟩ := scanDown_spec (fun j => !left (read v j)) (j + 1 - i₁) j (by omega)
    set j₁ := scanDown (fun j => !left (read v j)) (j + 1 - i₁) j
    have hl₁ : ∀ k, lo ≤ k → k < i₁ → left (read v k) := fun k hk₁ hk₂ =>
      if hk : k < i then hl k hk₁ hk else u₃ k (by omega) hk₂
    have hr₁ : ∀ k, j₁ < k → k < b → left (read v k) = false := fun k hk₁ hk₂ =>
      if hk : j < k then hr k hk hk₂ else by simpa using d₃ k hk₁ (by omega)
    simp only [partitionLoop] at h
    change (if i₁ > j₁ then (i₁, j₁, v) else partitionLoop left fuel (i₁ + 1) (j₁ - 1) (swapAt v i₁ j₁)) =
      (i', j', w) at h
    split_ifs at h with hij
    · simp only [Prod.mk.injEq] at h
      obtain ⟨rfl, rfl, rfl⟩ := h
      exact ⟨by omega, u₁, d₁, PermOn.refl v _ _, hl₁, fun k hk₁ hk₂ => hr₁ k (by omega) hk₂⟩
    · -- the scans stopped at an element of each kind, the left one first
      have hi₁ : left (read v i₁) = false := u₄ (by omega)
      have hj₁ : left (read v j₁) = true := by simpa using d₄ (by omega)
      have hlt : i₁ < j₁ := by
        rcases Nat.lt_or_ge i₁ j₁ with h' | h'
        · exact h'
        · rw [show j₁ = i₁ by omega, hi₁] at hj₁; cases hj₁
      have hs : PermOn v (swapAt v i₁ j₁) lo b := permOn_swapAt (by omega) (by omega) (by omega)
        (by omega) hb
      have hread : ∀ k, read (swapAt v i₁ j₁) k = read v (Equiv.swap i₁ j₁ k) :=
        read_swapAt (by omega) (by omega)
      obtain ⟨e₁, e₂, e₃, hp, hl', hr'⟩ := partitionLoop_spec left (b := b) hlo h (by omega) (by omega) (by omega)
        (by simp; omega) (by omega)
        (fun k hk₁ hk₂ => by
          rw [hread]
          rcases Nat.lt_or_ge k i₁ with hk | hk
          · rw [Equiv.swap_apply_of_ne_of_ne (by omega) (by omega)]; exact hl₁ k hk₁ hk
          · rw [show k = i₁ by omega, Equiv.swap_apply_left]; exact hj₁)
        (fun k hk₁ hk₂ => by
          rw [hread]
          rcases Nat.lt_or_ge j₁ k with hk | hk
          · rw [Equiv.swap_apply_of_ne_of_ne (by omega) (by omega)]; exact hr₁ k hk hk₂
          · rw [show k = j₁ by omega, Equiv.swap_apply_right]; exact hi₁)
      exact ⟨e₁, by omega, by omega, hs.trans hp, hl', hr'⟩

theorem read_of_permOn_swap {w w' : List α} {j a k : Nat} (hw : w = swapAt w' j a) (hj : j < w'.length)
    (ha : a < w'.length) (hk₁ : k ≠ j) (hk₂ : k ≠ a) : read w k = read w' k := by
  rw [hw, read_swapAt hj ha, Equiv.swap_apply_of_ne_of_ne hk₁ hk₂]

variable (key) in
/-- `partition_func` is the partition loop from the whole range, its first turn included. -/
theorem partitionFunc_eq (v : List α) (a b pivot : Nat) :
    let v₁ := swapAt v a pivot
    let r := partitionLoop (fun x => decide (key x < key (read v₁ a))) (b - a + 1) (a + 1) (b - 1) v₁
    ∃ ap, partitionFunc key v a b pivot = (r.2.1, ap, swapAt r.2.2 r.2.1 a) := by
  intro v₁ r
  simp only [r, partitionFunc, partitionLoop, read]
  split_ifs <;> exact ⟨_, rfl⟩

theorem partitionEqualFunc_eq (v : List α) (a b pivot : Nat) :
    let v₁ := swapAt v a pivot
    let r := partitionLoop (fun x => !decide (key (read v₁ a) < key x)) (b - a) (a + 1) (b - 1) v₁
    partitionEqualFunc key v a b pivot = (r.1, r.2.2) := rfl

/-- **`partition_func` splits its range around the pivot**: the pivot's element lands at `mid`, every key before
it is at most the pivot's, every key after it at least. -/
theorem partitionFunc_spec {v : List α} {a b pivot mid : Nat} {ap : Bool} {w : List α}
    (h : partitionFunc key v a b pivot = (mid, ap, w)) (hpa : a ≤ pivot) (hpb : pivot < b) (hb : b ≤ v.length) :
    a ≤ mid ∧ mid < b ∧ PermOn v w a b ∧ (∀ k, a ≤ k → k < mid → key (read w k) ≤ key (read w mid)) ∧
      (∀ k, mid < k → k < b → key (read w mid) ≤ key (read w k)) := by
  obtain ⟨ap', h'⟩ := partitionFunc_eq key v a b pivot
  set v₁ := swapAt v a pivot
  set left := fun x => decide (key x < key (read v₁ a))
  rcases hL : partitionLoop left (b - a + 1) (a + 1) (b - 1) v₁ with ⟨i', j', w'⟩
  rw [h, hL] at h'
  simp only [Prod.mk.injEq] at h'
  obtain ⟨rfl, -, hw⟩ := h'
  have hv₁ : PermOn v v₁ a b := permOn_swapAt (by omega) hpb le_rfl hpa hb
  obtain ⟨e₁, e₂, e₃, hp, hl, hr⟩ := partitionLoop_spec left (b := b) (by omega) hL le_rfl
    (by omega) (by omega) (by simp [v₁]; omega) (by omega) (fun k h₁ h₂ => by omega) (fun k h₁ h₂ => by omega)
  have hlen : w'.length = v.length := by rw [hp.1]; simp [v₁]
  have hpiv : read w' a = read v₁ a := hp.read_eq (Or.inl (by omega))
  have hmid : read w mid = read v₁ a := by rw [hw, read_swapAt (by omega) (by omega), Equiv.swap_apply_left, hpiv]
  refine ⟨by omega, by omega, hv₁.trans ((hp.mono (by omega) le_rfl).trans ?_), fun k h₁ h₂ => ?_,
    fun k h₁ h₂ => ?_⟩
  · rw [hw]; exact permOn_swapAt (by omega) (by omega) (by omega) le_rfl (by omega)
  · rw [hmid]
    have hlt : key (read w k) < key (read v₁ a) := by
      by_cases hka : k = a
      · rw [hka, hw, read_swapAt (by omega) (by omega), Equiv.swap_apply_right]
        simpa [left] using hl mid (by omega) (by omega)
      · rw [read_of_permOn_swap hw (by omega) (by omega) (by omega) hka]
        simpa [left] using hl k (by omega) (by omega)
    exact hlt.le
  · rw [hmid, read_of_permOn_swap hw (by omega) (by omega) (by omega) (by omega)]
    simpa [left] using hr k (by omega) h₂

/-- **`partitionEqual_func` gathers the elements at most the pivot at the start of its range.** -/
theorem partitionEqualFunc_spec {v : List α} {a b pivot mid : Nat} {w : List α}
    (h : partitionEqualFunc key v a b pivot = (mid, w)) (hpa : a ≤ pivot) (hpb : pivot < b) (hb : b ≤ v.length) :
    a < mid ∧ mid ≤ b ∧ PermOn v w a b ∧ ∀ k, a ≤ k → k < mid → key (read w k) ≤ key (read v pivot) := by
  rw [partitionEqualFunc_eq] at h
  set v₁ := swapAt v a pivot
  set left := fun x => !decide (key (read v₁ a) < key x)
  rcases hL : partitionLoop left (b - a) (a + 1) (b - 1) v₁ with ⟨i', j', w'⟩
  rw [hL] at h
  simp only [Prod.mk.injEq] at h
  obtain ⟨rfl, rfl⟩ := h
  have hv₁ : PermOn v v₁ a b := permOn_swapAt (by omega) hpb le_rfl hpa hb
  obtain ⟨e₁, e₂, e₃, hp, hl, -⟩ := partitionLoop_spec left (b := b) (by omega) hL le_rfl
    (by omega) (by omega) (by simp [v₁]; omega) (by omega) (fun k h₁ h₂ => by omega) (fun k h₁ h₂ => by omega)
  have hpiv : read v₁ a = read v pivot := by
    rw [read_swapAt (by omega) (by omega), Equiv.swap_apply_left]
  refine ⟨by omega, by omega, hv₁.trans (hp.mono (by omega) le_rfl), fun k h₁ h₂ => ?_⟩
  rw [← hpiv]
  by_cases hka : k = a
  · rw [hka, hp.read_eq (Or.inl (by omega))]
  · simpa [left] using hl k (by omega) h₂

/-! ## Choosing the pivot -/

variable (key) in
theorem order2Func_mem (v : List α) (P : Nat → Prop) {a b : Nat} (swaps : Nat) (ha : P a) (hb : P b) :
    P (order2Func key v a b swaps).1 ∧ P (order2Func key v a b swaps).2.1 := by
  unfold order2Func
  split <;> exact ⟨‹_›, ‹_›⟩

/-- `median_func` picks one of its three indices. -/
theorem medianFunc_mem (v : List α) (P : Nat → Prop) {a b c : Nat} (swaps : Nat) (ha : P a) (hb : P b) (hc : P c) :
    P (medianFunc key v a b c swaps).1 := by
  unfold medianFunc
  obtain ⟨h₁, h₂⟩ := order2Func_mem key v P swaps ha hb
  generalize order2Func key v a b swaps = r₁ at h₁ h₂ ⊢
  obtain ⟨a₁, b₁, s₁⟩ := r₁
  dsimp only
  obtain ⟨h₃, -⟩ := order2Func_mem key v P s₁ h₂ hc
  generalize order2Func key v b₁ c s₁ = r₂ at h₃ ⊢
  obtain ⟨b₂, c₂, s₂⟩ := r₂
  exact (order2Func_mem key v P s₂ h₁ h₃).2

variable (key) in
/-- **`choosePivot_func` picks an index of its range.** -/
theorem choosePivotFunc_mem (v : List α) {a b : Nat} (hab : a < b) :
    a ≤ (choosePivotFunc key v a b).1 ∧ (choosePivotFunc key v a b).1 < b := by
  show a ≤ (pivotSwaps key v a b).1 ∧ (pivotSwaps key v a b).1 < b
  unfold pivotSwaps
  dsimp only
  split_ifs with h8 h50
  · refine medianFunc_mem v (fun x => a ≤ x ∧ x < b) _ ?_ ?_ ?_ <;>
      exact medianFunc_mem v (fun x => a ≤ x ∧ x < b) _ ⟨by omega, by omega⟩ ⟨by omega, by omega⟩ ⟨by omega, by omega⟩
  · exact medianFunc_mem v (fun x => a ≤ x ∧ x < b) _ ⟨by omega, by omega⟩ ⟨by omega, by omega⟩ ⟨by omega, by omega⟩
  · constructor <;> omega

/-! ## Reversing and breaking patterns -/

theorem reverseLoop_perm : ∀ (i d : Nat) (v : List α), i + d < v.length → PermOn v (reverseLoop i d v) i (i + d + 1)
  | _, 0, v, _ => PermOn.refl v _ _
  | i, 1, v, h => permOn_swapAt (by omega) (by omega) le_rfl (by omega) (by omega)
  | i, d + 2, v, h => by
    rw [reverseLoop]
    exact (permOn_swapAt (by omega) (by omega) le_rfl (by omega) (by omega)).trans
      ((reverseLoop_perm (i + 1) d _ (by simp; omega)).mono (by omega) (by omega))

/-- **`reverseRange_func` permutes its range.** -/
theorem reverseRangeFunc_perm (v : List α) {a b : Nat} (hab : a < b) (hb : b ≤ v.length) :
    PermOn v (reverseRangeFunc v a b) a b := by
  have := reverseLoop_perm a (b - 1 - a) v (by omega)
  rwa [show a + (b - 1 - a) + 1 = b by omega] at this

theorem breakPatternsLoop_perm {a e : Nat} (length idx : Nat) (ha : a + 1 ≤ idx) (hidx : idx + 1 < a + length)
    (he : 2 ^ e ≤ 2 * length) :
    ∀ (i n : Nat) (random : UInt64) (v : List α), i + n ≤ 3 → a + length ≤ v.length →
      PermOn v (breakPatternsLoop a length idx (2 ^ e) i n random v) a (a + length)
  | _, 0, _, v, _, _ => PermOn.refl v _ _
  | i, n + 1, random, v, hn, hv => by
    rw [breakPatternsLoop]
    have hother : (xorshiftNext random).toNat &&& (2 ^ e - 1) < 2 * length := by
      rw [Nat.and_pow_two_sub_one_eq_mod]
      exact lt_of_lt_of_le (Nat.mod_lt _ (Nat.two_pow_pos e)) he
    exact (permOn_swapAt (by omega) (by split <;> omega) (by omega) (by omega) hv).trans
      (breakPatternsLoop_perm length idx ha hidx he (i + 1) n _ _ (by omega) (by simp; omega))

theorem nextPowerOfTwo_le {n : Nat} (hn : 0 < n) : nextPowerOfTwo n ≤ 2 * n := by
  rw [nextPowerOfTwo, bitsLen, if_neg (by omega), Nat.pow_succ, Nat.mul_comm]
  exact Nat.mul_le_mul_left 2 (Nat.log2_self_le (by omega))

/-- **`breakPatterns_func` permutes its range.** -/
theorem breakPatternsFunc_perm (v : List α) {a b : Nat} (hb : b ≤ v.length) : PermOn v (breakPatternsFunc v a b) a b := by
  unfold breakPatternsFunc
  dsimp only
  split
  · have := breakPatternsLoop_perm (v := v) (a := a) (e := bitsLen (b - a)) (b - a) (a + (b - a) / 4 * 2 - 1)
      (by omega) (by omega) (nextPowerOfTwo_le (by omega)) 0 3 (UInt64.ofNat (b - a))
      (by omega) (by omega)
    rwa [show a + (b - a) = b by omega] at this
  · exact PermOn.refl v _ _

/-! ## Partial insertion sort -/

/-- The element left of `[a, b)` is at most every element of it, or the range starts the slice. -/
def LeftBound (key : α → Nat) (v : List α) (a b : Nat) : Prop :=
  a = 0 ∨ ∀ k, a ≤ k → k < b → key (read v (a - 1)) ≤ key (read v k)

theorem LeftBound.perm {v w : List α} {a b : Nat} (h : LeftBound key v a b) (hp : PermOn v w a b) :
    LeftBound key w a b := by
  rcases Nat.eq_zero_or_pos a with rfl | ha
  · exact Or.inl rfl
  · refine h.imp_right fun h k h₁ h₂ => ?_
    rw [hp.read_eq (Or.inl (by omega))]
    exact hp.forall_mem (P := fun x => key (read v (a - 1)) ≤ key x) h k h₁ h₂

variable (key) in
theorem siftRight_perm : ∀ (n j : Nat) (v : List α), 0 < j → j + n ≤ v.length →
    PermOn v (siftRight key n j v) (j - 1) (j + n)
  | 0, _, v, _, _ => PermOn.refl v _ _
  | n + 1, j, v, hj, h => by
    rw [siftRight]
    split
    · exact PermOn.refl v _ _
    · exact (permOn_swapAt (by omega) (by omega) (by omega) le_rfl (by omega)).trans
        ((siftRight_perm n (j + 1) _ (by omega) (by simp; omega)).mono (by omega) (by omega))

variable (key) in
/-- **The left shift from index 1 stops at the start of the range**, when the element left of the range is at
most the one that moves. -/
theorem siftLeft_zero_eq (a : Nat) : ∀ (d : Nat) (v : List α), a + d < v.length →
    (a = 0 ∨ key (read v (a - 1)) ≤ key (read v (a + d))) → siftLeft key 0 (a + d) v = siftLeft key a d v
  | 0, v, _, h => by
    rcases a with _ | a
    · rfl
    · rw [Nat.add_zero, siftLeft, siftLeft, if_neg]
      simpa [lessAt_eq] using h
  | d + 1, v, hv, h => by
    rw [show a + (d + 1) = a + d + 1 by omega, siftLeft, siftLeft, Nat.zero_add]
    split
    · have h₁ : a + d + 1 < v.length := by omega
      have h₂ : a + d < v.length := by omega
      refine siftLeft_zero_eq a d _ (by simp only [length_swapAt]; omega) ?_
      rcases Nat.eq_zero_or_pos a with rfl | ha
      · exact Or.inl rfl
      · refine .inr ?_
        rw [read_swapAt h₁ h₂, read_swapAt h₁ h₂, Equiv.swap_apply_right,
          Equiv.swap_apply_of_ne_of_ne (a := a + d + 1) (by omega) (by omega)]
        simpa [Nat.add_assoc, show a ≠ 0 by omega] using h
    · rfl

/-- The left shift of `partialInsertionSort_func`, from index 0: the element at `i - 1` joins the sorted range
`[a, i - 1)`, and the shift stops at `a`, since the element left of `a` is at most the one that moves. -/
theorem shiftLeft_spec {v : List α} {a i : Nat} (hai : a < i) (hi : i ≤ v.length) (hs : Sorted key v a (i - 1))
    (hl : a = 0 ∨ key (read v (a - 1)) ≤ key (read v (i - 1))) :
    PermOn v (if i - a ≥ 2 then siftLeft key 0 (i - 1) v else v) a i ∧
      Sorted key (if i - a ≥ 2 then siftLeft key 0 (i - 1) v else v) a i := by
  by_cases h2 : i - a ≥ 2
  · have hd : a + (i - 1 - a) = i - 1 := by omega
    have heq := siftLeft_zero_eq key a (i - 1 - a) v (by omega) (by rwa [hd])
    obtain ⟨hp, hs⟩ := siftLeft_spec key a (i - 1 - a) v (by omega) (by rwa [hd])
    rw [hd] at heq
    rw [show a + (i - 1 - a) + 1 = i by omega, ← heq] at hp hs
    rw [if_pos h2]
    exact ⟨hp, hs⟩
  · rw [if_neg h2]
    exact ⟨PermOn.refl v _ _, sorted_of_le_succ v (by omega)⟩

/-- The right shift of `partialInsertionSort_func` permutes `[i, b)`. -/
theorem shiftRight_perm {v : List α} {i b : Nat} (hi : 0 < i) (hb : b ≤ v.length) :
    PermOn v (if b - i ≥ 2 then siftRight key (b - (i + 1)) (i + 1) v else v) i b := by
  by_cases h3 : b - i ≥ 2
  · rw [if_pos h3]
    have := siftRight_perm key (b - (i + 1)) (i + 1) v (by omega) (by omega)
    rwa [show i + 1 - 1 = i by omega, show i + 1 + (b - (i + 1)) = b by omega] at this
  · rw [if_neg h3]
    exact PermOn.refl v _ _

/-- **`partialInsertionSort_func`'s loop permutes the range, and reports `true` only when it is sorted.**  Each turn
extends the sorted prefix by a scan; at the first element out of order it swaps it with its neighbour, inserts the
smaller one into the prefix and moves the greater one right. -/
theorem partialInsertionSortLoop_spec {a b : Nat} :
    ∀ (steps i : Nat) (v : List α) {s : Bool} {w : List α}, partialInsertionSortLoop key a b steps i v = (s, w) →
      b ≤ v.length → a < i → i ≤ b → Sorted key v a i → LeftBound key v a b →
      PermOn v w a b ∧ (s = true → Sorted key w a b)
  | 0, _, v, _, _, h, _, _, _, _, _ => by
    simp only [partialInsertionSortLoop, Prod.mk.injEq] at h
    obtain ⟨rfl, rfl⟩ := h
    exact ⟨PermOn.refl v _ _, fun h => by cases h⟩
  | steps + 1, i, v, s, w, h, hb, hai, hib, hs, hl => by
    obtain ⟨u₁, u₂, u₃, u₄⟩ := scanUp_spec (fun i => !lessAt key v i (i - 1)) (b - i) i
    set i₁ := scanUp (fun i => !lessAt key v i (i - 1)) (b - i) i
    have hs₁ : Sorted key v a i₁ := hs.extend fun k h₁ h₂ => by
      simpa [lessAt_eq] using u₃ k h₁ h₂
    simp only [partialInsertionSortLoop] at h
    by_cases hend : i₁ = b
    · rw [if_pos hend, Prod.mk.injEq] at h
      obtain ⟨rfl, rfl⟩ := h
      exact ⟨PermOn.refl v _ _, fun _ => hend ▸ hs₁⟩
    rw [if_neg hend] at h
    by_cases hshort : b - a < 50
    · rw [if_pos hshort, Prod.mk.injEq] at h
      obtain ⟨rfl, rfl⟩ := h
      exact ⟨PermOn.refl v _ _, fun h => by cases h⟩
    rw [if_neg hshort] at h
    -- the out-of-order pair at `i₁ - 1, i₁`
    have hlt : key (read v i₁) < key (read v (i₁ - 1)) := by simpa [lessAt_eq] using u₄ (by omega)
    set v₁ := swapAt v i₁ (i₁ - 1)
    have hv₁ : PermOn v v₁ a b := permOn_swapAt (by omega) (by omega) (by omega) (by omega) hb
    have hread₁ : ∀ k, read v₁ k = read v (Equiv.swap i₁ (i₁ - 1) k) := read_swapAt (by omega) (by omega)
    have hs₁' : Sorted key v₁ a (i₁ - 1) := (hs₁.mono le_rfl (by omega)).congr fun k _ hk => by
      rw [hread₁, Equiv.swap_apply_of_ne_of_ne (by omega) (by omega)]
    -- the smaller one is inserted into the sorted prefix, the greater one moves right
    set v₂ := if i₁ - a ≥ 2 then siftLeft key 0 (i₁ - 1) v₁ else v₁
    have hv₂ : PermOn v₁ v₂ a i₁ ∧ Sorted key v₂ a i₁ := shiftLeft_spec (by omega) (by simp [v₁]; omega) hs₁' <| by
      rcases Nat.eq_zero_or_pos a with ha | ha
      · exact .inl ha
      · refine .inr ?_
        rw [hread₁, hread₁, Equiv.swap_apply_right, Equiv.swap_apply_of_ne_of_ne (by omega) (by omega)]
        exact hl.resolve_left (by omega) i₁ (by omega) (by omega)
    set v₃ := if b - i₁ ≥ 2 then siftRight key (b - (i₁ + 1)) (i₁ + 1) v₂ else v₂
    have hv₃ : PermOn v₂ v₃ i₁ b := shiftRight_perm (by omega) (by rw [hv₂.1.1]; simp [v₁]; omega)
    have hp : PermOn v v₃ a b := hv₁.trans ((hv₂.1.mono le_rfl (by omega)).trans (hv₃.mono (by omega) le_rfl))
    obtain ⟨hp', hs'⟩ := partialInsertionSortLoop_spec steps i₁ v₃ h (by rw [hp.1]; exact hb) (by omega) (by omega)
      (hv₂.2.congr fun k _ hk => hv₃.read_eq (Or.inl hk)) (hl.perm hp)
    exact ⟨hp.trans hp', hs'⟩

/-- **`partialInsertionSort_func` permutes its range, and says `true` only of a sorted one.** -/
theorem partialInsertionSortFunc_spec {v : List α} {a b : Nat} {s : Bool} {w : List α}
    (h : partialInsertionSortFunc key v a b = (s, w)) (hab : a < b) (hb : b ≤ v.length) (hl : LeftBound key v a b) :
    PermOn v w a b ∧ (s = true → Sorted key w a b) :=
  partialInsertionSortLoop_spec 5 (a + 1) v h hb (by omega) (by omega) (sorted_of_le_succ v le_rfl) hl

end SortParts

end PsxSym
