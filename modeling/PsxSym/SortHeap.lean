import PsxSym.SortParts
/-!
# SortHeap — `heapSort_func`, which `pdqsort_func` falls back to

The heap of `heapSort_func` stands at `first` in the slice; its parent `p` has the children `2p + 1` and `2p + 2`.
`siftDown_func` restores the heap from a root whose subtrees are heaps: while it moves the root's element down, the
heap holds everywhere but at the element's place, and there the parent is at least the children (`SiftInv`).
Building the heap sifts every parent down, the last first; popping it swaps the root, the greatest element, behind
the heap, and sifts the new root down.
-/
namespace PsxSym

section SortHeap

variable {α : Type} [Inhabited α] {key : α → Nat}

/-- `c` is a child of `p`. -/
def IsChild (c p : Nat) : Prop := c = 2 * p + 1 ∨ c = 2 * p + 2

variable (key)

/-- Every parent at or past `i`, of the heap of `n` elements at `first`, is at least each of its children. -/
def HeapFrom (v : List α) (first n i : Nat) : Prop :=
  ∀ p c, i ≤ p → IsChild c p → c < n → key (read v (first + c)) ≤ key (read v (first + p))

/-- The heap holds at every parent at or past `i` but `r`, the place of the element sifted down, and the parent of
`r` is at least the children of `r`. -/
def SiftInv (v : List α) (first n i r : Nat) : Prop :=
  (∀ p c, i ≤ p → p ≠ r → IsChild c p → c < n → key (read v (first + c)) ≤ key (read v (first + p))) ∧
    (i < r → ∀ c, IsChild c r → c < n → key (read v (first + c)) ≤ key (read v (first + (r - 1) / 2)))

variable {key}

theorem SiftInv.of_heapFrom {v : List α} {first n i : Nat} (h : HeapFrom key v first n (i + 1)) :
    SiftInv key v first n i i :=
  ⟨fun p c h₁ h₂ => h p c (by omega), fun h => absurd h (lt_irrefl i)⟩

variable (key) in
/-- The child `siftDown_func` compares its root with: the greater of the two. -/
theorem siftDown_child (v : List α) (first : Nat) {n r : Nat} (hc : 2 * r + 1 < n) :
    let c := if 2 * r + 1 + 1 < n ∧ lessAt key v (first + (2 * r + 1)) (first + (2 * r + 1) + 1) then 2 * r + 1 + 1
      else 2 * r + 1
    IsChild c r ∧ c < n ∧ ∀ c', IsChild c' r → c' < n → key (read v (first + c')) ≤ key (read v (first + c)) := by
  intro c
  by_cases h : 2 * r + 1 + 1 < n ∧ lessAt key v (first + (2 * r + 1)) (first + (2 * r + 1) + 1)
  · simp only [c, if_pos h]
    have hlt : key (read v (first + (2 * r + 1))) < key (read v (first + (2 * r + 2))) := by
      simpa [lessAt_eq, Nat.add_assoc] using h.2
    refine ⟨.inr rfl, h.1, fun c' hc' _ => ?_⟩
    rcases hc' with rfl | rfl
    · exact hlt.le
    · exact le_rfl
  · simp only [c, if_neg h]
    refine ⟨.inl rfl, hc, fun c' hc' hc'' => ?_⟩
    rcases hc' with rfl | rfl
    · exact le_rfl
    · have : ¬lessAt key v (first + (2 * r + 1)) (first + (2 * r + 1) + 1) = true := fun h' => h ⟨by omega, h'⟩
      simpa [lessAt_eq, Nat.add_assoc] using this

/-- A hole without children holds the heap. -/
theorem SiftInv.heapFrom_of_leaf {v : List α} {first n i r : Nat} (hs : SiftInv key v first n i r)
    (hleaf : n ≤ 2 * r + 1) : HeapFrom key v first n i := fun p c h₁ h₂ h₃ =>
  hs.1 p c h₁ (by rintro rfl; rcases h₂ with rfl | rfl <;> omega) h₂ h₃

/-- A hole at least its greater child holds the heap. -/
theorem SiftInv.heapFrom_of_ge {v : List α} {first n i r c : Nat} (hs : SiftInv key v first n i r)
    (hmax : ∀ c', IsChild c' r → c' < n → key (read v (first + c')) ≤ key (read v (first + c)))
    (hge : key (read v (first + c)) ≤ key (read v (first + r))) : HeapFrom key v first n i := fun p c' h₁ h₂ h₃ => by
  by_cases hp : p = r
  · subst hp; exact (hmax c' h₂ h₃).trans hge
  · exact hs.1 p c' h₁ hp h₂ h₃

/-- **Swapping the hole with its greater child, when that child is greater, moves the hole down to the child.** -/
theorem SiftInv.swap_child {v : List α} {first n i r c : Nat} (hs : SiftInv key v first n i r)
    (hv : first + n ≤ v.length) (hir : i ≤ r) (hcr : IsChild c r) (hcn : c < n)
    (hmax : ∀ c', IsChild c' r → c' < n → key (read v (first + c')) ≤ key (read v (first + c)))
    (hlt : key (read v (first + r)) < key (read v (first + c))) :
    SiftInv key (swapAt v (first + r) (first + c)) first n i c := by
  have hrc : r < c := by rcases hcr with h | h <;> omega
  have hread : ∀ k, read (swapAt v (first + r) (first + c)) k = read v (Equiv.swap (first + r) (first + c) k) :=
    read_swapAt (by omega) (by omega)
  have hfix : ∀ k, k ≠ r → k ≠ c → read (swapAt v (first + r) (first + c)) (first + k) = read v (first + k) :=
    fun k h₁ h₂ => by rw [hread, Equiv.swap_apply_of_ne_of_ne (by omega) (by omega)]
  have hr' : read (swapAt v (first + r) (first + c)) (first + r) = read v (first + c) := by
    rw [hread, Equiv.swap_apply_left]
  have hc' : read (swapAt v (first + r) (first + c)) (first + c) = read v (first + r) := by
    rw [hread, Equiv.swap_apply_right]
  refine ⟨fun p c' h₁ hpc h₂ h₃ => ?_, fun _ c' h₂ h₃ => ?_⟩
  · by_cases hp : p = r
    · -- the new element at `r` is the old greater child
      subst hp
      rw [hr']
      by_cases hcc : c' = c
      · rw [hcc, hc']; exact hlt.le
      · rw [hfix c' (by rcases h₂ with h | h <;> omega) hcc]; exact hmax c' h₂ h₃
    · have hc'r : c' ≠ c := fun h => by rcases h₂ with h₂ | h₂ <;> rcases hcr with h' | h' <;> omega
      rw [hfix p hp hpc]
      by_cases hcr' : c' = r
      · -- `p` is the parent of `r`
        have hpr : p = (r - 1) / 2 := by rcases h₂ with h | h <;> omega
        rw [hcr', hr', hpr]
        exact hs.2 (by rcases h₂ with h | h <;> omega) c hcr hcn
      · rw [hfix c' hcr' hc'r]
        exact hs.1 p c' h₁ hp h₂ h₃
  · -- the children of `c` are at most the old root, now at `c`'s parent `r`
    have hpc : (c - 1) / 2 = r := by rcases hcr with h | h <;> omega
    have hc'c : c < c' := by rcases h₂ with h | h <;> omega
    rw [hpc, hr', hfix c' (by omega) (by omega)]
    exact hs.1 c c' (by omega) (by omega) h₂ h₃

/-- **The sift-down keeps its invariant, and ends with the heap holding from `i` on.** -/
theorem siftDownLoop_spec {first n i : Nat} :
    ∀ (fuel r : Nat) (v : List α), i ≤ r → n ≤ fuel + r → first + n ≤ v.length → SiftInv key v first n i r →
      PermOn v (siftDownLoop key n first fuel r v) first (first + n) ∧
        HeapFrom key (siftDownLoop key n first fuel r v) first n i
  | 0, r, v, _, hf, _, hs => ⟨PermOn.refl v _ _, hs.heapFrom_of_leaf (by omega)⟩
  | fuel + 1, r, v, hir, hf, hv, hs => by
    rw [siftDownLoop]
    dsimp only
    by_cases hleaf : 2 * r + 1 ≥ n
    · rw [if_pos hleaf]
      exact ⟨PermOn.refl v _ _, hs.heapFrom_of_leaf hleaf⟩
    rw [if_neg hleaf]
    obtain ⟨hcr, hcn, hmax⟩ := siftDown_child key v first (Nat.lt_of_not_le hleaf)
    set c := if 2 * r + 1 + 1 < n ∧ lessAt key v (first + (2 * r + 1)) (first + (2 * r + 1) + 1) then 2 * r + 1 + 1
      else 2 * r + 1
    have hrc : r < c := by rcases hcr with h | h <;> omega
    split
    · -- the root is at least its greater child: the heap holds at `r` too
      rename_i hge
      exact ⟨PermOn.refl v _ _, hs.heapFrom_of_ge hmax (by simpa [lessAt_eq] using hge)⟩
    · -- the greater child moves up, and the root goes on down from `c`
      rename_i hlt
      have hinv := hs.swap_child hv hir hcr hcn hmax (by simpa [lessAt_eq] using hlt)
      obtain ⟨hp, hh⟩ := siftDownLoop_spec fuel c _ (by omega) (by omega) (by simp; omega) hinv
      exact ⟨(permOn_swapAt (by omega) (by omega) (by omega) (by omega) (by omega)).trans hp, hh⟩

/-- **`siftDown_func` from the root `i` of subtrees that are heaps makes a heap from `i` on.** -/
theorem siftDownFunc_spec {v : List α} {first n i : Nat} (hv : first + n ≤ v.length) (hh : HeapFrom key v first n (i + 1)) :
    PermOn v (siftDownFunc key v i n first) first (first + n) ∧ HeapFrom key (siftDownFunc key v i n first) first n i :=
  siftDownLoop_spec n i v le_rfl (by omega) hv (.of_heapFrom hh)

variable (key) in
theorem heapifyLoop_spec (first n : Nat) : ∀ (m : Nat) (v : List α), first + n ≤ v.length →
    HeapFrom key v first n m →
    PermOn v (heapifyLoop key n first m v) first (first + n) ∧ HeapFrom key (heapifyLoop key n first m v) first n 0
  | 0, v, _, hh => ⟨PermOn.refl v _ _, hh⟩
  | m + 1, v, hv, hh => by
    obtain ⟨hp, hh'⟩ := siftDownFunc_spec hv hh
    obtain ⟨hp', hh''⟩ := heapifyLoop_spec first n m _ (by rw [hp.1]; exact hv) hh'
    exact ⟨hp.trans hp', hh''⟩

/-- The root of a heap is its greatest element. -/
theorem HeapFrom.root_max {v : List α} {first n : Nat} (hh : HeapFrom key v first n 0) :
    ∀ k, k < n → key (read v (first + k)) ≤ key (read v first)
  | 0, _ => le_rfl
  | k + 1, hk => by
    have hp : k / 2 < k + 1 := by omega
    refine (hh (k / 2) (k + 1) (Nat.zero_le _) (by unfold IsChild; omega) hk).trans ?_
    simpa using HeapFrom.root_max hh (k / 2) (by omega)

/-- **Swapping the root of a heap with its last element leaves a heap below the root**, one element shorter, all of
it at most the old root. -/
theorem HeapFrom.swap_last {v : List α} {first m : Nat} (hh : HeapFrom key v first (m + 1) 0)
    (hv : first + m < v.length) :
    HeapFrom key (swapAt v first (first + m)) first m 1 ∧
      ∀ x, first ≤ x → x < first + m → key (read (swapAt v first (first + m)) x) ≤ key (read v first) := by
  have hread : ∀ k, read (swapAt v first (first + m)) k = read v (Equiv.swap first (first + m) k) :=
    read_swapAt (by omega) hv
  refine ⟨fun p c h₁ h₂ h₃ => ?_, fun x h₁ h₂ => ?_⟩
  · have hpc : p < c := by rcases h₂ with h | h <;> omega
    rw [hread, hread, Equiv.swap_apply_of_ne_of_ne (by omega) (by omega),
      Equiv.swap_apply_of_ne_of_ne (by omega) (by omega)]
    exact hh p c (by omega) h₂ (by omega)
  · rw [hread]
    by_cases hx0 : x = first
    · rw [hx0, Equiv.swap_apply_left]; simpa using hh.root_max m (by omega)
    · rw [Equiv.swap_apply_of_ne_of_ne hx0 (by omega)]
      simpa [show first + (x - first) = x by omega] using hh.root_max (x - first) (by omega)

variable (key) in
theorem heapPopLoop_spec (first hi : Nat) : ∀ (m : Nat) (v : List α), m ≤ hi → first + hi ≤ v.length →
    HeapFrom key v first m 0 → Sorted key v (first + m) (first + hi) →
    (∀ x y, first ≤ x → x < first + m → first + m ≤ y → y < first + hi → key (read v x) ≤ key (read v y)) →
    PermOn v (heapPopLoop key first m v) first (first + hi) ∧ Sorted key (heapPopLoop key first m v) first (first + hi)
  | 0, v, _, _, _, hs, _ => ⟨PermOn.refl v _ _, by simpa using hs⟩
  | m + 1, v, hm, hv, hh, hs, hx => by
    rw [heapPopLoop]
    set v' := swapAt v first (first + m)
    have hread : ∀ k, read v' k = read v (Equiv.swap first (first + m) k) := read_swapAt (by omega) (by omega)
    have htop : read v' (first + m) = read v first := by rw [hread, Equiv.swap_apply_right]
    obtain ⟨hinv, hle⟩ := hh.swap_last (by omega)
    obtain ⟨hp, hh'⟩ := siftDownFunc_spec (i := 0) (by simp [v']; omega) hinv
    set w := siftDownFunc key v' 0 m first
    have hfix : ∀ k, first + m ≤ k → read w k = read v' k := fun k hk => hp.read_eq (Or.inr hk)
    -- the greatest element, now at `first + m`, is at most every element behind it
    have hbelow : ∀ y, first + m ≤ y → y < first + hi → key (read v first) ≤ key (read v' y) := by
      intro y h₁ h₂
      by_cases hy : y = first + m
      · rw [hy, htop]
      · rw [hread, Equiv.swap_apply_of_ne_of_ne (by omega) hy]
        exact hx first y le_rfl (by omega) (by omega) h₂
    have hs' : Sorted key w (first + m) (first + hi) := by
      refine Sorted.congr ?_ fun k h₁ _ => hfix k h₁
      refine (sorted_of_le_succ v' le_rfl).append ((hs.congr fun k h₁ _ => ?_)) fun x y h₁ h₂ h₃ h₄ => ?_
      · rw [hread, Equiv.swap_apply_of_ne_of_ne (by omega) (by omega)]
      · rw [show x = first + m by omega, htop]; exact hbelow y (by omega) h₄
    have hx' : ∀ x y, first ≤ x → x < first + m → first + m ≤ y → y < first + hi →
        key (read w x) ≤ key (read w y) := fun x y h₁ h₂ h₃ h₄ => by
      rw [hfix y h₃]
      exact (hp.forall_mem (P := fun e => key e ≤ key (read v first)) hle x h₁ (by omega)).trans (hbelow y h₃ h₄)
    obtain ⟨hp', hs''⟩ := heapPopLoop_spec first hi m w (by omega) (by rw [hp.1]; simp [v']; omega) hh' hs' hx'
    exact ⟨(permOn_swapAt (by omega) (by omega) le_rfl (by omega) hv).trans ((hp.mono le_rfl (by omega)).trans hp'),
      hs''⟩

/-- **`heapSort_func` sorts its range.** -/
theorem heapSortFunc_spec (v : List α) {a b : Nat} (hab : a ≤ b) (hb : b ≤ v.length) :
    PermOn v (heapSortFunc key v a b) a b ∧ Sorted key (heapSortFunc key v a b) a b := by
  have hn : a + (b - a) = b := by omega
  obtain ⟨hp, hh⟩ := heapifyLoop_spec key a (b - a) ((b - a - 1) / 2 + 1) v (by omega)
    fun p c h₁ h₂ h₃ => by unfold IsChild at h₂; omega
  obtain ⟨hp', hs⟩ := heapPopLoop_spec key a (b - a) (b - a) _ le_rfl
    (by rw [hp.1]; omega) hh (sorted_of_le_succ _ (by omega)) fun x y h₁ h₂ h₃ h₄ => by omega
  rw [hn] at hp hp' hs
  exact ⟨hp.trans hp', hs⟩

end SortHeap

end PsxSym
