import PsxSym.Pdqsort
/-!
# SortPerm — what every step of `sort.Slice` keeps

The element at an index is `read`; a swap composes `read` with the swap of the two indices (`read_swapAt`).  Every
step of the sort therefore permutes a range of the slice and keeps the rest in place (`PermOn`), whatever its
comparisons said, and every bound that all elements of a range satisfy survives it (`PermOn.forall_mem`).  A range
is sorted when its keys ascend (`Sorted`); the sort builds sorted ranges by extending them one element at a time
and by joining two around a pivot.  Over the whole slice the two become `List.Perm` and `List.Sorted`.
-/
namespace PsxSym

@[simp] theorem length_swapAt {α : Type} (v : List α) (i j : Nat) : (swapAt v i j).length = v.length := by
  unfold swapAt
  split <;> simp

section SortPerm

variable {α : Type} [Inhabited α]

/-- The element at index `k` of the slice (past its end, the default). -/
def read (v : List α) (k : Nat) : α := v.getD k default

theorem lessAt_eq (key : α → Nat) (v : List α) (i j : Nat) :
    lessAt key v i j = decide (key (read v i) < key (read v j)) := rfl

theorem read_swapAt {v : List α} {i j : Nat} (hi : i < v.length) (hj : j < v.length) (k : Nat) :
    read (swapAt v i j) k = read v (Equiv.swap i j k) := by
  simp only [swapAt, List.getElem?_eq_getElem hi, List.getElem?_eq_getElem hj, read,
    List.getD_eq_getElem?_getD, List.getElem?_set, List.length_set, Equiv.swap_apply_def]
  split_ifs <;> subst_vars <;> simp_all [List.getElem?_eq_getElem]

/-! ## Permutations of a range -/

/-- `w` is `v` with the elements of `[lo, hi)` permuted among themselves and the others in place. -/
def PermOn (v w : List α) (lo hi : Nat) : Prop :=
  w.length = v.length ∧ ∃ σ : Equiv.Perm ℕ, (∀ k, (k < lo ∨ hi ≤ k) → σ k = k) ∧ ∀ k, read w k = read v (σ k)

theorem PermOn.refl (v : List α) (lo hi : Nat) : PermOn v v lo hi := ⟨rfl, 1, fun _ _ => rfl, fun _ => rfl⟩

theorem PermOn.trans {u v w : List α} {lo hi : Nat} (h₁ : PermOn u v lo hi) (h₂ : PermOn v w lo hi) :
    PermOn u w lo hi := by
  obtain ⟨hl₁, σ, hσ, hr₁⟩ := h₁
  obtain ⟨hl₂, τ, hτ, hr₂⟩ := h₂
  exact ⟨hl₂.trans hl₁, τ.trans σ, fun k hk => by simp [hτ k hk, hσ k hk], fun k => by simp [hr₂, hr₁]⟩

theorem PermOn.mono {v w : List α} {lo hi lo' hi' : Nat} (h : PermOn v w lo hi) (hlo : lo' ≤ lo) (hhi : hi ≤ hi') :
    PermOn v w lo' hi' := by
  obtain ⟨hl, σ, hσ, hr⟩ := h
  exact ⟨hl, σ, fun k hk => hσ k (by omega), hr⟩

theorem permOn_swapAt {v : List α} {lo hi i j : Nat} (hi' : i < hi) (hj' : j < hi) (hli : lo ≤ i) (hlj : lo ≤ j)
    (hv : hi ≤ v.length) : PermOn v (swapAt v i j) lo hi :=
  ⟨length_swapAt v i j, Equiv.swap i j,
    fun k hk => Equiv.swap_apply_of_ne_of_ne (by omega) (by omega), read_swapAt (by omega) (by omega)⟩

/-- A permutation that fixes every index outside `[lo, hi)` maps `[lo, hi)` into itself. -/
theorem perm_mem_of_fixes {σ : Equiv.Perm ℕ} {lo hi : Nat} (hσ : ∀ k, (k < lo ∨ hi ≤ k) → σ k = k) {k : Nat}
    (hk : lo ≤ k ∧ k < hi) : lo ≤ σ k ∧ σ k < hi := by
  by_contra h
  have hfix : σ (σ k) = σ k := hσ _ (by omega)
  have := σ.injective hfix
  omega

theorem PermOn.read_eq {v w : List α} {lo hi : Nat} (h : PermOn v w lo hi) {k : Nat} (hk : k < lo ∨ hi ≤ k) :
    read w k = read v k := by
  obtain ⟨-, σ, hσ, hr⟩ := h
  rw [hr, hσ k hk]

/-- **A bound that every element of a range satisfies survives a permutation of the range.** -/
theorem PermOn.forall_mem {v w : List α} {lo hi : Nat} (h : PermOn v w lo hi) {P : α → Prop}
    (hP : ∀ k, lo ≤ k → k < hi → P (read v k)) : ∀ k, lo ≤ k → k < hi → P (read w k) := by
  obtain ⟨-, σ, hσ, hr⟩ := h
  intro k h₁ h₂
  have := perm_mem_of_fixes hσ ⟨h₁, h₂⟩
  rw [hr]
  exact hP _ this.1 this.2

theorem map_read_range (v : List α) : (List.range v.length).map (read v) = v := by
  apply List.ext_getElem (by simp)
  intro k h₁ h₂
  simp [read, List.getElem?_eq_getElem h₂]

/-- **Over the whole slice, a permutation of its range is a permutation of the list.** -/
theorem PermOn.perm {v w : List α} (h : PermOn v w 0 v.length) : w.Perm v := by
  obtain ⟨hl, σ, hσ, hr⟩ := h
  have hmem : ∀ k, k < v.length → σ k < v.length := fun k hk => (perm_mem_of_fixes hσ ⟨Nat.zero_le k, hk⟩).2
  have hσ' : ∀ k, (k < 0 ∨ v.length ≤ k) → σ.symm k = k := fun k hk => by
    rw [Equiv.symm_apply_eq, hσ k hk]
  have hmem' : ∀ k, k < v.length → σ.symm k < v.length :=
    fun k hk => (perm_mem_of_fixes hσ' ⟨Nat.zero_le k, hk⟩).2
  have hrange : ((List.range v.length).map σ).Perm (List.range v.length) := by
    rw [List.perm_ext_iff_of_nodup ((List.nodup_range _).map σ.injective) (List.nodup_range _)]
    intro x
    simp only [List.mem_map, List.mem_range]
    exact ⟨fun ⟨k, hk, hx⟩ => hx ▸ hmem k hk, fun hx => ⟨σ.symm x, hmem' x hx, by simp⟩⟩
  have hw : w = ((List.range v.length).map σ).map (read v) := by
    rw [← map_read_range w, hl, List.map_map]
    exact List.map_congr_left fun k _ => hr k
  rw [hw]
  simpa [map_read_range] using hrange.map (read v)

/-! ## Sorted ranges -/

variable (key : α → Nat)

/-- The keys ascend over `[lo, hi)`. -/
def Sorted (v : List α) (lo hi : Nat) : Prop :=
  ∀ i j, lo ≤ i → i ≤ j → j < hi → key (read v i) ≤ key (read v j)

variable {key}

theorem sorted_of_le_succ (v : List α) {lo hi : Nat} (h : hi ≤ lo + 1) : Sorted key v lo hi := by
  intro i j h₁ h₂ h₃
  rw [show i = j by omega]

/-- Two sorted ranges side by side, every key of the first at most every key of the second, make one. -/
theorem Sorted.append {v : List α} {lo m hi : Nat} (h₁ : Sorted key v lo m) (h₂ : Sorted key v m hi)
    (hle : ∀ i j, lo ≤ i → i < m → m ≤ j → j < hi → key (read v i) ≤ key (read v j)) : Sorted key v lo hi := by
  intro i j hi' hij hj
  by_cases hm : j < m
  · exact h₁ i j hi' hij hm
  · by_cases hm' : i < m
    · exact hle i j hi' hm' (by omega) hj
    · exact h₂ i j (by omega) hij hj

/-- A sorted range and one more element at least its keys. -/
theorem Sorted.snoc {v : List α} {lo m : Nat} (h : Sorted key v lo m)
    (hle : ∀ k, lo ≤ k → k < m → key (read v k) ≤ key (read v m)) : Sorted key v lo (m + 1) :=
  h.append (sorted_of_le_succ v le_rfl) fun i j h₁ h₂ h₃ h₄ => by rw [show j = m by omega]; exact hle i h₁ h₂

/-- A range whose neighbours are in order is sorted. -/
theorem sorted_of_adjacent {v : List α} {lo : Nat} :
    ∀ {hi : Nat}, (∀ k, lo < k → k < hi → key (read v (k - 1)) ≤ key (read v k)) → Sorted key v lo hi
  | 0, _ => sorted_of_le_succ v (by omega)
  | hi + 1, h => by
    by_cases hlo : hi ≤ lo
    · exact sorted_of_le_succ v (by omega)
    · have hs : Sorted key v lo hi := sorted_of_adjacent fun k h₁ h₂ => h k h₁ (by omega)
      refine hs.snoc fun k h₁ h₂ => le_trans (hs k (hi - 1) h₁ (by omega) (by omega)) ?_
      simpa using h hi (by omega) (by omega)

/-- A sorted range whose neighbours stay in order past its end is sorted further. -/
theorem Sorted.extend {v : List α} {lo m hi : Nat} (h : Sorted key v lo m)
    (hadj : ∀ k, m ≤ k → k < hi → key (read v (k - 1)) ≤ key (read v k)) : Sorted key v lo hi :=
  sorted_of_adjacent fun k h₁ h₂ =>
    if hk : k < m then h (k - 1) k (by omega) (by omega) hk else hadj k (by omega) h₂

theorem Sorted.mono {v : List α} {lo hi lo' hi' : Nat} (h : Sorted key v lo hi) (hlo : lo ≤ lo') (hhi : hi' ≤ hi) :
    Sorted key v lo' hi' := fun i j h₁ h₂ h₃ => h i j (by omega) h₂ (by omega)

theorem Sorted.congr {v w : List α} {lo hi : Nat} (h : Sorted key v lo hi)
    (hvw : ∀ k, lo ≤ k → k < hi → read w k = read v k) : Sorted key w lo hi := by
  intro i j h₁ h₂ h₃
  rw [hvw i h₁ (by omega), hvw j (by omega) h₃]
  exact h i j h₁ h₂ h₃

/-- **Over the whole slice, a sorted range is a sorted list of keys.** -/
theorem Sorted.list_sorted {v : List α} (h : Sorted key v 0 v.length) : (v.map key).Sorted (· ≤ ·) := by
  rw [List.Sorted, List.pairwise_iff_getElem]
  intro i j hi hj hij
  have := h i j (Nat.zero_le i) hij.le (by simpa using hj)
  simpa [read, List.getElem?_eq_getElem (by simpa using hi : i < v.length),
    List.getElem?_eq_getElem (by simpa using hj : j < v.length)] using this

end SortPerm

end PsxSym
