import PsxSym.SortHeap
/-!
# SortCorrect — `sort.Slice` sorts

`pdqsort_func` keeps one fact about the range it is given: the element left of it is at most every element in it
(`LeftBound`), or the range starts the slice.  A partition hands each side down with that fact (the pivot stands
left of the right side), and `partitionEqual_func` relies on it: when the pivot is no greater than the element left
of the range, the pivot is the least of the range, and the elements it gathers all equal it.  From the spec lemma
of each step, `pdqsortLoop_spec` follows by induction on the fuel, and over the whole slice `sort.Slice` returns a
permutation of its input whose keys ascend (`sortSlice_perm_sorted`).
-/
namespace PsxSym

section SortCorrect

variable {α : Type} [Inhabited α] {key : α → Nat}

theorem LeftBound.mono {v : List α} {a b b' : Nat} (h : LeftBound key v a b) (hb : b' ≤ b) : LeftBound key v a b' :=
  h.imp_right fun h k h₁ h₂ => h k h₁ (by omega)

theorem LeftBound.congr {v w : List α} {a b : Nat} (h : LeftBound key v a b)
    (hvw : ∀ k, a - 1 ≤ k → k < b → read w k = read v k) : LeftBound key w a b := by
  rcases Nat.eq_zero_or_pos a with rfl | ha
  · exact .inl rfl
  · refine h.imp_right fun h k h₁ h₂ => ?_
    rw [hvw _ le_rfl (by omega), hvw k (by omega) h₂]
    exact h k h₁ h₂

/-- **`pdqsortPrepare` permutes the range, says `true` only of a sorted one, and picks a pivot in it.** -/
theorem pdqsortPrepare_spec {v : List α} {a b limit : Nat} {wb wp : Bool} {s : Bool} {w : List α}
    {pivot limit' : Nat} (h : pdqsortPrepare key v a b limit wb wp = (s, w, pivot, limit')) (hab : a < b)
    (hb : b ≤ v.length) (hl : LeftBound key v a b) :
    PermOn v w a b ∧ (s = true → Sorted key w a b) ∧ a ≤ pivot ∧ pivot < b := by
  unfold pdqsortPrepare at h
  dsimp only at h
  set r₁ := (if (!wb) = true then (breakPatternsFunc v a b, limit - 1) else (v, limit)) with hr₁
  have hp₁ : PermOn v r₁.1 a b := by
    rw [hr₁]; split
    · exact breakPatternsFunc_perm v hb
    · exact PermOn.refl v a b
  set c := choosePivotFunc key r₁.1 a b
  have hc : a ≤ c.1 ∧ c.1 < b := choosePivotFunc_mem key r₁.1 hab
  set r₂ := if c.2 = .decreasingHint then (reverseRangeFunc r₁.1 a b, b - 1 - (c.1 - a), SortedHint.increasingHint)
    else (r₁.1, c.1, c.2) with hr₂
  have hp₂ : PermOn r₁.1 r₂.1 a b ∧ a ≤ r₂.2.1 ∧ r₂.2.1 < b := by
    rw [hr₂]; split
    · exact ⟨reverseRangeFunc_perm _ hab (by rw [hp₁.1]; exact hb), by dsimp only; omega, by dsimp only; omega⟩
    · exact ⟨PermOn.refl _ a b, hc⟩
  set r₃ := if wb = true ∧ wp = true ∧ r₂.2.2 = .increasingHint then partialInsertionSortFunc key r₂.1 a b
    else (false, r₂.1) with hr₃
  have hp₃ : PermOn r₂.1 r₃.2 a b ∧ (r₃.1 = true → Sorted key r₃.2 a b) := by
    rw [hr₃]; split
    · exact partialInsertionSortFunc_spec (Prod.ext rfl rfl) hab (by rw [hp₂.1.1, hp₁.1]; exact hb)
        ((hl.perm hp₁).perm hp₂.1)
    · exact ⟨PermOn.refl _ a b, fun h => by cases h⟩
  simp only [Prod.mk.injEq] at h
  obtain ⟨rfl, rfl, rfl, -⟩ := h
  exact ⟨hp₁.trans (hp₂.1.trans hp₃.1), hp₃.2, hp₂.2⟩

/-- **The two sides of a partition, each sorted in place, in either order, make the range sorted.** -/
theorem sorted_of_sides {v w : List α} {a mid b : Nat} (hmid : a ≤ mid) (hmb : mid < b)
    (hleft : ∀ k, a ≤ k → k < mid → key (read v k) ≤ key (read v mid))
    (hright : ∀ k, mid < k → k < b → key (read v mid) ≤ key (read v k))
    (hp : ∃ u, PermOn v u a mid ∧ PermOn u w (mid + 1) b ∨ PermOn v u (mid + 1) b ∧ PermOn u w a mid)
    (hsl : Sorted key w a mid) (hsr : Sorted key w (mid + 1) b) : PermOn v w a b ∧ Sorted key w a b := by
  obtain ⟨u, hp⟩ := hp
  have hpw : PermOn v w a b := by
    rcases hp with ⟨h₁, h₂⟩ | ⟨h₁, h₂⟩
    · exact (h₁.mono le_rfl (by omega)).trans (h₂.mono (by omega) le_rfl)
    · exact (h₁.mono (by omega) le_rfl).trans (h₂.mono le_rfl (by omega))
  -- the pivot stays, and each side keeps its bound
  have hm : read w mid = read v mid := by
    rcases hp with ⟨h₁, h₂⟩ | ⟨h₁, h₂⟩
    · rw [h₂.read_eq (Or.inl (by omega)), h₁.read_eq (Or.inr le_rfl)]
    · rw [h₂.read_eq (Or.inr le_rfl), h₁.read_eq (Or.inl (by omega))]
  have hl : ∀ k, a ≤ k → k < mid → key (read w k) ≤ key (read v mid) := by
    rcases hp with ⟨h₁, h₂⟩ | ⟨h₁, h₂⟩
    · intro k hk₁ hk₂
      rw [h₂.read_eq (Or.inl (by omega))]
      exact h₁.forall_mem (P := fun x => key x ≤ key (read v mid)) hleft k hk₁ hk₂
    · exact h₂.forall_mem (P := fun x => key x ≤ key (read v mid)) fun k hk₁ hk₂ => by
        rw [h₁.read_eq (Or.inl (by omega))]; exact hleft k hk₁ hk₂
  have hr : ∀ k, mid + 1 ≤ k → k < b → key (read v mid) ≤ key (read w k) := by
    rcases hp with ⟨h₁, h₂⟩ | ⟨h₁, h₂⟩
    · exact h₂.forall_mem (P := fun x => key (read v mid) ≤ key x) fun k hk₁ hk₂ => by
        rw [h₁.read_eq (Or.inr (by omega))]; exact hright k (by omega) hk₂
    · intro k hk₁ hk₂
      rw [h₂.read_eq (Or.inr (by omega))]
      exact h₁.forall_mem (P := fun x => key (read v mid) ≤ key x) (fun k hk₁ hk₂ => hright k (by omega) hk₂) k hk₁ hk₂
  have hsr' : Sorted key w mid b := (sorted_of_le_succ w le_rfl).append hsr fun x y h₁ h₂ h₃ h₄ => by
    rw [show x = mid by omega, hm]; exact hr y h₃ h₄
  refine ⟨hpw, hsl.append hsr' fun x y h₁ h₂ h₃ h₄ => (hl x h₁ h₂).trans ?_⟩
  rcases Nat.eq_or_lt_of_le h₃ with rfl | h₃
  · rw [hm]
  · exact hr y h₃ h₄

/-- When the pivot is no greater than the element left of the range, it is the least of the range, and the
elements `partitionEqual_func` gathers left of `mid` all have its key: sorting `[mid, b)` sorts `[a, b)`. -/
theorem sorted_of_equal_prefix {v w u : List α} {a mid b pivot : Nat} (ha : 0 < a) (ham : a < mid) (hmb : mid ≤ b)
    (hl : ∀ k, a ≤ k → k < b → key (read v (a - 1)) ≤ key (read v k))
    (hpiv : key (read v pivot) ≤ key (read v (a - 1))) (hpw : PermOn v w a b)
    (hle : ∀ k, a ≤ k → k < mid → key (read w k) ≤ key (read v pivot))
    (ih : LeftBound key w mid b → PermOn w u mid b ∧ Sorted key u mid b) :
    PermOn v u a b ∧ Sorted key u a b := by
  set c := key (read v (a - 1))
  have hlw : ∀ k, a ≤ k → k < b → c ≤ key (read w k) := hpw.forall_mem (P := fun x => c ≤ key x) hl
  have hle' : ∀ k, a ≤ k → k < mid → key (read w k) ≤ c := fun k h₁ h₂ => (hle k h₁ h₂).trans hpiv
  obtain ⟨hpu, hsu⟩ := ih <| .inr fun k h₁ h₂ => (hle' _ (by omega) (by omega)).trans (hlw k (by omega) h₂)
  have hu : ∀ k, a ≤ k → k < mid → key (read u k) = c := fun k h₁ h₂ => by
    rw [hpu.read_eq (.inl h₂)]; exact le_antisymm (hle' k h₁ h₂) (hlw k h₁ (by omega))
  have hlu : ∀ k, mid ≤ k → k < b → c ≤ key (read u k) :=
    hpu.forall_mem (P := fun x => c ≤ key x) fun k h₁ h₂ => hlw k (by omega) h₂
  refine ⟨(hpw.trans (hpu.mono (by omega) le_rfl)), Sorted.append (m := mid) ?_ hsu ?_⟩
  · intro i j h₁ h₂ h₃; rw [hu i h₁ (by omega), hu j (by omega) h₃]
  · intro i j h₁ h₂ h₃ h₄; rw [hu i h₁ h₂]; exact hlu j h₃ h₄

variable (key) in
/-- **`pdqsort_func` sorts its range**, given enough fuel and an element left of the range at most all of it. -/
theorem pdqsortLoop_spec : ∀ (fuel : Nat) (v : List α) (a b limit : Nat) (wb wp : Bool),
    b - a ≤ fuel → b ≤ v.length → LeftBound key v a b →
    PermOn v (pdqsortLoop key fuel v a b limit wb wp) a b ∧ Sorted key (pdqsortLoop key fuel v a b limit wb wp) a b
  | 0, v, a, b, _, _, _, hf, _, _ => ⟨PermOn.refl v a b, sorted_of_le_succ v (by omega)⟩
  | fuel + 1, v, a, b, limit, wb, wp, hf, hb, hl => by
    rw [pdqsortLoop]
    dsimp only
    by_cases hsmall : b - a ≤ 12
    · rw [if_pos hsmall]; exact insertionSortFunc_spec v hb
    rw [if_neg hsmall]
    by_cases hlim : limit = 0
    · rw [if_pos hlim]; exact heapSortFunc_spec v (by omega) hb
    rw [if_neg hlim]
    rcases hP : pdqsortPrepare key v a b limit wb wp with ⟨s, v₁, pivot, limit₁⟩
    obtain ⟨hp₁, hs₁, hpa, hpb⟩ := pdqsortPrepare_spec hP (by omega) hb hl
    have hb₁ : b ≤ v₁.length := by rw [hp₁.1]; exact hb
    have hl₁ : LeftBound key v₁ a b := hl.perm hp₁
    dsimp only
    by_cases hs : s = true
    · rw [if_pos hs]; exact ⟨hp₁, hs₁ hs⟩
    rw [if_neg hs]
    split_ifs with heq hlt
    · -- the pivot is the least of the range: gather its equals, sort the rest
      rcases hE : partitionEqualFunc key v₁ a b pivot with ⟨mid, w⟩
      obtain ⟨ham, hmb, hpw, hle⟩ := partitionEqualFunc_spec hE hpa hpb hb₁
      have hpiv : key (read v₁ pivot) ≤ key (read v₁ (a - 1)) := by
        simpa [lessAt_eq] using heq.2
      have h := sorted_of_equal_prefix heq.1 ham hmb (hl₁.resolve_left (by omega)) hpiv hpw hle fun hl' =>
        pdqsortLoop_spec fuel w mid b limit₁ wb wp (by omega) (by rw [hpw.1]; exact hb₁) hl'
      exact ⟨hp₁.trans h.1, h.2⟩
    all_goals
      rcases hE : partitionFunc key v₁ a b pivot with ⟨mid, ap, w⟩
      obtain ⟨ham, hmb, hpw, hleft, hright⟩ := partitionFunc_spec hE hpa hpb hb₁
      have hbw : b ≤ w.length := by rw [hpw.1]; exact hb₁
      have hlw : LeftBound key w a b := hl₁.perm hpw
      have hrw : LeftBound key w (mid + 1) b := .inr fun k h₁ h₂ => hright k (by omega) h₂
      dsimp only
    · -- the shorter left side first
      set u₁ := pdqsortLoop key fuel w a mid limit₁ true true
      obtain ⟨hp₂, hs₂⟩ := pdqsortLoop_spec fuel w a mid limit₁ true true (by omega) (by omega) (hlw.mono hmb.le)
      have hb₂ : b ≤ u₁.length := by rw [hp₂.1]; exact hbw
      obtain ⟨hp₃, hs₃⟩ := pdqsortLoop_spec fuel u₁ (mid + 1) b limit₁ _ ap (by omega) hb₂
        (hrw.congr fun k h₁ _ => hp₂.read_eq (.inr (by omega)))
      have h := sorted_of_sides ham hmb hleft hright ⟨u₁, .inl ⟨hp₂, hp₃⟩⟩
        (hs₂.congr fun k _ h₂ => hp₃.read_eq (.inl (by omega))) hs₃
      exact ⟨hp₁.trans (hpw.trans h.1), h.2⟩
    · -- the shorter right side first
      set u₁ := pdqsortLoop key fuel w (mid + 1) b limit₁ true true
      obtain ⟨hp₂, hs₂⟩ := pdqsortLoop_spec fuel w (mid + 1) b limit₁ true true (by omega) hbw hrw
      have hb₂ : mid ≤ u₁.length := by rw [hp₂.1]; omega
      obtain ⟨hp₃, hs₃⟩ := pdqsortLoop_spec fuel u₁ a mid limit₁ _ ap (by omega) hb₂
        ((hlw.mono hmb.le).congr fun k _ h₂ => hp₂.read_eq (.inl (by omega)))
      have h := sorted_of_sides ham hmb hleft hright ⟨u₁, .inr ⟨hp₂, hp₃⟩⟩ hs₃
        (hs₂.congr fun k h₁ _ => hp₃.read_eq (.inr (by omega)))
      exact ⟨hp₁.trans (hpw.trans h.1), h.2⟩

/-- **`sort.Slice` sorts.**  The slice it returns is a permutation of its input, and its keys ascend. -/
theorem sortSlice_perm_sorted (v : List α) :
    (sortSlice key v).Perm v ∧ ((sortSlice key v).map key).Sorted (· ≤ ·) := by
  obtain ⟨hp, hs⟩ := pdqsortLoop_spec key v.length v 0 v.length (bitsLen v.length) true true
    (by omega) le_rfl (.inl rfl)
  refine ⟨hp.perm, ?_⟩
  have hl : (sortSlice key v).length = v.length := hp.1
  exact Sorted.list_sorted (hl ▸ hs)

end SortCorrect

end PsxSym
