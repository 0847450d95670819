import Mathlib
/-!
# Pdqsort — `sort.Slice`, with which `EnumType.Def` orders the members

`sort.Slice` (Go 1.19 on) runs pattern-defeating quicksort, `pdqsort_func`, on the whole slice: insertion sort on
at most 12 elements, heapsort once too many partitions came out unbalanced, and otherwise a partition around a
pivot chosen as a median of three (of three medians from 50 elements on), after a check whether the range is
already sorted.  The algorithm reads the slice only through `Less(i, j)` and changes it only through
`Swap(i, j)`.

The slice is a list, `v : List α`, and `Less(i, j)` compares the keys of its elements at `i` and `j`.
Each loop of the Go code is a recursion on the number of turns it has left, as its bounds give it, except the
main loops of `pdqsort_func` and of the two partitions, which recurse on fuel: each turn of them shortens the
range they work on, and they are called with fuel its length.

The model is `sort.Slice` as Go 1.19 ships it (`zsortfunc.go`).  Later releases changed one line of it:
`breakPatterns_func` swaps at `idx+i` where Go 1.19 swaps at `idx-1+i`.  That moves other elements after an
unbalanced partition, so on such inputs members of equal value can end in another order than here; the results
proved below are about Go 1.19's version.
-/
namespace PsxSym

section Pdqsort

variable {α : Type} [Inhabited α] (key : α → Nat)

/-- `data.Swap(i, j)`. -/
def swapAt (v : List α) (i j : Nat) : List α :=
  match v[i]?, v[j]? with
  | some x, some y => (v.set i y).set j x
  | _, _ => v

/-- `data.Less(i, j)`. -/
def lessAt (v : List α) (i j : Nat) : Bool := key (v.getD i default) < key (v.getD j default)

/-- `for ; n > 0 && p(i); i++`: the first index from `i` on, among `n`, where `p` fails. -/
def scanUp (p : Nat → Bool) : Nat → Nat → Nat
  | 0, i => i
  | n + 1, i => if p i then scanUp p n (i + 1) else i

/-- `for ; n > 0 && p(j); j--`: the first index from `j` down, among `n`, where `p` fails. -/
def scanDown (p : Nat → Bool) : Nat → Nat → Nat
  | 0, j => j
  | n + 1, j => if p j then scanDown p n (j - 1) else j

/-! ## Insertion sort -/

/-- `for ; j > lo && data.Less(j, j-1); j-- { data.Swap(j, j-1) }` at `j = lo + d`: the element at `j` moves
left past every greater one, and not below `lo`.  The inner loop of `insertionSort_func`, and (with `lo = 0`) the
left shift of `partialInsertionSort_func`. -/
def siftLeft (lo : Nat) : Nat → (List α) → (List α)
  | 0, v => v
  | d + 1, v => if lessAt key v (lo + d + 1) (lo + d) then siftLeft lo d (swapAt v (lo + d + 1) (lo + d)) else v

/-- The outer loop of `insertionSort_func`, `for ; i < b; i++`, with `n` turns left. -/
def insertionSortLoop (a : Nat) : Nat → Nat → (List α) → (List α)
  | _, 0, v => v
  | i, n + 1, v => insertionSortLoop a (i + 1) n (siftLeft key a (i - a) v)

/-- `insertionSort_func(data, a, b)`. -/
def insertionSortFunc (v : List α) (a b : Nat) : List α :=
  insertionSortLoop key a (a + 1) (b - (a + 1)) v

/-! ## Heapsort -/

/-- The loop of `siftDown_func(data, lo, hi, first)` at `root`, with fuel: `root` grows each turn, below `hi`. -/
def siftDownLoop (hi first : Nat) : Nat → Nat → (List α) → (List α)
  | 0, _, v => v
  | fuel + 1, root, v =>
    let child := 2 * root + 1
    if child ≥ hi then v
    else
      let child := if child + 1 < hi ∧ lessAt key v (first + child) (first + child + 1) then child + 1 else child
      if ¬lessAt key v (first + root) (first + child) then v
      else siftDownLoop hi first fuel child (swapAt v (first + root) (first + child))

/-- `siftDown_func(data, lo, hi, first)`. -/
def siftDownFunc (v : List α) (lo hi first : Nat) : List α := siftDownLoop key hi first hi lo v

/-- The loop of `heapSort_func` that builds the heap, `for i := (hi - 1) / 2; i >= 0; i--`, at `i = n - 1`. -/
def heapifyLoop (hi first : Nat) : Nat → (List α) → (List α)
  | 0, v => v
  | i + 1, v => heapifyLoop hi first i (siftDownFunc key v i hi first)

/-- The loop of `heapSort_func` that pops the heap, `for i := hi - 1; i >= 0; i--`, at `i = n - 1`. -/
def heapPopLoop (first : Nat) : Nat → (List α) → (List α)
  | 0, v => v
  | i + 1, v => heapPopLoop first i (siftDownFunc key (swapAt v first (first + i)) 0 i first)

/-- `heapSort_func(data, a, b)`. -/
def heapSortFunc (v : List α) (a b : Nat) : List α :=
  heapPopLoop key a (b - a) (heapifyLoop key (b - a) a ((b - a - 1) / 2 + 1) v)

/-! ## Choosing the pivot -/

/-- `sortedHint`. -/
inductive SortedHint where
  | unknownHint | increasingHint | decreasingHint
  deriving DecidableEq, Repr

/-- `order2_func`: `a, b` in the order of their elements, counting a swap of the two. -/
def order2Func (v : List α) (a b swaps : Nat) : Nat × Nat × Nat :=
  if lessAt key v b a then (b, a, swaps + 1) else (a, b, swaps)

/-- `median_func`: the index of the median of `a, b, c`. -/
def medianFunc (v : List α) (a b c swaps : Nat) : Nat × Nat :=
  let (a, b, swaps) := order2Func key v a b swaps
  let (b, _, swaps) := order2Func key v b c swaps
  let (_, b, swaps) := order2Func key v a b swaps
  (b, swaps)

/-- `medianAdjacent_func`: the median of `a - 1, a, a + 1`. -/
def medianAdjacentFunc (v : List α) (a swaps : Nat) : Nat × Nat := medianFunc key v (a - 1) a (a + 1) swaps

/-- The index `choosePivot_func(data, a, b)` picks, with `shortestNinther = 50`, and the swaps its medians
counted. -/
def pivotSwaps (v : List α) (a b : Nat) : Nat × Nat :=
  let l := b - a
  let i := a + l / 4 * 1
  let j := a + l / 4 * 2
  let k := a + l / 4 * 3
  if l ≥ 8 then
    let (i, j, k, swaps) :=
      if l ≥ 50 then
        let (i, swaps) := medianAdjacentFunc key v i 0
        let (j, swaps) := medianAdjacentFunc key v j swaps
        let (k, swaps) := medianAdjacentFunc key v k swaps
        (i, j, k, swaps)
      else (i, j, k, 0)
    medianFunc key v i j k swaps
  else (j, 0)

/-- `choosePivot_func(data, a, b)`, with `maxSwaps = 4 * 3`: the pivot, and the hint its swap count gives. -/
def choosePivotFunc (v : List α) (a b : Nat) : Nat × SortedHint :=
  let (j, swaps) := pivotSwaps key v a b
  (j, if swaps = 0 then .increasingHint else if swaps = 4 * 3 then .decreasingHint else .unknownHint)

/-- The loop of `reverseRange_func`, `for i < j { data.Swap(i, j); i++; j-- }`, at `j = i + d`. -/
def reverseLoop : Nat → Nat → (List α) → (List α)
  | _, 0, v => v
  | i, 1, v => swapAt v i (i + 1)
  | i, d + 2, v => reverseLoop (i + 1) d (swapAt v i (i + d + 2))

/-- `reverseRange_func(data, a, b)`. -/
def reverseRangeFunc (v : List α) (a b : Nat) : List α := reverseLoop a (b - 1 - a) v

/-! ## Breaking patterns -/

/-- `xorshift.Next`. -/
def xorshiftNext (r : UInt64) : UInt64 :=
  let r := r ^^^ (r <<< 13)
  let r := r ^^^ (r >>> 7)
  r ^^^ (r <<< 17)

/-- `bits.Len(uint(x))`: the number of bits `x` needs. -/
def bitsLen (x : Nat) : Nat := if x = 0 then 0 else Nat.log2 x + 1

/-- `nextPowerOfTwo(length)`: `1 << bits.Len(uint(length))`. -/
def nextPowerOfTwo (length : Nat) : Nat := 2 ^ bitsLen length

/-- The loop of `breakPatterns_func`, `for i := 0; i < 3; i++`, from `i`, with `n` turns left. -/
def breakPatternsLoop (a length idx modulus : Nat) : Nat → Nat → UInt64 → (List α) → (List α)
  | _, 0, _, v => v
  | i, n + 1, random, v =>
    let random := xorshiftNext random
    let other := random.toNat &&& (modulus - 1)
    let other := if other ≥ length then other - length else other
    breakPatternsLoop a length idx modulus (i + 1) n random (swapAt v (idx - 1 + i) (a + other))

/-- `breakPatterns_func(data, a, b)`, as in Go 1.19: the three swaps are at `idx-1+i`. -/
def breakPatternsFunc (v : List α) (a b : Nat) : List α :=
  let length := b - a
  if length ≥ 8 then
    breakPatternsLoop a length (a + length / 4 * 2 - 1) (nextPowerOfTwo length) 0 3 (UInt64.ofNat length) v
  else v

/-! ## Partial insertion sort -/

/-- The right shift of `partialInsertionSort_func`, `for ; j < b; j++ { if !data.Less(j, j-1) break; ... }`,
with `n = b - j` turns left. -/
def siftRight : Nat → Nat → (List α) → (List α)
  | 0, _, v => v
  | n + 1, j, v => if ¬lessAt key v j (j - 1) then v else siftRight n (j + 1) (swapAt v j (j - 1))

/-- The loop of `partialInsertionSort_func(data, a, b)`, `for j := 0; j < maxSteps; j++` with `maxSteps = 5`
and `shortestShifting = 50`, with `steps` turns left: whether the range is sorted, and the slice. -/
def partialInsertionSortLoop (a b : Nat) : Nat → Nat → (List α) → Bool × (List α)
  | 0, _, v => (false, v)
  | steps + 1, i, v =>
    let i := scanUp (fun i => !lessAt key v i (i - 1)) (b - i) i
    if i = b then (true, v)
    else if b - a < 50 then (false, v)
    else
      let v := swapAt v i (i - 1)
      let v := if i - a ≥ 2 then siftLeft key 0 (i - 1) v else v
      let v := if b - i ≥ 2 then siftRight key (b - (i + 1)) (i + 1) v else v
      partialInsertionSortLoop a b steps i v

/-- `partialInsertionSort_func(data, a, b)`. -/
def partialInsertionSortFunc (v : List α) (a b : Nat) : Bool × (List α) :=
  partialInsertionSortLoop key a b 5 (a + 1) v

/-! ## Partitions -/

/-- The loop `partition_func` and `partitionEqual_func` share, with fuel: `i` moves up past the elements that
belong left of the pivot (`left`), `j` down past those that do not, and the two elements they stop at are swapped.
The pivot stands at `a`, below `i` and `j`, so `left` reads it once. -/
def partitionLoop (left : α → Bool) : Nat → Nat → Nat → (List α) → Nat × Nat × (List α)
  | 0, i, j, v => (i, j, v)
  | fuel + 1, i, j, v =>
    let i := scanUp (fun i => left (v.getD i default)) (j + 1 - i) i
    let j := scanDown (fun j => !left (v.getD j default)) (j + 1 - i) j
    if i > j then (i, j, v)
    else partitionLoop left fuel (i + 1) (j - 1) (swapAt v i j)

/-- `partition_func(data, a, b, pivot)`: the pivot's new index, whether the range was partitioned already, and
the slice.  The loop's first turn is written out, to tell the second result. -/
def partitionFunc (v : List α) (a b pivot : Nat) : Nat × Bool × (List α) :=
  let v := swapAt v a pivot
  let left := fun x => decide (key x < key (v.getD a default))
  let i := scanUp (fun i => left (v.getD i default)) (b - 1 + 1 - (a + 1)) (a + 1)
  let j := scanDown (fun j => !left (v.getD j default)) (b - 1 + 1 - i) (b - 1)
  if i > j then (j, true, swapAt v j a)
  else
    let (_, j, v) := partitionLoop left (b - a) (i + 1) (j - 1) (swapAt v i j)
    (j, false, swapAt v j a)

/-- `partitionEqual_func(data, a, b, pivot)`: the end of the elements equal to the pivot, and the slice. -/
def partitionEqualFunc (v : List α) (a b pivot : Nat) : Nat × (List α) :=
  let v := swapAt v a pivot
  let (i, _, v) := partitionLoop (fun x => !decide (key (v.getD a default) < key x)) (b - a) (a + 1) (b - 1) v
  (i, v)

/-! ## The sort -/

/-- The part of a turn of `pdqsort_func` before the partition: break patterns after an unbalanced partition, choose
the pivot, reverse a range that looks decreasing, and check whether the range is sorted.  Whether it is, the slice,
the pivot, and the limit left. -/
def pdqsortPrepare (v : List α) (a b limit : Nat) (wasBalanced wasPartitioned : Bool) :
    Bool × List α × Nat × Nat :=
  let (v, limit) := if !wasBalanced then (breakPatternsFunc v a b, limit - 1) else (v, limit)
  let (pivot, hint) := choosePivotFunc key v a b
  let (v, pivot, hint) :=
    if hint = .decreasingHint then (reverseRangeFunc v a b, b - 1 - (pivot - a), SortedHint.increasingHint)
    else (v, pivot, hint)
  let (sorted, v) :=
    if wasBalanced ∧ wasPartitioned ∧ hint = .increasingHint then partialInsertionSortFunc key v a b
    else (false, v)
  (sorted, v, pivot, limit)

/-- `pdqsort_func(data, a, b, limit)` with `maxInsertion = 12`, from the loop state `wasBalanced`,
`wasPartitioned`, with fuel: each turn of the loop, and each recursive call, works on a shorter range. -/
def pdqsortLoop : Nat → List α → Nat → Nat → Nat → Bool → Bool → List α
  | 0, v, _, _, _, _, _ => v
  | fuel + 1, v, a, b, limit, wasBalanced, wasPartitioned =>
    let length := b - a
    if length ≤ 12 then insertionSortFunc key v a b
    else if limit = 0 then heapSortFunc key v a b
    else
      let (sorted, v, pivot, limit) := pdqsortPrepare key v a b limit wasBalanced wasPartitioned
      if sorted then v
      else if a > 0 ∧ !lessAt key v (a - 1) pivot then
        let (mid, v) := partitionEqualFunc key v a b pivot
        pdqsortLoop fuel v mid b limit wasBalanced wasPartitioned
      else
        let (mid, alreadyPartitioned, v) := partitionFunc key v a b pivot
        let leftLen := mid - a
        let rightLen := b - mid
        let balanceThreshold := length / 8
        if leftLen < rightLen then
          let v := pdqsortLoop fuel v a mid limit true true
          pdqsortLoop fuel v (mid + 1) b limit (leftLen ≥ balanceThreshold) alreadyPartitioned
        else
          let v := pdqsortLoop fuel v (mid + 1) b limit true true
          pdqsortLoop fuel v a mid limit (rightLen ≥ balanceThreshold) alreadyPartitioned

/-- `sort.Slice`: `pdqsort_func(data, 0, length, bits.Len(uint(length)))`. -/
def sortSlice (v : List α) : List α :=
  pdqsortLoop key v.length v 0 v.length (bitsLen v.length) true true

end Pdqsort

end PsxSym
