import Mathlib.Data.Nat.Bitwise
import TheChannel.Fault
import TheChannel.LibMerkle
/-!
# Merkle — `calculate_merkle` and the incremental Merkle tree

`merkle.hpp` and `incremental_merkle.hpp`, over any digest type and `hash_combine`. The incremental tree keeps the roots
of perfect trees in a vector and a bit for each in `mask`; `_append` carries two bits at a time. The vector is a list from
its end, the smallest tree first, since it is only read and changed there. `mask` is a `Nat`: it counts the digests.
-/
namespace TheChannel
variable {D : Type} [Inhabited D] (hashCombine : D → D → D) {k i n : Nat} {ids st l : List D}

/-! ## `calculate_merkle` -/

/-- `detail::calculate_merkle_pow2` without threads; the number of digests is a power of two, and at least two. -/
def calculateMerklePow2 (ids : List D) : D :=
  if ids.length ≤ 2 then hashCombine (ids.getD 0 default) (ids.getD 1 default)
  else hashCombine (calculateMerklePow2 (ids.take (ids.length / 2))) (calculateMerklePow2 (ids.drop (ids.length / 2)))
termination_by ids.length
decreasing_by
  · rw [List.length_take]; omega
  · rw [List.length_drop]; omega

def slices (sliceSize : Nat) : Nat → List D → List (List D)
  | 0, _ => []
  | n + 1, ids => ids.take sliceSize :: slices sliceSize n (ids.drop sliceSize)

def calculateMerkleSlices (threads : Nat) (ids : List D) : D :=
  calculateMerklePow2 hashCombine ((slices (ids.length / threads) threads ids).map (calculateMerklePow2 hashCombine))

def calculateMerklePow2Async (ids : List D) : D :=
  if 256 ≤ ids.length then
    if 2048 ≤ ids.length then calculateMerkleSlices hashCombine 4 ids else calculateMerkleSlices hashCombine 2 ids
  else calculateMerklePow2 hashCombine ids

def bitFloor (n : Nat) : Nat := if n = 0 then 0 else 2 ^ Nat.log 2 n

def calculateMerkle (ids : List D) : D :=
  if ids.length ≤ 1 then ids.headD default
  else if ids.length = bitFloor ids.length then calculateMerklePow2Async hashCombine ids
  else hashCombine (calculateMerklePow2Async hashCombine (ids.take (bitFloor ids.length)))
    (calculateMerkle (ids.drop (bitFloor ids.length)))
termination_by ids.length
decreasing_by
  have : 0 < bitFloor ids.length := by
    rw [bitFloor, if_neg (by omega)]
    exact Nat.two_pow_pos _
  rw [List.length_drop]
  omega

/-! ## The incremental tree -/

structure IncrementalMerkleTree (D : Type) where
  mask : Nat
  trees : List D -- smallest first
  deriving DecidableEq

def popcount (n : Nat) : Nat := if n = 0 then 0 else n % 2 + popcount (n / 2)

namespace IncrementalMerkleTree

def empty : IncrementalMerkleTree D := ⟨0, []⟩

def isBitSet (mask idx : Nat) : Bool := mask.testBit idx

def setBit (mask idx : Nat) : Nat := mask ||| 2 ^ idx

def clearBit (mask idx : Nat) : Nat := mask.ldiff (2 ^ idx)

/-- `_append`; the slot is the end of the vector in each call. -/
def appendAt (digest : D) (idx mask : Nat) : (trees : List D) → Result (IncrementalMerkleTree D)
  | [] =>
    if isBitSet mask idx then .error (.assertion "!trees.empty()")
    else .ok ⟨setBit mask idx, [digest]⟩
  | [t] =>
    if isBitSet mask idx then
      if isBitSet mask (idx + 1) then .error (.assertion "trees.size() >= 2")
      else .ok ⟨setBit (clearBit mask idx) (idx + 1), [hashCombine t digest]⟩
    else .ok ⟨setBit mask idx, [digest, t]⟩
  | t :: u :: trees =>
    if isBitSet mask idx then
      if isBitSet mask (idx + 1) then
        appendAt (hashCombine u (hashCombine t digest)) (idx + 2) (clearBit (clearBit mask idx) (idx + 1)) trees
      -- next location is empty, replace its tree with new combination, same number of slots and one bits
      else .ok ⟨setBit (clearBit mask idx) (idx + 1), hashCombine t digest :: u :: trees⟩
    else .ok ⟨setBit mask idx, digest :: t :: u :: trees⟩

def append (tree : IncrementalMerkleTree D) (digest : D) : Result (IncrementalMerkleTree D) := do
  assertThat "trees.size() == static_cast<size_t>(std::popcount(mask))" (tree.trees.length == popcount tree.mask)
  let tree ← appendAt hashCombine digest 0 tree.mask tree.trees
  assertThat "trees.size() == static_cast<size_t>(std::popcount(mask))" (tree.trees.length == popcount tree.mask)
  return tree

def getRootAt : List D → D
  | [] => default
  | [t] => t
  | t :: ts => hashCombine t (getRootAt ts)

def getRoot (tree : IncrementalMerkleTree D) : Result D :=
  if tree.mask = 0 then .ok default
  else do
    assertThat "!trees.empty()" (!tree.trees.isEmpty)
    return getRootAt hashCombine tree.trees.reverse

end IncrementalMerkleTree

/-! ## `calculate_merkle` computes the root -/

open Merkle List

variable {hashCombine}

theorem calculateMerklePow2_eq : ∀ {k : Nat} {ids}, ids.length = 2 ^ (k + 1) →
    calculateMerklePow2 hashCombine ids = perfect hashCombine (k + 1) ids
  | 0, ids, h => by
    match ids, h with
    | [a, b], _ => rw [calculateMerklePow2, if_pos (by simp)]; rfl
  | k + 1, ids, h => by
    have hp := Nat.two_pow_pos k
    have hh : ids.length / 2 = 2 ^ (k + 1) := by rw [h, Nat.pow_succ]; omega
    have ht : (ids.take (2 ^ (k + 1))).length = 2 ^ (k + 1) := by
      rw [length_take, h, Nat.pow_succ _ (k + 1)]
      omega
    have hd : (ids.drop (2 ^ (k + 1))).length = 2 ^ (k + 1) := by
      rw [length_drop, h, Nat.pow_succ _ (k + 1)]
      omega
    have hne : ¬ ids.length ≤ 2 := by rw [h, Nat.pow_succ, Nat.pow_succ]; omega
    rw [calculateMerklePow2, if_neg hne, hh, calculateMerklePow2_eq ht, calculateMerklePow2_eq hd]
    rfl

omit [Inhabited D] in
theorem slices_length (size : Nat) : ∀ (n : Nat) (ids : List D), (slices size n ids).length = n
  | 0, _ => rfl
  | n + 1, ids => by rw [slices, length_cons, slices_length size n]

omit [Inhabited D] in
theorem slices_add (size b : Nat) : ∀ (a : Nat) (ids : List D),
    slices size (a + b) ids = slices size a ids ++ slices size b (ids.drop (size * a))
  | 0, ids => by rw [Nat.zero_add, Nat.mul_zero, drop_zero]; rfl
  | a + 1, ids => by
    rw [Nat.add_right_comm, slices, slices, slices_add size b a, drop_drop, Nat.mul_succ, Nat.add_comm size,
      cons_append]

omit [Inhabited D] in
theorem slices_take (size : Nat) : ∀ (n : Nat) (ids : List D), slices size n (ids.take (size * n)) = slices size n ids
  | 0, _ => rfl
  | n + 1, ids => by
    rw [slices, slices, take_take, drop_take, Nat.mul_succ, Nat.add_sub_cancel, slices_take size n,
      Nat.min_eq_left (Nat.le_add_left ..)]

theorem perfect_slices (k : Nat) : ∀ {m : Nat} {ids : List D}, ids.length = 2 ^ (k + m) →
    perfect hashCombine m ((slices (2 ^ k) (2 ^ m) ids).map (perfect hashCombine k)) = perfect hashCombine (k + m) ids
  | 0, ids, h => by
    have ht : ids.take (2 ^ k) = ids := take_of_length_le (Nat.le_of_eq h)
    rw [Nat.pow_zero, slices, slices, ht]
    rfl
  | m + 1, ids, h => by
    have hsum : 2 ^ (k + (m + 1)) = 2 ^ (k + m) + 2 ^ (k + m) := by rw [← Nat.add_assoc, Nat.pow_succ]; omega
    have ht : (ids.take (2 ^ (k + m))).length = 2 ^ (k + m) := by rw [length_take]; omega
    have hd : (ids.drop (2 ^ (k + m))).length = 2 ^ (k + m) := by rw [length_drop]; omega
    have hs : slices (2 ^ k) (2 ^ (m + 1)) ids =
        slices (2 ^ k) (2 ^ m) (ids.take (2 ^ (k + m))) ++ slices (2 ^ k) (2 ^ m) (ids.drop (2 ^ (k + m))) := by
      rw [Nat.pow_succ, Nat.mul_two, slices_add, Nat.pow_add, slices_take]
    rw [hs, map_append, perfect_append (by rw [length_map, slices_length]), perfect_slices k ht,
      perfect_slices k hd]
    rfl

theorem calculateMerkleSlices_eq {m : Nat} (h : ids.length = 2 ^ (k + 1 + (m + 1))) :
    calculateMerkleSlices hashCombine (2 ^ (m + 1)) ids = perfect hashCombine (k + 1 + (m + 1)) ids := by
  have hs : ids.length / 2 ^ (m + 1) = 2 ^ (k + 1) := by
    rw [h, Nat.pow_add]
    exact Nat.mul_div_cancel _ (Nat.two_pow_pos _)
  have hmap : ∀ (n : Nat) (l : List D), l.length = 2 ^ (k + 1) * n →
      (slices (2 ^ (k + 1)) n l).map (calculateMerklePow2 hashCombine) =
        (slices (2 ^ (k + 1)) n l).map (perfect hashCombine (k + 1)) := by
    intro n
    induction n with
    | zero => exact fun _ _ => rfl
    | succ n ih =>
      intro l hl
      rw [Nat.mul_succ] at hl
      rw [slices, map_cons, map_cons, ih _ (by rw [length_drop, hl, Nat.add_sub_cancel]),
        calculateMerklePow2_eq (by rw [length_take, hl]; exact Nat.min_eq_left (Nat.le_add_left ..))]
  rw [calculateMerkleSlices, hs, hmap _ _ (by rw [h, Nat.pow_add]),
    calculateMerklePow2_eq (by rw [length_map, slices_length]), perfect_slices _ h]

theorem calculateMerklePow2Async_eq (h : ids.length = 2 ^ (k + 1)) :
    calculateMerklePow2Async hashCombine ids = perfect hashCombine (k + 1) ids := by
  rw [calculateMerklePow2Async]
  split
  · rename_i h256
    -- from 256 on, a quarter is still a power of two, and at least two
    obtain ⟨j, rfl⟩ : ∃ j, k = j + 2 := by
      refine ⟨k - 2, ?_⟩
      have hk : ¬ k < 2 := fun hk => by
        have := Nat.pow_le_pow_right (show 0 < 2 by omega) (show k + 1 ≤ 2 by omega)
        omega
      omega
    split
    · exact calculateMerkleSlices_eq (k := j) (m := 1) h
    · exact calculateMerkleSlices_eq (k := j + 1) (m := 0) h
  · exact calculateMerklePow2_eq h

theorem calculateMerkle_eq (ids : List D) : calculateMerkle hashCombine ids = merkle hashCombine ids := by
  rw [calculateMerkle]
  split
  · rename_i h1
    rw [merkle, if_pos h1]
  · rename_i h1
    have hf : bitFloor ids.length = 2 ^ Nat.log 2 ids.length := by rw [bitFloor, if_neg (by omega)]
    have hl : 1 ≤ Nat.log 2 ids.length := Nat.log_pos (by omega) (by omega)
    obtain ⟨k, hk⟩ : ∃ k, Nat.log 2 ids.length = k + 1 := ⟨Nat.log 2 ids.length - 1, by omega⟩
    have hle : 2 ^ (k + 1) ≤ ids.length := hk ▸ Nat.pow_log_le_self 2 (by omega)
    have hlt : ids.length < 2 ^ (k + 1 + 1) := hk ▸ Nat.lt_pow_succ_log_self (by omega) _
    rw [hf, hk]
    split
    · rename_i heq
      rw [calculateMerklePow2Async_eq heq, merkle_perfect heq]
    · rename_i hne
      have ht : (ids.take (2 ^ (k + 1))).length = 2 ^ (k + 1) := by rw [length_take]; omega
      rw [calculateMerklePow2Async_eq ht, calculateMerkle_eq]
      exact (merkle_split (by omega) (Nat.le_of_lt hlt)).symm
termination_by ids.length
decreasing_by
  rw [length_drop]
  omega

/-! ## The incremental tree holds the stack of its digests -/

theorem popcount_double (n : Nat) : popcount (2 * n) = popcount n := by
  cases n with
  | zero => rfl
  | succ n => rw [popcount, if_neg (by omega), show 2 * (n + 1) / 2 = n + 1 by omega]; omega

theorem popcount_double_succ (n : Nat) : popcount (2 * n + 1) = popcount n + 1 := by
  rw [popcount, if_neg (by omega), show (2 * n + 1) / 2 = n by omega]
  omega

theorem Merkle.Stacked.trees_length (h : Stacked hashCombine i n st l) : st.length = popcount n := by
  induction h with
  | nil i => rw [popcount, if_pos rfl]; rfl
  | zero above ih => rw [ih, popcount_double]
  | one above size ih => rw [length_cons, ih, popcount_double_succ]

theorem Merkle.Stacked.of_odd (h : Stacked hashCombine i n st l) (hn : n % 2 = 1) :
    ∃ t st' l', st = t :: st' ∧ Stacked hashCombine (i + 1) (n / 2) st' l' := by
  cases h with
  | nil => cases hn
  | zero above => omega
  | @one _ n st l c above size => exact ⟨_, st, l, rfl, by rw [show (2 * n + 1) / 2 = n by omega]; exact above⟩

namespace IncrementalMerkleTree

theorem isBitSet_eq (n i : Nat) : isBitSet (n * 2 ^ i) i = decide (n % 2 = 1) := by
  rw [isBitSet, Nat.testBit_mul_two_pow, Nat.sub_self, Nat.testBit_zero]
  simp

theorem isBitSet_succ (n i : Nat) : isBitSet (n * 2 ^ i) (i + 1) = decide (n / 2 % 2 = 1) := by
  rw [isBitSet, Nat.testBit_mul_two_pow, Nat.add_sub_cancel_left, Nat.testBit_succ, Nat.testBit_zero]
  simp

theorem setBit_eq {n : Nat} (i : Nat) (h : n % 2 = 0) : setBit (n * 2 ^ i) i = (n + 1) * 2 ^ i := by
  obtain ⟨m, rfl⟩ : ∃ m, n = 2 * m := ⟨n / 2, by omega⟩
  have hlt : 2 ^ i < 2 ^ (i + 1) := Nat.pow_lt_pow_right (by omega) (by omega)
  have hmul : 2 * m * 2 ^ i = 2 ^ (i + 1) * m := by rw [Nat.pow_succ]; ring
  rw [setBit, hmul, ← Nat.two_pow_add_eq_or_of_lt hlt, Nat.pow_succ]
  ring

theorem clearBit_eq {n : Nat} (i : Nat) (h : n % 2 = 1) : clearBit (n * 2 ^ i) i = n / 2 * 2 ^ (i + 1) := by
  obtain ⟨m, rfl⟩ : ∃ m, n = 2 * m + 1 := ⟨n / 2, by omega⟩
  rw [show (2 * m + 1) / 2 = m by omega]
  refine Nat.eq_of_testBit_eq fun j => ?_
  rw [clearBit, Nat.testBit_ldiff, Nat.testBit_mul_two_pow, Nat.testBit_mul_two_pow, Nat.testBit_two_pow]
  rcases Nat.lt_trichotomy j i with hj | rfl | hj
  · simp [show ¬ i ≤ j by omega, show ¬ i + 1 ≤ j by omega]
  · simp
  · obtain ⟨k, rfl⟩ : ∃ k, j = i + 1 + k := ⟨j - i - 1, by omega⟩
    rw [show i + 1 + k - i = k + 1 by omega, show i + 1 + k - (i + 1) = k by omega, Nat.testBit_succ,
      show (2 * m + 1) / 2 = m by omega]
    simp [show i ≤ i + 1 + k by omega, show i + 1 ≤ i + 1 + k by omega, show i ≠ i + 1 + k by omega]

theorem carry_mul {n : Nat} (i : Nat) (hn : n % 2 = 1) : (n / 2 + 1) * 2 ^ (i + 1) = (n + 1) * 2 ^ i := by
  rw [Nat.pow_succ, show n + 1 = (n / 2 + 1) * 2 by omega]
  ring

theorem appendAt_eq : ∀ {st} {i n : Nat} {d : D} {l}, Stacked hashCombine i n st l →
    appendAt hashCombine d i (n * 2 ^ i) st = .ok ⟨(n + 1) * 2 ^ i, push hashCombine n d st⟩
  | [], i, n, d, l, h => by
    have hn : ¬ n % 2 = 1 := fun hn => by
      obtain ⟨t, st', l', hst, -⟩ := h.of_odd hn
      cases hst
    rw [appendAt, isBitSet_eq, if_neg (by simpa using hn), setBit_eq i (by omega), push]
  | [t], i, n, d, l, h => by
    rw [appendAt, isBitSet_eq, isBitSet_succ, push]
    by_cases hn : n % 2 = 1
    · obtain ⟨t', st', l', hst, hab⟩ := h.of_odd hn
      cases hst
      have hn2 : ¬ n / 2 % 2 = 1 := fun hn2 => by
        obtain ⟨u, st'', l'', hst, -⟩ := hab.of_odd hn2
        cases hst
      rw [if_pos (by simpa using hn), if_neg (by simpa using hn2), clearBit_eq i hn, setBit_eq (i + 1) (by omega),
        if_pos hn, push]
      rw [carry_mul i hn]
    · rw [if_neg (by simpa using hn), setBit_eq i (by omega), if_neg hn]
  | t :: u :: st, i, n, d, l, h => by
    rw [appendAt, isBitSet_eq, isBitSet_succ, push]
    by_cases hn : n % 2 = 1
    · obtain ⟨t', st', l', hst, hab⟩ := h.of_odd hn
      cases hst
      rw [if_pos (by simpa using hn), clearBit_eq i hn, if_pos hn, push]
      by_cases hn2 : n / 2 % 2 = 1
      · obtain ⟨u', st'', l'', hst, ha2⟩ := hab.of_odd hn2
        cases hst
        rw [if_pos (by simpa using hn2), clearBit_eq (i + 1) hn2, appendAt_eq ha2, carry_mul (i + 1) hn2, carry_mul i hn,
          if_pos hn2]
      · rw [if_neg (by simpa using hn2), setBit_eq (i + 1) (by omega), carry_mul i hn, if_neg hn2]
    · rw [if_neg (by simpa using hn), setBit_eq i (by omega), if_neg hn]

def Holds (hashCombine : D → D → D) (tree : IncrementalMerkleTree D) (digests : List D) : Prop :=
  Stacked hashCombine 0 tree.mask tree.trees digests

variable {tree : IncrementalMerkleTree D} {digests : List D}

theorem holds_empty : Holds hashCombine (empty : IncrementalMerkleTree D) [] := .nil 0

theorem Holds.mask_eq (h : Holds hashCombine tree digests) : tree.mask = digests.length := by
  rw [h.length_eq, Nat.pow_zero, Nat.mul_one]

theorem Holds.append (h : Holds hashCombine tree digests) (digest : D) :
    ∃ tree', tree.append hashCombine digest = .ok tree' ∧ Holds hashCombine tree' (digests ++ [digest]) := by
  have hat := appendAt_eq (d := digest) h
  rw [Nat.pow_zero, Nat.mul_one, Nat.mul_one] at hat
  have hp : Holds hashCombine ⟨tree.mask + 1, push hashCombine tree.mask digest tree.trees⟩ (digests ++ [digest]) :=
    Stacked.push (c := [digest]) h rfl
  refine ⟨_, ?_, hp⟩
  rw [IncrementalMerkleTree.append, assertThat_bind (by simpa using h.trees_length), hat, ok_bind,
    assertThat_bind (by simpa using hp.trees_length)]
  rfl

theorem getRootAt_append_singleton (t : D) : ∀ ts : List D, getRootAt hashCombine (ts ++ [t]) = ts.foldr hashCombine t
  | [] => rfl
  | [u] => rfl
  | u :: v :: ts => by
    rw [cons_append, cons_append, getRootAt, ← cons_append, getRootAt_append_singleton t (v :: ts)]
    · rfl
    · simp

theorem Holds.getRoot (h : Holds hashCombine tree digests) :
    tree.getRoot hashCombine = .ok (calculateMerkle hashCombine digests) := by
  rw [calculateMerkle_eq, IncrementalMerkleTree.getRoot]
  split
  · rename_i hm
    rw [h.mask_eq] at hm
    rw [length_eq_zero_iff.1 hm, merkle, if_pos (by simp)]
    rfl
  · rename_i hm
    rw [← Stacked.foldStack_eq h]
    cases ht : tree.trees with
    | nil => exact absurd (h.eq_zero ht) hm
    | cons t ts =>
      rw [assertThat_bind (by simp), reverse_cons, getRootAt_append_singleton, foldr_reverse]
      rfl

theorem Holds.appends : ∀ {l digests} {tree}, Holds hashCombine tree digests →
    ∃ tree', l.foldlM (fun tree digest => tree.append hashCombine digest) tree = .ok tree' ∧
      Holds hashCombine tree' (digests ++ l)
  | [], digests, tree, h => ⟨tree, rfl, by rwa [append_nil]⟩
  | d :: l, digests, tree, h => by
    obtain ⟨next, happ, hn⟩ := h.append d
    obtain ⟨tree', hrun, hl⟩ := hn.appends (l := l)
    rw [append_assoc] at hl
    exact ⟨tree', by rw [foldlM_cons, happ, ok_bind, hrun], hl⟩

/-- **Appending digests one by one** counts them in the mask, keeps a tree for each bit of it, and gives the root of
`calculate_merkle`, which is the plain recursive one, with threads or without. -/
theorem getRoot_of_appends (digests : List D) :
    (∃ tree, digests.foldlM (fun tree digest => tree.append hashCombine digest) empty = .ok tree ∧
      tree.mask = digests.length ∧ tree.trees.length = popcount tree.mask ∧
      tree.getRoot hashCombine = .ok (calculateMerkle hashCombine digests)) ∧
    calculateMerkle hashCombine digests = merkle hashCombine digests ∧
    ∀ k, digests.length = 2 ^ (k + 1) →
      calculateMerklePow2 hashCombine digests = merkle hashCombine digests ∧
      calculateMerklePow2Async hashCombine digests = merkle hashCombine digests := by
  obtain ⟨tree, hrun, ht⟩ := (holds_empty : Holds hashCombine empty []).appends (l := digests)
  rw [nil_append] at ht
  refine ⟨⟨tree, hrun, ht.mask_eq, ht.trees_length, ht.getRoot⟩, calculateMerkle_eq digests, fun k hk => ?_⟩
  rw [merkle_perfect hk]
  exact ⟨calculateMerklePow2_eq hk, calculateMerklePow2Async_eq hk⟩

end IncrementalMerkleTree
end TheChannel
