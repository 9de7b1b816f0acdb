import TheChannel.Merkle
/-!
# MerkleLegacy — `calculate_merkle_legacy` and the incremental tree that goes with it

`merkle_legacy.hpp` and `incremental_merkle_legacy.hpp`. Before two digests are hashed, a bit of the first word of each
says on which side it stands; `digest_type::hash` is any function. The batch algorithm pairs the digests level by level
and repeats the last one of an odd level. `append` walks from the new digest to the root and reads the left siblings it
meets from `_active_nodes`; what the iterator reads past the end is not defined.
-/
namespace TheChannel
namespace LegacyMerkle
open List

/-- `digest_type`, a `fc::sha256`: the words of `_hash`. -/
structure Digest where
  hash0 : UInt64 := 0
  hash1 : UInt64 := 0
  hash2 : UInt64 := 0
  hash3 : UInt64 := 0
  deriving DecidableEq

instance : Inhabited Digest := ⟨{}⟩

def makeLegacyLeftDigest (val : Digest) : Digest := { val with hash0 := val.hash0 &&& 0xFFFFFFFFFFFFFF7F }

def makeLegacyRightDigest (val : Digest) : Digest := { val with hash0 := val.hash0 ||| 0x0000000000000080 }

def makeLegacyDigestPair (l r : Digest) : Digest × Digest := (makeLegacyLeftDigest l, makeLegacyRightDigest r)

variable (hash : Digest × Digest → Digest)

def hashPair (l r : Digest) : Digest := hash (makeLegacyDigestPair l r)

/-! ## `calculate_merkle_legacy` -/

def padded (ids : List Digest) : List Digest :=
  if ids.length % 2 = 1 then ids ++ [ids.getLastD default] else ids

def hashPairs (ids : List Digest) (n : Nat) : List Digest :=
  (List.range n).foldl
    (fun ids i => ids.set i (hashPair hash (ids.getD (2 * i) default) (ids.getD (2 * i + 1) default))) ids

def nextLevel (ids : List Digest) : List Digest :=
  (hashPairs hash (padded ids) ((padded ids).length / 2)).take ((padded ids).length / 2)

theorem nextLevel_length_le (ids : List Digest) : (nextLevel hash ids).length ≤ (ids.length + 1) / 2 := by
  have hp : (padded ids).length = ids.length + ids.length % 2 := by
    unfold padded
    split
    · rw [length_append, length_singleton]; omega
    · omega
  rw [nextLevel, length_take]
  omega

def mergeLevels (ids : List Digest) : List Digest :=
  if ids.length ≤ 1 then ids else mergeLevels (nextLevel hash ids)
termination_by ids.length
decreasing_by
  have := nextLevel_length_le hash ids
  omega

def calculateMerkleLegacy (ids : List Digest) : Digest :=
  if ids.length = 0 then default else (mergeLevels hash ids).headD default

/-! ## The incremental tree -/

def bitWidth (n : Nat) : Nat := if n = 0 then 0 else Nat.log 2 n + 1

def bitCeil (n : Nat) : Nat := 2 ^ Nat.clog 2 n

def calculateMaxDepth (nodeCount : Nat) : Nat := if nodeCount = 0 then 0 else bitWidth (bitCeil nodeCount)

structure IncrementalMerkle where
  nodeCount : Nat := 0
  activeNodes : List Digest := []
  deriving DecidableEq

def collapse : (currentDepth index : Nat) → (isPartial : Bool) → (top : Digest) → (active updated : List Digest) →
    Result (List Digest)
  | 0, _, _, top, _, updated => .ok (updated ++ [top])
  | depth + 1, index, isPartial, top, active, updated =>
    if index % 2 = 0 then
      collapse depth (index / 2) true (hashPair hash top top) active (if isPartial then updated else updated ++ [top])
    else match active with
      | [] => .error (.undefined "*active_iter")
      | leftValue :: active =>
        collapse depth (index / 2) isPartial (hashPair hash leftValue top) active
          (if isPartial then updated ++ [leftValue] else updated)

namespace IncrementalMerkle

def append (tree : IncrementalMerkle) (digest : Digest) : Result IncrementalMerkle := do
  let updated ← collapse hash (calculateMaxDepth (tree.nodeCount + 1) - 1) tree.nodeCount false digest tree.activeNodes []
  return ⟨tree.nodeCount + 1, updated⟩

def getRoot (tree : IncrementalMerkle) : Result Digest :=
  if 0 < tree.nodeCount then
    match tree.activeNodes.getLast? with
    | some root => .ok root
    | none => .error (.undefined "_active_nodes.back()")
  else .ok default

end IncrementalMerkle

/-! ## A level of full nodes -/

variable {hash} {nodes digests : List Digest} {tree : IncrementalMerkle}

def pairs (hash : Digest × Digest → Digest) : List Digest → List Digest
  | [] => []
  | [_] => []
  | l :: r :: nodes => hashPair hash l r :: pairs hash nodes

theorem pairs_append : ∀ {nodes} more, nodes.length % 2 = 0 →
    pairs hash (nodes ++ more) = pairs hash nodes ++ pairs hash more
  | [], _, _ => rfl
  | [_], _, h => by cases h
  | l :: r :: nodes, more, h => by
    have he : nodes.length % 2 = 0 := by rw [length_cons, length_cons] at h; omega
    rw [cons_append, cons_append, pairs, pairs, pairs_append more he, cons_append]

theorem pairs_length : ∀ nodes : List Digest, (pairs hash nodes).length = nodes.length / 2
  | [] => rfl
  | [_] => by rw [length_singleton]; rfl
  | _ :: _ :: nodes => by
    rw [pairs, length_cons, pairs_length nodes, length_cons, length_cons]
    omega

theorem getElem?_pairs : ∀ {nodes} {i : Nat}, 2 * i + 1 < nodes.length →
    (pairs hash nodes)[i]? = some (hashPair hash (nodes.getD (2 * i) default) (nodes.getD (2 * i + 1) default))
  | [], _, h => by cases h
  | [_], _, h => by rw [length_singleton] at h; omega
  | _ :: _ :: _, 0, _ => rfl
  | _ :: _ :: nodes, i + 1, h => by
    have hi : 2 * i + 1 < nodes.length := by rw [length_cons, length_cons] at h; omega
    rw [pairs, getElem?_cons_succ, getElem?_pairs hi]
    rfl

theorem hashPairs_eq (ids : List Digest) : ∀ {n : Nat}, 2 * n ≤ ids.length →
    hashPairs hash ids n = (pairs hash ids).take n ++ ids.drop n
  | 0, _ => rfl
  | n + 1, h => by
    have ht : ((pairs hash ids).take n).length = n := by rw [length_take, pairs_length]; omega
    have hr : ∀ i, n ≤ i → ((pairs hash ids).take n ++ ids.drop n).getD i default = ids.getD i default := by
      intro i hi
      rw [getD_append_right _ _ _ _ (by omega), ht]
      simp only [getD_eq_getElem?_getD, getElem?_drop, Nat.add_sub_cancel' hi]
    have hd : ids.drop n = ids.getD n default :: ids.drop (n + 1) := by
      rw [getD_eq_getElem _ _ (by omega)]
      exact drop_eq_getElem_cons (by omega)
    have hstep : hashPairs hash ids (n + 1) = (hashPairs hash ids n).set n
        (hashPair hash ((hashPairs hash ids n).getD (2 * n) default) ((hashPairs hash ids n).getD (2 * n + 1) default)) := by
      rw [hashPairs, range_succ, foldl_append]
      rfl
    rw [hstep, hashPairs_eq ids (by omega), hr _ (by omega), hr _ (by omega), take_add_one,
      getElem?_pairs (by omega), set_append_right _ _ (by omega), ht, Nat.sub_self, hd, set_cons_zero,
      append_assoc]
    rfl

theorem nextLevel_eq (ids : List Digest) : nextLevel hash ids = pairs hash (padded ids) := by
  have hlen : (pairs hash (padded ids)).length = (padded ids).length / 2 := pairs_length _
  rw [nextLevel, hashPairs_eq _ (by omega), ← hlen, take_length, take_left]

theorem nextLevel_left (h : nodes.length % 2 = 0) (top : Digest) :
    nextLevel hash (nodes ++ [top]) = pairs hash nodes ++ [hashPair hash top top] := by
  have hod : (nodes ++ [top]).length % 2 = 1 := by rw [length_append, length_singleton]; omega
  rw [nextLevel_eq, padded, if_pos hod, getLastD_concat, append_assoc, pairs_append _ h]
  rfl

theorem nextLevel_right (h : nodes.length % 2 = 0) (left top : Digest) :
    nextLevel hash (nodes ++ [left] ++ [top]) = pairs hash nodes ++ [hashPair hash left top] := by
  have he : ¬(nodes ++ [left] ++ [top]).length % 2 = 1 := by
    rw [length_append, length_append, length_singleton, length_singleton]; omega
  rw [nextLevel_eq, padded, if_neg he, append_assoc, pairs_append _ h]
  rfl

theorem mergeLevels_singleton (d : Digest) : mergeLevels hash [d] = [d] := by
  rw [mergeLevels, if_pos (by rw [length_singleton])]

/-! ## The shape of the active nodes -/

def lefts (hash : Digest × Digest → Digest) : Nat → List Digest → List Digest
  | 0, _ => []
  | depth + 1, nodes =>
    if nodes.length % 2 = 1 then nodes.getLastD default :: lefts hash depth (pairs hash nodes)
    else lefts hash depth (pairs hash nodes)

theorem lefts_even (h : nodes.length % 2 = 0) (depth : Nat) :
    lefts hash (depth + 1) nodes = lefts hash depth (pairs hash nodes) := by
  rw [lefts, if_neg (by omega)]

theorem lefts_odd (h : nodes.length % 2 = 0) (left : Digest) (depth : Nat) :
    lefts hash (depth + 1) (nodes ++ [left]) = left :: lefts hash depth (pairs hash nodes) := by
  have hod : (nodes ++ [left]).length % 2 = 1 := by rw [length_append, length_singleton]; omega
  rw [lefts, if_pos hod, getLastD_concat, pairs_append _ h]
  simp only [pairs, append_nil]

theorem lefts_length (depth : Nat) : ∀ nodes : List Digest,
    (lefts hash depth nodes).length = popcount (nodes.length % 2 ^ depth) := by
  induction depth with
  | zero => intro nodes; rw [Nat.pow_zero, Nat.mod_one, popcount, if_pos rfl]; rfl
  | succ depth ih =>
    intro nodes
    have hmod : nodes.length % 2 ^ (depth + 1) = nodes.length % 2 + 2 * (nodes.length / 2 % 2 ^ depth) := by
      rw [Nat.pow_succ', Nat.mod_mul]
    rw [hmod, lefts]
    split
    next h => rw [length_cons, ih, pairs_length, h, Nat.add_comm 1, popcount_double_succ]
    next h => rw [ih, pairs_length, show nodes.length % 2 = 0 by omega, Nat.zero_add, popcount_double]

def expectedNodes (hash : Digest × Digest → Digest) (digests : List Digest) : List Digest :=
  if digests = [] then []
  else lefts hash (Nat.clog 2 digests.length) digests ++ [(mergeLevels hash digests).headD default]

theorem lefts_perfect : ∀ {k : Nat} {nodes}, nodes.length = 2 ^ k →
    lefts hash k nodes = [] ∧ lefts hash (k + 1) nodes = [(mergeLevels hash nodes).headD default]
  | 0, nodes, h => by
    obtain ⟨a, rfl⟩ := length_eq_one_iff.mp h
    rw [mergeLevels_singleton]
    exact ⟨rfl, rfl⟩
  | k + 1, nodes, h => by
    have hpos := Nat.two_pow_pos k
    rw [Nat.pow_succ] at h
    have hp : padded nodes = nodes := by rw [padded, if_neg (by omega)]
    rw [lefts_even (by omega), lefts_even (by omega), mergeLevels, if_neg (by omega), nextLevel_eq, hp]
    exact lefts_perfect (by rw [pairs_length]; omega)

theorem expectedNodes_lefts (digests : List Digest) :
    ∃ rest, expectedNodes hash digests = lefts hash (Nat.clog 2 (digests.length + 1)) digests ++ rest := by
  by_cases hd : digests = []
  · subst hd
    exact ⟨[], rfl⟩
  have hlen := length_pos_iff.mpr hd
  have hle : digests.length ≤ 2 ^ Nat.clog 2 digests.length := Nat.le_pow_clog (by decide) _
  rw [expectedNodes, if_neg hd]
  rcases Nat.lt_or_eq_of_le hle with hlt | heq
  · have hs : Nat.clog 2 (digests.length + 1) = Nat.clog 2 digests.length :=
      le_antisymm (Nat.clog_le_of_le_pow hlt) (Nat.clog_mono_right 2 (Nat.le_succ _))
    rw [hs]
    exact ⟨_, rfl⟩
  · have hn : Nat.clog 2 (digests.length + 1) = Nat.clog 2 digests.length + 1 := by
      refine le_antisymm (Nat.clog_le_of_le_pow ?_) ((Nat.lt_clog_iff_pow_lt (by decide)).mpr ?_)
      · rw [Nat.pow_succ, ← heq]; omega
      · rw [← heq]; omega
    obtain ⟨hnil, hroot⟩ := @lefts_perfect hash _ _ heq
    rw [hn, hnil, hroot]
    exact ⟨[], rfl⟩

/-! ## Appending -/

theorem collapse_eq : ∀ {depth : Nat} {nodes rest updated} {isPartial : Bool} {top},
    nodes.length < 2 ^ depth → 2 ^ depth ≤ 2 * nodes.length + 1 →
    collapse hash depth nodes.length isPartial top (lefts hash depth nodes ++ rest) updated =
      .ok (updated ++ (lefts hash depth (if isPartial then nodes else nodes ++ [top]) ++
        [(mergeLevels hash (nodes ++ [top])).headD default]))
  | 0, nodes, rest, updated, isPartial, top, h, _ => by
    rw [Nat.pow_zero, Nat.lt_one_iff] at h
    rw [eq_nil_of_length_eq_zero h, nil_append, mergeLevels_singleton]
    rfl
  | depth + 1, nodes, rest, updated, isPartial, top, hlt, hle => by
    have hpos := Nat.two_pow_pos depth
    rw [Nat.pow_succ] at hlt hle
    have hne : nodes ≠ [] := by
      rintro rfl
      rw [length_nil] at hle
      omega
    have := length_pos_iff.mpr hne
    rw [mergeLevels, if_neg (show ¬ (nodes ++ [top]).length ≤ 1 by rw [length_append, length_singleton]; omega)]
    unfold collapse
    by_cases he : nodes.length % 2 = 0
    · have hup : (pairs hash nodes).length = nodes.length / 2 := pairs_length nodes
      rw [if_pos he, lefts_even he, nextLevel_left he, ← hup,
        collapse_eq (by rw [hup]; omega) (by rw [hup]; omega), if_pos rfl]
      cases isPartial with
      | true => rw [if_pos rfl, if_pos rfl, lefts_even he]
      | false =>
        rw [if_neg Bool.false_ne_true, if_neg Bool.false_ne_true, lefts_odd he, append_assoc]
        rfl
    · obtain ⟨below, left, rfl⟩ := (eq_nil_or_concat' nodes).resolve_left hne
      have hb : below.length % 2 = 0 := by rw [length_append, length_singleton] at he; omega
      have hup : (pairs hash below).length = (below ++ [left]).length / 2 := by
        rw [pairs_length, length_append, length_singleton]; omega
      rw [lefts_odd hb, nextLevel_right hb, cons_append, if_neg he, ← hup]
      dsimp only
      rw [collapse_eq (by rw [hup]; omega) (by rw [hup]; omega)]
      cases isPartial with
      | true =>
        rw [if_pos rfl, if_pos rfl, if_pos rfl, lefts_odd hb, append_assoc]
        rfl
      | false =>
        have htop : (below ++ [left] ++ [top]).length % 2 = 0 := by
          rw [length_append, length_append, length_singleton, length_singleton]; omega
        rw [if_neg Bool.false_ne_true, if_neg Bool.false_ne_true, if_neg Bool.false_ne_true, lefts_even htop,
          append_assoc below, pairs_append _ hb]
        rfl

namespace IncrementalMerkle

def Holds (hash : Digest × Digest → Digest) (tree : IncrementalMerkle) (digests : List Digest) : Prop :=
  tree.nodeCount = digests.length ∧ tree.activeNodes = expectedNodes hash digests

theorem calculateMaxDepth_succ (n : Nat) : calculateMaxDepth (n + 1) - 1 = Nat.clog 2 (n + 1) := by
  rw [calculateMaxDepth, if_neg (by omega), bitWidth, bitCeil, if_neg (Nat.two_pow_pos _).ne', Nat.log_pow (by decide),
    Nat.add_sub_cancel]

theorem Holds.append (h : Holds hash tree digests) (digest : Digest) :
    ∃ tree', tree.append hash digest = .ok tree' ∧ Holds hash tree' (digests ++ [digest]) := by
  obtain ⟨hco, hn⟩ := h
  obtain ⟨rest, hr⟩ := @expectedNodes_lefts hash digests
  have hlt : digests.length < 2 ^ Nat.clog 2 (digests.length + 1) := Nat.le_pow_clog (by decide) _
  have hle : 2 ^ Nat.clog 2 (digests.length + 1) ≤ 2 * digests.length + 1 := by
    rcases Nat.eq_zero_or_pos digests.length with h0 | h0
    · rw [h0]; exact Nat.le_refl 1
    have hp := Nat.pow_pred_clog_lt_self (b := 2) (by decide) (Nat.succ_lt_succ h0)
    have hpos := Nat.clog_pos (b := 2) (by decide) (Nat.succ_lt_succ h0)
    rw [← Nat.succ_pred_eq_of_pos hpos, Nat.pow_succ]
    omega
  have hlen : (digests ++ [digest]).length = digests.length + 1 := by rw [length_append, length_singleton]
  refine ⟨⟨digests.length + 1, expectedNodes hash (digests ++ [digest])⟩, ?_, hlen.symm, rfl⟩
  rw [IncrementalMerkle.append, hco, calculateMaxDepth_succ, hn, hr, collapse_eq hlt hle, ok_bind]
  rw [expectedNodes, if_neg (append_ne_nil_of_right_ne_nil _ (cons_ne_nil _ _)), hlen]
  rfl

theorem Holds.appends {l : List Digest} : ∀ {digests} {tree}, Holds hash tree digests →
    ∃ tree', l.foldlM (fun tree digest => tree.append hash digest) tree = .ok tree' ∧ Holds hash tree' (digests ++ l) := by
  induction l with
  | nil => exact fun h => ⟨_, rfl, by rwa [append_nil]⟩
  | cons d l ih =>
    intro digests tree h
    obtain ⟨next, happ, hn⟩ := h.append d
    obtain ⟨tree', hrun, hl⟩ := ih hn
    rw [append_assoc] at hl
    exact ⟨tree', by rw [foldlM_cons, happ, ok_bind, hrun], hl⟩

theorem Holds.getRoot (h : Holds hash tree digests) : tree.getRoot = .ok (calculateMerkleLegacy hash digests) := by
  obtain ⟨hco, hn⟩ := h
  rw [IncrementalMerkle.getRoot, hco, hn, expectedNodes, calculateMerkleLegacy]
  by_cases hd : digests = []
  · subst hd
    rfl
  have hlen := length_pos_iff.mpr hd
  rw [if_pos hlen, if_neg hd, getLast?_concat, if_neg (by omega)]

/-- **Appending digests one by one** reads no active node past the end, leaves the left siblings of the next append and
the root, one node for each bit of the count below the depth and one more, and gives `calculate_merkle_legacy`. -/
theorem getRoot_of_legacyAppends (digests : List Digest) :
    ∃ tree, digests.foldlM (fun tree digest => tree.append hash digest) ({} : IncrementalMerkle) = .ok tree ∧
      tree.nodeCount = digests.length ∧ tree.activeNodes = expectedNodes hash digests ∧
      (digests ≠ [] →
        tree.activeNodes.length = popcount (tree.nodeCount % 2 ^ (calculateMaxDepth tree.nodeCount - 1)) + 1) ∧
      tree.getRoot = .ok (calculateMerkleLegacy hash digests) := by
  have he : Holds hash {} [] := ⟨rfl, rfl⟩
  obtain ⟨tree, hrun, ht⟩ := he.appends (l := digests)
  rw [nil_append] at ht
  refine ⟨tree, hrun, ht.1, ht.2, fun hd => ?_, ht.getRoot⟩
  have hlen := length_pos_iff.mpr hd
  obtain ⟨n, hn⟩ : ∃ n, digests.length = n + 1 := ⟨digests.length - 1, by omega⟩
  rw [ht.1, ht.2, expectedNodes, if_neg hd, length_append, lefts_length, hn, calculateMaxDepth_succ]
  rfl

end IncrementalMerkle
end LegacyMerkle
end TheChannel
