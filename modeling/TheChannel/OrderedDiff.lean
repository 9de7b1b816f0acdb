import TheChannel.Fault
/-!
# OrderedDiff — the diff of two lists and its application

`fc::ordered_diff` (`ordered_diff.hpp`): finalizer and proposer policies travel in a header as the diff to the policy
proposed before. `diff` walks source and target side by side and records which source indexes to remove and which
target elements to insert; `apply_diff` replays the record and checks it, since it may come from the network.

`maxIndex` is `numeric_limits<SizeType>::max()`.
-/
namespace TheChannel
open List

structure DiffResult (α : Type) where
  removeIndexes : List Nat
  insertIndexes : List (Nat × α)
  deriving DecidableEq

namespace OrderedDiff
variable {α : Type}

def remove (s : Nat) (d : DiffResult α) : DiffResult α := { d with removeIndexes := s :: d.removeIndexes }

def insert (t : Nat) (x : α) (d : DiffResult α) : DiffResult α := { d with insertIndexes := (t, x) :: d.insertIndexes }

/-- The loop of `diff` at source index `s` and target index `t`, over what is left of the two. Every round consumes an
element, so the two lengths together are fuel enough. -/
def diffLoop [DecidableEq α] : Nat → Nat → Nat → List α → List α → DiffResult α
  | 0, _, _, _, _ => ⟨[], []⟩
  | _ + 1, _, _, [], [] => ⟨[], []⟩
  | n + 1, s, t, _ :: xs, [] => remove s (diffLoop n (s + 1) t xs [])
  | n + 1, s, t, [], y :: ys => insert t y (diffLoop n s (t + 1) [] ys)
  | n + 1, s, t, x :: xs, y :: ys =>
    if x = y then diffLoop n (s + 1) (t + 1) xs ys
    -- both at the end
    else if xs = [] ∧ ys = [] then remove s (insert t y (diffLoop n (s + 1) (t + 1) xs ys))
    -- misalignment, but the next values are equal
    else if xs ≠ [] ∧ xs.head? = ys.head? then remove s (insert t y (diffLoop n (s + 1) (t + 1) xs ys))
    -- the source equals the next target
    else if ys.head? = some x then insert t y (diffLoop n s (t + 1) (x :: xs) ys)
    else remove s (diffLoop n (s + 1) t xs (y :: ys))

def diff [DecidableEq α] (maxIndex : Nat) (source target : List α) : Result (DiffResult α) := do
  eosAssert (source.isEmpty || decide (source.length - 1 ≤ maxIndex)) .fcAssert
    "source.empty() || (source.size() - 1) <= std::numeric_limits<SizeType>::max()"
  eosAssert (target.isEmpty || decide (target.length - 1 ≤ maxIndex)) .fcAssert
    "target.empty() || (target.size() - 1) <= std::numeric_limits<SizeType>::max()"
  return diffLoop (source.length + target.length) 0 0 source target

def isAfter (prev : Option Nat) (index : Nat) : Bool := prev.all (fun p => decide (p < index))

def removeLoop (i : Nat) (prev : Option Nat) : List Nat → List α → Result (List α)
  | [], container => .ok container
  | index :: rest, container => do
    eosAssert (isAfter prev index) .fcAssert
      "diff.remove_indexes not strictly monotonically increasing: current index ${c}, previous index ${p}"
    assertThat "diff.remove_indexes[i] >= i" (decide (i ≤ index))
    eosAssert (decide (index - i < container.length)) .fcAssert
      "diff.remove_indexes index ${idx} - i ${i} not in range ${s}"
    removeLoop (i + 1) (some index) rest (container.eraseIdx (index - i))

def insertLoop (prev : Option Nat) : List (Nat × α) → List α → Result (List α)
  | [], container => .ok container
  | (index, value) :: rest, container => do
    eosAssert (isAfter prev index) .fcAssert
      "diff.insert_indexes not strictly monotonically increasing: current index ${c}, previous index ${p}"
    eosAssert (decide (index ≤ container.length)) .fcAssert "diff.insert_indexes index ${idx} not in range ${s}"
    insertLoop (some index) rest (container.insertIdx index value)

def applyDiff (container : List α) (d : DiffResult α) : Result (List α) := do
  let kept ← removeLoop 0 none d.removeIndexes container
  insertLoop none d.insertIndexes kept

/-! ## The diff law -/

/-- **What the loop's record does**: removing from the source leaves the elements it keeps, inserting into those gives
the target. `i` removals are done before source index `s`, so the next one is at `s - i`. -/
structure Replays (s t : Nat) (xs ys : List α) (d : DiffResult α) (kept : List α) : Prop where
  removes : ∀ (i : Nat) (prev : Option Nat) (pre : List α), pre.length + i = s → (∀ p, prev = some p → p < s) →
    removeLoop i prev d.removeIndexes (pre ++ xs) = .ok (pre ++ kept)
  inserts : ∀ (prev : Option Nat) (pre : List α), pre.length = t → (∀ p, prev = some p → p < t) →
    insertLoop prev d.insertIndexes (pre ++ kept) = .ok (pre ++ ys)

section Law

variable {s t : Nat} {x y : α} {xs ys kept : List α} {d : DiffResult α}

theorem isAfter_of_lt {prev : Option Nat} {n : Nat} (h : ∀ p, prev = some p → p < n) : isAfter prev n = true := by
  cases prev with
  | none => rfl
  | some p => simpa [isAfter] using h p rfl

theorem replays_keep (h : Replays (s + 1) (t + 1) xs ys d kept) : Replays s t (x :: xs) (x :: ys) d (x :: kept) where
  removes := fun i prev pre hl hp => by
    have := h.removes i prev (pre ++ [x]) (by simp; omega) fun p hpr => Nat.lt_succ_of_lt (hp p hpr)
    simpa using this
  inserts := fun prev pre hl hp => by
    have := h.inserts prev (pre ++ [x]) (by simp; omega) fun p hpr => Nat.lt_succ_of_lt (hp p hpr)
    simpa using this

theorem replays_remove (h : Replays (s + 1) t xs ys d kept) : Replays s t (x :: xs) ys (remove s d) kept where
  removes := fun i prev pre hl hp => by
    have hera : (pre ++ x :: xs).eraseIdx (s - i) = pre ++ xs := by
      rw [show s - i = pre.length by omega, eraseIdx_append_of_length_le (Nat.le_refl _), Nat.sub_self]
      rfl
    simp only [remove, removeLoop]
    rw [eosAssert_bind (isAfter_of_lt hp), assertThat_bind (by simp; omega), eosAssert_bind (by simp; omega), hera]
    exact h.removes (i + 1) (some s) pre (by omega) fun p hpr => by cases hpr; exact Nat.lt_succ_self s
  inserts := h.inserts

theorem insertIdx_length_append : ∀ pre kept (y : α), (pre ++ kept).insertIdx pre.length y = pre ++ y :: kept
  | [], _, _ => rfl
  | z :: pre, kept, y => by
    rw [cons_append, length_cons, insertIdx_succ_cons, insertIdx_length_append pre kept y]
    rfl

theorem replays_insert (h : Replays s (t + 1) xs ys d kept) : Replays s t xs (y :: ys) (insert t y d) kept where
  removes := h.removes
  inserts := fun prev pre hl hp => by
    have hins : (pre ++ kept).insertIdx t y = (pre ++ [y]) ++ kept := by
      rw [← hl, insertIdx_length_append, append_assoc]
      rfl
    simp only [insert, insertLoop]
    rw [eosAssert_bind (isAfter_of_lt hp), eosAssert_bind (by simp; omega), hins]
    have := h.inserts (some t) (pre ++ [y]) (by simp; omega) fun p hpr => by cases hpr; exact Nat.lt_succ_self t
    simpa using this

variable [DecidableEq α]

theorem replays_diffLoop : ∀ (n s t : Nat) (xs ys : List α), xs.length + ys.length ≤ n →
    ∃ kept, Replays s t xs ys (diffLoop n s t xs ys) kept
  | 0, s, t, xs, ys, h => by
    obtain rfl : xs = [] := length_eq_zero_iff.1 (by omega)
    obtain rfl : ys = [] := length_eq_zero_iff.1 (by omega)
    exact ⟨[], fun _ _ _ _ _ => rfl, fun _ _ _ _ => rfl⟩
  | n + 1, s, t, [], [], _ => ⟨[], fun _ _ _ _ _ => rfl, fun _ _ _ _ => rfl⟩
  | n + 1, s, t, x :: xs, [], h => by
    obtain ⟨kept, hk⟩ := replays_diffLoop n (s + 1) t xs [] (by simp at h ⊢; omega)
    exact ⟨kept, replays_remove hk⟩
  | n + 1, s, t, [], y :: ys, h => by
    obtain ⟨kept, hk⟩ := replays_diffLoop n s (t + 1) [] ys (by simp at h ⊢; omega)
    exact ⟨kept, replays_insert hk⟩
  | n + 1, s, t, x :: xs, y :: ys, h => by
    simp only [length_cons] at h
    obtain ⟨both, hb⟩ := replays_diffLoop n (s + 1) (t + 1) xs ys (by omega)
    obtain ⟨ins, hins⟩ := replays_diffLoop n s (t + 1) (x :: xs) ys (by simp only [length_cons]; omega)
    obtain ⟨rem, hrem⟩ := replays_diffLoop n (s + 1) t xs (y :: ys) (by simp only [length_cons]; omega)
    rw [diffLoop]
    split
    · rename_i hxy
      rw [← hxy]
      exact ⟨x :: both, replays_keep hb⟩
    split
    · exact ⟨both, replays_remove (replays_insert hb)⟩
    split
    · exact ⟨both, replays_remove (replays_insert hb)⟩
    split
    · exact ⟨ins, replays_insert hins⟩
    · exact ⟨rem, replays_remove hrem⟩

theorem applyDiff_diffLoop (source target : List α) :
    applyDiff source (diffLoop (source.length + target.length) 0 0 source target) = .ok target := by
  obtain ⟨kept, h⟩ := replays_diffLoop (source.length + target.length) 0 0 source target (Nat.le_refl _)
  have hr := h.removes 0 none [] rfl (by simp)
  have hi := h.inserts none [] rfl (by simp)
  rw [nil_append, nil_append] at hr hi
  rw [applyDiff, hr, ok_bind, hi]

theorem diff_eq {maxIndex : Nat} {source target : List α} (hs : source.length ≤ maxIndex + 1)
    (ht : target.length ≤ maxIndex + 1) :
    diff maxIndex source target = .ok (diffLoop (source.length + target.length) 0 0 source target) := by
  rw [diff, eosAssert_bind (by simp; omega), eosAssert_bind (by simp; omega)]
  rfl

theorem diffLoop_bounded (n s t : Nat) (xs ys : List α) :
    (∀ i ∈ (diffLoop n s t xs ys).removeIndexes, i < s + xs.length) ∧
      ∀ p ∈ (diffLoop n s t xs ys).insertIndexes, p.1 < t + ys.length := by
  fun_induction diffLoop n s t xs ys with
  | case1 | case2 => simp
  | case3 n s t x xs ih | case4 n s t y ys ih => simp [remove, insert] at ih ⊢; grind
  | case5 n s t x xs ys ih => simp at ih ⊢; grind
  | case6 n s t x xs y ys hne hend ih | case7 n s t x xs y ys hne hend hal ih => simp [remove, insert] at ih ⊢; grind
  | case8 n s t x xs y ys hne hend hal hn ih => simp [insert] at ih ⊢; grind
  | case9 n s t x xs y ys hne hend hal hn ih => simp [remove] at ih ⊢; grind

/-- **A diff can be taken of any two lists whose last indexes fit, and applying it gives the target.** Its indexes fit too. -/
theorem applyDiff_of_diff {maxIndex : Nat} {source target : List α} (hs : source.length - 1 ≤ maxIndex)
    (ht : target.length - 1 ≤ maxIndex) :
    ∃ d, diff maxIndex source target = .ok d ∧ applyDiff source d = .ok target ∧
      (∀ i ∈ d.removeIndexes, i ≤ maxIndex) ∧ ∀ p ∈ d.insertIndexes, p.1 ≤ maxIndex := by
  obtain ⟨hrem, hins⟩ := diffLoop_bounded (source.length + target.length) 0 0 source target
  refine ⟨_, diff_eq (by omega) (by omega), applyDiff_diffLoop source target, fun i hi => ?_, fun p hp => ?_⟩
  · have := hrem i hi
    omega
  · have := hins p hp
    omega

theorem applyDiff_of_diff_repeated : ∃ d, diff 3 [1, 1, 2] [1, 2, 2, 3] = .ok d ∧ applyDiff [1, 1, 2] d = .ok [1, 2, 2, 3] ∧
    (∀ i ∈ d.removeIndexes, i ≤ 3) ∧ ∀ p ∈ d.insertIndexes, p.1 ≤ 3 := applyDiff_of_diff (by decide) (by decide)

end Law
end OrderedDiff
end TheChannel
