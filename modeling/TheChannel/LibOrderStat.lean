import Mathlib.Data.List.Sort
/-!
# LibOrderStat — the element at an index of the sorted list

What `std::nth_element` leaves at its position. The element at an index is at least `x` exactly when no more elements than
the index are below `x` (`le_nthElement_iff`), so raising elements raises it.
-/
namespace TheChannel
open List

variable {α : Type} [LinearOrder α] {index : Nat} {l : List α} {y : α}

def nthElement (l : List α) (index : Nat) : Option α := (l.insertionSort (· ≤ ·))[index]?

theorem nthElement_isSome (h : index < l.length) : ∃ y, nthElement l index = some y :=
  ⟨_, getElem?_eq_getElem (by rw [length_insertionSort]; exact h)⟩

theorem mem_of_nthElement (h : nthElement l index = some y) : y ∈ l :=
  (perm_insertionSort (· ≤ ·) l).mem_iff.1 (mem_of_getElem? h)

theorem le_getElem?_iff {s : List α} (hs : s.Pairwise (· ≤ ·)) (hy : s[index]? = some y) (x : α) :
    x ≤ y ↔ s.countP (· < x) ≤ index := by
  obtain ⟨hlt, rfl⟩ := List.getElem?_eq_some_iff.1 hy
  have hsp : s.countP (· < x) = (s.take index).countP (· < x) + (s.drop index).countP (· < x) := by
    rw [← countP_append, take_append_drop]
  have hd : s.drop index = s[index] :: s.drop (index + 1) := drop_eq_getElem_cons hlt
  constructor
  · intro hx
    have hze : (s.drop index).countP (· < x) = 0 := by
      rw [countP_eq_zero]
      intro z hz
      have hle : s[index] ≤ z := by
        rw [hd] at hz
        rcases mem_cons.1 hz with rfl | hz
        · exact le_rfl
        · have hp : (s.drop index).Pairwise (· ≤ ·) := hs.sublist (drop_sublist _ _)
          rw [hd] at hp
          exact (pairwise_cons.1 hp).1 z hz
      simpa using hx.trans hle
    have hlen : (s.take index).countP (· < x) ≤ (s.take index).length := countP_le_length
    rw [length_take] at hlen
    omega
  · intro hc
    by_contra hx
    -- then the elements up to the index are all below `x`
    have hall : ∀ z ∈ s.take index, decide (z < x) = true := by
      intro z hz
      have hp : (s.take index ++ s.drop index).Pairwise (· ≤ ·) := by rw [take_append_drop]; exact hs
      have hle : z ≤ s[index] := (pairwise_append.1 hp).2.2 z hz _ (by rw [hd]; exact mem_cons_self ..)
      simpa using lt_of_le_of_lt hle (not_le.1 hx)
    have ht : (s.take index).countP (· < x) = index := by
      rw [countP_eq_length.2 hall, length_take]
      omega
    rw [hsp, ht, hd, countP_cons_of_pos (by simpa using hx)] at hc
    omega

theorem le_nthElement_iff (h : nthElement l index = some y) (x : α) : x ≤ y ↔ l.countP (· < x) ≤ index := by
  rw [le_getElem?_iff (pairwise_insertionSort (· ≤ ·) l) h, (perm_insertionSort (· ≤ ·) l).countP_eq]

theorem nthElement_mono {β : Type} {l : List β} {f g : β → α} (hfg : ∀ b ∈ l, f b ≤ g b) {z : α}
    (hy : nthElement (l.map f) index = some y) (hz : nthElement (l.map g) index = some z) : y ≤ z := by
  rw [le_nthElement_iff hz, countP_map]
  have hbe := (le_nthElement_iff hy y).1 (le_refl y)
  rw [countP_map] at hbe
  refine (countP_mono_left (fun b hb => ?_)).trans hbe
  simpa using fun hlt => lt_of_le_of_lt (hfg b hb) hlt

end TheChannel
