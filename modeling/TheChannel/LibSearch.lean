import Mathlib
/-!
# LibSearch — the halving search of a sorted list

`lowerBound p l` is the position that `std::lower_bound` finds, with the loop of the standard library over a first position
and a length. Where `p` holds of a beginning of the list, everything before the position has `p` and nothing from it on.
-/
namespace TheChannel

def lowerBoundFrom (p : Nat → Bool) : Nat → Nat → Nat → Nat
  | 0, first, _ => first
  | fuel + 1, first, len =>
    if len = 0 then first
    else if p (first + len / 2) then lowerBoundFrom p fuel (first + len / 2 + 1) (len - len / 2 - 1)
    else lowerBoundFrom p fuel first (len / 2)

def lowerBound {α : Type} (p : α → Bool) (l : List α) : Nat :=
  lowerBoundFrom (fun i => l[i]?.any p) l.length 0 l.length

theorem lowerBoundFrom_spec (p : Nat → Bool) (hp : ∀ i j, i ≤ j → p j = true → p i = true) :
    ∀ fuel first len, len ≤ fuel → (∀ i, i < first → p i = true) → (∀ i, first + len ≤ i → p i = false) →
      (∀ i, i < lowerBoundFrom p fuel first len → p i = true) ∧ (∀ i, lowerBoundFrom p fuel first len ≤ i → p i = false)
  | 0, first, len, hlen, hlow, hh => by
    refine ⟨hlow, fun i hi => hh i ?_⟩
    rw [lowerBoundFrom] at hi
    omega
  | fuel + 1, first, len, hlen, hlow, hh => by
    rw [lowerBoundFrom]
    split
    · rename_i h0
      exact ⟨hlow, fun i hi => hh i (by omega)⟩
    split
    · rename_i hmid
      -- everything up to the middle has it
      refine lowerBoundFrom_spec p hp fuel _ _ (by omega) (fun i hi => hp i _ (by omega) hmid) fun i hi => hh i (by omega)
    · rename_i hmid
      refine lowerBoundFrom_spec p hp fuel _ _ (by omega) hlow fun i hi => ?_
      by_contra hi'
      exact hmid (hp _ i hi (by simpa using hi'))

section Sorted

variable {α β : Type} [LinearOrder β] {key : α → β} {l : List α} {i : Nat} {e : α}

theorem lowerBound_eq (hs : l.Pairwise (fun a b => key a < key b)) (he : l[i]? = some e) :
    lowerBound (fun a => decide (key a < key e)) l = i := by
  have hlt : ∀ (j k : Nat) (a b : α), j < k → l[j]? = some a → l[k]? = some b → key a < key b := by
    intro j k a b hjk ha hb
    obtain ⟨hj, rfl⟩ := List.getElem?_eq_some_iff.1 ha
    obtain ⟨hk, rfl⟩ := List.getElem?_eq_some_iff.1 hb
    exact List.pairwise_iff_getElem.1 hs j k hj hk hjk
  have hd : ∀ j k : Nat, j ≤ k → (l[k]?.any fun a => decide (key a < key e)) = true →
      (l[j]?.any fun a => decide (key a < key e)) = true := by
    intro j k hjk hk
    simp only [Option.any_eq_true, decide_eq_true_eq] at hk ⊢
    obtain ⟨b, hb, hbe⟩ := hk
    rcases Nat.lt_or_eq_of_le hjk with hjk | rfl
    · obtain ⟨hk', -⟩ := List.getElem?_eq_some_iff.1 hb
      obtain ⟨a, ha⟩ : ∃ a, l[j]? = some a := ⟨_, List.getElem?_eq_getElem (by omega)⟩
      exact ⟨a, ha, (hlt j k a b hjk ha hb).trans hbe⟩
    · exact ⟨b, hb, hbe⟩
  obtain ⟨hlow, hh⟩ := lowerBoundFrom_spec _ hd l.length 0 l.length le_rfl (fun j hj => by omega) (fun j hj => by
    rw [List.getElem?_eq_none (by omega), Option.any_none])
  -- at its place the comparison is false, before it is true
  rcases Nat.lt_trichotomy (lowerBound (fun a => decide (key a < key e)) l) i with h | h | h
  · obtain ⟨hi, -⟩ := List.getElem?_eq_some_iff.1 he
    have hf := hh _ le_rfl
    have hat : l[lowerBound (fun a => decide (key a < key e)) l]? = some _ := List.getElem?_eq_getElem (by omega)
    change (l[lowerBound (fun a => decide (key a < key e)) l]?.any _) = false at hf
    rw [hat, Option.any_some, decide_eq_false_iff_not] at hf
    exact absurd (hlt _ _ _ _ h hat he) hf
  · exact h
  · have ht := hlow i h
    rw [he, Option.any_some, decide_eq_true_eq] at ht
    exact absurd ht (lt_irrefl _)

end Sorted
end TheChannel
