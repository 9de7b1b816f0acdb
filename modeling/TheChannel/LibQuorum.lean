import Mathlib.Data.List.Basic
/-!
# LibQuorum — weighted quorums over an indexed list of voters

`weightWhere P ws` is the weight of the voters whose index satisfies `P`. Two sets of voters that both reach a
threshold `T` out of a total `W` share a voter outside any set lighter than `2T - W` (`quorum_intersection`).
-/
namespace TheChannel

def weightWhere (P : Nat → Bool) : List Nat → Nat
  | [] => 0
  | w :: ws => (if P 0 then w else 0) + weightWhere (fun i => P (i + 1)) ws

theorem weightWhere_mono : ∀ ws {P Q : Nat → Bool}, (∀ i < ws.length, P i = true → Q i = true) →
    weightWhere P ws ≤ weightWhere Q ws
  | [], _, _, _ => Nat.le_refl _
  | w :: ws, P, Q, h => by
    have h0 := h 0 (by simp)
    have hs := weightWhere_mono ws (P := fun i => P (i + 1)) (Q := fun i => Q (i + 1))
      (fun i hi => h (i + 1) (by simpa using hi))
    simp only [weightWhere]
    cases hP : P 0 with
    | false => simp only [Bool.false_eq_true, if_false]; omega
    | true => rw [h0 hP]; simp only [if_true]; omega

theorem weightWhere_none : ∀ ws {P : Nat → Bool}, (∀ i, P i = false) → weightWhere P ws = 0
  | [], _, _ => rfl
  | w :: ws, P, h => by
    simp [weightWhere, h 0, weightWhere_none ws (fun i => h (i + 1))]

theorem weightWhere_insert : ∀ {ws} {P : Nat → Bool} {i w : Nat}, ws[i]? = some w → P i = false →
    weightWhere (fun j => P j || j == i) ws = weightWhere P ws + w
  | [], _, _, _, h, _ => by simp at h
  | v :: ws, P, 0, w, h, hP => by
    obtain rfl : v = w := by simpa using h
    have hs : (fun j => P (j + 1) || (j + 1 == 0)) = fun j => P (j + 1) := by funext j; simp
    simp only [weightWhere, hP, hs]
    simp; omega
  | v :: ws, P, i + 1, w, h, hP => by
    have ih := weightWhere_insert (P := fun j => P (j + 1)) (show ws[i]? = some w by simpa using h) hP
    have hs : (fun j => P (j + 1) || (j + 1 == i + 1)) = fun j => P (j + 1) || j == i := by funext j; simp
    have h0 : (P 0 || (0 == i + 1)) = P 0 := by simp
    simp only [weightWhere, hs, h0, ih]
    omega

theorem weightWhere_add_le : ∀ ws (P Q : Nat → Bool),
    weightWhere P ws + weightWhere Q ws ≤ weightWhere (fun _ => true) ws + weightWhere (fun i => P i && Q i) ws
  | [], _, _ => Nat.le_refl _
  | w :: ws, P, Q => by
    have := weightWhere_add_le ws (fun i => P (i + 1)) fun i => Q (i + 1)
    simp only [weightWhere, if_true]
    rcases Bool.eq_false_or_eq_true (P 0) with hp | hp <;> rcases Bool.eq_false_or_eq_true (Q 0) with hq | hq <;>
      simp only [hp, hq, Bool.and_true, Bool.and_false, Bool.false_eq_true, if_true, if_false] <;> omega

theorem weightWhere_or_disjoint : ∀ ws {P Q : Nat → Bool}, (∀ i, ¬ (P i = true ∧ Q i = true)) →
    weightWhere P ws + weightWhere Q ws = weightWhere (fun i => P i || Q i) ws
  | [], _, _, _ => rfl
  | w :: ws, P, Q, h => by
    have ih := weightWhere_or_disjoint ws (P := fun i => P (i + 1)) (Q := fun i => Q (i + 1)) fun i => h (i + 1)
    have h0 := h 0
    simp only [weightWhere]
    rcases Bool.eq_false_or_eq_true (P 0) with hp | hp <;> rcases Bool.eq_false_or_eq_true (Q 0) with hq | hq <;>
      simp only [hp, hq, Bool.or_true, Bool.or_false, Bool.false_eq_true, if_true, if_false] at h0 ⊢
    · exact absurd ⟨trivial, trivial⟩ h0
    all_goals omega

/-- **Two quorums share a voter outside a light enough set.** -/
theorem quorum_intersection {ws : List Nat} {P Q B : Nat → Bool} {T : Nat} (hP : T ≤ weightWhere P ws)
    (hQ : T ≤ weightWhere Q ws) (hB : weightWhere (fun _ => true) ws + weightWhere B ws < 2 * T) :
    ∃ i < ws.length, P i = true ∧ Q i = true ∧ B i = false := by
  by_contra hno
  have hsub : weightWhere (fun i => P i && Q i) ws ≤ weightWhere B ws := weightWhere_mono ws (fun i hi h => by
    rw [Bool.and_eq_true] at h
    cases hb : B i with
    | true => rfl
    | false => exact absurd ⟨i, hi, h.1, h.2, hb⟩ hno)
  have := weightWhere_add_le ws P Q
  omega

end TheChannel
