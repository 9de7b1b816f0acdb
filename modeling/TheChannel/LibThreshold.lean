import Mathlib
/-!
# LibThreshold — what a system of threshold rules grants

A rule has factors with weights, and a threshold their sum must reach. A factor holds by itself, or if a node is granted.
What is granted is the least set that has the nodes of a base and those whose rule is reached.
-/
namespace TheChannel
variable {ν : Type}

/-- A factor: its weight, and the node it needs or whether it holds by itself. -/
structure Factor (ν : Type) where
  weight : Nat
  needs : ν ⊕ Bool

structure ThresholdRule (ν : Type) where
  threshold : Nat
  factors : List (Factor ν)

def Factor.Holds (X : Set ν) (f : Factor ν) : Prop :=
  match f.needs with
  | .inl p => p ∈ X
  | .inr b => b = true

open Classical in
noncomputable def weightIn (X : Set ν) (fs : List (Factor ν)) : Nat :=
  (fs.map (fun f => if f.Holds X then f.weight else 0)).sum

def ThresholdRule.Reached (X : Set ν) (r : ThresholdRule ν) : Prop := r.threshold ≤ weightIn X r.factors

section Weights

variable {X Y : Set ν} {f : Factor ν} {fs fs' : List (Factor ν)}

theorem Factor.Holds.mono (h : X ⊆ Y) (hf : f.Holds X) : f.Holds Y := by
  unfold Holds at hf ⊢
  cases hn : f.needs with
  | inl p => rw [hn] at hf; exact h hf
  | inr b => rw [hn] at hf; exact hf

theorem weightIn_cons_pos (h : f.Holds X) : weightIn X (f :: fs) = f.weight + weightIn X fs := by
  unfold weightIn
  rw [List.map_cons, List.sum_cons, if_pos h]

theorem weightIn_cons_neg (h : ¬ f.Holds X) : weightIn X (f :: fs) = weightIn X fs := by
  unfold weightIn
  rw [List.map_cons, List.sum_cons, if_neg h, Nat.zero_add]

theorem weightIn_perm (h : fs.Perm fs') : weightIn X fs = weightIn X fs' := (h.map _).sum_eq

theorem weightIn_mono (h : X ⊆ Y) : ∀ fs : List (Factor ν), weightIn X fs ≤ weightIn Y fs
  | [] => le_rfl
  | f :: fs => by
    have ih := weightIn_mono h fs
    by_cases hx : f.Holds X
    · rw [weightIn_cons_pos hx, weightIn_cons_pos (hx.mono h)]
      omega
    · rw [weightIn_cons_neg hx]
      by_cases hy : f.Holds Y
      · rw [weightIn_cons_pos hy]
        omega
      · rwa [weightIn_cons_neg hy]

theorem weightIn_map_le {α : Type} {f g : α → Factor ν} (hw : ∀ m, (g m).weight = (f m).weight)
    (hh : ∀ m, (f m).Holds X → (g m).Holds X) (ms : List α) : weightIn X (ms.map f) ≤ weightIn X (ms.map g) := by
  unfold weightIn
  rw [List.map_map, List.map_map]
  refine List.sum_le_sum fun m _ => ?_
  dsimp only [Function.comp]
  split
  · rw [if_pos (hh m (by assumption)), hw]
  · exact Nat.zero_le _

end Weights

/-! ## The least set -/

def grants (rules : ν → Option (ThresholdRule ν)) (base : Set ν) : Set ν →o Set ν where
  toFun X := base ∪ { p | ∃ r, rules p = some r ∧ r.Reached X }
  monotone' X Y h := by
    rintro p (hp | ⟨r, hr, hreach⟩)
    · exact .inl hp
    · exact .inr ⟨r, hr, Nat.le_trans hreach (weightIn_mono h r.factors)⟩

def granted (rules : ν → Option (ThresholdRule ν)) (base : Set ν) : Set ν := (grants rules base).lfp

variable {rules : ν → Option (ThresholdRule ν)} {base : Set ν} {p : ν}

theorem mem_granted_iff : p ∈ granted rules base ↔
    p ∈ base ∨ ∃ r, rules p = some r ∧ r.Reached (granted rules base) := by
  have h : grants rules base (granted rules base) = granted rules base := OrderHom.map_lfp _
  constructor
  · intro hp
    rw [← h] at hp
    exact hp
  · intro hp
    rw [← h]
    exact hp

theorem granted_mono {rules' : ν → Option (ThresholdRule ν)} {base' : Set ν} (hb : base ⊆ base')
    (hru : ∀ p r, rules p = some r → ∃ r', rules' p = some r' ∧ ∀ X, r.Reached X → r'.Reached X) :
    granted rules base ⊆ granted rules' base' := by
  refine OrderHom.lfp_le _ ?_
  rintro p (hp | ⟨r, hr, hre⟩)
  · exact mem_granted_iff.2 (.inl (hb hp))
  · obtain ⟨r', hr', hle⟩ := hru p r hr
    exact mem_granted_iff.2 (.inr ⟨r', hr', hle _ hre⟩)

end TheChannel
