import Mathlib
/-!
# LibRows — keyed rows and sums over them

A table is a list of rows with distinct keys (`AList`). `total` is the sum of a weight over its rows. Writing a row
changes it by the new row's weight less the replaced one's, erasing by the erased one's; `weigh` is the weight of a row
that may be missing.
-/
namespace TheChannel
open AList List

abbrev RowMap (κ υ : Type) := AList (fun _ : κ => υ)

namespace RowMap
variable {κ υ : Type} {w w' : κ → υ → ℤ} {t : RowMap κ υ} {k : κ} {v : υ} {empty : Bool}

def weigh (w : κ → υ → ℤ) (k : κ) : Option υ → ℤ
  | none => 0
  | some v => w k v

@[simp] theorem weigh_none (w : κ → υ → ℤ) (k : κ) : weigh w k none = 0 := rfl

@[simp] theorem weigh_some (w : κ → υ → ℤ) (k : κ) (v : υ) : weigh w k (some v) = w k v := rfl

def total (w : κ → υ → ℤ) (t : RowMap κ υ) : ℤ := (t.entries.map (fun e => w e.1 e.2)).sum

@[simp] theorem total_empty (w : κ → υ → ℤ) : total w (∅ : RowMap κ υ) = 0 := rfl

theorem total_zero (t : RowMap κ υ) : total (fun _ _ => 0) t = 0 := by
  unfold total
  rw [map_const', sum_replicate, smul_zero]

variable [DecidableEq κ]

theorem mem_entries_iff {e : Sigma fun _ : κ => υ} : e ∈ t.entries ↔ t.lookup e.1 = some e.2 := mem_lookup_iff.symm

theorem total_congr (h : ∀ k v, t.lookup k = some v → w k v = w' k v) : total w t = total w' t := by
  exact congrArg List.sum (map_congr_left fun e he => h e.1 e.2 (mem_entries_iff.1 he))

theorem total_mono (h : ∀ k v, t.lookup k = some v → w k v ≤ w' k v) : total w t ≤ total w' t := by
  exact sum_le_sum fun e he => h e.1 e.2 (mem_entries_iff.1 he)

theorem total_nonneg (h : ∀ k v, t.lookup k = some v → 0 ≤ w k v) : 0 ≤ total w t := by
  refine sum_nonneg fun x hx => ?_
  obtain ⟨e, he, rfl⟩ := mem_map.1 hx
  exact h e.1 e.2 (mem_entries_iff.1 he)

/-! ## Writing and erasing -/

theorem sum_kerase (w : κ → υ → ℤ) (k : κ) : ∀ {l : List (Sigma fun _ : κ => υ)}, l.NodupKeys →
    ((l.kerase k).map (fun e => w e.1 e.2)).sum = (l.map (fun e => w e.1 e.2)).sum - weigh w k (l.dlookup k)
  | [], _ => rfl
  | e :: l, h => by
    rw [nodupKeys_cons] at h
    by_cases hk : k = e.1
    · subst hk
      rw [kerase_cons_eq rfl, dlookup_cons_eq, map_cons, sum_cons, weigh_some, add_sub_cancel_left]
    · rw [kerase_cons_ne hk, dlookup_cons_ne _ _ hk, map_cons, sum_cons, map_cons,
        sum_cons, sum_kerase w k h.2]
      ring

theorem total_erase (w : κ → υ → ℤ) (t : RowMap κ υ) (k : κ) : total w (t.erase k) = total w t - weigh w k (t.lookup k) :=
  sum_kerase w k t.nodupKeys

theorem total_insert (w : κ → υ → ℤ) (t : RowMap κ υ) (k : κ) (v : υ) :
    total w (t.insert k v) = total w t - weigh w k (t.lookup k) + w k v := by
  have hk := sum_kerase w k t.nodupKeys
  show ((List.kinsert k v t.entries).map (fun e => w e.1 e.2)).sum = _
  rw [kinsert_def, map_cons, sum_cons, hk, add_comm]
  rfl

theorem total_eq_sum (w : κ → υ → ℤ) (S : Finset κ) : ∀ {t}, (∀ k v, t.lookup k = some v → k ∈ S) →
    total w t = ∑ k ∈ S, weigh w k (t.lookup k) := by
  induction S using Finset.induction_on with
  | empty =>
    intro t h
    rw [Finset.sum_empty]
    exact (total_congr fun k v hv => absurd (h k v hv) (Finset.notMem_empty k)).trans (total_zero t)
  | insert a S ha ih =>
    intro t h
    have hera : ∀ k v, (t.erase a).lookup k = some v → k ∈ S := by
      intro k v hv
      by_cases hk : k = a
      · rw [hk, lookup_erase] at hv
        cases hv
      · rw [lookup_erase_ne hk] at hv
        exact (Finset.mem_insert.1 (h k v hv)).resolve_left hk
    have hsum := ih hera
    rw [total_erase] at hsum
    rw [Finset.sum_insert ha, ← sub_eq_iff_eq_add', hsum]
    refine Finset.sum_congr rfl fun k hk => ?_
    have hka : k ≠ a := by
      rintro rfl
      exact ha hk
    rw [lookup_erase_ne hka]

theorem total_change {t t' : RowMap κ υ} {k : κ} (h : ∀ a, a ≠ k → weigh w a (t'.lookup a) = weigh w a (t.lookup a)) :
    total w t' - weigh w k (t'.lookup k) = total w t - weigh w k (t.lookup k) := by
  have hke : ∀ {u : RowMap κ υ} {a v}, u.lookup a = some v → a ∈ u.keys.toFinset := fun hv =>
    mem_toFinset.2 (mem_keys.1 (lookup_isSome.1 (by rw [hv]; rfl)))
  have hsum : ∀ {u : RowMap κ υ}, (u = t ∨ u = t') → total w u = ∑ a ∈ t.keys.toFinset ∪ t'.keys.toFinset ∪ {k},
      weigh w a (u.lookup a) := by
    rintro u (rfl | rfl) <;> refine total_eq_sum w _ fun a v hv => ?_
    · exact Finset.mem_union_left _ (Finset.mem_union_left _ (hke hv))
    · exact Finset.mem_union_left _ (Finset.mem_union_right _ (hke hv))
  have hk : k ∈ t.keys.toFinset ∪ t'.keys.toFinset ∪ {k} := Finset.mem_union_right _ (Finset.mem_singleton_self k)
  rw [hsum (.inl rfl), hsum (.inr rfl), ← Finset.add_sum_erase _ _ hk, ← Finset.add_sum_erase _ _ hk, add_sub_cancel_left,
    add_sub_cancel_left]
  exact Finset.sum_congr rfl fun a ha => h a (Finset.ne_of_mem_erase ha)

theorem weigh_le_total (h : ∀ k v, t.lookup k = some v → 0 ≤ w k v) (k : κ) : weigh w k (t.lookup k) ≤ total w t := by
  have hr : 0 ≤ total w (t.erase k) := by
    refine total_nonneg fun k' v' hv => h k' v' ?_
    by_cases hk : k' = k
    · rw [hk, lookup_erase] at hv
      cases hv
    · rwa [lookup_erase_ne hk] at hv
  rw [total_erase] at hr
  omega

/-! ## Counting -/

def count (p : κ → υ → Bool) (t : RowMap κ υ) : Nat := t.entries.countP (fun e => p e.1 e.2)

omit [DecidableEq κ] in
theorem count_eq_total (p : κ → υ → Bool) (t : RowMap κ υ) :
    (count p t : ℤ) = total (fun k v => if p k v = true then 1 else 0) t := by
  unfold count total
  induction t.entries with
  | nil => rfl
  | cons e l ih =>
    rw [countP_cons, map_cons, sum_cons, ← ih]
    dsimp only
    split <;> omega

theorem count_insert_new (p : κ → υ → Bool) (v : υ) (h : t.lookup k = none) :
    count p (t.insert k v) = count p t + (if p k v = true then 1 else 0) := by
  have hnew := count_eq_total p (t.insert k v)
  rw [total_insert, h, weigh_none, ← count_eq_total] at hnew
  by_cases hp : p k v = true
  · rw [if_pos hp] at hnew ⊢
    omega
  · rw [if_neg hp] at hnew ⊢
    omega

theorem count_erase (p : κ → υ → Bool) (h : t.lookup k = some v) :
    count p t = count p (t.erase k) + (if p k v = true then 1 else 0) := by
  have hold := count_eq_total p (t.erase k)
  rw [total_erase, h, weigh_some, ← count_eq_total] at hold
  by_cases hp : p k v = true
  · rw [if_pos hp] at hold ⊢
    omega
  · rw [if_neg hp] at hold ⊢
    omega

theorem count_eq_zero {p : κ → υ → Bool} (h : ∀ k v, t.lookup k = some v → p k v = false) : count p t = 0 := by
  unfold count
  rw [countP_eq_zero]
  intro e he
  rw [h e.1 e.2 (mem_entries_iff.1 he)]
  exact Bool.false_ne_true

theorem count_pos {p : κ → υ → Bool} (h : t.lookup k = some v) (hp : p k v = true) : 0 < count p t := by
  have := count_erase p h
  rw [if_pos hp] at this
  omega

/-! ## Looking up -/

theorem lookup_insert_ite (t : RowMap κ υ) (k : κ) (v : υ) (a : κ) :
    (t.insert k v).lookup a = if a = k then some v else t.lookup a := by
  by_cases h : a = k
  · rw [if_pos h, h, lookup_insert]
  · rw [if_neg h, lookup_insert_ne h]

theorem lookup_erase_ite (t : RowMap κ υ) (k a : κ) : (t.erase k).lookup a = if a = k then none else t.lookup a := by
  by_cases h : a = k
  · rw [if_pos h, h, lookup_erase]
  · rw [if_neg h, lookup_erase_ne h]

theorem lookup_insert_some {a : κ} {v' : υ} (h : (t.insert k v).lookup a = some v') :
    (a = k ∧ v' = v) ∨ (a ≠ k ∧ t.lookup a = some v') := by
  rw [lookup_insert_ite] at h
  by_cases ha : a = k
  · rw [if_pos ha, Option.some.injEq] at h
    exact .inl ⟨ha, h.symm⟩
  · rw [if_neg ha] at h
    exact .inr ⟨ha, h⟩

theorem lookup_erase_some {a : κ} {v' : υ} (h : (t.erase k).lookup a = some v') : a ≠ k ∧ t.lookup a = some v' := by
  rw [lookup_erase_ite] at h
  by_cases ha : a = k
  · rw [if_pos ha] at h
    cases h
  · rw [if_neg ha] at h
    exact ⟨ha, h⟩

/-! ## Storing a row that may be empty -/

def store (t : RowMap κ υ) (empty : Bool) (k : κ) (v : υ) : RowMap κ υ := if empty then t.erase k else t.insert k v

theorem total_store (t : RowMap κ υ) (h : empty = true → w k v = 0) :
    total w (t.store empty k v) = total w t - weigh w k (t.lookup k) + w k v := by
  unfold store
  cases he : empty with
  | false => exact total_insert w t k v
  | true =>
    rw [if_pos rfl, total_erase, h he]
    ring

theorem weigh_store (t : RowMap κ υ) (h : empty = true → w k v = 0) (a : κ) :
    weigh w a ((t.store empty k v).lookup a) = if a = k then w k v else weigh w a (t.lookup a) := by
  unfold store
  cases he : empty with
  | false =>
    rw [if_neg Bool.false_ne_true, lookup_insert_ite]
    by_cases ha : a = k
    · simp [ha]
    · simp [ha]
  | true =>
    rw [if_pos rfl, lookup_erase_ite]
    by_cases ha : a = k
    · simp [ha, h he]
    · simp [ha]

theorem lookup_store {a : κ} {v' : υ} (h : (t.store empty k v).lookup a = some v') : v' = v ∨ t.lookup a = some v' := by
  unfold store at h
  cases empty with
  | false =>
    rcases lookup_insert_some h with ⟨-, rfl⟩ | ⟨-, h⟩
    · exact .inl rfl
    · exact .inr h
  | true => exact .inr (lookup_erase_some h).2

end RowMap
end TheChannel
