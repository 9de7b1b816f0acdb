import Mathlib
/-!
# LibFlatMap — maps as lists of entries with ascending keys

`boost::container::flat_map`: `assign` is `m[k] = v`, `List.lookup` is `find`.
-/
namespace TheChannel
open List

variable {κ υ : Type} [LinearOrder κ] {k : κ} {v : υ} {f : κ → υ}

def assign (k : κ) (v : υ) : List (κ × υ) → List (κ × υ)
  | [] => [(k, v)]
  | e :: m => if k = e.1 then (k, v) :: m else if k < e.1 then (k, v) :: e :: m else e :: assign k v m

def Ascending (m : List (κ × υ)) : Prop := m.Pairwise (fun a b => a.1 < b.1)

theorem mem_assign : ∀ {m} {e : κ × υ}, e ∈ assign k v m → e = (k, v) ∨ e ∈ m
  | [], e, h => .inl (by simpa [assign] using h)
  | a :: m, e, h => by
    unfold assign at h
    split at h
    · exact (mem_cons.1 h).imp_right (mem_cons_of_mem _)
    · split at h
      · exact mem_cons.1 h
      · rcases mem_cons.1 h with rfl | h
        · exact .inr (mem_cons_self ..)
        · exact (mem_assign h).imp_right (mem_cons_of_mem _)

theorem ascending_assign : ∀ {m}, Ascending m → Ascending (assign k v m)
  | [], _ => pairwise_singleton _ _
  | a :: m, h => by
    obtain ⟨ha, hm⟩ := pairwise_cons.1 h
    unfold assign
    split
    · rename_i hk
      exact pairwise_cons.2 ⟨fun e he => hk ▸ ha e he, hm⟩
    · split
      · rename_i hlt
        refine pairwise_cons.2 ⟨fun e he => ?_, h⟩
        rcases mem_cons.1 he with rfl | he
        · exact hlt
        · exact lt_trans hlt (ha e he)
      · rename_i hne hn
        refine pairwise_cons.2 ⟨fun e he => ?_, ascending_assign hm⟩
        rcases mem_assign he with rfl | he
        · exact lt_of_le_of_ne (not_lt.1 hn) fun heq => hne heq.symm
        · exact ha e he

theorem key_mem_assign : ∀ {m} {k' : κ}, k' ∈ (assign k v m).map Prod.fst ↔ k' = k ∨ k' ∈ m.map Prod.fst
  | [], k' => by simp [assign]
  | a :: m, k' => by
    unfold assign
    split
    · rename_i hk
      simp only [map_cons, mem_cons]
      rw [hk, ← or_assoc, or_self]
    · split
      · simp only [map_cons, mem_cons]
      · rw [map_cons, mem_cons, key_mem_assign, map_cons, mem_cons, or_left_comm]

theorem keys_assign_perm : ∀ {m}, k ∉ m.map Prod.fst →
    ((assign k v m).map Prod.fst).Perm (k :: m.map Prod.fst)
  | [], _ => List.Perm.refl _
  | a :: m, h => by
    obtain ⟨hne, hm⟩ := not_or.1 fun hor => h (mem_cons.2 hor)
    unfold assign
    rw [if_neg hne]
    split
    · exact List.Perm.refl _
    · exact ((keys_assign_perm hm).cons a.1).trans (List.Perm.swap k a.1 _)

theorem assign_eq_map : ∀ {m}, Ascending m → k ∈ m.map Prod.fst →
    assign k v m = m.map (fun e => if e.1 = k then (k, v) else e)
  | a :: m, h, hk => by
    obtain ⟨ha, hm⟩ := pairwise_cons.1 h
    unfold assign
    by_cases hka : k = a.1
    · rw [if_pos hka, map_cons, if_pos hka.symm]
      congr 1
      have hne : ∀ e ∈ m, ¬ e.1 = k := fun e he heq => absurd (heq ▸ hka ▸ ha e he) (lt_irrefl _)
      exact (map_id' m).symm.trans (map_congr_left (fun e he => (if_neg (hne e he)).symm))
    · have hkm : k ∈ m.map Prod.fst := (mem_cons.1 hk).resolve_left hka
      obtain ⟨e, he, hek⟩ := mem_map.1 hkm
      rw [if_neg hka, if_neg (not_lt.2 (hek ▸ le_of_lt (ha e he))), map_cons, if_neg (fun heq => hka heq.symm),
        assign_eq_map hm hkm]

theorem Ascending.nodup {m : List (κ × υ)} (h : Ascending m) : (m.map Prod.fst).Nodup := by
  rw [List.Nodup, pairwise_map]
  exact h.imp fun hab => ne_of_lt hab

theorem takeWhile_lt_eq_filter {b : κ} : ∀ {m : List (κ × υ)}, Ascending m →
    m.takeWhile (·.1 < b) = m.filter (·.1 < b)
  | [], _ => rfl
  | a :: m, h => by
    obtain ⟨ha, hm⟩ := pairwise_cons.1 h
    rw [takeWhile_cons, filter_cons, takeWhile_lt_eq_filter hm]
    by_cases hb : a.1 < b
    · rw [if_pos (by simpa using hb), if_pos (by simpa using hb)]
    · rw [if_neg (by simpa using hb), if_neg (by simpa using hb), eq_comm, filter_eq_nil_iff]
      intro e he
      simpa using le_of_lt (lt_of_le_of_lt (not_lt.1 hb) (ha e he))

/-! ## Maps made key by key -/

def assignAll (f : κ → υ) (ks : List κ) (m : List (κ × υ)) : List (κ × υ) := ks.foldl (fun m k => assign k (f k) m) m

theorem ascending_assignAll : ∀ {ks} {m}, Ascending m → Ascending (assignAll f ks m)
  | [], _, h => h
  | _ :: _, _, h => by
    rw [assignAll, foldl_cons]
    exact ascending_assignAll (ascending_assign h)

theorem key_mem_assignAll : ∀ {ks} {m} {k : κ},
    k ∈ (assignAll f ks m).map Prod.fst ↔ k ∈ ks ∨ k ∈ m.map Prod.fst
  | [], m, k => by simp [assignAll]
  | k' :: ks, m, k => by
    show k ∈ (assignAll f ks (assign k' (f k') m)).map Prod.fst ↔ _
    rw [key_mem_assignAll, key_mem_assign, mem_cons, or_assoc, or_left_comm]

theorem mem_assignAll : ∀ {ks} {m} {e : κ × υ}, e ∈ assignAll f ks m → e ∈ m ∨ e.2 = f e.1
  | [], _, _, h => .inl h
  | k :: ks, m, e, h => by
    have h : e ∈ assignAll f ks (assign k (f k) m) := h
    rcases mem_assignAll h with h | h
    · rcases mem_assign h with rfl | h
      · exact .inr rfl
      · exact .inl h
    · exact .inr h

/-! ## Looking up -/

section Lookup

variable {κ υ : Type} [BEq κ] [LawfulBEq κ] {m : List (κ × υ)}

theorem lookup_isSome_iff_mem {k : κ} : (m.lookup k).isSome = true ↔ k ∈ m.map Prod.fst := by
  rw [lookup_isSome_iff, mem_map]
  constructor
  · rintro ⟨e, he, hk⟩
    exact ⟨e, he, (beq_iff_eq.1 hk).symm⟩
  · rintro ⟨e, he, hk⟩
    exact ⟨e, he, beq_iff_eq.2 hk.symm⟩

theorem lookup_eq_none_iff_not_mem {k : κ} : m.lookup k = none ↔ k ∉ m.map Prod.fst := by
  rw [← lookup_isSome_iff_mem, Option.not_isSome_iff_eq_none]

theorem mem_of_lookup_eq_some {k : κ} {v : υ} (h : m.lookup k = some v) : (k, v) ∈ m := by
  obtain ⟨l, r, hm, -⟩ := lookup_eq_some_iff.1 h
  rw [hm]
  simp

variable [DecidableEq κ]

theorem lookup_cons_ite (k a : κ) (v : υ) (m : List (κ × υ)) :
    List.lookup k ((a, v) :: m) = if k = a then some v else m.lookup k := by
  rw [lookup_cons]
  by_cases h : k = a
  · rw [if_pos h, beq_iff_eq.2 h]
  · rw [if_neg h, beq_false_of_ne h]

theorem lookup_of_mem : ∀ {m : List (κ × υ)} {e : κ × υ}, (m.map Prod.fst).Nodup → e ∈ m → m.lookup e.1 = some e.2
  | a :: m, e, hn, he => by
    obtain ⟨ha, hm⟩ := nodup_cons.1 hn
    rw [lookup_cons_ite]
    rcases mem_cons.1 he with rfl | he
    · rw [if_pos rfl]
    · rw [if_neg (fun heq : e.1 = a.1 => ha (heq ▸ mem_map_of_mem he)), lookup_of_mem hm he]

theorem lookup_filter_key (P : κ → Bool) : ∀ (m : List (κ × υ)) (k : κ),
    (m.filter (fun e => P e.1)).lookup k = if P k then m.lookup k else none
  | [], k => by simp
  | (a, v) :: m, k => by
    rw [filter_cons]
    by_cases ha : P a = true
    · rw [if_pos ha, lookup_cons_ite, lookup_filter_key P m k, lookup_cons_ite]
      by_cases hk : k = a
      · rw [if_pos hk, if_pos hk, if_pos (hk ▸ ha)]
      · rw [if_neg hk, if_neg hk]
    · rw [if_neg ha, lookup_filter_key P m k, lookup_cons_ite]
      by_cases hk : P k = true
      · rw [if_pos hk, if_pos hk, if_neg (fun h : k = a => ha (h ▸ hk))]
      · rw [if_neg hk, if_neg hk]

theorem lookup_filter_ne (k' : κ) (m : List (κ × υ)) (k : κ) :
    (m.filter (·.1 ≠ k')).lookup k = if k = k' then none else m.lookup k := by
  rw [lookup_filter_key (fun a => decide (a ≠ k'))]
  by_cases h : k = k'
  · rw [if_pos h, if_neg (by simpa using h)]
  · rw [if_neg h, if_pos (by simpa using h)]

theorem lookup_filter_of_nodup (P : κ × υ → Bool) : ∀ {m : List (κ × υ)}, (m.map Prod.fst).Nodup → ∀ k : κ,
    (m.filter P).lookup k = (m.lookup k).filter (fun v => P (k, v))
  | [], _, k => by simp
  | (a, v) :: m, hn, k => by
    obtain ⟨ha, hm⟩ := nodup_cons.1 hn
    have ih := lookup_filter_of_nodup P hm k
    rw [filter_cons, lookup_cons_ite]
    by_cases hk : k = a
    · have hno : (m.filter P).lookup k = none := by
        rw [ih, lookup_eq_none_iff_not_mem.2 (hk ▸ ha)]
        rfl
      rw [if_pos hk, Option.filter_some, hk]
      by_cases hp : P (a, v) = true
      · rw [if_pos hp, if_pos hp, lookup_cons_ite, if_pos rfl]
      · rw [if_neg hp, if_neg hp, ← hk, hno]
    · rw [if_neg hk, ← ih]
      by_cases hp : P (a, v) = true
      · rw [if_pos hp, lookup_cons_ite, if_neg hk]
      · rw [if_neg hp]

theorem lookup_map_val {ω : Type} (f : κ → υ → ω) : ∀ (m : List (κ × υ)) (k : κ),
    (m.map (fun e => (e.1, f e.1 e.2))).lookup k = (m.lookup k).map (f k)
  | [], k => rfl
  | (a, v) :: m, k => by
    rw [map_cons, lookup_cons_ite, lookup_cons_ite, lookup_map_val f m k]
    by_cases hk : k = a
    · rw [if_pos hk, if_pos hk, hk]
      rfl
    · rw [if_neg hk, if_neg hk]

end Lookup

section AscendingLookup

variable {κ υ : Type} [LinearOrder κ] [BEq κ] [LawfulBEq κ]

theorem lookup_assign (k' : κ) (v : υ) : ∀ m (k : κ),
    (assign k' v m).lookup k = if k = k' then some v else m.lookup k
  | [], k => lookup_cons_ite k k' v []
  | (a, w) :: m, k => by
    unfold assign
    by_cases ha : k' = a
    · rw [if_pos ha, lookup_cons_ite, lookup_cons_ite, ha]
      by_cases hk : k = a
      · rw [if_pos hk, if_pos hk]
      · rw [if_neg hk, if_neg hk, if_neg hk]
    · rw [if_neg ha]
      by_cases hlt : k' < a
      · rw [if_pos hlt, lookup_cons_ite]
      · rw [if_neg hlt, lookup_cons_ite, lookup_assign k' v m k, lookup_cons_ite]
        by_cases hk : k = a
        · rw [if_pos hk, if_pos hk, if_neg (fun h => ha (h.symm.trans hk))]
        · rw [if_neg hk, if_neg hk]

end AscendingLookup
end TheChannel
