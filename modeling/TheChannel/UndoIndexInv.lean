import TheChannel.UndoIndexOrder
/-!
# UndoIndexInv — what the undo stack remembers

A table is a map from ids to nodes. The top session keeps backups and removed nodes, from which the table at its start
is read off (`restored`); below it the next session does the same for that table. `Levels` says so for a whole stack and
lists the snapshots. `Level` says what the modification times tell: a row that was there at the start of the session has
one from the session exactly if there is a backup.

An operation changes the top of this alone: each lemma here shows that the table at the start of the session stays, and so
do the levels below.
-/
namespace TheChannel
open List Option

/-- **What a table looks like from outside**: its rows and the next id. -/
structure Snapshot (V : Type) where
  rows : Nat → Option V
  nextId : Nat

namespace UndoIndex
variable {V : Type}

abbrev Table (V : Type) := Nat → Option (Node V)

namespace Table

def set (t : Table V) (p : Nat) (n : Option (Node V)) : Table V := fun q => if q = p then n else t q

def snapshot (t : Table V) (nextId : Nat) : Snapshot V := ⟨fun p => (t p).map Node.val, nextId⟩

@[simp] theorem set_self (t : Table V) (p : Nat) (n : Option (Node V)) : t.set p n p = n := if_pos rfl

theorem set_ne (t : Table V) {p q : Nat} (n : Option (Node V)) (h : q ≠ p) : t.set p n q = t q := if_neg h

end Table

def backup (o : OldNode V) : Nat × Node V := (o.current, ⟨o.val, o.mtime⟩)

/-- **The table at the start of a session**, from the table now, the backups and the removed nodes. -/
def restored (info : UndoState) (B R : List (Nat × Node V)) (t : Table V) : Table V := fun p =>
  if p < info.oldNextId then (B.lookup p).or ((t p).or (R.lookup p)) else none

structure Level (S : TableType V) (t : Table V) (next bound : Nat) (info : UndoState) (B R : List (Nat × Node V)) :
    Prop where
  next_le : info.oldNextId ≤ next
  ctime_pos : 0 < info.ctime
  ctime_le : info.ctime ≤ bound
  backed : ∀ {p n}, t p = some n → (info.ctime ≤ n.mtime ↔ info.oldNextId ≤ p ∨ (B.lookup p).isSome = true)
  olds : ∀ {p n}, B.lookup p = some n →
    n.mtime < info.ctime ∧ p < info.oldNextId ∧ ((t p).isSome = true ∨ (R.lookup p).isSome = true)
  oldsNodup : (B.map Prod.fst).Nodup
  removed : ∀ {p n}, R.lookup p = some n →
    p < info.oldNextId ∧ t p = none ∧ (info.ctime ≤ n.mtime ↔ (B.lookup p).isSome = true)
  removedNodup : (R.map Prod.fst).Nodup
  distinct : Distinct S (restored info B R t)

/-! ## The rows of a session -/

section Level

variable {S : TableType V} {t : Table V} {next bound p : Nat} {info : UndoState} {B R B' R' : List (Nat × Node V)} {n : Node V}
  {x : Option (Node V)}

theorem restored_of_lt (h : p < info.oldNextId) : restored info B R t p = (B.lookup p).or ((t p).or (R.lookup p)) :=
  if_pos h

theorem restored_of_le (h : info.oldNextId ≤ p) : restored info B R t p = none := if_neg (by omega)

theorem restored_congr {t' : Table V}
    (h : ∀ q, q < info.oldNextId → (B'.lookup q).or ((t' q).or (R'.lookup q)) = (B.lookup q).or ((t q).or (R.lookup q))) :
    restored info B' R' t' = restored info B R t := by
  funext q
  unfold restored
  split
  · exact h q ‹_›
  · rfl

section

variable (h : Level S t next bound info B R)

include h

theorem Level.change {next' : Nat}
    (hn : next ≤ next') (hB : ∀ q, q ≠ p → B'.lookup q = B.lookup q) (hR : ∀ q, q ≠ p → R'.lookup q = R.lookup q)
    (hk : p < info.oldNextId → (B'.lookup p).or (x.or (R'.lookup p)) = (B.lookup p).or ((t p).or (R.lookup p)))
    (hrow : ∀ m, x = some m → (info.ctime ≤ m.mtime ↔ info.oldNextId ≤ p ∨ (B'.lookup p).isSome = true))
    (hold : ∀ m, B'.lookup p = some m →
      m.mtime < info.ctime ∧ p < info.oldNextId ∧ (x.isSome = true ∨ (R'.lookup p).isSome = true))
    (hrem : ∀ m, R'.lookup p = some m →
      p < info.oldNextId ∧ x = none ∧ (info.ctime ≤ m.mtime ↔ (B'.lookup p).isSome = true))
    (hBn : (B'.map Prod.fst).Nodup) (hRn : (R'.map Prod.fst).Nodup) :
    restored info B' R' (t.set p x) = restored info B R t ∧ Level S (t.set p x) next' bound info B' R' := by
  have hres : restored info B' R' (t.set p x) = restored info B R t := by
    refine restored_congr fun q hq => ?_
    by_cases hqp : q = p
    · rw [hqp, Table.set_self]
      exact hk (hqp ▸ hq)
    · rw [Table.set_ne _ _ hqp, hB q hqp, hR q hqp]
  refine ⟨hres, h.next_le.trans hn, h.ctime_pos, h.ctime_le, ?_, ?_, hBn, ?_, hRn, hres ▸ h.distinct⟩
  · intro q m hq
    by_cases hqp : q = p
    · rw [hqp, Table.set_self] at hq
      exact hqp ▸ hrow m hq
    · rw [hB q hqp]
      exact h.backed ((Table.set_ne _ _ hqp).symm.trans hq)
  · intro q m hq
    by_cases hqp : q = p
    · rw [hqp, Table.set_self]
      exact hold m (hqp ▸ hq)
    · rw [Table.set_ne _ _ hqp, hR q hqp]
      exact h.olds ((hB q hqp).symm.trans hq)
  · intro q m hq
    by_cases hqp : q = p
    · rw [hqp, Table.set_self]
      exact hrem m (hqp ▸ hq)
    · rw [Table.set_ne _ _ hqp, hB q hqp]
      exact h.removed ((hR q hqp).symm.trans hq)

theorem Level.not_removed (hp : t p = some n) : R.lookup p = none := by
  cases hr : R.lookup p with
  | none => rfl
  | some m =>
    have := (h.removed hr).2.1
    rw [hp] at this
    cases this

theorem Level.set_val (hp : t p = some n) (hm : info.ctime ≤ n.mtime) (v : V) :
    restored info B R (t.set p (some ⟨v, n.mtime⟩)) = restored info B R t ∧
    Level S (t.set p (some ⟨v, n.mtime⟩)) next bound info B R := by
  have hba := (h.backed hp).1 hm
  refine h.change le_rfl (fun _ _ => rfl) (fun _ _ => rfl) ?_ ?_ ?_ ?_ h.oldsNodup h.removedNodup
  · intro hlt
    obtain ⟨m, hb⟩ := isSome_iff_exists.1 (hba.resolve_left (by omega))
    rw [hb]
    rfl
  · rintro m ⟨⟩
    exact ⟨fun _ => hba, fun _ => hm⟩
  · exact fun m hb => ⟨(h.olds hb).1, (h.olds hb).2.1, .inl rfl⟩
  · intro m hr
    rw [h.not_removed hp] at hr
    cases hr

theorem Level.set_backup (hp : t p = some n) (hm : n.mtime < info.ctime) (v : V) :
    restored info ((p, n) :: B) R (t.set p (some ⟨v, bound⟩)) = restored info B R t ∧
    Level S (t.set p (some ⟨v, bound⟩)) next bound info ((p, n) :: B) R := by
  have hnew : ¬ (info.oldNextId ≤ p ∨ (B.lookup p).isSome = true) := fun hor => by
    have := (h.backed hp).2 hor
    omega
  have hlt : p < info.oldNextId := by
    have := fun hle => hnew (.inl hle)
    omega
  have hn : B.lookup p = none := not_isSome_iff_eq_none.1 fun hs => hnew (.inr hs)
  have hse : List.lookup p ((p, n) :: B) = some n := by rw [lookup_cons_ite, if_pos rfl]
  refine h.change le_rfl (fun q hqp => by rw [lookup_cons_ite, if_neg hqp]) (fun _ _ => rfl) ?_ ?_ ?_ ?_
    (nodup_cons.2 ⟨lookup_eq_none_iff_not_mem.1 hn, h.oldsNodup⟩) h.removedNodup
  · intro _
    rw [hse, hn, hp]
    rfl
  · rintro m ⟨⟩
    rw [hse]
    exact ⟨fun _ => .inr rfl, fun _ => h.ctime_le⟩
  · intro m hb
    cases hse.symm.trans hb
    exact ⟨hm, hlt, .inl rfl⟩
  · intro m hr
    rw [h.not_removed hp] at hr
    cases hr

theorem Level.set_of_le (hle : info.oldNextId ≤ p) {next' : Nat}
    (hn : next ≤ next') (hx : ∀ m, x = some m → info.ctime ≤ m.mtime) :
    restored info B R (t.set p x) = restored info B R t ∧ Level S (t.set p x) next' bound info B R := by
  refine h.change hn (fun _ _ => rfl) (fun _ _ => rfl) ?_ ?_ ?_ ?_ h.oldsNodup h.removedNodup
  · intro hlt
    omega
  · exact fun m hm => ⟨fun _ => .inl hle, fun _ => hx m hm⟩
  · intro m hb
    have := (h.olds hb).2.1
    omega
  · intro m hr
    have := (h.removed hr).1
    omega

theorem Level.remove_new (hle : info.oldNextId ≤ p) :
    restored info B R (t.set p none) = restored info B R t ∧ Level S (t.set p none) next bound info B R :=
  h.set_of_le hle le_rfl (fun _ hm => by cases hm)

theorem Level.remove_old (hp : t p = some n) (hlt : p < info.oldNextId) :
    restored info B ((p, n) :: R) (t.set p none) = restored info B R t ∧
    Level S (t.set p none) next bound info B ((p, n) :: R) := by
  have hs : List.lookup p ((p, n) :: R) = some n := by rw [lookup_cons_ite, if_pos rfl]
  refine h.change le_rfl (fun _ _ => rfl) (fun q hqp => by rw [lookup_cons_ite, if_neg hqp]) ?_ ?_ ?_ ?_ h.oldsNodup
    (nodup_cons.2 ⟨lookup_eq_none_iff_not_mem.1 (h.not_removed hp), h.removedNodup⟩)
  · intro _
    rw [hs, hp]
    rfl
  · intro m hm
    cases hm
  · exact fun m hb => ⟨(h.olds hb).1, hlt, .inr (by rw [hs]; rfl)⟩
  · intro m hr
    cases hs.symm.trans hr
    exact ⟨hlt, rfl, (h.backed hp).trans ⟨fun hor => hor.resolve_left (by omega), .inr⟩⟩

end

/-! ## Two sessions made one -/

section Squash

variable {outer : UndoState} {B₁ R₁ B' R' : List (Nat × Node V)}

/-- What `compress_impl` leaves of the inner session: the backups of rows that are there and were not modified by the outer
session before, and the removed nodes that are not new to it, with the value of their backup. -/
structure Compressed (t : Table V) (outer : UndoState) (B R B' R' : List (Nat × Node V)) : Prop where
  olds : ∀ p, B'.lookup p = (B.lookup p).filter (fun m => decide (m.mtime < outer.ctime) && (t p).isSome)
  oldsNodup : (B'.map Prod.fst).Nodup
  removed : ∀ p, R'.lookup p = if p < outer.oldNextId then
    (R.lookup p).map (fun n => ((B.lookup p).filter (fun m => m.mtime < outer.ctime)).getD n) else none
  removedNodup : (R'.map Prod.fst).Nodup

theorem Level.restored_of_backup (h : Level S t next bound info B R) {m : Node V} (hb : B.lookup p = some m) :
    restored info B R t p = some m := by
  rw [restored_of_lt (h.olds hb).2.1, hb]
  rfl

theorem Level.restored_of_none (hb : B.lookup p = none) (hlt : p < info.oldNextId) :
    restored info B R t p = (t p).or (R.lookup p) := by
  rw [restored_of_lt hlt, hb]
  rfl

section

variable (h : Level S t next bound info B R)

include h

theorem Level.outer_backup
    (h1 : Level S (restored info B R t) info.oldNextId (info.ctime - 1) outer B₁ R₁) {m : Node V}
    (hb : B.lookup p = some m) : outer.ctime ≤ m.mtime ↔ outer.oldNextId ≤ p ∨ (B₁.lookup p).isSome = true :=
  h1.backed (h.restored_of_backup hb)

variable (h1 : Level S (restored info B R t) info.oldNextId (info.ctime - 1) outer B₁ R₁) (hc : Compressed t outer B R B' R')

include h1 hc

theorem Level.squash_restored :
    restored outer (B' ++ B₁) (R' ++ R₁) t = restored outer B₁ R₁ (restored info B R t) := by
  refine restored_congr fun q hq => ?_
  have hlt : q < info.oldNextId := lt_of_lt_of_le hq h1.next_le
  rw [lookup_append, lookup_append, hc.olds, hc.removed, if_pos hq]
  cases hb : B.lookup q with
  | none =>
    rw [Level.restored_of_none hb hlt]
    simp [Option.or_assoc]
  | some m =>
    have hiff := h.outer_backup h1 hb
    rw [h.restored_of_backup hb]
    by_cases hm : m.mtime < outer.ctime
    · have hn : B₁.lookup q = none := not_isSome_iff_eq_none.1 (fun hs => by
        have := hiff.2 (.inr hs)
        omega)
      cases ht : t q with
      | some k => simp [hm, hn, filter_some]
      | none =>
        -- a backup of a row that is gone has moved to the removed node
        obtain ⟨k, hk⟩ := isSome_iff_exists.1 ((h.olds hb).2.2.resolve_left (by rw [ht]; simp))
        simp [hm, hn, hk, filter_some]
    · obtain ⟨k, hk⟩ := isSome_iff_exists.1 ((hiff.1 (by omega)).resolve_left (by omega))
      simp [hm, hk, filter_some]

/-- A backup that is kept for the outer session. -/
theorem Level.squash_kept {m : Node V} (hq : B'.lookup p = some m) :
    B.lookup p = some m ∧ (m.mtime < outer.ctime ∧ p < outer.oldNextId) ∧ (t p).isSome = true := by
  rw [hc.olds] at hq
  obtain ⟨hb, hm⟩ := filter_eq_some_iff.1 hq
  obtain ⟨hm, ht⟩ : m.mtime < outer.ctime ∧ (t p).isSome = true := by simpa using hm
  refine ⟨hb, ⟨hm, ?_⟩, ht⟩
  by_contra hge
  have := (h.outer_backup h1 hb).2 (.inl (by omega))
  omega

theorem Level.squash_backed (hq : t p = some n) :
    outer.ctime ≤ n.mtime ↔ outer.oldNextId ≤ p ∨ ((B' ++ B₁).lookup p).isSome = true := by
  have hct := h1.ctime_le
  have hpos := h.ctime_pos
  have hnx := h1.next_le
  have hiff := h.backed hq
  rw [lookup_append, isSome_or, Bool.or_eq_true, hc.olds, hq]
  cases hb : B.lookup p with
  | none =>
    rw [hb] at hiff
    simp only [isSome_none, Bool.false_eq_true, or_false] at hiff
    by_cases hlt : p < info.oldNextId
    · have hrow : restored info B R t p = some n := by
        rw [Level.restored_of_none hb hlt, hq]
        rfl
      have hiff1 := h1.backed hrow
      simpa using hiff1
    · have : info.ctime ≤ n.mtime := hiff.2 (by omega)
      exact ⟨fun _ => .inl (by omega), fun _ => by omega⟩
  | some m =>
    have hn : info.ctime ≤ n.mtime := hiff.2 (.inr (by rw [hb]; rfl))
    have hiff1 := h.outer_backup h1 hb
    refine ⟨fun _ => ?_, fun _ => by omega⟩
    by_cases hm : m.mtime < outer.ctime
    · exact .inr (.inl (by simp [hm]))
    · exact (hiff1.1 (by omega)).imp_right .inr

theorem Level.squash_olds (hq : (B' ++ B₁).lookup p = some n) : n.mtime < outer.ctime ∧ p < outer.oldNextId ∧
    ((t p).isSome = true ∨ ((R' ++ R₁).lookup p).isSome = true) := by
  rw [lookup_append] at hq ⊢
  rw [isSome_or, Bool.or_eq_true, hc.removed]
  rcases or_eq_some_iff.1 hq with hq | ⟨-, hq⟩
  · obtain ⟨-, ⟨hm, hlt⟩, ht⟩ := h.squash_kept h1 hc hq
    exact ⟨hm, hlt, .inl ht⟩
  · obtain ⟨h2, h3, h4⟩ := h1.olds hq
    refine ⟨h2, h3, ?_⟩
    rcases h4 with h4 | h4
    · by_cases ht : (t p).isSome = true
      · exact .inl ht
      · refine .inr (.inl ?_)
        have hr : (R.lookup p).isSome = true := by
          cases hb : B.lookup p with
          | some m => exact (h.olds hb).2.2.resolve_left ht
          | none =>
            rw [Level.restored_of_none hb (lt_of_lt_of_le h3 h1.next_le), isSome_or, Bool.or_eq_true] at h4
            exact h4.resolve_left ht
        rw [if_pos h3, isSome_map, hr]
    · exact .inr (.inr h4)

theorem Level.squash_oldsNodup : ((B' ++ B₁).map Prod.fst).Nodup := by
  rw [map_append, nodup_append]
  refine ⟨hc.oldsNodup, h1.oldsNodup, fun a ha b hb heq => ?_⟩
  subst heq
  obtain ⟨m, hm⟩ := isSome_iff_exists.1 (lookup_isSome_iff_mem.2 ha)
  obtain ⟨hbk, ⟨hm, -⟩, -⟩ := h.squash_kept h1 hc hm
  have := (h.outer_backup h1 hbk).2 (.inr (lookup_isSome_iff_mem.2 hb))
  omega

theorem Level.squash_removed (hq : (R' ++ R₁).lookup p = some n) :
    p < outer.oldNextId ∧ t p = none ∧ (outer.ctime ≤ n.mtime ↔ ((B' ++ B₁).lookup p).isSome = true) := by
  have hct := h1.ctime_le
  have hpos := h.ctime_pos
  have hnx := h1.next_le
  rw [lookup_append] at hq ⊢
  rw [isSome_or, Bool.or_eq_true, hc.olds]
  rw [hc.removed] at hq
  rcases or_eq_some_iff.1 hq with hq | ⟨-, hq⟩
  · by_cases hlt : p < outer.oldNextId
    · rw [if_pos hlt] at hq
      obtain ⟨n0, hr, hn⟩ := map_eq_some_iff.1 hq
      obtain ⟨-, ht, hiff⟩ := h.removed hr
      refine ⟨hlt, ht, ?_⟩
      rw [ht]
      cases hb : B.lookup p with
      | none =>
        rw [hb] at hn
        have hn : n0 = n := hn
        have hrow : restored info B R t p = some n := by
          rw [Level.restored_of_none hb (by omega), ht, hr, hn]
          rfl
        simpa [Nat.not_le.2 hlt] using h1.backed hrow
      | some m =>
        have hiff1 := h.outer_backup h1 hb
        rw [hb] at hn
        by_cases hm : m.mtime < outer.ctime
        · have hn : m = n := by simpa [hm, filter_some] using hn
          rw [← hn]
          simpa [Nat.not_le.2 hlt] using hiff1
        · have hn : n0 = n := by simpa [hm, filter_some] using hn
          have hba := (hiff1.1 (by omega)).resolve_left (by omega)
          have hold : info.ctime ≤ n.mtime := hn ▸ hiff.2 (by rw [hb]; rfl)
          exact ⟨fun _ => .inr hba, fun _ => by omega⟩
    · rw [if_neg hlt] at hq
      cases hq
  · obtain ⟨h2, h3, h4⟩ := h1.removed hq
    have hlt : p < info.oldNextId := by omega
    have hb : B.lookup p = none := by
      cases hb : B.lookup p with
      | none => rfl
      | some m => rw [h.restored_of_backup hb] at h3; cases h3
    rw [Level.restored_of_none hb hlt] at h3
    refine ⟨h2, (or_eq_none_iff.1 h3).1, ?_⟩
    rw [hb]
    simpa using h4

omit h in
theorem Level.squash_removedNodup : ((R' ++ R₁).map Prod.fst).Nodup := by
  have hnx := h1.next_le
  rw [map_append, nodup_append]
  refine ⟨hc.removedNodup, h1.removedNodup, fun a ha b hb heq => ?_⟩
  subst heq
  obtain ⟨n, hn⟩ := isSome_iff_exists.1 (lookup_isSome_iff_mem.2 ha)
  obtain ⟨n1, hn1⟩ := isSome_iff_exists.1 (lookup_isSome_iff_mem.2 hb)
  obtain ⟨h2, h3, -⟩ := h1.removed hn1
  rw [hc.removed, if_pos h2] at hn
  obtain ⟨n0, hr, -⟩ := map_eq_some_iff.1 hn
  rw [restored_of_lt (by omega), hr] at h3
  simp at h3

theorem Level.squash : Level S t next bound outer (B' ++ B₁) (R' ++ R₁) where
  next_le := h1.next_le.trans h.next_le
  ctime_pos := h1.ctime_pos
  ctime_le := h1.ctime_le.trans ((Nat.sub_le _ _).trans h.ctime_le)
  backed := h.squash_backed h1 hc
  olds := h.squash_olds h1 hc
  oldsNodup := h.squash_oldsNodup h1 hc
  removed := h.squash_removed h1 hc
  removedNodup := h1.squash_removedNodup hc
  distinct := h.squash_restored h1 hc ▸ h1.distinct

end

end Squash
end Level
end UndoIndex
end TheChannel
