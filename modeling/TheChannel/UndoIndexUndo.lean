import TheChannel.UndoIndexInv
/-!
# UndoIndexUndo — what `undo` and `compress_impl` do to the lists

`undo` has three loops: it erases the new rows, puts the backups back and inserts the removed rows. After them the table
is the one at the start of the session (`undo_rows`). The loop of `compress_impl` keeps a part of the backups and moves
others to the removed rows (`compressOld_eq`).
-/
namespace TheChannel
namespace UndoIndex
open OldNode List
open Prod (fst)

variable {V : Type} {S : TableType V} {info : UndoState} {s : UndoIndex V} {B rows : List (Nat × Node V)} {b : Nat × Node V}

/-! ## Pointers into the lists -/

section Pointers

variable {α : Type} {key : α → Nat} {last : Option Nat} {l₁ l l' l2 : List α}

def Pointed (key : α → Nat) (last : Option Nat) (l : List α) : Prop := ∀ a, last = some a → a ∈ l.map key

theorem before_append_onward (key : α → Nat) (last : Option Nat) (l : List α) :
    before key last l ++ onward key last l = l := by
  cases last with
  | none => exact append_nil l
  | some a => exact takeWhile_append_dropWhile

theorem before_append (h : ∀ a, last = some a → a ∉ l₁.map key) (l2 : List α) :
    before key last (l₁ ++ l2) = l₁ ++ before key last l2 := by
  cases last with
  | none => rfl
  | some a =>
    refine takeWhile_append_of_pos fun x hx => ?_
    simpa using fun heq : key x = a => h a rfl (heq ▸ mem_map_of_mem hx)

theorem onward_append (h : ∀ a, last = some a → a ∉ l₁.map key) (l2 : List α) :
    onward key last (l₁ ++ l2) = onward key last l2 := by
  cases last with
  | none => rfl
  | some a =>
    refine dropWhile_append_of_pos fun x hx => ?_
    simpa using fun heq : key x = a => h a rfl (heq ▸ mem_map_of_mem hx)

theorem before_head (key : α → Nat) (l : List α) : before key (l.head?.map key) l = [] := by
  cases l with
  | nil => rfl
  | cons x l => simp [before]

theorem onward_head (key : α → Nat) (l : List α) : onward key (l.head?.map key) l = l := by
  cases l with
  | nil => rfl
  | cons x l => simp [onward]

theorem pointed_head (key : α → Nat) (l : List α) : Pointed key (l.head?.map key) l := by
  intro a ha
  obtain ⟨x, hx, rfl⟩ := Option.map_eq_some_iff.1 ha
  exact mem_map_of_mem (mem_of_head? hx)

theorem Pointed.append (h : Pointed key last l2) (l₁ : List α) : Pointed key last (l₁ ++ l2) :=
  fun a ha => by
    rw [map_append]
    exact mem_append_right _ (h a ha)

theorem onward_sublist (key : α → Nat) (last : Option Nat) (l : List α) : (onward key last l).Sublist l := by
  conv => rhs; rw [← before_append_onward key last l]
  exact sublist_append_right ..

theorem before_sublist (key : α → Nat) (last : Option Nat) (l : List α) : (before key last l).Sublist l := by
  conv => rhs; rw [← before_append_onward key last l]
  exact sublist_append_left ..

theorem Pointed.not_mem (h : Pointed key last l2) (hn : ((l₁ ++ l2).map key).Nodup) {a : Nat}
    (ha : last = some a) : a ∉ l₁.map key := by
  rw [map_append, nodup_append] at hn
  exact fun hmem => hn.2.2 a hmem a (h a ha) rfl

variable (f : α → α)

theorem before_map (hf : ∀ x, key (f x) = key x) (l : List α) :
    before key last (l.map f) = (before key last l).map f := by
  cases last with
  | none => rfl
  | some a =>
    show (l.map f).takeWhile _ = (l.takeWhile _).map f
    rw [takeWhile_map]
    simp only [Function.comp_def, hf]

theorem onward_map (hf : ∀ x, key (f x) = key x) (l : List α) :
    onward key last (l.map f) = (onward key last l).map f := by
  cases last with
  | none => rfl
  | some a =>
    show (l.map f).dropWhile _ = (l.dropWhile _).map f
    rw [dropWhile_map]
    simp only [Function.comp_def, hf]

/-! A list cut somewhere behind a pointer -/

theorem disposeAfter_eq (key : α → Nat) (last : Option Nat) (l : List α) :
    disposeAfter key last l = before key last l ++ (onward key last l).take 1 := by
  cases last with
  | none => exact (append_nil l).symm
  | some a => rfl

theorem disposeAfter_append (h : ∀ a, last = some a → a ∉ l₁.map key) (l2 : List α) :
    disposeAfter key last (l₁ ++ l2) = l₁ ++ disposeAfter key last l2 := by
  rw [disposeAfter_eq, disposeAfter_eq, before_append h, onward_append h, append_assoc]

theorem disposeAfter_sublist (key : α → Nat) (last : Option Nat) (l : List α) : (disposeAfter key last l).Sublist l := by
  rw [disposeAfter_eq]
  conv => rhs; rw [← before_append_onward key last l]
  exact (List.Sublist.refl _).append (take_sublist ..)

def Heads (l l' : List α) : Prop := l'.head? = l.head?

theorem Heads.take_one (l : List α) : Heads l (l.take 1) := by
  cases l with
  | nil => rfl
  | cons x l => rfl

theorem Heads.disposeAfter (key : α → Nat) (last : Option Nat) (l : List α) : Heads l (disposeAfter key last l) := by
  rw [disposeAfter_eq]
  conv => lhs; rw [← before_append_onward key last l]
  unfold Heads
  rw [head?_append, head?_append, Heads.take_one]

theorem head_onward {a : Nat} {x : α} (h : (onward key (some a) l).head? = some x) : key x = a := by
  have := head?_dropWhile_not (fun x => decide (key x ≠ a)) l
  rw [show l.dropWhile (fun x => decide (key x ≠ a)) = onward key (some a) l from rfl, h] at this
  simpa using this

theorem not_mem_before (l : List α) (a : Nat) (ha : last = some a) : a ∉ (before key last l).map key := by
  subst ha
  intro hmem
  obtain ⟨x, hx, hxa⟩ := mem_map.1 hmem
  simpa [hxa] using all_eq_true.1 all_takeWhile x hx

section

variable (h : Heads (onward key last l) l')

include h

theorem Heads.cut : before key last l' = [] ∧ onward key last l' = l' := by
  cases l' with
  | nil => cases last <;> exact ⟨rfl, rfl⟩
  | cons x l' =>
    cases last with
    | none => cases h
    | some a =>
      have hx : key x = a := head_onward h.symm
      simp [before, onward, hx]

theorem Heads.before_eq :
    before key last (before key last l ++ l') = before key last l := by
  rw [before_append (not_mem_before l), h.cut.1, append_nil]

theorem Heads.onward_eq : onward key last (before key last l ++ l') = l' := by
  rw [onward_append (not_mem_before l), h.cut.2]

theorem Heads.pointed (hp : Pointed key last l) :
    Pointed key last (before key last l ++ l') := by
  intro a ha
  have hmem := hp a ha
  rw [← before_append_onward key last l, map_append] at hmem
  have hne : onward key last l ≠ [] := fun hnil => by
    rw [hnil, map_nil, append_nil] at hmem
    exact not_mem_before l a ha hmem
  obtain ⟨x, tail, hx⟩ := exists_cons_of_ne_nil hne
  have hh : l'.head? = some x := h.trans (by rw [hx]; rfl)
  subst ha
  have hxa : key x = a := head_onward (l := l) (by rw [hx]; rfl)
  rw [map_append]
  exact mem_append_right _ (hxa ▸ mem_map_of_mem (mem_of_head? hh))

end

end Pointers

/-! ## Erasing the new rows -/

theorem drops_middle {keep drop : List (Nat × Node V)} {r : Nat × Node V}
    (hn : ((keep ++ r :: drop).map fst).Nodup) : Drops (keep ++ r :: drop) (keep ++ drop) r.1 := by
  have hk : ((keep ++ r :: drop).map fst).Perm (r.1 :: (keep ++ drop).map fst) :=
    perm_middle.map fst
  refine ⟨hk, fun a ha => ?_⟩
  have hne : a ≠ r.1 := fun heq => (nodup_cons.1 (hk.nodup_iff.1 hn)).1 (heq ▸ ha)
  rw [lookup_append, lookup_append, lookup_cons_ite, if_neg hne]

theorem StrictIndices.eraseAll : ∀ {drop keep} {ixs},
    ((keep ++ drop).map fst).Nodup → StrictIndices S (keep ++ drop) ixs →
    StrictIndices S keep (drop.foldl (fun ixs r => eraseIndices r.1 ixs) ixs)
  | [], keep, _, _, hi => by
    rw [append_nil] at hi
    exact hi
  | r :: drop, keep, _, hn, hi => by
    have hd := drops_middle hn
    have hn' := (nodup_cons.1 (hd.keys.nodup_iff.1 hn)).2
    rw [foldl_cons]
    exact StrictIndices.eraseAll hn' (hi.erase hd)

theorem eraseNew_rows (info : UndoState) (ha : Ascending s.rows) :
    (s.eraseNew info).rows = s.rows.filter (·.1 < info.oldNextId) :=
  takeWhile_lt_eq_filter ha

theorem eraseNew_indices (ha : Ascending s.rows) (hi : StrictIndices S s.rows s.indices) :
    StrictIndices S (s.eraseNew info).rows (s.eraseNew info).indices := by
  have hs : s.rows.takeWhile (·.1 < info.oldNextId) ++ s.rows.dropWhile (·.1 < info.oldNextId) =
      s.rows := takeWhile_append_dropWhile
  exact StrictIndices.eraseAll (hs.symm ▸ ha.nodup) (hs.symm ▸ hi)

/-! ## Putting the backups back -/

def renew (B l : List (Nat × Node V)) : List (Nat × Node V) := l.map (fun r => (r.1, (B.lookup r.1).getD r.2))

theorem keys_renew (B l : List (Nat × Node V)) : (renew B l).map fst = l.map fst := by
  unfold renew
  rw [map_map]
  rfl

theorem lookup_renew (B l : List (Nat × Node V)) (p : Nat) :
    (renew B l).lookup p = (l.lookup p).map (fun n => (B.lookup p).getD n) :=
  lookup_map_val (fun q n => (B.lookup q).getD n) l p

theorem before_renew (B : List (Nat × Node V)) (last : Option Nat) (l : List (Nat × Node V)) :
    before fst last (renew B l) = renew B (before fst last l) :=
  before_map (fun r : Nat × Node V => (r.1, (B.lookup r.1).getD r.2)) (fun _ => rfl) l

theorem onward_renew (B : List (Nat × Node V)) (last : Option Nat) (l : List (Nat × Node V)) :
    onward fst last (renew B l) = renew B (onward fst last l) :=
  onward_map (fun r : Nat × Node V => (r.1, (B.lookup r.1).getD r.2)) (fun _ => rfl) l

theorem renew_nil (l : List (Nat × Node V)) : renew [] l = l := map_id' l

theorem setNode_eq_renew (b : Nat × Node V) (l : List (Nat × Node V)) : setNode b.1 b.2 l = renew [b] l := by
  refine map_congr_left fun r _ => ?_
  rw [lookup_cons_ite]
  by_cases h : r.1 = b.1
  · rw [if_pos h, if_pos h, h]
    rfl
  · rw [if_neg h, if_neg h]
    rfl

theorem renew_eq_self {l : List (Nat × Node V)} (h : ∀ p ∈ B.map fst, p ∉ l.map fst) : renew B l = l := by
  refine (map_congr_left (fun r hr => ?_)).trans (map_id' l)
  rw [lookup_eq_none_iff_not_mem.2 (fun hmem => h _ hmem (mem_map_of_mem hr))]
  rfl

theorem renew_cons (h : b.1 ∉ B.map fst) (l : List (Nat × Node V)) : renew (b :: B) l = renew B (renew [b] l) := by
  unfold renew
  rw [map_map]
  refine map_congr_left fun r _ => ?_
  simp only [Function.comp_apply]
  rw [lookup_cons_ite, lookup_cons_ite]
  by_cases hr : r.1 = b.1
  · rw [if_pos hr, if_pos hr, hr, lookup_eq_none_iff_not_mem.2 h]
    rfl
  · rw [if_neg hr, if_neg hr]
    rfl

theorem sets_renew (hn : (rows.map fst).Nodup)
    (hmem : b.1 ∈ rows.map fst) : Sets rows (renew [b] rows) b.1 := by
  refine ⟨keys_renew .., fun a ha => ?_, hmem, hn⟩
  rw [lookup_renew, lookup_cons_ite, if_neg ha]
  cases rows.lookup a <;> rfl

def Apart (s : UndoIndex V) : Prop := ∀ p ∈ s.rows.map fst, p ∉ s.removedValues.map fst

theorem replaceOld_eq {o : OldNode V} (ho : o.mtime < info.ctime) (hn : (s.rows.map fst).Nodup) (ha : Apart s)
    (hi : WeakIndices S s.rows s.indices) :
    ∃ ixs, replaceOld S info s o =
        { s with rows := renew [backup o] s.rows, removedValues := renew [backup o] s.removedValues, indices := ixs } ∧
      WeakIndices S (renew [backup o] s.rows) ixs := by
  have hkey : ([backup o].map fst) = [o.current] := rfl
  unfold replaceOld
  rw [if_pos ho]
  by_cases hmem : o.current ∈ s.rows.map fst
  · rw [if_pos (lookup_isSome_iff_mem.2 hmem)]
    have hrem : renew [backup o] s.removedValues = s.removedValues := renew_eq_self (fun p hp => by
      rw [hkey, mem_singleton] at hp
      exact hp ▸ ha _ hmem)
    refine ⟨_, ?_, WeakIndices.postModify (sets_renew hn hmem) S.weak hi⟩
    rw [hrem, ← setNode_eq_renew]
    rfl
  · rw [if_neg (fun h => hmem (lookup_isSome_iff_mem.1 h))]
    have hr : renew [backup o] s.rows = s.rows := renew_eq_self (fun p hp => by
      rw [hkey, mem_singleton] at hp
      exact hp ▸ hmem)
    refine ⟨s.indices, ?_, hr.symm ▸ hi⟩
    rw [hr, ← setNode_eq_renew]
    rfl

theorem replaceOlds_eq : ∀ {olds : List (OldNode V)} {s : UndoIndex V}, (∀ o ∈ olds, o.mtime < info.ctime) →
    ((olds.map backup).map fst).Nodup → (s.rows.map fst).Nodup → Apart s → WeakIndices S s.rows s.indices →
    ∃ ixs, olds.foldl (replaceOld S info) s =
        { s with
          rows := renew (olds.map backup) s.rows
          removedValues := renew (olds.map backup) s.removedValues
          indices := ixs } ∧
      WeakIndices S (renew (olds.map backup) s.rows) ixs
  | [], s, _, _, _, _, hi => ⟨s.indices, by simp [renew_nil], by rwa [map_nil, renew_nil]⟩
  | o :: olds, s, ho, hnd, hn, ha, hi => by
    obtain ⟨hnot, hnd⟩ := nodup_cons.1 hnd
    obtain ⟨ixs, hstep, hi'⟩ := replaceOld_eq (ho o (mem_cons_self ..)) hn ha hi
    obtain ⟨ixs', hr, hi''⟩ := replaceOlds_eq (fun o' ho' => ho o' (mem_cons_of_mem _ ho')) hnd
      (s := { s with rows := renew [backup o] s.rows, removedValues := renew [backup o] s.removedValues, indices := ixs })
      (by rw [keys_renew]; exact hn) (fun p hp => by rw [keys_renew] at hp ⊢; exact ha p hp) hi'
    refine ⟨ixs', ?_, ?_⟩
    · rw [foldl_cons, hstep, hr, map_cons, renew_cons hnot, renew_cons hnot]
    · rw [map_cons, renew_cons hnot]
      exact hi''

/-! ## Inserting the removed rows -/

theorem Distinct.mono {t T : Nat → Option (Node V)} (h : Distinct S T) (hsub : ∀ p n, t p = some n → T p = some n) :
    Distinct S t :=
  fun less hl a b x y ha hb hne => h less hl a b x y (hsub a x ha) (hsub b y hb) hne

theorem insertRemoveds_eq (info : UndoState) {T : Nat → Option (Node V)} (hT : Distinct S T) :
    ∀ {R : List (Nat × Node V)} {s : UndoIndex V},
    (R.map fst).Nodup → (∀ r ∈ R, r.1 < info.oldNextId ∧ r.1 ∉ s.rows.map fst) → Ascending s.rows →
    StrictIndices S s.rows s.indices → (∀ p, T p = (s.rows.lookup p).or (R.lookup p)) →
    ∃ rows ixs, R.foldl (insertRemoved S info) s = { s with rows := rows, indices := ixs } ∧ Ascending rows ∧
      StrictIndices S rows ixs ∧ ∀ p, rows.lookup p = T p
  | [], s, _, _, ha, hi, ht => ⟨s.rows, s.indices, rfl, ha, hi, fun p => by rw [ht p]; simp⟩
  | r :: R, s, hnd, hr, ha, hi, ht => by
    obtain ⟨hnot, hnd⟩ := nodup_cons.1 hnd
    obtain ⟨hlt, hnew⟩ := hr r (mem_cons_self ..)
    have hdr : Drops (assign r.1 r.2 s.rows) s.rows r.1 :=
      ⟨keys_assign_perm hnew, fun a ha => by rw [lookup_assign, if_neg (fun heq : a = r.1 => hnew (heq ▸ ha))]⟩
    have hs : (assign r.1 r.2 s.rows).lookup r.1 = some r.2 := by rw [lookup_assign, if_pos rfl]
    have ht' : ∀ p, T p = ((assign r.1 r.2 s.rows).lookup p).or (R.lookup p) := fun p => by
      rw [ht p, lookup_assign, lookup_cons_ite]
      by_cases hp : p = r.1
      · rw [if_pos hp, if_pos hp, hp, lookup_eq_none_iff_not_mem.2 hnew]
        rfl
      · rw [if_neg hp, if_neg hp]
    have hd : Distinct S (fun q => (assign r.1 r.2 s.rows).lookup q) := hT.mono (fun p n hp => by
      have hp : (assign r.1 r.2 s.rows).lookup p = some n := hp
      rw [ht' p, hp]
      rfl)
    obtain ⟨ixs, hins⟩ := hi.insertIndices_inserted hdr hs hnew hd
    have hstep : insertRemoved S info s r = { s with rows := assign r.1 r.2 s.rows, indices := ixs } := by
      unfold insertRemoved
      rw [if_pos hlt, if_neg (fun h => hnew (lookup_isSome_iff_mem.1 h))]
      simp only [hins]
    obtain ⟨rows, ixs', hre, h1, h2, h3⟩ := insertRemoveds_eq info hT
      (s := { s with rows := assign r.1 r.2 s.rows, indices := ixs }) hnd (fun r' hr' => ⟨(hr r' (mem_cons_of_mem _ hr')).1, fun hmem => by
        rcases key_mem_assign.1 hmem with heq | hmem
        · exact hnot (heq ▸ mem_map_of_mem hr')
        · exact (hr r' (mem_cons_of_mem _ hr')).2 hmem⟩)
      (ascending_assign ha) (StrictIndices.insert hdr S.weak hi hins) ht'
    refine ⟨rows, ixs', ?_, h1, h2, h3⟩
    rw [foldl_cons, hstep, hre]

/-! ## `undo` -/

section Undo

variable {next bound : Nat} {B R : List (Nat × Node V)} {t : Table V}

theorem Level.restored_eq (h : Level S t next bound info B R) (p : Nat) :
    restored info B R t p = ((if p < info.oldNextId then t p else none).map (fun n => (B.lookup p).getD n)).or
      ((R.lookup p).map (fun n => (B.lookup p).getD n)) := by
  by_cases hlt : p < info.oldNextId
  · rw [if_pos hlt, restored_of_lt hlt]
    cases hb : B.lookup p with
    | none => simp
    | some m =>
      have hs := (h.olds hb).2.2
      cases ht : t p with
      | some n => simp
      | none =>
        obtain ⟨n, hr⟩ := Option.isSome_iff_exists.1 (hs.resolve_left (by rw [ht]; simp))
        simp [hr]
  · have hn : R.lookup p = none := by
      cases hr : R.lookup p with
      | none => rfl
      | some n => exact absurd (h.removed hr).1 hlt
    rw [if_neg hlt, restored_of_le (by omega), hn]
    rfl

theorem Level.not_mem_onward {last : Option Nat} {removed : List (Nat × Node V)}
    (h : Level S t next bound info B (before fst last removed)) (hn : (removed.map fst).Nodup)
    (hg : ∀ r ∈ removed, t r.1 = none) {p : Nat} (hp : p ∈ B.map fst) :
    p ∉ (onward fst last removed).map fst := by
  obtain ⟨m, hb⟩ := Option.isSome_iff_exists.1 (lookup_isSome_iff_mem.2 hp)
  rintro hmem
  rcases (h.olds hb).2.2 with ht | hr
  · obtain ⟨r, hr, rfl⟩ := mem_map.1 hmem
    rw [hg r ((onward_sublist ..).mem hr)] at ht
    cases ht
  · rw [← before_append_onward fst last removed, map_append, nodup_append] at hn
    exact hn.2.2 p (lookup_isSome_iff_mem.1 hr) p hmem rfl

theorem ascending_renew {rows : List (Nat × Node V)} (B : List (Nat × Node V)) (h : Ascending rows) :
    Ascending (renew B rows) := by
  unfold Ascending renew
  rw [pairwise_map]
  exact h

theorem undo_rows {stack : List UndoState} (hs : s.undoStack = info :: stack) (ha : Ascending s.rows)
    (hi : StrictIndices S s.rows s.indices) (hn : (s.removedValues.map fst).Nodup)
    (hg : ∀ r ∈ s.removedValues, s.rows.lookup r.1 = none)
    (h : Level S (fun p => s.rows.lookup p) next bound info ((before addr info.oldValuesEnd s.oldValues).map backup)
      (before fst info.removedValuesEnd s.removedValues)) :
    ∃ rows ixs, s.undo S =
        { s with
          rows := rows
          indices := ixs
          oldValues := onward addr info.oldValuesEnd s.oldValues
          removedValues := onward fst info.removedValuesEnd s.removedValues
          nextId := info.oldNextId
          undoStack := stack
          revision := s.revision - 1 } ∧
      Ascending rows ∧ StrictIndices S rows ixs ∧
      ∀ p, rows.lookup p = restored info ((before addr info.oldValuesEnd s.oldValues).map backup)
        (before fst info.removedValuesEnd s.removedValues) (fun p => s.rows.lookup p) p := by
  have hro := eraseNew_rows info ha
  have has : Ascending (s.eraseNew info).rows := by
    rw [hro]
    exact ha.sublist filter_sublist
  have hap : Apart (s.eraseNew info) := by
    intro p hp hmem
    obtain ⟨r, hr, rfl⟩ := mem_map.1 hmem
    rw [hro] at hp
    have hp : r.1 ∈ s.rows.map fst := (filter_sublist.map fst).mem hp
    exact lookup_eq_none_iff_not_mem.1 (hg r hr) hp
  obtain ⟨ixs, hre, hw⟩ := replaceOlds_eq
    (fun o ho => (h.olds (lookup_of_mem h.oldsNodup (mem_map_of_mem ho))).1) h.oldsNodup has.nodup hap
    (eraseNew_indices ha hi).weak
  generalize hB : (before addr info.oldValuesEnd s.oldValues).map backup = B at *
  generalize hR : before fst info.removedValuesEnd s.removedValues = R at *
  -- the rows and the removed nodes, with their old values, make the table
  have htab : ∀ p, restored info B R (fun p => s.rows.lookup p) p =
      ((renew B (s.eraseNew info).rows).lookup p).or ((renew B R).lookup p) := fun p => by
    rw [h.restored_eq p, lookup_renew, lookup_renew, hro, lookup_filter_key (fun q => decide (q < info.oldNextId))]
    simp only [decide_eq_true_eq]
  have hst : StrictIndices S (renew B (s.eraseNew info).rows) ixs := by
    refine hw.strict (by rw [keys_renew]; exact has.nodup) (h.distinct.mono (fun p n hp => ?_))
    have hp : (renew B (s.eraseNew info).rows).lookup p = some n := hp
    rw [htab p, hp]
    rfl
  obtain ⟨rows, ixs', hins, h1, h2, h3⟩ := insertRemoveds_eq info h.distinct
    (s := { s.eraseNew info with
      rows := renew B (s.eraseNew info).rows, removedValues := renew B s.removedValues, indices := ixs })
    (R := renew B R) (by rw [keys_renew]; exact h.removedNodup) (fun r hr => by
      have hkey : r.1 ∈ R.map fst := keys_renew B R ▸ mem_map_of_mem hr
      obtain ⟨n, hl⟩ := Option.isSome_iff_exists.1 (lookup_isSome_iff_mem.2 hkey)
      refine ⟨(h.removed hl).1, fun hmem => ?_⟩
      rw [keys_renew] at hmem
      have hmem' : r.1 ∈ (s.eraseNew info).removedValues.map fst := by
        have := (before_sublist fst info.removedValuesEnd s.removedValues).map fst
        rw [hR] at this
        exact this.mem hkey
      exact hap r.1 hmem hmem')
    (ascending_renew B has) hst htab
  refine ⟨rows, ixs', ?_, h1, h2, h3⟩
  have hb : before fst info.removedValuesEnd (renew B s.removedValues) = renew B R :=
    (before_renew ..).trans (by rw [hR])
  have hon : onward fst info.removedValuesEnd (renew B s.removedValues) =
      onward fst info.removedValuesEnd s.removedValues :=
    (onward_renew ..).trans (renew_eq_self (fun p hp => (hR ▸ h).not_mem_onward hn hg hp))
  have hrem : (s.eraseNew info).removedValues = s.removedValues := rfl
  unfold undo
  rw [hs]
  simp only [hre, hrem, hb, hins, hon]
  rfl

end Undo

/-! ## `compress_impl` -/

def moved (rows : List (Nat × Node V)) (sessionStart : Nat) (B : List (Nat × Node V)) : List (Nat × Node V) :=
  B.filter (fun b => decide (b.2.mtime < sessionStart) && (rows.lookup b.1).isNone)

def kept (rows : List (Nat × Node V)) (sessionStart : Nat) (olds : List (OldNode V)) : List (OldNode V) :=
  olds.filter (fun o => decide (o.mtime < sessionStart) && (rows.lookup o.current).isSome)

theorem moved_cons (rows : List (Nat × Node V)) (sessionStart : Nat) (b : Nat × Node V) (B : List (Nat × Node V)) :
    moved rows sessionStart (b :: B) =
      if decide (b.2.mtime < sessionStart) && (rows.lookup b.1).isNone then b :: moved rows sessionStart B
      else moved rows sessionStart B := filter_cons

theorem compressOld_eq {rows : List (Nat × Node V)} {sessionStart : Nat} : ∀ {olds}
    {removed}, ((olds.map backup).map fst).Nodup →
    compressOld rows sessionStart olds removed =
      (kept rows sessionStart olds, renew (moved rows sessionStart (olds.map backup)) removed)
  | [], removed, _ => by rw [compressOld]; exact Prod.ext rfl (renew_nil removed).symm
  | o :: olds, removed, hn => by
    obtain ⟨hnot, hn⟩ := nodup_cons.1 hn
    rw [compressOld, map_cons, moved_cons, kept, filter_cons]
    by_cases hm : sessionStart ≤ o.mtime
    · have hlt : ¬ o.mtime < sessionStart := by omega
      rw [if_pos hm, compressOld_eq hn, if_neg (by simp [hlt]), if_neg (by simp [backup, hlt])]
      rfl
    · have hlt : o.mtime < sessionStart := by omega
      rw [if_neg hm]
      by_cases hrow : (rows.lookup o.current).isNone = true
      · have hno : rows.lookup o.current = none := Option.isNone_iff_eq_none.1 hrow
        have hnot' : (backup o).1 ∉ (moved rows sessionStart (olds.map backup)).map fst :=
          fun hmem => hnot ((filter_sublist.map fst).mem hmem)
        rw [if_pos hrow, compressOld_eq hn, if_neg (by simp [hno]), if_pos (by simp [backup, hlt, hno]),
          renew_cons hnot', ← setNode_eq_renew]
        rfl
      · have hs : (rows.lookup o.current).isSome = true := by
          cases hl : rows.lookup o.current with
          | none => exact absurd (by rw [hl]; rfl) hrow
          | some _ => rfl
        rw [if_neg hrow, compressOld_eq hn, if_pos (by rw [hs]; simpa using hlt), if_neg (by
          simp only [backup, Bool.and_eq_true, not_and]
          exact fun _ => hrow)]
        rfl

theorem compressImpl_eq (session : UndoState) {last : UndoState} {next bound : Nat} {O : List (OldNode V)}
    {R : List (Nat × Node V)} (hO : before addr last.oldValuesEnd s.oldValues = O)
    (hR : before fst last.removedValuesEnd s.removedValues = R)
    (hn : (s.removedValues.map fst).Nodup) (hg : ∀ r ∈ s.removedValues, s.rows.lookup r.1 = none)
    (h : Level S (fun p => s.rows.lookup p) next bound last (O.map backup) R) :
    ∃ olds removed, s.compressImpl session last =
        { s with
          oldValues := olds ++ onward addr last.oldValuesEnd s.oldValues
          removedValues := removed ++ onward fst last.removedValuesEnd s.removedValues } ∧
      olds.Sublist O ∧ (removed.map fst).Sublist (R.map fst) ∧
      Compressed (fun p => s.rows.lookup p) session (O.map backup) R (olds.map backup) removed := by
  obtain ⟨M, hM⟩ : ∃ M, M = moved s.rows session.ctime (O.map backup) := ⟨_, rfl⟩
  have hm : ∀ p, M.lookup p =
      ((O.map backup).lookup p).filter (fun m => decide (m.mtime < session.ctime) && (s.rows.lookup p).isNone) :=
    hM ▸ lookup_filter_of_nodup _ h.oldsNodup
  have hb : before fst last.removedValuesEnd (renew M s.removedValues) = renew M R :=
    (before_renew ..).trans (by rw [hR])
  have hon : onward fst last.removedValuesEnd (renew M s.removedValues) = onward fst last.removedValuesEnd s.removedValues :=
    (onward_renew ..).trans (renew_eq_self (fun p hp =>
      (hR ▸ h).not_mem_onward hn hg ((filter_sublist.map fst).mem (hM ▸ hp))))
  have hke : ((renew M R).filter (·.1 < session.oldNextId)).map fst |>.Sublist (R.map fst) := by
    have hsub := (filter_sublist (p := fun r : Nat × Node V => decide (r.1 < session.oldNextId)) (l := renew M R)).map fst
    rwa [keys_renew] at hsub
  have hk : (kept s.rows session.ctime O).map backup = (O.map backup).filter
      (fun b => decide (b.2.mtime < session.ctime) && (s.rows.lookup b.1).isSome) := by
    rw [filter_map]
    rfl
  refine ⟨kept s.rows session.ctime O, (renew M R).filter (·.1 < session.oldNextId), ?_, filter_sublist, hke, ?_, ?_, ?_,
    h.removedNodup.sublist hke⟩
  · unfold compressImpl
    rw [hO, compressOld_eq h.oldsNodup]
    simp only [← hM, hb, hon]
  · intro p
    rw [hk]
    exact lookup_filter_of_nodup _ h.oldsNodup p
  · rw [hk]
    exact h.oldsNodup.sublist (filter_sublist.map fst)
  · intro p
    rw [lookup_filter_key (fun q => decide (q < session.oldNextId)), lookup_renew, hm]
    simp only [decide_eq_true_eq]
    cases hr : R.lookup p with
    | none => rfl
    | some n =>
      have hno : s.rows.lookup p = none := (h.removed hr).2.1
      rw [hno]
      simp

end UndoIndex
end TheChannel
