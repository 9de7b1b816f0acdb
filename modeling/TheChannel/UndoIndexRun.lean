import TheChannel.UndoIndexUndo
/-!
# UndoIndexRun — what every call keeps

`Levels` reads the snapshots off the undo stack, session by session; `Inv` is what holds of a whole index for a list of
snapshots. One lemma for each call says what it does to the table and to the snapshots.
-/
namespace TheChannel
namespace UndoIndex
open UndoIndex.Table List
open OldNode (addr)
open Prod (fst)

variable {V : Type}

/-! ## The sessions of a stack -/

abbrev backupsOf (info : UndoState) (olds : List (OldNode V)) : List (Nat × Node V) :=
  (before addr info.oldValuesEnd olds).map backup

abbrev removedOf (info : UndoState) (removed : List (Nat × Node V)) : List (Nat × Node V) :=
  before fst info.removedValuesEnd removed

abbrev startOf (info : UndoState) (olds : List (OldNode V)) (removed : List (Nat × Node V)) (t : Table V) : Table V :=
  restored info (backupsOf info olds) (removedOf info removed) t

def Bounded (t : Table V) (next bound : Nat) : Prop := ∀ p n, t p = some n → p < next ∧ n.mtime ≤ bound

/-- **The sessions of a stack and the snapshots they stand for.** What lies below the last session may hold nodes that no
session reaches. -/
inductive Levels (S : TableType V) : Table V → Nat → Nat → List UndoState → List (OldNode V) → List (Nat × Node V) →
    List (Snapshot V) → Prop
  | nil {t : Table V} {next bound : Nat} {olds : List (OldNode V)} {removed : List (Nat × Node V)}
      (bounded : Bounded t next bound) (gone : ∀ r ∈ removed, t r.1 = none ∧ r.1 < next) :
      Levels S t next bound [] olds removed []
  | cons {t : Table V} {next bound : Nat} {info : UndoState} {stack : List UndoState} {olds : List (OldNode V)}
      {removed : List (Nat × Node V)} {saved : List (Snapshot V)} (bounded : Bounded t next bound)
      (oldsEnd : Pointed addr info.oldValuesEnd olds)
      (removedEnd : Pointed fst info.removedValuesEnd removed)
      (top : Level S t next bound info (backupsOf info olds) (removedOf info removed))
      (rest : Levels S (startOf info olds removed t) info.oldNextId (info.ctime - 1) stack
        (onward addr info.oldValuesEnd olds) (onward fst info.removedValuesEnd removed) saved) :
      Levels S t next bound (info :: stack) olds removed ((startOf info olds removed t).snapshot info.oldNextId :: saved)

section Levels

variable {S : TableType V} {t : Table V} {next bound p : Nat} {info : UndoState} {stack : List UndoState}
  {olds olds' : List (OldNode V)} {removed removed' : List (Nat × Node V)} {saved : List (Snapshot V)} {n : Node V}

section

variable (h : Levels S t next bound stack olds removed saved)

include h

theorem Levels.bounded : Bounded t next bound := by
  cases h with
  | nil bounded _ => exact bounded
  | cons bounded _ _ _ _ => exact bounded

theorem Levels.length_eq : saved.length = stack.length := by
  induction h with
  | nil => rfl
  | cons _ _ _ _ _ ih => rw [length_cons, length_cons, ih]

theorem Levels.gone : ∀ r ∈ removed, t r.1 = none ∧ r.1 < next := by
  induction h with
  | nil _ gone => exact gone
  | @cons t next bound info stack olds removed saved _ _ _ top _ ih =>
    intro r hr
    rw [← before_append_onward fst info.removedValuesEnd removed] at hr
    rcases mem_append.1 hr with hr | hr
    · obtain ⟨h1, h2, -⟩ := top.removed (lookup_of_mem top.removedNodup hr)
      exact ⟨h2, lt_of_lt_of_le h1 top.next_le⟩
    · obtain ⟨h1, h2⟩ := ih r hr
      rw [startOf, restored_of_lt h2, Option.or_eq_none_iff, Option.or_eq_none_iff] at h1
      exact ⟨h1.2.1, lt_of_lt_of_le h2 top.next_le⟩

theorem Levels.pointed : ∀ info ∈ stack,
    Pointed addr info.oldValuesEnd olds ∧ Pointed fst info.removedValuesEnd removed := by
  induction h with
  | nil => exact fun _ h => absurd h not_mem_nil
  | cons _ oldsEnd removedEnd _ _ ih =>
    intro info hi
    rcases mem_cons.1 hi with rfl | hi
    · exact ⟨oldsEnd, removedEnd⟩
    · obtain ⟨h1, h2⟩ := ih info hi
      exact ⟨fun a ha => ((onward_sublist ..).map _).mem (h1 a ha), fun a ha => ((onward_sublist ..).map _).mem (h2 a ha)⟩

end

theorem Levels.mono {bound' : Nat} (hle : bound ≤ bound') (h : Levels S t next bound stack olds removed saved) :
    Levels S t next bound' stack olds removed saved := by
  have hb : Bounded t next bound' := fun p n hp => ⟨(h.bounded p n hp).1, Nat.le_trans (h.bounded p n hp).2 hle⟩
  cases h with
  | nil _ gone => exact .nil hb gone
  | cons _ oldsEnd removedEnd top rest =>
    exact .cons hb oldsEnd removedEnd { top with ctime_le := Nat.le_trans top.ctime_le hle } rest

theorem Bounded.set (h : Bounded t next bound) {next' : Nat} (hle : next ≤ next') (hp : p < next') {n : Node V}
    (hn : n.mtime ≤ bound) : Bounded (t.set p (some n)) next' bound := by
  intro q m hq
  by_cases hqp : q = p
  · subst hqp
    rw [set_self] at hq
    cases hq
    exact ⟨hp, hn⟩
  · rw [set_ne _ _ hqp] at hq
    exact ⟨lt_of_lt_of_le (h q m hq).1 hle, (h q m hq).2⟩

theorem Bounded.erase (h : Bounded t next bound) : Bounded (t.set p none) next bound := by
  intro q m hq
  by_cases hqp : q = p
  · rw [hqp, set_self] at hq
    cases hq
  · rw [set_ne _ _ hqp] at hq
    exact h q m hq

theorem Levels.cons_of_eq {t' : Table V} {next' : Nat}
    (hb : Bounded t' next' bound) (hold : Pointed addr info.oldValuesEnd olds')
    (hrem : Pointed fst info.removedValuesEnd removed')
    (htop : startOf info olds' removed' t' = startOf info olds removed t ∧
      Level S t' next' bound info (backupsOf info olds') (removedOf info removed'))
    (hold' : onward addr info.oldValuesEnd olds' = onward addr info.oldValuesEnd olds)
    (hrem' : onward fst info.removedValuesEnd removed' = onward fst info.removedValuesEnd removed)
    (rest : Levels S (startOf info olds removed t) info.oldNextId (info.ctime - 1) stack
      (onward addr info.oldValuesEnd olds) (onward fst info.removedValuesEnd removed) saved) :
    Levels S t' next' bound (info :: stack) olds' removed'
      ((startOf info olds removed t).snapshot info.oldNextId :: saved) := by
  rw [← htop.1, ← hold', ← hrem'] at rest
  rw [← htop.1]
  exact .cons hb hold hrem htop.2 rest

theorem Levels.emplace (h : Levels S t next bound stack olds removed saved) (v : V) :
    Levels S (t.set next (some ⟨v, if stack.isEmpty then 0 else bound⟩)) (next + 1) bound stack olds removed saved := by
  cases h with
  | nil bounded gone =>
    refine .nil (bounded.set (Nat.le_succ _) (Nat.lt_succ_self _) (Nat.zero_le _)) fun r hr => ?_
    obtain ⟨h1, h2⟩ := gone r hr
    rw [set_ne _ _ (by omega)]
    exact ⟨h1, by omega⟩
  | cons bounded oldsEnd removedEnd top rest =>
    exact .cons_of_eq (bounded.set (Nat.le_succ _) (Nat.lt_succ_self _) le_rfl) oldsEnd removedEnd 
        (top.set_of_le top.next_le (Nat.le_succ _) (by rintro m ⟨⟩; exact top.ctime_le))
      rfl rfl rest

theorem Levels.set_val (h : Levels S t next bound stack olds removed saved) (hp : t p = some n)
    (hm : ∀ info ∈ stack.head?, info.ctime ≤ n.mtime) (v : V) :
    Levels S (t.set p (some ⟨v, n.mtime⟩)) next bound stack olds removed saved := by
  have hb : Bounded (t.set p (some ⟨v, n.mtime⟩)) next bound :=
    h.bounded.set le_rfl (h.bounded p n hp).1 (h.bounded p n hp).2
  cases h with
  | nil _ gone =>
    refine .nil hb fun r hr => ?_
    obtain ⟨h1, h2⟩ := gone r hr
    rw [set_ne _ _ (fun heq => by rw [heq, hp] at h1; cases h1)]
    exact ⟨h1, h2⟩
  | cons _ oldsEnd removedEnd top rest =>
    exact .cons_of_eq hb oldsEnd removedEnd (top.set_val hp (hm _ rfl) v) rfl rfl rest

theorem Levels.set_backup (h : Levels S t next bound (info :: stack) olds removed saved) (hp : t p = some n)
    (hm : n.mtime < info.ctime) {addr : Nat} (had : addr ∉ olds.map OldNode.addr) (v : V) :
    Levels S (t.set p (some ⟨v, bound⟩)) next bound (info :: stack) (⟨addr, p, n.val, n.mtime⟩ :: olds) removed saved := by
  have hb : Bounded (t.set p (some ⟨v, bound⟩)) next bound :=
    h.bounded.set le_rfl (h.bounded p n hp).1 le_rfl
  cases h with
  | cons _ oldsEnd removedEnd top rest =>
    have hnot : ∀ a, info.oldValuesEnd = some a → a ∉ [(⟨addr, p, n.val, n.mtime⟩ : OldNode V)].map OldNode.addr :=
      fun a ha hmem => had (by
        have hmem : a = addr := mem_singleton.1 hmem
        exact hmem ▸ oldsEnd a ha)
    have hbe : backupsOf info (⟨addr, p, n.val, n.mtime⟩ :: olds) = (p, n) :: backupsOf info olds :=
      congrArg (List.map backup) (before_append hnot olds)
    refine .cons_of_eq hb (oldsEnd.append [_]) removedEnd ?_ (onward_append hnot olds) rfl rest
    unfold startOf
    rw [hbe]
    exact top.set_backup hp hm v

theorem Levels.remove_new (h : Levels S t next bound stack olds removed saved)
    (hle : ∀ info ∈ stack.head?, info.oldNextId ≤ p) : Levels S (t.set p none) next bound stack olds removed saved := by
  have hb : Bounded (t.set p none) next bound := h.bounded.erase
  cases h with
  | nil _ gone =>
    refine .nil hb fun r hr => ⟨?_, (gone r hr).2⟩
    by_cases hr' : r.1 = p
    · rw [hr', set_self]
    · rw [set_ne _ _ hr', (gone r hr).1]
  | cons _ oldsEnd removedEnd top rest =>
    exact .cons_of_eq hb oldsEnd removedEnd (top.remove_new (hle _ rfl)) rfl rfl rest

theorem Levels.remove_old (h : Levels S t next bound (info :: stack) olds removed saved) (hp : t p = some n)
    (hlt : p < info.oldNextId) : Levels S (t.set p none) next bound (info :: stack) olds ((p, n) :: removed) saved := by
  have hb : Bounded (t.set p none) next bound := h.bounded.erase
  have hg := h.gone
  cases h with
  | cons _ oldsEnd removedEnd top rest =>
    have hnot : ∀ a, info.removedValuesEnd = some a → a ∉ [(p, n)].map fst := fun a ha hmem => by
      rw [map_singleton, mem_singleton] at hmem
      obtain ⟨r, hr, hra⟩ := mem_map.1 (removedEnd a ha)
      have hn := (hg r hr).1
      rw [hra, hmem, hp] at hn
      cases hn
    have hbe : removedOf info ((p, n) :: removed) = (p, n) :: removedOf info removed := before_append hnot removed
    refine .cons_of_eq hb oldsEnd (removedEnd.append [_]) ?_ rfl (onward_append hnot removed) rest
    unfold startOf
    rw [hbe]
    exact top.remove_old hp hlt

theorem Levels.start (h : Levels S t next bound stack olds removed saved) (hd : Distinct S t) :
    Levels S t next (bound + 1)
      (⟨olds.head?.map addr, removed.head?.map fst, next, bound + 1⟩ :: stack) olds removed
      (t.snapshot next :: saved) := by
  generalize hi : (⟨olds.head?.map addr, removed.head?.map fst, next, bound + 1⟩ : UndoState) = info
  have hold : info.oldValuesEnd = olds.head?.map addr := by rw [← hi]
  have hrem : info.removedValuesEnd = removed.head?.map fst := by rw [← hi]
  have hn : info.oldNextId = next := by rw [← hi]
  have hct : info.ctime = bound + 1 := by rw [← hi]
  have htop : restored info [] [] t = t ∧ Level S t next (bound + 1) info [] [] := by
    have hres : restored info [] [] t = t := by
      funext q
      by_cases hq : q < info.oldNextId
      · rw [restored_of_lt hq]
        simp
      · rw [restored_of_le (by omega)]
        cases ht : t q with
        | none => rfl
        | some m =>
          have := (h.bounded _ _ ht).1
          omega
    refine ⟨hres, by omega, by omega, by omega, ?_, ?_, nodup_nil, ?_, nodup_nil, hres.symm ▸ hd⟩
    · intro q m hq
      obtain ⟨h1, h2⟩ := h.bounded _ _ hq
      simp only [lookup_nil, Option.isSome_none, Bool.false_eq_true, or_false]
      omega
    · intro q m hq
      cases hq
    · intro q m hq
      cases hq
  have hB : backupsOf info olds = [] := by
    unfold backupsOf
    rw [hold, before_head]
    rfl
  have hR : removedOf info removed = [] := by
    unfold removedOf
    rw [hrem, before_head]
  have hs : startOf info olds removed t = t := by
    unfold startOf
    rw [hB, hR]
    exact htop.1
  have hb : Bounded t next (bound + 1) := (h.mono (Nat.le_succ bound)).bounded
  have rest : Levels S (startOf info olds removed t) info.oldNextId (info.ctime - 1) stack
      (onward addr info.oldValuesEnd olds) (onward fst info.removedValuesEnd removed) saved := by
    rw [hs, hold, hrem, onward_head, onward_head, hn, hct]
    exact h
  have hl := Levels.cons hb (hold ▸ pointed_head addr olds) (hrem ▸ pointed_head fst removed)
    (by rw [hB, hR]; exact htop.2) rest
  rw [hs, hn] at hl
  exact hl

theorem Levels.squash {last session : UndoState}
    (h : Levels S t next bound (last :: session :: stack) olds removed saved) (hno : (olds.map addr).Nodup)
    (hnr : (removed.map fst).Nodup) (hol : olds'.Sublist (before addr last.oldValuesEnd olds))
    (hred : (removed'.map fst).Sublist ((removedOf last removed).map fst))
    (hc : Compressed t session (backupsOf last olds) (removedOf last removed) (olds'.map backup) removed') :
    Levels S t next bound (session :: stack) (olds' ++ onward addr last.oldValuesEnd olds)
      (removed' ++ onward fst last.removedValuesEnd removed) saved.tail := by
  have hb := h.bounded
  cases h with
  | cons _ _ _ top rest =>
    cases rest with
    | cons _ oldsEnd removedEnd top1 rest1 =>
      rw [← before_append_onward addr last.oldValuesEnd olds] at hno
      rw [← before_append_onward fst last.removedValuesEnd removed] at hnr
      have hold : ∀ a, session.oldValuesEnd = some a → a ∉ olds'.map addr := fun a ha hmem =>
        oldsEnd.not_mem hno ha ((hol.map _).mem hmem)
      have hrem : ∀ a, session.removedValuesEnd = some a → a ∉ removed'.map fst := fun a ha hmem =>
        removedEnd.not_mem hnr ha (hred.mem hmem)
      have hB : backupsOf session (olds' ++ onward addr last.oldValuesEnd olds) =
          olds'.map backup ++ backupsOf session (onward addr last.oldValuesEnd olds) := by
        unfold backupsOf
        rw [before_append hold, map_append]
      have hR : removedOf session (removed' ++ onward fst last.removedValuesEnd removed) =
          removed' ++ removedOf session (onward fst last.removedValuesEnd removed) := before_append hrem _
      refine .cons_of_eq hb (oldsEnd.append _) (removedEnd.append _) ?_ (onward_append hold _) (onward_append hrem _) rest1
      unfold startOf
      rw [hB, hR]
      exact ⟨top.squash_restored top1 hc, top.squash top1 hc⟩

theorem Levels.dispose (h : Levels S t next bound stack olds removed saved) : Levels S t next bound [] [] [] [] :=
  .nil h.bounded (fun _ hr => absurd hr not_mem_nil)

theorem Levels.commit (h : Levels S t next bound stack olds removed saved) : ∀ {k : Nat} {iter},
    (olds.map addr).Nodup → (removed.map fst).Nodup → stack[k]? = some iter →
    Levels S t next bound (stack.take (k + 1)) (disposeAfter addr iter.oldValuesEnd olds)
      (disposeAfter fst iter.removedValuesEnd removed) (saved.take (k + 1)) := by
  induction h with
  | nil => exact fun _ _ hk => absurd hk (by simp)
  | @cons t next bound info stack olds removed saved hb oldsEnd removedEnd top rest ih =>
    intro k iter hno hnr hk
    -- what is left of the lists begins with what belongs to the top session
    have hg : ∀ {olds' : List (OldNode V)} {removed' : List (Nat × Node V)} {stack' : List UndoState}
        {saved' : List (Snapshot V)}, Heads (onward addr info.oldValuesEnd olds) olds' →
        Heads (onward fst info.removedValuesEnd removed) removed' →
        Levels S (startOf info olds removed t) info.oldNextId (info.ctime - 1) stack' olds' removed' saved' →
        Levels S t next bound (info :: stack') (before addr info.oldValuesEnd olds ++ olds')
          (before fst info.removedValuesEnd removed ++ removed')
          ((startOf info olds removed t).snapshot info.oldNextId :: saved') := by
      intro olds' removed' stack' saved' ho hr hre
      have h1 : startOf info (before addr info.oldValuesEnd olds ++ olds')
          (before fst info.removedValuesEnd removed ++ removed') t = startOf info olds removed t := by
        unfold startOf backupsOf removedOf
        rw [ho.before_eq, hr.before_eq]
      have h2 : Level S t next bound info (backupsOf info (before addr info.oldValuesEnd olds ++ olds'))
          (removedOf info (before fst info.removedValuesEnd removed ++ removed')) := by
        unfold backupsOf removedOf
        rw [ho.before_eq, hr.before_eq]
        exact top
      rw [← h1]
      refine .cons hb (ho.pointed oldsEnd) (hr.pointed removedEnd) h2 ?_
      rw [h1, ho.onward_eq, hr.onward_eq]
      exact hre
    cases k with
    | zero =>
      cases hk
      rw [disposeAfter_eq, disposeAfter_eq]
      refine hg (Heads.take_one _) (Heads.take_one _) ?_
      exact .nil rest.bounded fun r hr => rest.gone r (mem_of_mem_take hr)
    | succ k =>
      have hk : stack[k]? = some iter := hk
      obtain ⟨hpo, hpr⟩ := rest.pointed iter (mem_of_getElem? hk)
      have hno' := hno
      have hnr' := hnr
      rw [← before_append_onward addr info.oldValuesEnd olds] at hno'
      rw [← before_append_onward fst info.removedValuesEnd removed] at hnr'
      have h1 := ih (hno.sublist ((onward_sublist ..).map _)) (hnr.sublist ((onward_sublist ..).map _)) hk
      have h2 := hg (Heads.disposeAfter _ _ _) (Heads.disposeAfter _ _ _) h1
      rwa [← disposeAfter_append (fun a ha => hpo.not_mem hno' ha), ← disposeAfter_append (fun a ha => hpr.not_mem hnr' ha),
        before_append_onward, before_append_onward] at h2

end Levels

/-! ## The whole index -/

def view (s : UndoIndex V) : Snapshot V := ⟨s.find, s.nextId⟩

abbrev table (s : UndoIndex V) : Table V := fun p => s.rows.lookup p

/-- **What holds of an index between calls**, for the snapshots its sessions stand for. -/
structure Inv (S : TableType V) (s : UndoIndex V) (saved : List (Snapshot V)) : Prop where
  ascending : Ascending s.rows
  indices : StrictIndices S s.rows s.indices
  oldsNodup : (s.oldValues.map addr).Nodup
  oldsFresh : ∀ o ∈ s.oldValues, o.addr < s.fresh
  removedNodup : (s.removedValues.map fst).Nodup
  levels : Levels S s.table s.nextId s.monotonicRevision s.undoStack s.oldValues s.removedValues saved
  revision : s.undoStack.length ≤ s.revision

section Ops

variable {S : TableType V} {s : UndoIndex V} {saved : List (Snapshot V)} {p : Nat} {n : Node V} {constructor : Nat → V}
  {rows : List (Nat × Node V)} {modifier : Nat × V → V} {snap : Snapshot V} {last session : UndoState} {stack : List UndoState}

theorem Inv.gone (h : Inv S s saved) : ∀ r ∈ s.removedValues, s.rows.lookup r.1 = none :=
  fun r hr => (h.levels.gone r hr).1

theorem init_inv (S : TableType V) : Inv S (init S) [] := by
  refine ⟨List.Pairwise.nil, ?_, nodup_nil, fun _ h => absurd h not_mem_nil, nodup_nil, ?_, le_rfl⟩
  · show List.Forall₂ _ S.less (S.less.map (fun _ => []))
    induction S.less with
    | nil => exact .nil
    | cons less ls ih => exact .cons ⟨List.Perm.refl _, List.Pairwise.nil⟩ ih
  · exact .nil (fun _ _ h => by cases h) fun _ h => absurd h not_mem_nil

theorem emplace_ok (hok : (s.emplace S constructor).2 = .ok ()) :
    ∃ ixs, insertIndices (s.rows ++ [(s.nextId, ⟨constructor s.nextId, s.createTime⟩)]) s.nextId S.less s.indices =
        (ixs, true) ∧
      (s.emplace S constructor).1 =
        { s with
          rows := s.rows ++ [(s.nextId, ⟨constructor s.nextId, s.createTime⟩)]
          indices := ixs
          nextId := s.nextId + 1 } := by
  unfold emplace at hok ⊢
  rcases hins : insertIndices (s.rows ++ [(s.nextId, ⟨constructor s.nextId, s.createTime⟩)]) s.nextId S.less s.indices with
    ⟨ixs, _ | _⟩
  · simp only [hins] at hok
    cases hok
  · exact ⟨ixs, hins, by simp only [hins]⟩

theorem emplace_inv (h : Inv S s saved) (hok : (s.emplace S constructor).2 = .ok ()) :
    Inv S (s.emplace S constructor).1 saved ∧
    (s.emplace S constructor).1.table = s.table.set s.nextId (some ⟨constructor s.nextId, s.createTime⟩) ∧
    (s.emplace S constructor).1.nextId = s.nextId + 1 ∧ (s.emplace S constructor).1.revision = s.revision := by
  obtain ⟨ixs, hins, heq⟩ := emplace_ok hok
  rw [heq]
  generalize hn : (⟨constructor s.nextId, s.createTime⟩ : Node V) = n at hins ⊢
  have has : Ascending (s.rows ++ [(s.nextId, n)]) :=
    pairwise_append.2 ⟨h.ascending, pairwise_singleton .., fun r hr e he => by
      rw [mem_singleton] at he
      exact he ▸ (h.levels.bounded r.1 r.2 (lookup_of_mem h.ascending.nodup hr)).1⟩
  have hno : s.rows.lookup s.nextId = none := by
    cases hl : s.rows.lookup s.nextId with
    | none => rfl
    | some m => exact absurd (h.levels.bounded _ m hl).1 (Nat.lt_irrefl _)
  have htab : (fun q => (s.rows ++ [(s.nextId, n)]).lookup q) = s.table.set s.nextId (some n) := by
    funext q
    rw [lookup_append, lookup_cons_ite]
    by_cases hq : q = s.nextId
    · rw [if_pos hq, hq, hno, set_self]
      rfl
    · rw [if_neg hq, set_ne _ _ hq]
      simp
  have hd := drops_middle has.nodup
  rw [append_nil] at hd
  refine ⟨⟨has, StrictIndices.insert hd S.weak h.indices hins, h.oldsNodup, h.oldsFresh, h.removedNodup, ?_, h.revision⟩,
    htab, rfl, rfl⟩
  show Levels S (fun q => (s.rows ++ [(s.nextId, n)]).lookup q) _ _ _ _ _ _
  rw [htab, ← hn]
  exact h.levels.emplace _

theorem setNode_setNode (m n : Node V) (rows : List (Nat × Node V)) : setNode p n (setNode p m rows) = setNode p n rows := by
  unfold setNode
  rw [map_map]
  refine map_congr_left fun r _ => ?_
  by_cases hr : r.1 = p
  · simp [hr]
  · simp [hr]

theorem lookup_setNode {m : Node V} (hp : rows.lookup p = some n) :
    (fun q => (setNode p m rows).lookup q) = set (fun q => rows.lookup q) p (some m) := by
  funext q
  rw [setNode_eq_renew (p, m), lookup_renew, lookup_cons_ite]
  by_cases hq : q = p
  · rw [if_pos hq, hq, hp, set_self]
    rfl
  · rw [if_neg hq, set_ne _ _ hq]
    cases rows.lookup q <;> rfl

theorem modify_ok (hok : (s.modify S p modifier).2 = .ok ()) : ∃ n ixs, s.rows.lookup p = some n ∧
      postModifyUnique (setNode p ⟨modifier (p, n.val), s.modifyTime n⟩ s.rows) p S.less s.indices = (ixs, true) ∧
      (s.modify S p modifier).1 =
        { s.onModify p n with rows := setNode p ⟨modifier (p, n.val), s.modifyTime n⟩ s.rows, indices := ixs } := by
  cases hp : s.rows.lookup p with
  | none =>
    unfold modify at hok
    simp only [hp] at hok
    cases hok
  | some n =>
    have hr : setNode p ⟨modifier (p, n.val), s.modifyTime n⟩ (s.onModify p n).rows =
        setNode p ⟨modifier (p, n.val), s.modifyTime n⟩ s.rows := by
      unfold onModify
      split
      · exact setNode_setNode ..
      · rfl
    have hi : (s.onModify p n).indices = s.indices := by
      unfold onModify
      split <;> rfl
    unfold modify at hok ⊢
    simp only [hp, hr, hi] at hok ⊢
    rcases hpo : postModifyUnique (setNode p ⟨modifier (p, n.val), s.modifyTime n⟩ s.rows) p S.less s.indices with
      ⟨ixs, success⟩
    cases success with
    | true =>
      refine ⟨n, ixs, rfl, hpo, ?_⟩
      simp
    | false =>
      -- neither branch of a failed check returns
      simp only [hpo, Bool.false_eq_true, if_false] at hok
      split at hok
      · rcases hb : postModifyUnique (setNode p ⟨n.val, s.modifyTime n⟩
          (setNode p ⟨modifier (p, n.val), s.modifyTime n⟩ s.rows)) p S.less ixs with ⟨ixs', success'⟩
        rw [hb] at hok
        cases success' <;> cases hok
      · cases hok

theorem sets_setNode (hn : (rows.map fst).Nodup) (m : Node V)
    (hp : rows.lookup p = some n) : Sets rows (setNode p m rows) p :=
  setNode_eq_renew (p, m) rows ▸ sets_renew (b := (p, m)) hn (lookup_isSome_iff_mem.1 (by rw [hp]; rfl))

theorem modify_inv (h : Inv S s saved) (hok : (s.modify S p modifier).2 = .ok ()) :
    ∃ n, s.rows.lookup p = some n ∧ Inv S (s.modify S p modifier).1 saved ∧
    (s.modify S p modifier).1.table = s.table.set p (some ⟨modifier (p, n.val), s.modifyTime n⟩) ∧
    (s.modify S p modifier).1.nextId = s.nextId ∧ (s.modify S p modifier).1.revision = s.revision := by
  obtain ⟨n, ixs, hp, hpo, heq⟩ := modify_ok hok
  refine ⟨n, hp, ?_⟩
  rw [heq]
  have hse := sets_setNode h.ascending.nodup ⟨modifier (p, n.val), s.modifyTime n⟩ hp
  have htab := lookup_setNode (m := ⟨modifier (p, n.val), s.modifyTime n⟩) hp
  have has : Ascending (setNode p ⟨modifier (p, n.val), s.modifyTime n⟩ s.rows) := by
    rw [setNode_eq_renew (p, _)]
    exact ascending_renew _ h.ascending
  have hix := StrictIndices.postModifyUnique hse S.weak h.indices hpo
  by_cases hb : s.backsUp n = true
  · obtain ⟨info, stack, hst, hm⟩ : ∃ info stack, s.undoStack = info :: stack ∧ n.mtime < info.ctime := by
      unfold backsUp at hb
      cases hs : s.undoStack with
      | nil => rw [hs] at hb; cases hb
      | cons info stack => rw [hs] at hb; exact ⟨info, stack, rfl, of_decide_eq_true hb⟩
    have hf : s.fresh ∉ s.oldValues.map addr := fun hmem => by
      obtain ⟨o, ho, heq⟩ := mem_map.1 hmem
      exact absurd (h.oldsFresh o ho) (by omega)
    have hl := h.levels
    rw [hst] at hl
    have ht : s.modifyTime n = s.monotonicRevision := if_pos hb
    unfold onModify
    rw [if_pos hb]
    refine ⟨⟨has, hix, nodup_cons.2 ⟨hf, h.oldsNodup⟩, ?_, h.removedNodup, ?_, h.revision⟩, htab, rfl, rfl⟩
    · intro o ho
      rcases mem_cons.1 ho with rfl | ho
      · exact Nat.lt_succ_self _
      · exact Nat.lt_succ_of_lt (h.oldsFresh o ho)
    · show Levels S (fun q => (setNode p _ s.rows).lookup q) _ _ s.undoStack _ _ _
      rw [htab, hst, ht]
      exact hl.set_backup hp hm hf _
  · have ht : s.modifyTime n = n.mtime := if_neg hb
    unfold onModify
    rw [if_neg hb]
    refine ⟨⟨has, hix, h.oldsNodup, h.oldsFresh, h.removedNodup, ?_, h.revision⟩, htab, rfl, rfl⟩
    show Levels S (fun q => (setNode p _ s.rows).lookup q) _ _ _ _ _ _
    rw [htab, ht]
    refine h.levels.set_val hp (fun info hi => ?_) _
    unfold backsUp at hb
    cases hs : s.undoStack with
    | nil => rw [hs] at hi; cases hi
    | cons info' stack =>
      rw [hs] at hi hb
      cases hi
      simpa using hb

theorem drops_filter (hn : (rows.map fst).Nodup) (hp : rows.lookup p = some n) :
    Drops rows (rows.filter (·.1 ≠ p)) p := by
  obtain ⟨pre, post, rfl, -⟩ := lookup_eq_some_iff.1 hp
  have hd := drops_middle hn
  have hnot := (nodup_cons.1 (hd.keys.nodup_iff.1 hn)).1
  have hk : (pre ++ (p, n) :: post).filter (·.1 ≠ p) = pre ++ post := by
    rw [filter_append, filter_cons_of_neg (by simp), ← filter_append, filter_eq_self]
    intro r hr
    simpa using fun heq : r.1 = p => hnot (mem_map.2 ⟨r, hr, heq⟩)
  rw [hk]
  exact hd

theorem remove_new_eq (hp : s.rows.lookup p = some n) (hle : ∀ info ∈ s.undoStack.head?, info.oldNextId ≤ p) :
    s.remove p = { s with rows := s.rows.filter (·.1 ≠ p), indices := eraseIndices p s.indices } := by
  unfold remove
  rw [hp]
  cases hs : s.undoStack with
  | nil => rfl
  | cons info stack =>
    have hle : info.oldNextId ≤ p := hle info (by rw [hs]; rfl)
    simp only [if_pos hle]

theorem remove_old_eq {info : UndoState} (hp : s.rows.lookup p = some n) (hs : s.undoStack.head? = some info)
    (hlt : p < info.oldNextId) :
    s.remove p =
      { s with
        rows := s.rows.filter (·.1 ≠ p)
        indices := eraseIndices p s.indices
        removedValues := (p, n) :: s.removedValues } := by
  unfold remove
  rw [hp]
  cases hs' : s.undoStack with
  | nil => rw [hs'] at hs; cases hs
  | cons info' stack =>
    rw [hs'] at hs
    cases hs
    simp only [if_neg (Nat.not_le.2 hlt)]

theorem remove_inv (h : Inv S s saved) (hp : s.rows.lookup p = some n) :
    Inv S (s.remove p) saved ∧ (s.remove p).table = s.table.set p none ∧ (s.remove p).nextId = s.nextId ∧
    (s.remove p).revision = s.revision := by
  have has : Ascending (s.rows.filter (·.1 ≠ p)) := h.ascending.sublist filter_sublist
  have htab : (fun q => (s.rows.filter (·.1 ≠ p)).lookup q) = s.table.set p none :=
    funext (lookup_filter_ne p s.rows)
  have hix := h.indices.erase (drops_filter h.ascending.nodup hp)
  by_cases hnew : ∀ info ∈ s.undoStack.head?, info.oldNextId ≤ p
  · rw [remove_new_eq hp hnew]
    refine ⟨⟨has, hix, h.oldsNodup, h.oldsFresh, h.removedNodup, ?_, h.revision⟩, htab, rfl, rfl⟩
    show Levels S (fun q => (s.rows.filter (·.1 ≠ p)).lookup q) _ _ _ _ _ _
    rw [htab]
    exact h.levels.remove_new hnew
  · obtain ⟨info, hi, hlt⟩ : ∃ info, s.undoStack.head? = some info ∧ p < info.oldNextId := by simpa using hnew
    obtain ⟨stack, hs⟩ : ∃ stack, s.undoStack = info :: stack := head?_eq_some_iff.1 hi
    rw [remove_old_eq hp hi hlt]
    have hnot : p ∉ s.removedValues.map fst := fun hmem => by
      obtain ⟨r, hr, heq⟩ := mem_map.1 hmem
      have hn := h.gone r hr
      rw [heq, hp] at hn
      cases hn
    refine ⟨⟨has, hix, h.oldsNodup, h.oldsFresh, nodup_cons.2 ⟨hnot, h.removedNodup⟩, ?_, h.revision⟩,
      htab, rfl, rfl⟩
    have hl := h.levels
    show Levels S (fun q => (s.rows.filter (·.1 ≠ p)).lookup q) _ _ s.undoStack _ _ _
    rw [hs] at hl ⊢
    rw [htab]
    exact hl.remove_old hp hlt

theorem addSession_inv (h : Inv S s saved) : Inv S s.addSession (s.view :: saved) :=
  ⟨h.ascending, h.indices, h.oldsNodup, h.oldsFresh, h.removedNodup, h.levels.start h.indices.distinct,
    Nat.succ_le_succ h.revision⟩

theorem setRevision_inv (h : Inv S s saved) {revision : Nat} (hok : (s.setRevision revision).2 = .ok ()) :
    (s.setRevision revision).1 = { s with revision } ∧ Inv S { s with revision } saved := by
  unfold setRevision at hok ⊢
  by_cases he : (!s.undoStack.isEmpty) = true
  · rw [if_pos he] at hok
    cases hok
  · rw [if_neg he] at hok ⊢
    by_cases hlt : revision < s.revision
    · rw [if_pos hlt] at hok
      cases hok
    · rw [if_neg hlt]
      refine ⟨rfl, h.ascending, h.indices, h.oldsNodup, h.oldsFresh, h.removedNodup, h.levels, ?_⟩
      have := h.revision
      show s.undoStack.length ≤ revision
      omega

theorem undo_inv (h : Inv S s (snap :: saved)) :
    Inv S (s.undo S) saved ∧ (s.undo S).view = snap ∧ (s.undo S).revision = s.revision - 1 := by
  have hl := h.levels
  have hrev := h.revision
  cases hs : s.undoStack with
  | nil =>
    rw [hs] at hl
    cases hl
  | cons info stack =>
    rw [hs] at hl hrev
    cases hl with
    | cons bounded oldsEnd removedEnd top rest =>
      obtain ⟨rows, ixs, heq, h1, h2, h3⟩ := undo_rows hs h.ascending h.indices h.removedNodup h.gone top
      rw [heq]
      refine ⟨⟨h1, h2, h.oldsNodup.sublist ((onward_sublist ..).map _),
        fun o ho => h.oldsFresh o ((onward_sublist ..).mem ho), h.removedNodup.sublist ((onward_sublist ..).map _), ?_, ?_⟩,
        ?_, rfl⟩
      · have hct := top.ctime_le
        show Levels S (fun q => rows.lookup q) _ _ _ _ _ _
        rw [funext h3]
        exact rest.mono (Nat.le_trans (Nat.sub_le ..) hct)
      · rw [length_cons] at hrev
        show stack.length ≤ s.revision - 1
        omega
      · show (⟨fun p => (rows.lookup p).map Node.val, info.oldNextId⟩ : Snapshot V) = _
        simp only [h3]
        rfl

theorem undo_empty (h : Inv S s []) : s.undo S = s := by
  have hlen := h.levels.length_eq
  unfold undo
  cases hs : s.undoStack with
  | nil => rfl
  | cons info stack => rw [hs] at hlen; cases hlen

theorem squash_inner (h : Inv S s (snap :: saved)) (hs : s.undoStack = last :: session :: stack) :
    Inv S s.squash saved ∧ s.squash.view = s.view ∧ s.squash.revision = s.revision - 1 := by
  have hl := h.levels
  have hrev := h.revision
  rw [hs] at hl hrev
  have htop : Level S s.table s.nextId s.monotonicRevision last (backupsOf last s.oldValues)
      (removedOf last s.removedValues) := by
    cases hl with
    | cons _ _ _ top _ => exact top
  obtain ⟨olds, removed, heq, h1, h2, h3⟩ := compressImpl_eq session rfl rfl h.removedNodup h.gone htop
  have hn : s.squash =
      { s with
        oldValues := olds ++ onward addr last.oldValuesEnd s.oldValues
        removedValues := removed ++ onward fst last.removedValuesEnd s.removedValues
        undoStack := session :: stack
        revision := s.revision - 1 } := by
    unfold squash
    rw [hs]
    simp only [heq]
    unfold squashFast
    rw [hs]
  have hol : (olds ++ onward addr last.oldValuesEnd s.oldValues).Sublist s.oldValues := by
    conv => rhs; rw [← before_append_onward addr last.oldValuesEnd s.oldValues]
    exact h1.append (List.Sublist.refl _)
  have hrem : ((removed ++ onward fst last.removedValuesEnd s.removedValues).map fst).Sublist
      (s.removedValues.map fst) := by
    conv => rhs; rw [← before_append_onward fst last.removedValuesEnd s.removedValues]
    rw [map_append, map_append]
    exact h2.append (List.Sublist.refl _)
  rw [hn]
  refine ⟨⟨h.ascending, h.indices, h.oldsNodup.sublist (hol.map _), fun o ho => h.oldsFresh o (hol.mem ho),
    h.removedNodup.sublist hrem, hl.squash h.oldsNodup h.removedNodup h1 h2 h3, ?_⟩, rfl, rfl⟩
  rw [length_cons] at hrev
  exact Nat.le_sub_one_of_lt hrev

theorem squash_inv (h : Inv S s saved) : Inv S s.squash saved.tail ∧ s.squash.view = s.view ∧
    s.squash.revision = if saved.isEmpty then s.revision else s.revision - 1 := by
  have hlen := h.levels.length_eq
  match hs : s.undoStack, saved, hlen with
  | [], [], _ =>
    have heq : s.squash = s := by
      unfold squash squashFast
      rw [hs]
    rw [heq]
    exact ⟨h, rfl, rfl⟩
  | [info], [snap], _ =>
    have heq : s.squash = { s.disposeUndo with undoStack := [], revision := s.revision - 1 } := by
      unfold squash squashFast
      rw [hs]
    rw [heq]
    exact ⟨⟨h.ascending, h.indices, nodup_nil, fun _ ho => absurd ho not_mem_nil, nodup_nil,
      h.levels.dispose, Nat.zero_le _⟩, rfl, rfl⟩
  | last :: session :: stack, snap :: saved, _ => exact squash_inner h hs

theorem commit_inv (h : Inv S s saved) (revision : Nat) :
    Inv S (s.commit revision) (saved.take (s.revision - min revision s.revision)) ∧ (s.commit revision).view = s.view ∧
    (s.commit revision).revision = s.revision := by
  have hlen := h.levels.length_eq
  generalize hr : min revision s.revision = r
  have hle : r ≤ s.revision := hr ▸ Nat.min_le_right ..
  unfold commit
  simp only [hr]
  by_cases hall : r = s.revision
  · rw [if_pos hall, hall, Nat.sub_self, take_zero]
    exact ⟨⟨h.ascending, h.indices, nodup_nil, fun _ ho => absurd ho not_mem_nil, nodup_nil,
      h.levels.dispose, Nat.zero_le _⟩, rfl, rfl⟩
  · rw [if_neg hall]
    by_cases hlt : s.revision - r < s.undoStack.length
    · rw [if_pos hlt]
      -- the oldest session that stays
      obtain ⟨k, hk⟩ : ∃ k, s.revision - r = k + 1 := ⟨s.revision - r - 1, by omega⟩
      have hget : s.undoStack[k]? = some (s.undoStack[k]) := getElem?_eq_getElem (by omega)
      rw [hk, Nat.add_sub_cancel, hget]
      refine ⟨⟨h.ascending, h.indices, h.oldsNodup.sublist ((disposeAfter_sublist ..).map _),
        fun o ho => h.oldsFresh o ((disposeAfter_sublist ..).mem ho),
        h.removedNodup.sublist ((disposeAfter_sublist ..).map _), h.levels.commit h.oldsNodup h.removedNodup hget, ?_⟩,
        rfl, rfl⟩
      rw [length_take]
      exact Nat.le_trans (Nat.min_le_right ..) h.revision
    · rw [if_neg hlt, take_of_length_le (by omega)]
      exact ⟨h, rfl, rfl⟩

end Ops
end UndoIndex
end TheChannel
