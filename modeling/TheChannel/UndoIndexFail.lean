import TheChannel.UndoIndexRefine
/-!
# UndoIndexFail — calls that fail because a key is taken

`emplace` and `modify` throw where a secondary index has an equivalent row. A failed `emplace` leaves no trace. A failed
`modify` of a row that was backed up moves the row back in the indices it passed and takes the backup off again, but the
row keeps the modification time of the session, so that a later `modify` makes no backup and `undo` misses the row.
-/
namespace TheChannel
open List
open Prod (fst)

namespace UndoIndex
variable {V : Type} {S : TableType V} {s s' t : UndoIndex V} {saved : List (Snapshot V)} {p q : Nat} {n : Node V}
  {rows rows' : List (Nat × Node V)} {ls : List (Nat × V → Nat × V → Bool)} {ixs : List (List Nat)}
  {less : Nat × V → Nat × V → Bool} {constructor : Nat → V} {modifier : Nat × V → V}

theorem postModifyUnique_moved (hmem : p ∈ rows.map fst) (hn : (rows.map fst).Nodup)
    (h : List.Forall₂ (fun less ix => StrictIndex less rows ix) ls ixs) :
    List.Forall₂ (Moved p) ixs (postModifyUnique rows' p ls ixs).1 := by
  induction h with
  | nil => exact .nil
  | @cons less ix ls ixs h hs ih =>
    have hf : Moved p ix (repositionUnique (compare less rows') p ix).1 :=
      repositionUnique_moved (h.perm.mem_iff.2 hmem) (h.perm.nodup_iff.2 hn)
    have hst : List.Forall₂ (Moved p) ixs ixs := by
      refine List.forall₂_same.2 fun ix' hix' => ?_
      obtain ⟨i, hi, rfl⟩ := getElem_of_mem hix'
      exact ⟨(hs.get (hs.length_eq ▸ hi) hi).perm.mem_iff.2 hmem, rfl⟩
    unfold postModifyUnique
    rcases hr : repositionUnique (compare less rows') p ix with ⟨ix', success⟩
    rw [hr] at hf
    cases success with
    | true => exact .cons hf ih
    | false => exact .cons hf hst

theorem postModifyUnique_back (hmem : p ∈ rows.map fst) (hw : ∀ l ∈ ls, StrictWeak l)
    (h : List.Forall₂ (fun less ix => StrictIndex less rows ix) ls ixs) :
    ∀ {ixs'}, List.Forall₂ (Moved p) ixs ixs' → postModifyUnique rows p ls ixs' = (ixs, true) := by
  induction h with
  | nil =>
    intro ixs' hms
    cases hms
    rfl
  | cons h hs ih =>
    intro ixs' hms
    cases hms with
    | cons hm hms =>
      have hb := repositionUnique_back (compare_strictWeak (hw _ mem_cons_self) rows) h.sorted
        (h.perm.mem_iff.2 hmem) hm
      unfold postModifyUnique
      rw [hb, ih (fun l hl => hw l (mem_cons_of_mem _ hl)) hms]

/-! ## The modification time of one row -/

def hideTime (p q : Nat) (n : Node V) : Node V := if q = p then ⟨n.val, 0⟩ else n

def hide (p : Nat) (rows : List (Nat × Node V)) : List (Nat × Node V) := rows.map (fun r => (r.1, hideTime p r.1 r.2))

theorem lookup_hide (rows : List (Nat × Node V)) (q : Nat) :
    (hide p rows).lookup q = (rows.lookup q).map (hideTime p q) :=
  lookup_map_val (hideTime p) rows q

theorem hideTime_val (p q : Nat) (n : Node V) : (hideTime p q n).val = n.val := by
  unfold hideTime
  split <;> rfl

theorem hideTime_hideTime (p q : Nat) (n : Node V) : hideTime p q (hideTime p q n) = hideTime p q n := by
  unfold hideTime
  split <;> rfl

theorem hide_append (rows rows' : List (Nat × Node V)) : hide p (rows ++ rows') = hide p rows ++ hide p rows' :=
  map_append

section

variable (h : hide p rows' = hide p rows)

include h

theorem keys_of_hide : rows'.map fst = rows.map fst := by
  have hk : ∀ l : List (Nat × Node V), (hide p l).map fst = l.map fst := fun l => map_map
  rw [← hk rows', h, hk]

theorem isSome_of_hide (q : Nat) :
    (rows'.lookup q).isSome = (rows.lookup q).isSome := by
  have := congrArg (fun l => (l.lookup q).isSome) h
  simpa only [lookup_hide, Option.isSome_map] using this

theorem lookup_of_hide (hq : q ≠ p) : rows'.lookup q = rows.lookup q := by
  have := congrArg (List.lookup q) h
  have hid : (hideTime p q : Node V → Node V) = id := funext fun n => if_neg hq
  simpa only [lookup_hide, hid, Option.map_id_fun, id_eq] using this

theorem compare_of_hide : compare less rows' = compare less rows := by
  have hval : ∀ (l : List (Nat × Node V)) q, valueOf (hide p l) q = valueOf l q := by
    intro l q
    simp only [valueOf, lookup_hide, Option.map_map, Function.comp_def, hideTime_val]
  funext a b
  unfold compare
  rw [← hval rows', ← hval rows', h, hval, hval]

theorem insertIndices_of_hide :
    insertIndices rows' q ls ixs = insertIndices rows q ls ixs := by
  induction ls generalizing ixs with
  | nil => rfl
  | cons less ls ih =>
    cases ixs with
    | nil => rfl
    | cons ix ixs => simp only [insertIndices, compare_of_hide h, ih]

theorem postModify_of_hide : postModify rows' q ls ixs = postModify rows q ls ixs := by
  induction ls generalizing ixs with
  | nil => rfl
  | cons less ls ih =>
    cases ixs with
    | nil => rfl
    | cons ix ixs => rw [postModify, postModify, compare_of_hide h, ih]

theorem postModifyUnique_of_hide :
    postModifyUnique rows' q ls ixs = postModifyUnique rows q ls ixs := by
  induction ls generalizing ixs with
  | nil => rfl
  | cons less ls ih =>
    cases ixs with
    | nil => rfl
    | cons ix ixs => rw [postModifyUnique, postModifyUnique, compare_of_hide h, ih]

theorem strictIndices_of_hide (hi : StrictIndices S rows ixs) :
    StrictIndices S rows' ixs :=
  forall₂_imp (fun _ _ _ hx => ⟨keys_of_hide h ▸ hx.perm, by rw [compare_of_hide h]; exact hx.sorted⟩) hi

theorem hide_setNode (q : Nat) (m : Node V) :
    hide p (setNode q m rows') = hide p (setNode q m rows) := by
  have hset : ∀ l : List (Nat × Node V), hide p (setNode q m l) = hide p (setNode q m (hide p l)) := by
    intro l
    unfold hide setNode
    rw [map_map, map_map, map_map]
    refine map_congr_left fun r _ => ?_
    by_cases hr : r.1 = q
    · simp [hr]
    · simp [hr, hideTime_hideTime]
  rw [hset, h, ← hset]

end

theorem hide_assign (q : Nat) (m : Node V) (rows : List (Nat × Node V)) :
    hide p (assign q m rows) = assign q (hideTime p q m) (hide p rows) := by
  induction rows with
  | nil => rfl
  | cons r rows ih =>
    simp only [hide, assign, map_cons] at ih ⊢
    by_cases heq : q = r.1
    · rw [if_pos heq, if_pos heq, map_cons]
    · by_cases hlt : q < r.1
      · rw [if_neg heq, if_pos hlt, if_neg heq, if_pos hlt, map_cons, map_cons]
      · rw [if_neg heq, if_neg hlt, if_neg heq, if_neg hlt, map_cons, ih]

/-! ## Calls on indices that differ in one modification time -/

/-- `t` is `s` but for the modification time of the node `p`. -/
def Near (p : Nat) (s t : UndoIndex V) : Prop :=
  ∃ rows removed, hide p rows = hide p s.rows ∧ hide p removed = hide p s.removedValues ∧
    t = { s with rows, removedValues := removed }

theorem Near.same (h : Near p s t) :
    t.undoStack = s.undoStack ∧ t.oldValues = s.oldValues ∧ t.revision = s.revision := by
  obtain ⟨_, _, _, _, rfl⟩ := h
  exact ⟨rfl, rfl, rfl⟩

theorem Near.emplace (h : Near p s t) (hok : (s.emplace S constructor).2 = .ok ()) :
    (t.emplace S constructor).2 = .ok () ∧ Near p (s.emplace S constructor).1 (t.emplace S constructor).1 := by
  obtain ⟨rows, removed, hr, hq, rfl⟩ := h
  obtain ⟨ixs, hins, heq⟩ := emplace_ok hok
  have hro : hide p (rows ++ [(s.nextId, ⟨constructor s.nextId, s.createTime⟩)]) =
      hide p (s.rows ++ [(s.nextId, ⟨constructor s.nextId, s.createTime⟩)]) := by
    rw [hide_append, hide_append, hr]
  have hins' : insertIndices (rows ++ [(s.nextId, ⟨constructor s.nextId, s.createTime⟩)]) s.nextId S.less s.indices =
      (ixs, true) := (insertIndices_of_hide hro).trans hins
  rw [heq]
  unfold emplace
  unfold createTime at hins' hro ⊢
  simp only [hins']
  exact ⟨trivial, _, _, hro, hq, rfl⟩

theorem Near.modify (h : Near p s t) (hne : q ≠ p) (hok : (s.modify S q modifier).2 = .ok ()) :
    (t.modify S q modifier).2 = .ok () ∧ Near p (s.modify S q modifier).1 (t.modify S q modifier).1 := by
  obtain ⟨rows, removed, hr, hq, rfl⟩ := h
  obtain ⟨n, ixs, hl, hp, heq⟩ := modify_ok hok
  have hro := hide_setNode hr q ⟨modifier (q, n.val), s.modifyTime n⟩
  have hp' := (postModifyUnique_of_hide hro).trans hp
  have hl' : rows.lookup q = some n := (lookup_of_hide hr hne).trans hl
  rw [heq]
  have ht : ({ s with rows, removedValues := removed } : UndoIndex V).modifyTime n = s.modifyTime n := rfl
  have hba : ({ s with rows, removedValues := removed } : UndoIndex V).backsUp n = s.backsUp n := rfl
  unfold modify onModify
  cases hb : s.backsUp n with
  | true =>
    simp only [hl', hba, hb, ht, if_true, setNode_setNode, hp']
    exact ⟨trivial, _, _, hro, hq, rfl⟩
  | false =>
    simp only [hl', hba, hb, ht, Bool.false_eq_true, if_false, if_true, hp']
    exact ⟨trivial, _, _, hro, hq, rfl⟩

theorem hide_filter (P : Nat → Bool) (rows : List (Nat × Node V)) :
    hide p (rows.filter (fun r => P r.1)) = (hide p rows).filter (fun r => P r.1) := by
  unfold hide
  rw [filter_map]
  rfl

theorem Near.remove (h : Near p s t) (q : Nat) : Near p (s.remove q) (t.remove q) := by
  obtain ⟨rows, removed, hr, hq, rfl⟩ := h
  have hf : hide p (rows.filter (·.1 ≠ q)) = hide p (s.rows.filter (·.1 ≠ q)) := by
    rw [hide_filter (fun k => decide (k ≠ q)), hr, ← hide_filter (fun k => decide (k ≠ q))]
  have hl := congrArg (List.lookup q) hr
  rw [lookup_hide, lookup_hide] at hl
  unfold remove
  cases hn : s.rows.lookup q with
  | none =>
    rw [hn, Option.map_none, Option.map_eq_none_iff] at hl
    simp only [hl]
    exact ⟨_, _, hr, hq, rfl⟩
  | some n =>
    rw [hn] at hl
    obtain ⟨m, hm, hmn⟩ := Option.map_eq_some_iff.1 hl
    have hco : hide p ((q, m) :: removed) = hide p ((q, n) :: s.removedValues) := by
      unfold hide at hq ⊢
      rw [map_cons, map_cons, hq, hmn]
    simp only [hm]
    cases s.undoStack with
    | nil => exact ⟨_, _, hf, hq, rfl⟩
    | cons info stack =>
      by_cases hle : info.oldNextId ≤ q
      · simp only [if_pos hle]
        exact ⟨_, _, hf, hq, rfl⟩
      · simp only [if_neg hle]
        exact ⟨_, _, hf, hco, rfl⟩

theorem Near.addSession (h : Near p s t) : Near p s.addSession t.addSession := by
  obtain ⟨rows, removed, hr, hq, rfl⟩ := h
  have hh : removed.head?.map fst = s.removedValues.head?.map fst := by
    rw [← head?_map, ← head?_map, keys_of_hide hq]
  unfold addSession
  simp only [hh]
  exact ⟨_, _, hr, hq, rfl⟩

/-! `undo` -/

section

variable (h : Near p s t)

include h

theorem Near.eraseNew (info : UndoState) : Near p (s.eraseNew info) (t.eraseNew info) := by
  obtain ⟨rows, removed, hr, hq, rfl⟩ := h
  have ht : ∀ l : List (Nat × Node V), hide p (l.takeWhile (·.1 < info.oldNextId)) =
      (hide p l).takeWhile (·.1 < info.oldNextId) := by
    intro l
    unfold hide
    rw [takeWhile_map]
    rfl
  have hd : ∀ (l : List (Nat × Node V)) ixs,
      (l.dropWhile (·.1 < info.oldNextId)).foldl (fun ixs r => eraseIndices r.1 ixs) ixs =
        ((l.map fst).dropWhile (· < info.oldNextId)).foldl (fun ixs k => eraseIndices k ixs) ixs := by
    intro l ixs
    rw [dropWhile_map, foldl_map]
    rfl
  refine ⟨rows.takeWhile (·.1 < info.oldNextId), removed, ?_, hq, ?_⟩
  · show _ = hide p (s.rows.takeWhile _)
    rw [ht, ht, hr]
  · unfold eraseNew
    rw [hd, hd, keys_of_hide hr]

theorem Near.replaceOld (info : UndoState) (o : OldNode V) :
    Near p (replaceOld S info s o) (replaceOld S info t o) := by
  obtain ⟨rows, removed, hr, hq, rfl⟩ := h
  unfold UndoIndex.replaceOld
  by_cases ho : o.mtime < info.ctime
  · simp only [if_pos ho, isSome_of_hide hr]
    split
    · have hro := hide_setNode hr o.current ⟨o.val, o.mtime⟩
      simp only [postModify_of_hide hro]
      exact ⟨_, _, hro, hq, rfl⟩
    · exact ⟨_, _, hr, hide_setNode hq o.current ⟨o.val, o.mtime⟩, rfl⟩
  · simp only [if_neg ho]
    exact ⟨_, _, hr, hq, rfl⟩

theorem Near.insertRemoved (info : UndoState) {q : Nat} {n m : Node V}
    (hn : hideTime p q m = hideTime p q n) :
    Near p (insertRemoved S info s (q, n)) (insertRemoved S info t (q, m)) := by
  obtain ⟨rows, removed, hr, hq, rfl⟩ := h
  have hro : hide p (assign q m rows) = hide p (assign q n s.rows) := by rw [hide_assign, hide_assign, hr, hn]
  unfold UndoIndex.insertRemoved
  simp only [isSome_of_hide hr, insertIndices_of_hide hro]
  split
  · split
    · exact ⟨_, _, hr, hq, rfl⟩
    · split
      · exact ⟨_, _, hro, hq, rfl⟩
      · exact ⟨_, _, hr, hq, rfl⟩
  · exact ⟨_, _, hr, hq, rfl⟩

theorem Near.replaceOlds (info : UndoState) (olds : List (OldNode V)) :
    Near p (olds.foldl (UndoIndex.replaceOld S info) s) (olds.foldl (UndoIndex.replaceOld S info) t) := by
  induction olds generalizing s t with
  | nil => exact h
  | cons o olds ih => exact ih (h.replaceOld info o)

theorem Near.insertRemoveds (info : UndoState) (hl : hide p rows' = hide p rows) :
    Near p (rows.foldl (UndoIndex.insertRemoved S info) s) (rows'.foldl (UndoIndex.insertRemoved S info) t) := by
  induction rows generalizing rows' s t with
  | nil =>
    rw [map_eq_nil_iff.1 hl]
    exact h
  | cons r rows ih =>
    obtain ⟨r', tail, rfl, hh, ht⟩ := map_eq_cons_iff.1 hl
    obtain ⟨q, n⟩ := r
    obtain ⟨q', m⟩ := r'
    obtain ⟨rfl, hn⟩ := Prod.mk.inj hh
    rw [foldl_cons, foldl_cons]
    exact ih (h.insertRemoved info hn) ht

end

variable (last : Option Nat) (l : List (Nat × Node V))

theorem hide_before : before fst last (hide p l) = hide p (before fst last l) :=
  before_map (fun r => (r.1, hideTime p r.1 r.2)) (fun _ => rfl) l

theorem hide_onward : onward fst last (hide p l) = hide p (onward fst last l) :=
  onward_map (fun r => (r.1, hideTime p r.1 r.2)) (fun _ => rfl) l

theorem Near.undo (h : Near p s t) : Near p (s.undo S) (t.undo S) := by
  have hrem : ∀ {s t : UndoIndex V}, Near p s t → hide p t.removedValues = hide p s.removedValues := by
    rintro s t ⟨_, _, _, hq, rfl⟩
    exact hq
  unfold UndoIndex.undo
  rw [h.same.1, h.same.2.1, h.same.2.2]
  cases s.undoStack with
  | nil => exact h
  | cons info stack =>
    have h' := (h.eraseNew info).replaceOlds (S := S) info (before OldNode.addr info.oldValuesEnd s.oldValues)
    have hl := congrArg (before fst info.removedValuesEnd) (hrem h')
    rw [hide_before, hide_before] at hl
    obtain ⟨rows, removed, hr, hq, heq⟩ := h'.insertRemoveds (S := S) info hl
    simp only [heq]
    exact ⟨_, _, hr, by rw [← hide_onward, hq, hide_onward], rfl⟩

/-! `squash` and `commit` -/

theorem compressOld_of_hide (hr : hide p rows' = hide p rows) (sessionStart : Nat) (olds : List (OldNode V))
    {removed removed' : List (Nat × Node V)} (hq : hide p removed' = hide p removed) :
    (compressOld rows' sessionStart olds removed').1 = (compressOld rows sessionStart olds removed).1 ∧
      hide p (compressOld rows' sessionStart olds removed').2 = hide p (compressOld rows sessionStart olds removed).2 := by
  induction olds generalizing removed removed' with
  | nil => exact ⟨rfl, hq⟩
  | cons o os ih =>
    have hn : (rows'.lookup o.current).isNone = (rows.lookup o.current).isNone := by
      rw [← Option.not_isSome, ← Option.not_isSome, isSome_of_hide hr]
    unfold compressOld
    rw [hn]
    split
    · exact ih hq
    · split
      · exact ih (hide_setNode hq o.current ⟨o.val, o.mtime⟩)
      · obtain ⟨h1, h2⟩ := ih hq
        exact ⟨congrArg (o :: ·) h1, h2⟩

section

variable (h : Near p s t)

include h

theorem Near.compressImpl (session last : UndoState) :
    Near p (s.compressImpl session last) (t.compressImpl session last) := by
  obtain ⟨rows, removed, hr, hq, rfl⟩ := h
  obtain ⟨h1, h2⟩ := compressOld_of_hide hr session.ctime (before OldNode.addr last.oldValuesEnd s.oldValues) hq
  unfold compressImpl
  simp only [h1]
  refine ⟨_, _, hr, ?_, rfl⟩
  simp only [hide_append, hide_filter (fun k => decide (k < session.oldNextId)), ← hide_before, ← hide_onward, h2]

theorem Near.squashFast : Near p s.squashFast t.squashFast := by
  unfold UndoIndex.squashFast
  rw [h.same.1, h.same.2.2]
  split
  · exact h
  · obtain ⟨rows, removed, hr, hq, rfl⟩ := h
    exact ⟨_, [], hr, rfl, rfl⟩
  · obtain ⟨rows, removed, hr, hq, rfl⟩ := h
    exact ⟨_, _, hr, hq, rfl⟩

theorem Near.squash : Near p s.squash t.squash := by
  unfold UndoIndex.squash
  rw [h.same.1]
  split
  · exact (h.compressImpl _ _).squashFast
  · exact h.squashFast

theorem Near.commit (revision : Nat) : Near p (s.commit revision) (t.commit revision) := by
  obtain ⟨rows, removed, hr, hq, rfl⟩ := h
  have hd : ∀ last, hide p (disposeAfter fst last removed) =
      hide p (disposeAfter fst last s.removedValues) := by
    intro last
    have ht : ∀ l : List (Nat × Node V), hide p (l.take 1) = (hide p l).take 1 := fun l => map_take
    simp only [disposeAfter_eq, hide_append, ht, ← hide_before, ← hide_onward, hq]
  unfold commit
  dsimp only
  split
  · exact ⟨_, [], hr, rfl, rfl⟩
  · split
    · split
      · exact ⟨_, _, hr, hd _, rfl⟩
      · exact ⟨_, _, hr, hq, rfl⟩
    · exact ⟨_, _, hr, hq, rfl⟩

theorem Near.setRevision (revision : Nat) : (t.setRevision revision).2 = (s.setRevision revision).2 ∧
      Near p (s.setRevision revision).1 (t.setRevision revision).1 := by
  obtain ⟨rows, removed, hr, hq, rfl⟩ := h
  unfold setRevision
  split
  · exact ⟨rfl, _, _, hr, hq, rfl⟩
  · split <;> exact ⟨rfl, _, _, hr, hq, rfl⟩

theorem Near.step {op : Op V} (hop : ∀ modifier, op ≠ .modify p modifier)
    (hstep : s.step S op = some s') : ∃ t', t.step S op = some t' ∧ Near p s' t' := by
  cases op with
  | emplace constructor =>
    obtain ⟨hok, ⟨⟩⟩ := Option.ite_none_right_eq_some.1 hstep
    obtain ⟨hok', hn⟩ := h.emplace hok
    exact ⟨_, if_pos hok', hn⟩
  | modify q modifier =>
    obtain ⟨hok, ⟨⟩⟩ := Option.ite_none_right_eq_some.1 hstep
    obtain ⟨hok', hn⟩ := h.modify (fun heq => hop modifier (by rw [heq])) hok
    exact ⟨_, if_pos hok', hn⟩
  | remove q =>
    obtain ⟨hok, ⟨⟩⟩ := Option.ite_none_right_eq_some.1 hstep
    refine ⟨_, if_pos ?_, h.remove q⟩
    obtain ⟨rows, removed, hr, hq, rfl⟩ := h
    rw [isSome_of_hide hr, hok]
  | startUndoSession =>
    cases hstep
    exact ⟨_, rfl, h.addSession⟩
  | undo =>
    cases hstep
    exact ⟨_, rfl, h.undo⟩
  | squash =>
    cases hstep
    exact ⟨_, rfl, h.squash⟩
  | commit revision =>
    cases hstep
    exact ⟨_, rfl, h.commit revision⟩
  | setRevision revision =>
    obtain ⟨hok, ⟨⟩⟩ := Option.ite_none_right_eq_some.1 hstep
    obtain ⟨hout, hn⟩ := h.setRevision revision
    exact ⟨_, if_pos (hout.trans hok), hn⟩

theorem Near.run {ops : List (Op V)} (hos : ∀ modifier, Op.modify p modifier ∉ ops)
    (hrun : run S ops s = some s') : ∃ t', run S ops t = some t' ∧ Near p s' t' := by
  induction ops generalizing s t with
  | nil =>
    cases hrun
    exact ⟨t, rfl, h⟩
  | cons op ops ih =>
    obtain ⟨s1, hstep, hrun⟩ := Option.bind_eq_some_iff.1 hrun
    obtain ⟨t1, hs', h1⟩ := h.step (fun modifier heq => hos modifier (heq ▸ mem_cons_self)) hstep
    obtain ⟨t', hrun', h'⟩ := ih h1 (fun modifier hmem => hos modifier (mem_cons_of_mem _ hmem)) hrun
    exact ⟨t', Option.bind_eq_some_iff.2 ⟨t1, hs', hrun'⟩, h'⟩

end

theorem modify_failed (h : Inv S s saved) (hp : s.rows.lookup p = some n)
    (hb : s.backsUp n = true) (hf : (s.modify S p modifier).2 ≠ .ok ()) :
    (s.modify S p modifier).1 = { s with rows := setNode p ⟨n.val, s.monotonicRevision⟩ s.rows, fresh := s.fresh + 1 } ∧
      hide p (setNode p ⟨n.val, s.monotonicRevision⟩ s.rows) = hide p s.rows := by
  have hmem : p ∈ s.rows.map fst := lookup_isSome_iff_mem.1 (by rw [hp]; rfl)
  have ht : s.modifyTime n = s.monotonicRevision := if_pos hb
  have hh : hide p (setNode p ⟨n.val, s.monotonicRevision⟩ s.rows) = hide p s.rows := by
    unfold hide setNode
    rw [map_map]
    refine map_congr_left fun r hr => ?_
    by_cases hrp : r.1 = p
    · have hrow := lookup_of_mem h.ascending.nodup hr
      rw [hrp, hp] at hrow
      cases hrow
      simp [hrp, hideTime]
    · simp [hrp]
  have hm : List.Forall₂ (Moved p) s.indices
      (postModifyUnique (setNode p ⟨modifier (p, n.val), s.monotonicRevision⟩ s.rows) p S.less s.indices).1 :=
    postModifyUnique_moved hmem h.ascending.nodup h.indices
  have hba := postModifyUnique_back (keys_of_hide hh ▸ hmem) S.weak (strictIndices_of_hide hh h.indices) hm
  refine ⟨?_, hh⟩
  unfold modify at hf ⊢
  simp only [hp, onModify, if_pos hb, ht, setNode_setNode] at hf ⊢
  rcases hpo : postModifyUnique (setNode p ⟨modifier (p, n.val), s.monotonicRevision⟩ s.rows) p S.less s.indices with
    ⟨ixs, success⟩
  rw [hpo] at hba
  cases success with
  | true => simp [hpo] at hf
  | false => simp [hba]

theorem Refines.observed {m : SnapshotStack V} (h : Refines S s m) (h' : Refines S s' m) :
    s'.view = s.view ∧ s'.indices = s.indices := by
  have hv : s'.view = s.view := h'.view.trans h.view.symm
  refine ⟨hv, (h.inv.indices.indexOf_iff s'.indices).1 ?_⟩
  rw [← hv]
  exact (h'.inv.indices.indexOf_iff s'.indices).2 rfl

theorem Near.observed (h : Near p s t) : t.view = s.view ∧ t.indices = s.indices := by
  obtain ⟨rows, removed, hr, hq, rfl⟩ := h
  have hf : ({ s with rows, removedValues := removed } : UndoIndex V).find = s.find := by
    funext q
    have hl := congrArg (fun l => (List.lookup q l).map Node.val) hr
    simp only [lookup_hide, Option.map_map, Function.comp_def, hideTime_val] at hl
    exact hl
  exact ⟨congrArg (Snapshot.mk · s.nextId) hf, rfl⟩

theorem emplace_failed (h : Inv S s saved) (hf : (s.emplace S constructor).2 ≠ .ok ()) : (s.emplace S constructor).1 = s := by
  unfold emplace at hf ⊢
  rcases hins : insertIndices (s.rows ++ [(s.nextId, ⟨constructor s.nextId, s.createTime⟩)]) s.nextId S.less s.indices with
    ⟨ixs, _ | _⟩
  · have hfresh : List.Forall₂ (fun _ ix => s.nextId ∉ ix) S.less s.indices := by
      refine h.indices.imp fun less ix hl hmem => ?_
      obtain ⟨n, hn⟩ := Option.isSome_iff_exists.1 (lookup_isSome_iff_mem.2 (hl.perm.mem_iff.1 hmem))
      exact Nat.lt_irrefl _ (h.levels.bounded _ n hn).1
    simp only [hins, insertIndices_restored hfresh hins]
  · simp only [hins] at hf
    exact absurd rfl hf

/-- **A call that fails on a key that is taken changes nothing one can see**, now or after later calls: an `emplace`, and a
`modify` of a row that was backed up, unless a later call modifies the row. -/
theorem failed_unobserved (S : TableType V) (ops : List (Op V)) (s : UndoIndex V) (hrun : run S ops (init S) = some s) :
    (∀ constructor, (s.emplace S constructor).2 ≠ .ok () → (s.emplace S constructor).1 = s) ∧
    ∀ p n modifier, s.rows.lookup p = some n → s.backsUp n = true → (s.modify S p modifier).2 ≠ .ok () →
      ((s.modify S p modifier).1.view = s.view ∧ (s.modify S p modifier).1.indices = s.indices) ∧
      ∀ later, (∀ modifier', Op.modify p modifier' ∉ later) → ∀ a b, run S later (s.modify S p modifier).1 = some a →
        run S later s = some b → a.view = b.view ∧ a.indices = b.indices := by
  have href := run_refines (init_refines S) hrun
  refine ⟨fun constructor hf => ?_, fun p n modifier hp hb hf => ?_⟩
  · exact emplace_failed href.inv hf
  obtain ⟨heq, hh⟩ := modify_failed href.inv hp hb hf
  rw [heq]
  -- the index as it was, but for the address the backup had
  have hfr : Refines S { s with fresh := s.fresh + 1 } (SnapshotStack.run ops) := by
    obtain ⟨has, hix, hno, hold, hrem, hle, hrev⟩ := href.inv
    exact ⟨⟨has, hix, hno, fun o ho => Nat.lt_succ_of_lt (hold o ho), hrem, hle, hrev⟩, href.view, href.revision⟩
  have hn : Near p { s with rows := setNode p ⟨n.val, s.monotonicRevision⟩ s.rows, fresh := s.fresh + 1 }
      { s with fresh := s.fresh + 1 } := ⟨s.rows, s.removedValues, hh.symm, rfl, rfl⟩
  refine ⟨⟨hn.observed.1.symm, rfl⟩, fun later hl a b ha hb => ?_⟩
  obtain ⟨c, hc, hac⟩ := hn.run hl ha
  obtain ⟨hv, hi⟩ := hac.observed
  obtain ⟨hv', hi'⟩ := (run_refines href hb).observed (run_refines hfr hc)
  exact ⟨hv.symm.trans hv', hi.symm.trans hi'⟩

def sampleTaken : UndoIndex Nat :=
  ⟨[(0, ⟨5, 0⟩), (1, ⟨3, 0⟩)], [[1, 0]], [⟨none, none, 2, 1⟩], [], [], 2, 1, 1, 0⟩

theorem failed_unobserved_sampleTaken : (sampleTaken.emplace sampleType (fun _ => 3)).1 = sampleTaken ∧
      ∃ a b, run sampleType [.remove 0, .undo] (sampleTaken.modify sampleType 0 (fun _ => 3)).1 = some a ∧
        run sampleType [.remove 0, .undo] sampleTaken = some b ∧ a.view = b.view := by
  have hrun : run sampleType [.emplace (fun _ => 5), .emplace (fun _ => 3), .startUndoSession] (init sampleType) =
      some sampleTaken := by decide
  obtain ⟨he, hmod⟩ := failed_unobserved sampleType _ sampleTaken hrun
  obtain ⟨-, hl⟩ := hmod 0 ⟨5, 0⟩ (fun _ => 3) (by decide) (by decide) (by decide)
  obtain ⟨a, ha⟩ := Option.isSome_iff_exists.1 (show (run sampleType [.remove 0, .undo]
    (sampleTaken.modify sampleType 0 (fun _ => 3)).1).isSome = true by decide)
  obtain ⟨b, hb⟩ := Option.isSome_iff_exists.1
    (show (run sampleType [.remove 0, .undo] sampleTaken).isSome = true by decide)
  exact ⟨he _ (by decide), a, b, ha, hb, (hl _ (by simp) a b ha hb).1⟩

/-- **The row is not restored**: `modify` fails, a later one makes no backup, and `undo` leaves its value. Without the failed
call `undo` brings the old one back. A row that the session already modified is even removed by the failed call. -/
theorem failed_modify_not_undone :
    (run sampleType [.modify 0 (fun _ => 1), .undo] (sampleTaken.modify sampleType 0 (fun _ => 3)).1).map (·.find 0) =
      some (some 1) ∧
    (run sampleType [.modify 0 (fun _ => 1), .undo] sampleTaken).map (·.find 0) = some (some 5) ∧
    (((sampleTaken.modify sampleType 0 (fun _ => 4)).1.modify sampleType 0 (fun _ => 3)).1.find 0 = none) := by decide

end UndoIndex
end TheChannel
