import TheChannel.ForkDb
/-!
# ForkDbRun — the tree of the fork database over every sequence of calls

The blocks of the index hang on the root: each one's parent is the root or in the index (`Inv`). Adding a block with a
known parent keeps that, removing a block with everything above it keeps it, and `advance_root` erases the new root and
prunes the ids below it, which leaves what is above the new root and nothing else.
-/
namespace TheChannel
open Forest List

namespace ForkDb
variable {β : Type} {T : BlockStateType β} {db db' : ForkDb β} {n b newRoot r : β} {id : BlockId} {blockNum : Nat}

/-! ## What each call does -/

@[simp] theorem setPendingSavannaLibIdImpl_root (db : ForkDb β) (id : BlockId) :
    (db.setPendingSavannaLibIdImpl id).1.root = db.root := by
  unfold setPendingSavannaLibIdImpl; split <;> rfl

@[simp] theorem setPendingSavannaLibIdImpl_index (db : ForkDb β) (id : BlockId) :
    (db.setPendingSavannaLibIdImpl id).1.index = db.index := by
  unfold setPendingSavannaLibIdImpl; split <;> rfl

/-- **The pending last irreversible block of a strong claim**: nothing happens, or the claimed block was found above the
root and the reference of its own claim is set. -/
theorem advancePendingLib_cases (h : db.advancePendingLib T n = .ok db') :
    db' = db ∨ ∃ s claimed ref, T.savanna = some s ∧ (s.extractQcClaim n).isStrongQc = true ∧
      db.searchOnBranchImpl T (T.previous n) (s.extractQcClaim n).blockNum false = some claimed ∧
      (s.core claimed).getBlockReference (s.core claimed).latestQcClaim.blockNum = .ok ref ∧
      db' = (db.setPendingSavannaLibIdImpl ref.blockId).1 := by
  unfold advancePendingLib at h
  split at h
  · exact .inl (Except.ok.inj h).symm
  rename_i s hs
  dsimp only at h
  split at h
  · rename_i hc
    split at h
    · exact .inl (Except.ok.inj h).symm
    · rename_i claimed hf
      cases href : (s.core claimed).getBlockReference (s.core claimed).latestQcClaim.blockNum with
      | error e => rw [href] at h; cases h
      | ok ref =>
        rw [href] at h
        exact .inr ⟨s, claimed, ref, hs, (Bool.and_eq_true_iff.1 hc).1, hf, href, (Except.ok.inj h).symm⟩
  · exact .inl (Except.ok.inj h).symm

theorem advancePendingLib_eq {claimed : β} {s : SavannaPart β} {ref : BlockRef} (hs : T.savanna = some s)
    (hst : (s.extractQcClaim n).isStrongQc = true)
    (hp : numFromId db.pendingSavannaLibId < (s.extractQcClaim n).blockNum)
    (hf : db.searchOnBranchImpl T (T.previous n) (s.extractQcClaim n).blockNum false = some claimed)
    (href : (s.core claimed).getBlockReference (s.core claimed).latestQcClaim.blockNum = .ok ref) :
    db.advancePendingLib T n = .ok (db.setPendingSavannaLibIdImpl ref.blockId).1 := by
  simp only [advancePendingLib, hs, hst, hp, hf, href, decide_true, Bool.and_self, if_true, Except.map]

theorem advancePendingLib_frame (h : db.advancePendingLib T n = .ok db') : db'.root = db.root ∧ db'.index = db.index := by
  obtain rfl | ⟨_, _, _, _, _, _, _, rfl⟩ := advancePendingLib_cases h
  · exact ⟨rfl, rfl⟩
  · simp

theorem getBlockImpl_some (h : db.getBlockImpl T id true = some b) :
    (db.root = some b ∨ b ∈ db.index) ∧ T.id b = id := by
  unfold getBlockImpl at h
  split at h
  · rename_i hc
    rw [h, Bool.true_and, Option.any_some, beq_iff_eq] at hc
    exact ⟨.inl h, hc⟩
  · exact ⟨.inr (find_some h).1, (find_some h).2⟩

theorem searchOnBranchImpl_some {h : BlockId}
    (hs : db.searchOnBranchImpl T h blockNum false = some b) : b ∈ T.forest.path db.index h ∧ T.blockNum b = blockNum := by
  unfold searchOnBranchImpl at hs
  split at hs
  · cases hs
  · rw [Bool.false_and, if_neg Bool.false_ne_true] at hs
    split at hs
    · cases hs
    · exact ⟨mem_of_find?_eq_some hs, by simpa using find?_some hs⟩

/-- **What `add_impl` can do**: throw at once, or move the pending last irreversible block and then throw, find the block
there already, or put it in the index. -/
theorem addImpl_cases (T : BlockStateType β) (db : ForkDb β) (n : Option β) (ignoreDuplicate validate : Bool)
    (validator : Validator) : (∃ e, db.addImpl T n ignoreDuplicate validate validator = (db, .error e)) ∨
    ∃ b db1, n = some b ∧ db.root.isSome = true ∧ db.advancePendingLib T b = .ok db1 ∧
      ((∃ e, db.addImpl T n ignoreDuplicate validate validator = (db1, .error e)) ∨
        db.addImpl T n ignoreDuplicate validate validator = (db1, .ok .duplicate) ∨
        ∃ a, db.addImpl T n ignoreDuplicate validate validator = ({ db1 with index := b :: db1.index }, .ok a) ∧
          T.forest.find db1.index (T.id b) = none ∧ (db1.getBlockImpl T (T.previous b) true).isSome = true) := by
  cases hr : db.root.isSome with
  | false => exact .inl ⟨_, by unfold addImpl; rw [hr]; rfl⟩
  | true =>
    cases n with
    | none => exact .inl ⟨_, by unfold addImpl; rw [hr]; rfl⟩
    | some b =>
      have h1 : db.addImpl T (some b) ignoreDuplicate validate validator =
          db.attempt (db.advancePendingLib T b) fun db =>
            db.attempt (db.checkLink T b validate validator) fun _ => db.insert T b ignoreDuplicate := by
        unfold addImpl; rw [hr]; rfl
      rw [h1]
      cases hp : db.advancePendingLib T b with
      | error e => exact .inl ⟨e, rfl⟩
      | ok db1 =>
        refine .inr ⟨b, db1, rfl, rfl, hp, ?_⟩
        cases hl : db1.checkLink T b validate validator with
        | error e => exact .inl ⟨e, by simp only [attempt, hl]⟩
        | ok _ =>
          have hpr : (db1.getBlockImpl T (T.previous b) true).isSome = true := by
            unfold checkLink at hl
            split at hl
            · cases hl
            · rename_i hg; rw [hg]; rfl
          simp only [attempt, hl, insert]
          cases hf : T.forest.find db1.index (T.id b) with
          | some _ =>
            cases ignoreDuplicate with
            | true => exact .inr (.inl rfl)
            | false => exact .inl ⟨_, rfl⟩
          | none => exact .inr (.inr ⟨_, rfl, rfl, hpr⟩)

theorem advanceRootImpl_cases (T : BlockStateType β) (db : ForkDb β) (isValid : β → Bool) (id : BlockId) :
    (∃ e, db.advanceRootImpl T isValid id = (db, .error e)) ∨
    ∃ root newRoot, db.root = some root ∧ T.forest.find db.index id = some newRoot ∧ isValid newRoot = true ∧
      (db.blocksToRemove T newRoot).getLast? = some (T.id root) ∧
      db.advanceRootImpl T isValid id = (⟨some newRoot, db.pendingSavannaLibId,
        (db.blocksToRemove T newRoot).foldl T.forest.prune (T.forest.erase db.index id)⟩, .ok ()) := by
  cases hr : db.root with
  | none => exact .inl ⟨_, by rw [advanceRootImpl, hr]⟩
  | some root =>
    have hg : db.getBlockImpl T id false = T.forest.find db.index id := rfl
    cases hf : T.forest.find db.index id with
    | none => exact .inl ⟨_, by rw [advanceRootImpl, hr]; simp only [hg, hf]; rfl⟩
    | some newRoot =>
      simp only [advanceRootImpl, hr, hg, hf, attempt, eosAssert]
      cases hv : isValid newRoot with
      | false => exact .inl ⟨_, rfl⟩
      | true =>
        cases ho : (db.blocksToRemove T newRoot).getLast? == some (T.id root) with
        | false => exact .inl ⟨_, rfl⟩
        | true => exact .inr ⟨root, newRoot, rfl, rfl, hv, beq_iff_eq.1 ho, rfl⟩

/-! ## The tree -/

/-- **The blocks hang on the root.** -/
structure Inv (T : BlockStateType β) (db : ForkDb β) : Prop where
  unset : db.root = none → db.index = []
  rooted : ∀ r, db.root = some r → T.forest.Rooted db.index [T.id r]

theorem Inv.index (h : Inv T db) {l : List β} (hnil : db.index = [] → l = [])
    (hl : ∀ r, T.forest.Rooted db.index [T.id r] → T.forest.Rooted l [T.id r]) : Inv T { db with index := l } :=
  ⟨fun hr => hnil (h.unset hr), fun r hr => hl r (h.rooted r hr)⟩

theorem Inv.congr (h : Inv T db) (hr : db'.root = db.root) (hi : db'.index = db.index) : Inv T db' :=
  ⟨fun h' => by rw [hi]; exact h.unset (hr ▸ h'), fun r h' => by rw [hi]; exact h.rooted r (hr ▸ h')⟩

theorem Inv.exists_root (h : Inv T db) (hb : b ∈ db.index) : ∃ r, db.root = some r := by
  cases hr : db.root with
  | none => rw [h.unset hr] at hb; cases hb
  | some r => exact ⟨r, rfl⟩

theorem Inv.descends (h : Inv T db) {r b : β} (hr : db.root = some r) (hb : b ∈ db.index) :
    T.forest.Descends db.index (T.id r) b := by
  obtain ⟨k, hk, hd⟩ := (h.rooted r hr).descends hb
  rwa [← mem_singleton.1 hk]

theorem inv_init : Inv T init := ⟨fun _ => rfl, fun _ h => absurd h (by simp [init])⟩

theorem Inv.cons {b : β} (h : Inv T db) (hnew : T.forest.find db.index (T.id b) = none) (hroot : db.root.isSome = true)
    (hpr : (db.getBlockImpl T (T.previous b) true).isSome = true) : Inv T { db with index := b :: db.index } := by
  refine ⟨fun hr => absurd hroot (by rw [hr]; simp), fun r hr => ?_⟩
  refine (h.rooted r hr).cons (fun w hw => find_none hnew hw) ?_
  obtain ⟨p, hp⟩ := Option.isSome_iff_exists.1 hpr
  obtain ⟨hmem, hid⟩ := getBlockImpl_some hp
  rcases hmem with hmem | hmem
  · rw [hr] at hmem
    cases hmem
    exact .inl (mem_singleton.2 hid.symm)
  · exact .inr ⟨p, hmem, hid⟩

theorem Inv.add (h : Inv T db) (n : Option β) (ignoreDuplicate validate : Bool) (validator : Validator) :
    Inv T (db.addImpl T n ignoreDuplicate validate validator).1 := by
  rcases addImpl_cases T db n ignoreDuplicate validate validator with
    ⟨e, he⟩ | ⟨b, db1, -, hroot, hp, hr⟩
  · rw [he]; exact h
  · obtain ⟨hr1, hi⟩ := advancePendingLib_frame hp
    have h1 : Inv T db1 := h.congr hr1 hi
    rcases hr with ⟨e, he⟩ | he | ⟨a, he, hnew, hpr⟩
    · rw [he]; exact h1
    · rw [he]; exact h1
    · rw [he]
      exact h1.cons hnew (by rw [hr1]; exact hroot) hpr

theorem blocksToRemove_lt (hid : T.id newRoot = id) :
    ∀ k ∈ db.blocksToRemove T newRoot, numFromId k < numFromId id := by
  have hn := T.numbered newRoot
  rw [hid] at hn
  intro k hk
  rcases mem_cons.1 hk with rfl | hk
  · omega
  · obtain ⟨b, hb, rfl⟩ := mem_map.1 hk
    have h1 : numFromId (T.id b) ≤ numFromId (T.previous newRoot) := (mem_path (F := T.forest) _ b hb).2
    have h2 := T.numbered b
    omega

theorem Inv.advanceRoot (h : Inv T db) (isValid : β → Bool) (id : BlockId) :
    Inv T (db.advanceRootImpl T isValid id).1 := by
  rcases advanceRootImpl_cases T db isValid id with ⟨e, he⟩ | ⟨root, newRoot, hr, hf, -, hl, he⟩
  · rw [he]; exact h
  · rw [he]
    have hid : T.id newRoot = id := (find_some hf).2
    refine ⟨fun hn => (by cases hn), fun r hr' => ?_⟩
    cases hr'
    rw [hid]
    exact (prunes_spec (h.rooted root hr) (blocksToRemove_lt (find_some hf).2) (mem_of_getLast? hl)).1

theorem Inv.step (h : Inv T db) (op : Op β) : Inv T (db.step T op) := by
  cases op with
  | resetRoot rootBsp =>
    cases rootBsp with
    | none => exact h
    | some r => exact ⟨fun hn => (by cases hn), fun r' _ => Forest.Rooted.nil _⟩
  | add n ignoreDuplicate validate validator => exact h.add n ignoreDuplicate validate validator
  | remove id =>
    refine h.index (fun hn => ?_) fun r hr => (hr.prune id).weaken (fun k hk => (mem_filter.1 hk).1)
    rw [hn]
    exact sublist_nil.1 prune_sublist
  | removeFrom blockNum => exact h.index (fun hn => by rw [hn]; rfl) fun r hr => hr.filter_rank blockNum
  | advanceRoot isValid id => exact h.advanceRoot isValid id
  | setPendingSavannaLibId id =>
    exact h.congr (setPendingSavannaLibIdImpl_root db id) (setPendingSavannaLibIdImpl_index db id)

theorem setPendingSavannaLibIdImpl_pending (db : ForkDb β) (id : BlockId) :
    (db.setPendingSavannaLibIdImpl id).1.pendingSavannaLibId = db.pendingSavannaLibId ∨
      numFromId db.pendingSavannaLibId < numFromId (db.setPendingSavannaLibIdImpl id).1.pendingSavannaLibId := by
  unfold setPendingSavannaLibIdImpl
  split
  · rename_i hlt
    exact .inr hlt
  · exact .inl rfl

theorem advancePendingLib_pending (h : db.advancePendingLib T n = .ok db') :
    db'.pendingSavannaLibId = db.pendingSavannaLibId ∨
      numFromId db.pendingSavannaLibId < numFromId db'.pendingSavannaLibId := by
  obtain rfl | ⟨_, _, _, _, _, _, _, rfl⟩ := advancePendingLib_cases h
  · exact .inl rfl
  · exact setPendingSavannaLibIdImpl_pending _ _

/-- **A call that brings no new block**: fewer blocks, with the pending block and the root as they are or higher. -/
structure Shrinks (T : BlockStateType β) (db db' : ForkDb β) : Prop where
  index : ∀ b ∈ db'.index, b ∈ db.index
  pending : db'.pendingSavannaLibId = db.pendingSavannaLibId ∨
    numFromId db.pendingSavannaLibId < numFromId db'.pendingSavannaLibId
  root : ∀ r', db'.root = some r' →
    (db.root = some r' ∨ r' ∈ db.index) ∧ ∀ r, db.root = some r → T.blockNum r ≤ T.blockNum r'

theorem Shrinks.same_root (hr : db'.root = db.root) (hi : ∀ b ∈ db'.index, b ∈ db.index)
    (hp : db'.pendingSavannaLibId = db.pendingSavannaLibId ∨
      numFromId db.pendingSavannaLibId < numFromId db'.pendingSavannaLibId) : Shrinks T db db' := by
  refine ⟨hi, hp, fun r' hr' => ?_⟩
  rw [hr] at hr'
  refine ⟨.inl hr', fun r hr => ?_⟩
  rw [hr] at hr'
  cases hr'
  exact Nat.le_refl _

theorem Inv.shrinks_advanceRoot (h : Inv T db) (isValid : β → Bool) (id : BlockId) :
    Shrinks T db (db.advanceRootImpl T isValid id).1 := by
  rcases advanceRootImpl_cases T db isValid id with ⟨e, he⟩ | ⟨root, newRoot, hr, hf, -, hl, he⟩
  · rw [he]
    exact .same_root rfl (fun _ hb => hb) (.inl rfl)
  · rw [he]
    have hmem : newRoot ∈ db.index := (find_some hf).1
    have hpr := prunes_spec (h.rooted root hr) (blocksToRemove_lt (find_some hf).2) (mem_of_getLast? hl)
    refine ⟨fun b hb => (hpr.2 b |>.1 hb).mem, .inl rfl, fun r' hr' => ?_⟩
    cases hr'
    exact ⟨.inr hmem, fun r hr => Nat.le_of_lt (h.descends hr hmem).rank_lt⟩

/-- **What a call can do to the database**: reset it, bring no new block, or put a block on its parent. -/
theorem Inv.step_cases (h : Inv T db) (op : Op β) :
    (∃ r, op = .resetRoot (some r) ∧ db.step T op = ⟨some r, BlockId.zero, []⟩) ∨
    Shrinks T db (db.step T op) ∨
    ∃ b ignoreDuplicate validate validator db1 q, op = .add (some b) ignoreDuplicate validate validator ∧
      db.root.isSome = true ∧ db.advancePendingLib T b = .ok db1 ∧ T.forest.find db.index (T.id b) = none ∧
      (db.root = some q ∨ q ∈ db.index) ∧ T.id q = T.previous b ∧
      db.step T op = { db1 with index := b :: db.index } := by
  cases op with
  | resetRoot rootBsp =>
    cases rootBsp with
    | none => exact .inr (.inl (.same_root rfl (fun _ hb => hb) (.inl rfl)))
    | some r => exact .inl ⟨r, rfl, rfl⟩
  | add n ignoreDuplicate validate validator =>
    rw [ForkDb.step]
    rcases addImpl_cases T db n ignoreDuplicate validate validator with ⟨e, he⟩ | ⟨b, db1, rfl, hroot, hp, hre⟩
    · rw [he]
      exact .inr (.inl (.same_root rfl (fun _ hb => hb) (.inl rfl)))
    · obtain ⟨hr, hi⟩ := advancePendingLib_frame hp
      have hs : Shrinks T db db1 := .same_root hr (fun b hb => hi ▸ hb) (advancePendingLib_pending hp)
      rcases hre with ⟨e, he⟩ | he | ⟨a, he, hnew, hpr⟩
      · rw [he]; exact .inr (.inl hs)
      · rw [he]; exact .inr (.inl hs)
      · obtain ⟨q, hq⟩ := Option.isSome_iff_exists.1 hpr
        obtain ⟨hqm, hid⟩ := getBlockImpl_some hq
        rw [hr, hi] at hqm
        rw [he, hi]
        rw [hi] at hnew
        exact .inr (.inr ⟨b, _, _, _, db1, q, rfl, hroot, hp, hnew, hqm, hid, rfl⟩)
  | remove id => exact .inr (.inl (.same_root rfl (fun b hb => prune_sublist.subset hb) (.inl rfl)))
  | removeFrom blockNum => exact .inr (.inl (.same_root rfl (fun b hb => (mem_filter.1 hb).1) (.inl rfl)))
  | advanceRoot isValid id => exact .inr (.inl (h.shrinks_advanceRoot isValid id))
  | setPendingSavannaLibId id =>
    refine .inr (.inl (.same_root (setPendingSavannaLibIdImpl_root db id) (fun b hb => ?_)
      (setPendingSavannaLibIdImpl_pending db id)))
    exact setPendingSavannaLibIdImpl_index db id ▸ hb

theorem inv_run (ops : List (Op β)) : Inv T (run T ops) := by
  have h : ∀ (ops : List (Op β)) (db : ForkDb β), Inv T db → Inv T (ops.foldl (ForkDb.step T) db) := by
    intro ops
    induction ops with
    | nil => exact fun _ h => h
    | cons op ops ih => exact fun _ h => ih _ (h.step op)
  exact h ops init inv_init

theorem Inv.searchOnBranchImpl_isSome (h : Inv T db) {q : β} (hr : db.root = some r) (hq : q ∈ db.index)
    (h1 : T.blockNum r < blockNum) (h2 : blockNum ≤ T.blockNum q) :
    (db.searchOnBranchImpl T (T.id q) blockNum false).isSome = true := by
  obtain ⟨w, hw, hwn⟩ := exists_mem_path (h.rooted r hr) h1 hq h2
  unfold searchOnBranchImpl
  simp only [hr]
  rw [Bool.false_and, if_neg Bool.false_ne_true, if_neg (Nat.not_le.2 h1), find?_isSome]
  exact ⟨w, hw, beq_iff_eq.2 hwn⟩

/-- **A branch of blocks of a list** from `b` down to, and excluding, `r`: each names the next as its parent and has the
next higher number. -/
def Branch (T : BlockStateType β) (l : List β) (r b : β) : Prop :=
  ∃ p, p.head? = some b ∧ (∀ x ∈ p, x ∈ l) ∧
    (p ++ [r]).IsChain (fun x y => T.previous x = T.id y ∧ T.blockNum x = T.blockNum y + 1)

theorem branch_iff_descends {l : List β} : Branch T l r b ↔ T.forest.Descends l (T.id r) b := by
  have hr : ∀ x y, (T.previous x = T.id y ∧ T.blockNum x = T.blockNum y + 1) ↔ T.forest.parent x = T.forest.key y := by
    refine fun x y => ⟨And.left, fun h => ⟨h, ?_⟩⟩
    have hnum := T.numbered x
    rwa [show T.previous x = T.id y from h] at hnum
  rw [show T.id r = T.forest.key r from rfl, Forest.Descends.iff_path, Branch]
  simp only [hr]

theorem Inv.advanceRootImpl_ok_iff (h : Inv T db) (isValid : β → Bool) (id : BlockId) :
    (db.advanceRootImpl T isValid id).2 = .ok () ↔ ∃ b ∈ db.index, T.id b = id ∧ isValid b = true := by
  constructor
  · intro hok
    rcases advanceRootImpl_cases T db isValid id with ⟨e, he⟩ | ⟨root, newRoot, -, hf, hv, -, -⟩
    · rw [he] at hok; cases hok
    · exact ⟨newRoot, (find_some hf).1, (find_some hf).2, hv⟩
  · rintro ⟨b, hb, rfl, hv⟩
    obtain ⟨root, hr⟩ := h.exists_root hb
    have hroo := h.rooted root hr
    have hf : db.getBlockImpl T (T.id b) false = some b := find_of_mem hroo.distinct hb
    have hl : (db.blocksToRemove T b).getLast? = some (T.id root) := path_getLast? hroo hb
    simp [advanceRootImpl, hr, hf, attempt, eosAssert, hv, hl]

/-- **The tree of the fork database, over every sequence of calls**: the root is not in the index; every block of the
index has a branch of indexed blocks to the root; `advance_root` succeeds for the valid blocks of the index and leaves
exactly the blocks above the new root; `add` and `advance_root` leave root and index alone when they throw. -/
theorem index_run (T : BlockStateType β) (ops : List (Op β)) :
    (∀ r, (run T ops).root = some r → ∀ b ∈ (run T ops).index, T.id b ≠ T.id r) ∧
    (∀ b ∈ (run T ops).index, ∃ r, (run T ops).root = some r ∧ Branch T (run T ops).index r b) ∧
    (∀ isValid id, ((run T ops).advanceRootImpl T isValid id).2 = .ok () ↔
      ∃ b ∈ (run T ops).index, T.id b = id ∧ isValid b = true) ∧
    (∀ isValid id, ((run T ops).advanceRootImpl T isValid id).2 = .ok () →
      ∃ r ∈ (run T ops).index, T.id r = id ∧ ((run T ops).advanceRootImpl T isValid id).1.root = some r ∧
        ∀ b, b ∈ ((run T ops).advanceRootImpl T isValid id).1.index ↔ Branch T (run T ops).index r b) ∧
    (∀ isValid id e, ((run T ops).advanceRootImpl T isValid id).2 = .error e →
      ((run T ops).advanceRootImpl T isValid id).1.root = (run T ops).root ∧
      ((run T ops).advanceRootImpl T isValid id).1.index = (run T ops).index) ∧
    ∀ n ignoreDuplicate validate validator e,
      ((run T ops).addImpl T n ignoreDuplicate validate validator).2 = .error e →
        ((run T ops).addImpl T n ignoreDuplicate validate validator).1.root = (run T ops).root ∧
        ((run T ops).addImpl T n ignoreDuplicate validate validator).1.index = (run T ops).index := by
  have h : Inv T (run T ops) := inv_run ops
  generalize run T ops = db at h
  refine ⟨fun r hr b hb heq => ?_, fun b hb => ?_, h.advanceRootImpl_ok_iff, fun isValid id hok => ?_,
    fun isValid id e herr => ?_, fun n ignoreDuplicate validate validator e herr => ?_⟩
  · have hlt : numFromId (T.id r) < numFromId (T.id b) := (h.descends hr hb).rank_lt
    rw [heq] at hlt
    omega
  · obtain ⟨r, hr⟩ := h.exists_root hb
    exact ⟨r, hr, branch_iff_descends.2 (h.descends hr hb)⟩
  · rcases advanceRootImpl_cases T db isValid id with ⟨e, he⟩ | ⟨root, newRoot, hr, hf, -, hl, he⟩
    · rw [he] at hok; cases hok
    · obtain ⟨hm, hid⟩ := find_some hf
      refine ⟨newRoot, hm, hid, by rw [he], fun b => ?_⟩
      rw [he, branch_iff_descends, show T.id newRoot = id from hid]
      exact (prunes_spec (h.rooted root hr) (blocksToRemove_lt (find_some hf).2) (mem_of_getLast? hl)).2 b
  · rcases advanceRootImpl_cases T db isValid id with ⟨e', he⟩ | ⟨_, _, -, -, -, -, he⟩
    · rw [he]; exact ⟨rfl, rfl⟩
    · rw [he] at herr; cases herr
  · rcases addImpl_cases T db n ignoreDuplicate validate validator with
      ⟨e', he⟩ | ⟨b, db₁, -, -, hp, ⟨e', he⟩ | he | ⟨a, he, -⟩⟩
    · rw [he]; exact ⟨rfl, rfl⟩
    · rw [he]; exact advancePendingLib_frame hp
    · rw [he] at herr; cases herr
    · rw [he] at herr; cases herr

def sampleNumbered : BlockStateType (Nat × Nat × Nat) where
  id := fun b => ⟨b.1 + 1, b.2.1⟩
  previous := fun b => ⟨b.1, b.2.2⟩
  timestamp := fun b => b.1
  activatedProtocolFeatures := fun _ => []
  newProtocolFeatures := fun _ => none
  better := fun a b => decide (b.1 < a.1)
  savanna := none
  numbered := fun _ => rfl

def sampleFork : List (Op (Nat × Nat × Nat)) :=
  .resetRoot (some (4, 0, 0)) :: [(5, 1, 0), (5, 2, 0), (6, 3, 1), (6, 4, 2)].map
    (fun b => .add (some b) false false (fun _ _ _ => .ok ()))

theorem index_run_sampleFork : (run sampleNumbered sampleFork).index = [(6, 4, 2), (6, 3, 1), (5, 2, 0), (5, 1, 0)] ∧
    Branch sampleNumbered (run sampleNumbered sampleFork).index (5, 1, 0) (6, 3, 1) := by
  obtain ⟨-, -, -, had, -⟩ := index_run sampleNumbered sampleFork
  obtain ⟨r, hr, hid, -, hi⟩ := had (fun _ => true) ⟨6, 1⟩ rfl
  have hroot : r = (5, 1, 0) := by
    simp only [show (run sampleNumbered sampleFork).index = [(6, 4, 2), (6, 3, 1), (5, 2, 0), (5, 1, 0)] from rfl,
      mem_cons, not_mem_nil, or_false] at hr
    rcases hr with rfl | rfl | rfl | rfl
    · exact absurd hid (by decide)
    · exact absurd hid (by decide)
    · exact absurd hid (by decide)
    · rfl
  rw [hroot] at hi
  exact ⟨rfl, (hi (6, 3, 1)).1 (by decide)⟩

end ForkDb
end TheChannel
