import TheChannel.ForkDbRun
/-!
# ForkDbBranch — branches of the fork database, and their common ancestors

`fetch_branch_from`: the two blocks go down to the same number and then together. `Lineage` is the line of blocks from a
block to the root; what the function returns are the parts of the two lines in front of the first block they share. The walk of
`is_descendant_of` stops early, and still tells which blocks stand on another (`isDescendantOf_run`).
-/
namespace TheChannel
open List

namespace ForkDb
variable {β : Type} (T : BlockStateType β) (db : ForkDb β)

/-- `(id == root->id()) ? root : get_block_impl(id)`. -/
def blockOrRoot (root : β) (id : BlockId) : Option β := if id = T.id root then some root else db.getBlockImpl T id false

def walkDown (root : β) (target : Nat) : Nat → β → Result (List β × β)
  | 0, b => .ok ([], b)
  | n + 1, b =>
    if target < T.blockNum b then
      match db.blockOrRoot T root (T.previous b) with
      | none => .error (.thrown .forkDbBlockNotFound "block ${id} does not exist")
      | some prev => (walkDown root target n prev).map fun r => (b :: r.1, r.2)
    else .ok ([], b)

def walkBoth : Nat → β → β → Result (List β × List β)
  | 0, a, b => .ok ([a], [b])
  | n + 1, a, b =>
    if T.previous a ≠ T.previous b then
      match db.getBlockImpl T (T.previous a) false, db.getBlockImpl T (T.previous b) false with
      | some a', some b' => (walkBoth n a' b').map fun r => (a :: r.1, b :: r.2)
      | _, _ => .error (.thrown .forkDbBlockNotFound "block ${id} does not exist")
    else .ok ([a], [b])

def fetchBranchFromImpl (first second : BlockId) : Result (List β × List β) :=
  match db.root with
  | none => .error (.undefined "root->id()")
  | some root =>
    match db.blockOrRoot T root first, db.blockOrRoot T root second with
    | some firstBranch, some secondBranch =>
      db.walkDown T root (T.blockNum secondBranch) (T.blockNum firstBranch) firstBranch >>= fun a =>
      db.walkDown T root (T.blockNum a.2) (T.blockNum secondBranch) secondBranch >>= fun b =>
      if T.id a.2 = T.id b.2 then .ok (a.1, b.1)
      else (db.walkBoth T (T.blockNum a.2) a.2 b.2).map (fun r => (a.1 ++ r.1, b.1 ++ r.2))
    | _, _ => .error (.thrown .forkDbBlockNotFound "block #${n} ${id} does not exist")

/-! ## Lines to the root -/

/-- **The blocks from a block down to the root.** -/
inductive Lineage (index : List β) (root : β) : β → List β → Prop
  | root : Lineage index root root [root]
  | next {a p : β} {l : List β} (mem : a ∈ index) (parent : T.previous a = T.id p) (below : Lineage index root p l) :
      Lineage index root a (a :: l)

variable {T db} {root a b : β} {l m : List β}

theorem Lineage.head (h : Lineage T db.index root a l) : ∃ l', l = a :: l' := by
  cases h with
  | root => exact ⟨[], rfl⟩
  | next _ _ _ => exact ⟨_, rfl⟩

theorem Lineage.known (h : Lineage T db.index root a l) : a = root ∨ a ∈ db.index := by
  cases h with
  | root => exact .inl rfl
  | next mem _ _ => exact .inr mem

theorem blockNum_parent {p : β} (h : T.previous a = T.id p) : T.blockNum a = T.blockNum p + 1 := by
  unfold BlockStateType.blockNum
  rw [T.numbered, h]

section Root

variable (hinv : Inv T db) (hroot : db.root = some root)

include hinv hroot

theorem Inv.root_lt (ha : a ∈ db.index) : T.blockNum root < T.blockNum a := (hinv.descends hroot ha).rank_lt

section

variable (ha : a = root ∨ a ∈ db.index)

include ha

theorem Inv.root_le : T.blockNum root ≤ T.blockNum a := by
  rcases ha with rfl | ha
  · exact Nat.le_refl _
  · exact Nat.le_of_lt (hinv.root_lt hroot ha)

theorem Inv.root_of_num (hnum : T.blockNum a ≤ T.blockNum root) : a = root :=
  ha.resolve_right fun hmem => absurd (hinv.root_lt hroot hmem) (by omega)

theorem Inv.eq_of_id (hb : b = root ∨ b ∈ db.index) (hid : T.id a = T.id b) : a = b := by
  have hnum : T.blockNum a = T.blockNum b := congrArg numFromId hid
  rcases ha with rfl | ha
  · exact (hinv.root_of_num hroot hb (by omega)).symm
  · rcases hb with rfl | hb
    · exact hinv.root_of_num hroot (.inr ha) (by omega)
    · exact Forest.eq_of_key (hinv.rooted root hroot).distinct ha hb hid

end

theorem Inv.getBlockImpl_eq (ha : a ∈ db.index) : db.getBlockImpl T (T.id a) false = some a :=
  Forest.find_of_mem (hinv.rooted root hroot).distinct ha

theorem Inv.blockOrRoot_eq (ha : a = root ∨ a ∈ db.index) : db.blockOrRoot T root (T.id a) = some a := by
  unfold blockOrRoot
  split
  · rename_i hid
    rw [hinv.eq_of_id hroot ha (.inl rfl) hid]
  · rename_i hid
    exact hinv.getBlockImpl_eq hroot (ha.resolve_left (fun h => hid (by rw [h])))

theorem Inv.exists_lineage (ha : a = root ∨ a ∈ db.index) : ∃ l, Lineage T db.index root a l := by
  rcases ha with rfl | ha
  · exact ⟨_, .root⟩
  · induction hinv.descends hroot ha with
    | child mem parent => exact ⟨_, .next mem parent .root⟩
    | next mem parent above ih =>
      obtain ⟨l, hl⟩ := ih above.mem
      exact ⟨_, .next mem parent hl⟩

theorem Inv.lineage_unique (hl : Lineage T db.index root a l) : ∀ {m}, Lineage T db.index root a m → l = m := by
  induction hl with
  | root =>
    intro m hm
    cases hm with
    | root => rfl
    | next mem _ _ => exact absurd (hinv.root_lt hroot mem) (by omega)
  | next mem parent below ih =>
    intro m hm
    cases hm with
    | root => exact absurd (hinv.root_lt hroot mem) (by omega)
    | next _ parent' below' =>
      have hp := hinv.eq_of_id hroot below.known below'.known (parent.symm.trans parent')
      subst hp
      rw [ih below']

/-! ## The loops -/

theorem Inv.walkDown_eq {target : Nat} (ht : T.blockNum root ≤ target) : ∀ {n : Nat} {a : β} {l},
    Lineage T db.index root a l → T.blockNum a ≤ n → ∃ as c m, db.walkDown T root target n a = .ok (as, c) ∧
      l = as ++ m ∧ Lineage T db.index root c m ∧ (∀ x ∈ as, T.blockNum c < T.blockNum x) ∧
      T.blockNum c = min (T.blockNum a) target ∧ (T.blockNum a ≤ target → as = [])
  | 0, a, l, hl, hn => ⟨[], a, l, rfl, rfl, hl, by simp, by omega, fun _ => rfl⟩
  | n + 1, a, l, hl, hn => by
    rw [walkDown]
    split
    · rename_i hlt
      cases hl with
      | root => omega
      | @next _ p l mem parent below =>
        have hnum := blockNum_parent parent
        obtain ⟨as, c, m, hw, hs, hc, hab, hmin, -⟩ := walkDown_eq ht below (n := n) (by omega)
        rw [parent, hinv.blockOrRoot_eq hroot below.known]
        simp only [hw, Except.map]
        refine ⟨a :: as, c, m, rfl, by rw [hs]; rfl, hc, fun x hx => ?_, by omega, fun h => absurd h (by omega)⟩
        rcases mem_cons.1 hx with rfl | hx
        · omega
        · exact hab x hx
    · exact ⟨[], a, l, rfl, rfl, hl, by simp, by omega, fun _ => rfl⟩

theorem Inv.walkBoth_eq : ∀ {n : Nat} {a b : β} {l m}, Lineage T db.index root a l →
    Lineage T db.index root b m → T.blockNum a = T.blockNum b → T.id a ≠ T.id b → T.blockNum a ≤ n →
    ∃ as bs c rest, db.walkBoth T n a b = .ok (as, bs) ∧ l = as ++ c :: rest ∧ m = bs ++ c :: rest ∧
      (∀ x ∈ as, ∀ y ∈ bs, T.id x ≠ T.id y) ∧ (∀ x ∈ as, T.blockNum x ≤ T.blockNum a) ∧
      ∀ y ∈ bs, T.blockNum y ≤ T.blockNum b := by
  intro n a b l m hl hm hnum hid hn
  -- neither is the root
  cases hl with
  | root => exact absurd (hinv.root_of_num hroot hm.known (by omega)) fun h => hid (by rw [h])
  | @next _ p l mem parent below =>
    cases hm with
    | root => exact absurd (hinv.root_lt hroot mem) (by omega)
    | @next _ q m mem' parent' below' =>
      have hp := blockNum_parent parent
      have hq := blockNum_parent parent'
      cases n with
      | zero => omega
      | succ n =>
        rw [walkBoth, parent, parent']
        split
        · rename_i hne
          have hpi : p ∈ db.index := below.known.resolve_left fun h =>
            hne (by rw [hinv.root_of_num hroot below'.known (by rw [← h]; omega), h])
          have hqi : q ∈ db.index := below'.known.resolve_left fun h =>
            hne (by rw [hinv.root_of_num hroot below.known (by rw [← h]; omega), h])
          obtain ⟨as, bs, c, rest, hw, hls, hms, hd, hle, hle'⟩ :=
            walkBoth_eq below below' (by omega) hne (n := n) (by omega)
          simp only [hinv.getBlockImpl_eq hroot hpi, hinv.getBlockImpl_eq hroot hqi, hw, Except.map]
          refine ⟨a :: as, b :: bs, c, rest, rfl, by rw [hls]; rfl, by rw [hms]; rfl, ?_, ?_, ?_⟩
          · intro x hx y hy heq
            have hxy : T.blockNum x = T.blockNum y := congrArg numFromId heq
            rcases mem_cons.1 hx with rfl | hx <;> rcases mem_cons.1 hy with rfl | hy
            · exact hid heq
            · have := hle' y hy
              omega
            · have := hle x hx
              omega
            · exact hd x hx y hy heq
          · intro x hx
            rcases mem_cons.1 hx with rfl | hx
            · exact Nat.le_refl _
            · have := hle x hx
              omega
          · intro y hy
            rcases mem_cons.1 hy with rfl | hy
            · exact Nat.le_refl _
            · have := hle' y hy
              omega
        · rename_i heq
          have hpq := hinv.eq_of_id hroot below.known below'.known (not_not.1 heq)
          subst hpq
          obtain ⟨rest, hr⟩ := below.head
          obtain rfl := hinv.lineage_unique hroot below below'
          exact ⟨[a], [b], p, rest, rfl, by rw [hr]; rfl, by rw [hr]; rfl, by simpa using hid, by simp, by simp⟩

end Root

/-- **`fetch_branch_from` returns the two lines down to the first block they share**, that block excluded, for any two blocks
of a reachable database. -/
theorem fetchBranchFrom_run (T : BlockStateType β) (ops : List (Op β)) {root a b : β} (hroot : (run T ops).root = some root)
    (ha : a = root ∨ a ∈ (run T ops).index) (hb : b = root ∨ b ∈ (run T ops).index) :
    ∃ as bs c rest, (run T ops).fetchBranchFromImpl T (T.id a) (T.id b) = .ok (as, bs) ∧
      Lineage T (run T ops).index root a (as ++ c :: rest) ∧ Lineage T (run T ops).index root b (bs ++ c :: rest) ∧
      ∀ x ∈ as, ∀ y ∈ bs, T.id x ≠ T.id y := by
  have hinv := inv_run (T := T) ops
  generalize run T ops = db at hroot ha hb hinv ⊢
  obtain ⟨l, hl⟩ := hinv.exists_lineage hroot ha
  obtain ⟨m, hm⟩ := hinv.exists_lineage hroot hb
  have hra := hinv.root_le hroot ha
  have hrb := hinv.root_le hroot hb
  obtain ⟨as, c, l', hw, hls, hc, hab, hcn, hs⟩ := hinv.walkDown_eq hroot hrb hl (Nat.le_refl _)
  have hrc : T.blockNum root ≤ T.blockNum c := by omega
  obtain ⟨bs, d, m', hw', hms, hd, ha', hdn, hs'⟩ := hinv.walkDown_eq hroot hrc hm (Nat.le_refl _)
  have hnum : T.blockNum c = T.blockNum d := by omega
  -- at most one of the two went down alone
  have hone : as = [] ∨ bs = [] := by
    rcases Nat.le_total (T.blockNum a) (T.blockNum b) with h | h
    · exact .inl (hs h)
    · exact .inr (hs' (by omega))
  unfold fetchBranchFromImpl
  simp only [hroot, hinv.blockOrRoot_eq hroot ha, hinv.blockOrRoot_eq hroot hb, hw, hw', ok_bind]
  subst hls hms
  split
  · rename_i hid
    obtain rfl := hinv.eq_of_id hroot hc.known hd.known hid
    obtain rfl := hinv.lineage_unique hroot hc hd
    obtain ⟨rest, rfl⟩ := hc.head
    exact ⟨as, bs, c, rest, rfl, hl, hm, by rcases hone with rfl | rfl <;> simp⟩
  · rename_i hid
    obtain ⟨as', bs', e, rest, hbo, rfl, rfl, hdi, hle, hle'⟩ := hinv.walkBoth_eq hroot hc hd hnum hid (Nat.le_refl _)
    rw [hbo]
    refine ⟨as ++ as', bs ++ bs', e, rest, rfl, by rwa [append_assoc], by rwa [append_assoc], ?_⟩
    intro x hx y hy heq
    have hxy : T.blockNum x = T.blockNum y := congrArg numFromId heq
    rcases mem_append.1 hx with hx | hx <;> rcases mem_append.1 hy with hy | hy
    · rcases hone with rfl | rfl
      · cases hx
      · cases hy
    · have := hab x hx
      have := hle' y hy
      omega
    · have := ha' y hy
      have := hle x hx
      omega
    · exact hdi x hx y hy heq

theorem fetchBranchFrom_run_sampleFork :
    (run sampleNumbered sampleFork).fetchBranchFromImpl sampleNumbered ⟨7, 3⟩ ⟨6, 2⟩ =
      .ok ([(6, 3, 1), (5, 1, 0)], [(5, 2, 0)]) ∧
    ∃ as bs c rest, (run sampleNumbered sampleFork).fetchBranchFromImpl sampleNumbered ⟨7, 3⟩ ⟨6, 2⟩ = .ok (as, bs) ∧
      Lineage sampleNumbered (run sampleNumbered sampleFork).index (4, 0, 0) (6, 3, 1) (as ++ c :: rest) := by
  obtain ⟨as, bs, c, rest, h, hl, -⟩ := @fetchBranchFrom_run _ sampleNumbered sampleFork (4, 0, 0) (6, 3, 1) (5, 2, 0) rfl
    (.inr (by decide)) (.inr (by decide))
  exact ⟨rfl, as, bs, c, rest, h, hl⟩

/-! ## `is_descendant_of` -/

variable (T db)

def descendsLoop (ancestor : BlockId) : List β → Bool
  | [] => false
  | b :: bs =>
    if T.previous b = ancestor then true
    else if T.blockNum b ≤ numFromId ancestor + 1 then false
    else descendsLoop ancestor bs

def isDescendantOfImpl (ancestor descendant : BlockId) : Bool :=
  if numFromId descendant ≤ numFromId ancestor then false else descendsLoop T ancestor (T.forest.path db.index descendant)

variable {T db} {ancestor : BlockId}

theorem descendsLoop_iff (hn : (db.index.map T.id).Nodup) (k : BlockId) : numFromId ancestor < numFromId k →
    (descendsLoop T ancestor (T.forest.path db.index k) = true ↔ ∃ d, T.id d = k ∧ T.forest.Descends db.index ancestor d) := by
  refine Forest.path_induction (P := fun k p => numFromId ancestor < numFromId k →
    (descendsLoop T ancestor p = true ↔ ∃ d, T.id d = k ∧ T.forest.Descends db.index ancestor d)) (fun k hf _ => ?_) ?_ k
  · refine ⟨fun h => (by cases h), ?_⟩
    rintro ⟨d, hd, hde⟩
    exact absurd hd (Forest.find_none hf hde.mem)
  · intro k v hf ih hlt
    obtain ⟨hv, rfl⟩ := Forest.find_some hf
    have hnum : T.blockNum v = numFromId (T.previous v) + 1 := T.numbered v
    have honly : ∀ d, T.id d = T.id v → T.forest.Descends db.index ancestor d → d = v := fun d hd hde =>
      Forest.eq_of_key (F := T.forest) hn hde.mem hv hd
    rw [descendsLoop]
    split_ifs with hp hle
    · exact ⟨fun _ => ⟨v, rfl, .child hv hp⟩, fun _ => rfl⟩
    · refine ⟨fun h => (by cases h), ?_⟩
      rintro ⟨d, hd, hde⟩
      cases honly d hd hde
      cases hde with
      | child _ parent => exact absurd parent hp
      | next _ parent above =>
        have hra : numFromId ancestor < numFromId (T.previous v) := (show T.previous v = _ from parent) ▸ above.rank_lt
        omega
    · rw [ih (show numFromId ancestor < numFromId (T.previous v) by omega)]
      constructor
      · rintro ⟨w, hw, hde⟩
        exact ⟨v, rfl, .next hv hw.symm hde⟩
      · rintro ⟨d, hd, hde⟩
        cases honly d hd hde
        cases hde with
        | child _ parent => exact absurd parent hp
        | next _ parent above => exact ⟨_, parent.symm, above⟩

theorem isDescendantOfImpl_iff (hn : (db.index.map T.id).Nodup) (ancestor descendant : BlockId) :
    db.isDescendantOfImpl T ancestor descendant = true ↔ ∃ d, T.id d = descendant ∧ T.forest.Descends db.index ancestor d := by
  rw [isDescendantOfImpl]
  split_ifs with hle
  · refine ⟨fun h => (by cases h), ?_⟩
    rintro ⟨d, rfl, hde⟩
    exact absurd hde.rank_lt (Nat.not_lt.2 hle)
  · exact descendsLoop_iff hn descendant (Nat.not_le.1 hle)

/-- **`is_descendant_of` is exact** after every sequence of calls, and tells what `remove` and `advance_root` leave. -/
theorem isDescendantOf_run (T : BlockStateType β) (ops : List (Op β)) : let db := run T ops
    (∀ ancestor descendant, db.isDescendantOfImpl T ancestor descendant = true ↔
      ∃ d, T.id d = descendant ∧ T.forest.Descends db.index ancestor d) ∧
    (∀ id b, b ∈ (db.removeImpl T id).index ↔ b ∈ db.index ∧ T.id b ≠ id ∧ db.isDescendantOfImpl T id (T.id b) = false) ∧
    ∀ isValid id, (db.advanceRootImpl T isValid id).2 = .ok () → ∀ b, b ∈ (db.advanceRootImpl T isValid id).1.index ↔
      b ∈ db.index ∧ db.isDescendantOfImpl T id (T.id b) = true := by
  have h : Inv T (run T ops) := inv_run ops
  generalize run T ops = db at h
  have hn : (db.index.map T.id).Nodup := by
    cases hr : db.root with
    | none => rw [h.unset hr]; exact nodup_nil
    | some r => exact (h.rooted r hr).distinct
  have hmem : ∀ id b, b ∈ db.index → (db.isDescendantOfImpl T id (T.id b) = true ↔ T.forest.Descends db.index id b) := by
    refine fun id b hb => (isDescendantOfImpl_iff hn id (T.id b)).trans ⟨?_, fun hde => ⟨b, rfl, hde⟩⟩
    rintro ⟨d, hd, hde⟩
    rwa [← Forest.eq_of_key (F := T.forest) hn hde.mem hb hd]
  refine ⟨isDescendantOfImpl_iff hn, fun id b => (Forest.mem_prune hn).trans (and_congr_right fun hb => and_congr_right fun _ => ?_),
    fun isValid id hok b => ?_⟩
  · rw [← hmem id b hb, Bool.not_eq_true]
  · rcases advanceRootImpl_cases T db isValid id with ⟨e, he⟩ | ⟨root, newRoot, hr, hf, -, hl, he⟩
    · rw [he] at hok
      cases hok
    · rw [he]
      refine (Forest.prunes_spec (h.rooted root hr) (blocksToRemove_lt (Forest.find_some hf).2) (mem_of_getLast? hl)).2 b |>.trans ?_
      exact ⟨fun hde => ⟨hde.mem, (hmem id b hde.mem).2 hde⟩, fun hb => (hmem id b hb.1).1 hb.2⟩

theorem isDescendantOf_run_sampleFork : let db := run sampleNumbered sampleFork
    ∀ b, b ∈ (db.advanceRootImpl sampleNumbered (fun _ => true) ⟨6, 1⟩).1.index ↔
      b ∈ db.index ∧ db.isDescendantOfImpl sampleNumbered ⟨6, 1⟩ (sampleNumbered.id b) = true :=
  (isDescendantOf_run sampleNumbered sampleFork).2.2 (fun _ => true) ⟨6, 1⟩ rfl

end ForkDb
end TheChannel
