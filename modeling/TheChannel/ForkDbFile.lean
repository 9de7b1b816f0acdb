import Mathlib.Data.List.Sort
import TheChannel.PendingLib
/-!
# ForkDbFile — writing the fork database and reading it back

`close_impl` writes the pending last irreversible block, the root and the blocks, the blocks in the reverse of the
`by_best_branch` order; `open_impl` reads them and adds the blocks one by one. A child has a later timestamp than its
parent and its claim is no older, so the reverse order lists every parent before its children. A strong claim on a block
above the root was seen when the block was first added, so adding the blocks again leaves the pending block where it is.
-/
namespace TheChannel
open List

namespace ForkDb
variable {β τ : Type} {T : BlockStateType β} {db : ForkDb β} {n p : β} {id : BlockId} {W : List SavannaBlock} {r : SavannaBlock}

/-! ## The file -/

/-- `fc::raw::pack` and `fc::raw::unpack` of what the file holds. -/
structure FileCodec (τ β : Type) where
  id : Codec τ BlockId
  state : Codec τ β
  size : Codec τ Nat

def byBestBranch (T : BlockStateType β) (index : List β) : List β :=
  index.insertionSort (fun a b => T.better b a = false)

/-- The file of a database with this root: the blocks from `rbegin` to `rend`. -/
def fileOf (T : BlockStateType β) (codec : FileCodec τ β) (db : ForkDb β) (root : β) : List τ :=
  codec.id.pack db.pendingSavannaLibId ++ (codec.state.pack root ++
    (codec.size.pack db.index.length ++ (byBestBranch T db.index).reverse.flatMap codec.state.pack))

def closeImpl (T : BlockStateType β) (codec : FileCodec τ β) (db : ForkDb β) : ForkDb β × Result (List τ) :=
  match db.root with
  | none => (db, .error (.assertion "!!root"))
  | some root => ({ db with index := [] }, .ok (fileOf T codec db root))

def unpack {α : Type} (codec : Codec τ α) (ds : List τ) : Result (α × List τ) :=
  match codec.unpack ds with
  | none => .error (.thrown .iosFailure "cfile: ${p} unable to read ${n} bytes")
  | some r => .ok r

def andThen {α γ : Type} (r : ForkDb β × Result α) (f : ForkDb β → ForkDb β × Result γ) : ForkDb β × Result γ :=
  match r with
  | (db, .error e) => (db, .error e)
  | (db, .ok _) => f db

def openBlocks (T : BlockStateType β) (codec : FileCodec τ β) (validator : Validator) :
    Nat → ForkDb β → List τ → ForkDb β × Result (List τ)
  | 0, db, ds => (db, .ok ds)
  | n + 1, db, ds =>
    db.attempt (unpack codec.state ds) fun s =>
    andThen (db.addImpl T (some s.1) false true validator) fun db => openBlocks T codec validator n db s.2

def openImpl (T : BlockStateType β) (codec : FileCodec τ β) (validator : Validator) (db : ForkDb β) (ds : List τ) :
    ForkDb β × Result (List τ) :=
  db.attempt (unpack codec.id ds) fun savannaLibId =>
  db.attempt (unpack codec.state savannaLibId.2) fun root =>
  -- resets pending_savanna_lib_id
  let db := ((db.resetRootImpl (some root.1)).1.setPendingSavannaLibIdImpl savannaLibId.1).1
  db.attempt (unpack codec.size root.2) fun size =>
  openBlocks T codec validator size.1 db size.2

@[simp] theorem unpack_pack {α : Type} (codec : Codec τ α) (a : α) (rest : List τ) :
    unpack codec (codec.pack a ++ rest) = .ok (a, rest) := by
  rw [unpack, codec.roundTrip]

/-! ## The order of the blocks -/

/-- **`by_best_branch` is a strict order** that tells blocks of different ids apart. -/
structure Ordered (T : BlockStateType β) : Prop where
  asymm : ∀ {a b}, T.better a b = true → T.better b a = false
  negTrans : ∀ {a b c}, T.better b a = false → T.better c b = false → T.better c a = false
  total : ∀ {a b}, T.better a b = false → T.better b a = false → T.id a = T.id b

namespace Ordered
variable {T : BlockStateType β} {l l' : List β} {a b c : β}

theorem trans (h : Ordered T) (hab : T.better a b = true) (hbc : T.better b c = true) : T.better a c = true := by
  cases hac : T.better a c with
  | true => rfl
  | false =>
    rw [h.negTrans (h.asymm hbc) hac] at hab
    cases hab

theorem best_spec (h : Ordered T) : ∀ {l} {m : β}, best T l = some m → m ∈ l ∧ ∀ b ∈ l, T.better b m = false
  | [], _, hm => by cases hm
  | b :: bs, m, hm => by
    have hi : ∀ x, T.better x x = false := fun x => by
      cases hx : T.better x x with
      | false => rfl
      | true => exact absurd (h.asymm hx) (by simp [hx])
    rw [best] at hm
    cases hc : best T bs with
    | none =>
      have hbs : bs = [] := by
        cases bs with
        | nil => rfl
        | cons x xs =>
          rw [best] at hc
          split at hc <;> cases hc
      rw [hc] at hm
      cases hm
      subst hbs
      exact ⟨mem_cons_self .., fun x hx => by rw [mem_singleton.1 hx]; exact hi b⟩
    | some c =>
      obtain ⟨hmem, hmax⟩ := h.best_spec hc
      rw [hc] at hm
      cases hm
      cases hbc : T.better b c with
      | true =>
        rw [if_pos rfl]
        refine ⟨mem_cons_self .., forall_mem_cons.2 ⟨hi b, fun x hx => ?_⟩⟩
        cases hxb : T.better x b with
        | false => rfl
        | true => exact absurd (h.trans hxb hbc) (by simp [hmax x hx])
      | false =>
        rw [if_neg Bool.false_ne_true]
        exact ⟨mem_cons_of_mem _ hmem, forall_mem_cons.2 ⟨hbc, hmax⟩⟩

theorem best_isSome : ∀ {l}, l ≠ [] → ∃ m, best T l = some m
  | [], h => absurd rfl h
  | b :: bs, _ => by
    rw [best]
    split
    · exact ⟨_, rfl⟩
    · exact ⟨_, rfl⟩

theorem best_congr (h : Ordered T) (hl : (l.map T.id).Nodup) (hmem : ∀ b, b ∈ l ↔ b ∈ l') : best T l = best T l' := by
  cases l with
  | nil =>
    have : l' = [] := eq_nil_iff_forall_not_mem.2 fun b hb => not_mem_nil ((hmem b).2 hb)
    rw [this]
  | cons x xs =>
    have hne : l' ≠ [] := ne_nil_of_mem ((hmem x).1 (mem_cons_self ..))
    obtain ⟨m, hm⟩ := best_isSome (T := T) (l := x :: xs) (by simp)
    obtain ⟨m', hm'⟩ := best_isSome (T := T) hne
    obtain ⟨h1, h2⟩ := h.best_spec hm
    obtain ⟨h3, h4⟩ := h.best_spec hm'
    have hid : T.id m = T.id m' := h.total (h4 m ((hmem m).1 h1)) (h2 m' ((hmem m').2 h3))
    rw [hm, hm', Forest.eq_of_key (F := T.forest) hl h1 ((hmem m').2 h3) hid]

theorem pairwise_byBestBranch (h : Ordered T) (l : List β) :
    (byBestBranch T l).Pairwise (fun a b => T.better b a = false) := by
  have : Std.Total (fun a b : β => T.better b a = false) := ⟨fun a b => by
    cases hb : T.better b a with
    | false => exact .inl rfl
    | true => exact .inr (h.asymm hb)⟩
  have : IsTrans β (fun a b : β => T.better b a = false) := ⟨fun _ _ _ => h.negTrans⟩
  exact pairwise_insertionSort _ l

end Ordered

/-! ## Adding the blocks again -/

def checkFeatures (T : BlockStateType β) (validator : Validator) (n prevBh : β) : Result Unit :=
  match T.newProtocolFeatures n with
  | some newProtocolFeatures =>
    rethrow .forkDatabase "serialized fork database is incompatible with configured protocol features"
      (validator (T.timestamp n) (T.activatedProtocolFeatures prevBh) newProtocolFeatures)
  | none => .ok ()

theorem checkLink_eq {validator : Validator} (hp : db.getBlockImpl T (T.previous n) true = some p) :
    db.checkLink T n true validator = checkFeatures T validator n p := by
  unfold checkLink checkFeatures
  rw [hp]
  cases T.newProtocolFeatures n <;> rfl

/-- **A block whose parent is there, whose id is not, and which leaves the pending block alone, is added** unless its
protocol features are refused. -/
theorem addImpl_new (validator : Validator) (hroot : db.root.isSome = true)
    (hpe : db.advancePendingLib T n = .ok db) (hp : db.getBlockImpl T (T.previous n) true = some p)
    (hnew : T.forest.find db.index (T.id n) = none) :
    (∃ e, checkFeatures T validator n p = .error e ∧ db.addImpl T (some n) false true validator = (db, .error e)) ∨
    ∃ a, db.addImpl T (some n) false true validator = ({ db with index := n :: db.index }, .ok a) := by
  have h1 : db.addImpl T (some n) false true validator =
      db.attempt (checkFeatures T validator n p) fun _ => db.insert T n false := by
    simp only [addImpl, hroot, eosAssert, if_true, attempt, hpe, checkLink_eq hp]
  rw [h1]
  cases hc : checkFeatures T validator n p with
  | error e => exact .inl ⟨e, rfl, rfl⟩
  | ok _ =>
    refine .inr ⟨db.added T { db with index := n :: db.index } n, ?_⟩
    simp only [attempt, insert, hnew]

theorem getBlockImpl_parent
    (hp : db.root = some p ∨ p ∈ db.index) (hid : T.id p = id) : ∃ q, db.getBlockImpl T id true = some q := by
  unfold getBlockImpl
  split
  · rename_i hc
    cases hr : db.root with
    | none => simp [hr] at hc
    | some r => exact ⟨r, rfl⟩
  · rename_i hc
    rcases hp with hp | hp
    · exact absurd (by simp [hp, hid]) hc
    · exact Option.isSome_iff_exists.1 (find?_isSome.2 ⟨p, hp, beq_iff_eq.2 hid⟩)

/-! ## Savanna blocks -/

def bestBranchKey (b : SavannaBlock) : Nat × Nat × Nat × Nat :=
  (b.block.core.latestQcBlockTimestamp.toOption.getD 0, b.block.time, b.id.num, b.id.hash)

theorem better_iff (a b : SavannaBlock) : savannaType.better a b = true ↔
    (bestBranchKey b).1 < (bestBranchKey a).1 ∨ ((bestBranchKey a).1 = (bestBranchKey b).1 ∧
      ((bestBranchKey b).2.1 < (bestBranchKey a).2.1 ∨ ((bestBranchKey a).2.1 = (bestBranchKey b).2.1 ∧
        ((bestBranchKey b).2.2.1 < (bestBranchKey a).2.2.1 ∨ ((bestBranchKey a).2.2.1 = (bestBranchKey b).2.2.1 ∧
          (bestBranchKey b).2.2.2 < (bestBranchKey a).2.2.2))))) := by
  simp only [savannaType, SavannaBlock.better, bestBranchKey, Bool.or_eq_true, Bool.and_eq_true, decide_eq_true_eq,
    beq_iff_eq]

theorem savanna_ordered : Ordered savannaType := by
  refine ⟨fun {a b} h => ?_, fun {a b c} h1 h2 => ?_, fun {a b} h1 h2 => ?_⟩
  · rw [← Bool.not_eq_true, better_iff]
    rw [better_iff] at h
    omega
  · rw [← Bool.not_eq_true, better_iff] at h1 h2 ⊢
    omega
  · rw [← Bool.not_eq_true, better_iff] at h1 h2
    have hnum : (bestBranchKey a).2.2.1 = (bestBranchKey b).2.2.1 := by omega
    have hh : (bestBranchKey a).2.2.2 = (bestBranchKey b).2.2.2 := by omega
    exact BlockId.mk.injEq .. |>.mpr ⟨hnum, hh⟩

theorem better_of_parent (hW : Linked W) {n p : SavannaBlock} (hn : n ∈ W) (hp : p ∈ W)
    (hid : n.previous = p.id) (hne : p.ancestors ≠ []) : savannaType.better n p = true := by
  have hh : headers n.ancestors = headers p.branch := hW p hp n hn hid
  have hnn := hW.ancestors_ne hp hn hid
  obtain ⟨q, qs, hq⟩ := exists_cons_of_ne_nil hnn
  have hsuf : q :: qs <:+ n.branch := hq ▸ suffix_cons _ _
  have hvq := n.valid.suffix hsuf (by simp)
  -- the timestamps of the two claimed blocks
  obtain ⟨x, xs, hx, -, -, -⟩ := n.valid.claimedBlock_eq
  obtain ⟨y, ys, hy, -, -, -⟩ := p.valid.claimedBlock_eq
  obtain ⟨z, zs, hz, -, -, -⟩ := hvq.claimedBlock_eq
  have hyz : y.time = z.time := by
    have := headers_claimedBlock hh
    rw [hq, hz, SavannaBlock.branch, hy] at this
    rw [Block.time, Block.time, (headers_cons_inj this).1]
  have hzx : z.time ≤ x.time := by
    have := n.valid.claimedBlock_suffix_of_suffix hsuf
    rw [hz, hx] at this
    exact n.valid.time_le (hx ▸ claimedBlock_suffix _) this
  have ht : p.block.time < n.block.time := by
    rw [hq] at hh
    have hpq : q.ref = p.block.ref := (headers_cons_inj hh).1
    rw [Block.time, ← hpq]
    have hqs : q :: qs <:+ n.ancestors := ⟨[], hq.symm⟩
    exact n.valid.time_lt hqs
  have h1 := n.valid.latestQcBlockTimestamp_eq hnn hx
  have h2 := p.valid.latestQcBlockTimestamp_eq hne hy
  rw [better_iff]
  simp only [bestBranchKey, h1, h2, Except.toOption, Option.getD_some]
  omega

/-- **What every sequence of calls keeps**: a strong claim on a block above the root has been looked at, and the pending
block is unset or has a number. -/
structure FileInv (W : List SavannaBlock) (db : ForkDb SavannaBlock) : Prop where
  lib : LibInv W db
  settled : ∀ r, db.root = some r → ∀ b ∈ db.index, b.block.headerClaim.isStrongQc = true →
    r.block.num < b.block.headerClaim.blockNum → b.block.core.lastFinalBlockNum ≤ numFromId db.pendingSavannaLibId
  pending : db.pendingSavannaLibId = BlockId.zero ∨ 0 < numFromId db.pendingSavannaLibId

namespace FileInv
variable {W : List SavannaBlock} {db db' : ForkDb SavannaBlock}

theorem init : FileInv W ForkDb.init :=
  ⟨LibInv.init, fun _ h => absurd h (by simp [ForkDb.init]), .inl rfl⟩

theorem pending_mono (h : FileInv W db) (hp : db'.pendingSavannaLibId = db.pendingSavannaLibId ∨
    numFromId db.pendingSavannaLibId < numFromId db'.pendingSavannaLibId) :
    numFromId db.pendingSavannaLibId ≤ numFromId db'.pendingSavannaLibId ∧
      (db'.pendingSavannaLibId = BlockId.zero ∨ 0 < numFromId db'.pendingSavannaLibId) := by
  rcases hp with hp | hp
  · rw [hp]
    exact ⟨le_rfl, h.pending⟩
  · exact ⟨Nat.le_of_lt hp, .inr (by omega)⟩

theorem step (h : FileInv W db) (hW : Linked W) (op : Op SavannaBlock) (hop : ∀ b ∈ op.blocks, b ∈ W) :
    FileInv W (db.step savannaType op) := by
  refine ⟨h.lib.step hW op hop, ?_, ?_⟩
  · rcases h.lib.tree.step_cases op with ⟨r, rfl, he⟩ | hs | ⟨b, _, _, _, db1, q, rfl, -, hp, -, hq, hid, he⟩
    · rw [he]
      exact fun _ _ b hb => absurd hb not_mem_nil
    · intro r' hr' b hb hst hlt
      obtain ⟨r, hr⟩ := h.lib.tree.exists_root (hs.index b hb)
      have h1 : r.block.num ≤ r'.block.num := (hs.root r' hr').2 r hr
      have h2 := h.settled r hr b (hs.index b hb) hst (by omega)
      exact h2.trans (h.pending_mono hs.pending).1
    · rw [he]
      intro r hr'
      have hr : db.root = some r := (advancePendingLib_frame hp).1.symm.trans hr'
      have hle := (h.pending_mono (advancePendingLib_pending hp)).1
      refine forall_mem_cons.2 ⟨fun hst hlt => ?_, fun b hb hst hlt => ?_⟩
      · have hset := h.lib.settled_added hW (hop b (by simp [Op.blocks])) hp hr hq hid hst hlt
        exact hset
      · exact (h.settled r hr b hb hst hlt).trans hle
  · rcases h.lib.tree.step_cases op with ⟨r, rfl, he⟩ | hs | ⟨b, _, _, _, db1, q, rfl, -, hp, -, -, -, he⟩
    · rw [he]
      exact .inl rfl
    · exact (h.pending_mono hs.pending).2
    · rw [he]
      have hpe := (h.pending_mono (advancePendingLib_pending hp)).2
      exact hpe

theorem run (hW : Linked W) : ∀ (ops : List (Op SavannaBlock)) {db : ForkDb SavannaBlock}, FileInv W db →
    (∀ op ∈ ops, ∀ b ∈ op.blocks, b ∈ W) → FileInv W (ops.foldl (ForkDb.step savannaType) db)
  | [], _, h, _ => h
  | op :: ops, _, h, hos => by
    obtain ⟨hop, hos⟩ := forall_mem_cons.1 hos
    exact FileInv.run hW ops (h.step hW op hop) hos

end FileInv

variable {db : ForkDb SavannaBlock}

theorem LibInv.advancePendingLib_self (h : LibInv W db) (hW : Linked W)
    {n r : SavannaBlock} (hn : n ∈ W) (hr : db.root = some r)
    (hset : n.block.headerClaim.isStrongQc = true → r.block.num < n.block.headerClaim.blockNum →
      n.block.core.lastFinalBlockNum ≤ numFromId db.pendingSavannaLibId) :
    db.advancePendingLib savannaType n = .ok db := by
  rw [ForkDb.advancePendingLib]
  simp only [savannaType]
  split
  · rename_i hc
    have hs := (Bool.and_eq_true_iff.1 hc).1
    split
    · rfl
    · rename_i claimed hf
      obtain ⟨ref, h1, h2⟩ := h.search_ref hW hn hs hf
      -- the claimed block is in the index, so above the root
      have hlt : r.block.num < n.block.headerClaim.blockNum := by
        obtain ⟨hm, hnum⟩ := searchOnBranchImpl_some hf
        have := h.root_lt hr (Forest.mem_path (F := savannaType.forest) _ _ hm).1
        rw [← hnum]
        exact this
      have hnum : numFromId ref.blockId = n.block.core.lastFinalBlockNum :=
        n.valid.view.wf.blockNum_of_getBlockReference h2
      have hle := hset hs hlt
      rw [h1]
      simp only [Except.map, setPendingSavannaLibIdImpl]
      rw [if_neg (by omega)]
  · rfl

/-- **The loop of `open_impl`** over blocks that come after their parents: they are all added, or the validator refuses
one's protocol features. -/
theorem openBlocks_eq {W : List SavannaBlock} (hW : Linked W) (codec : FileCodec τ SavannaBlock) (validator : Validator)
    (rest : List τ) : ∀ (bs : List SavannaBlock) {db : ForkDb SavannaBlock}, LibInv W db →
    db.root = some r → (∀ b ∈ bs, b ∈ W) →
    (∀ b ∈ bs, b.block.headerClaim.isStrongQc = true → r.block.num < b.block.headerClaim.blockNum →
      b.block.core.lastFinalBlockNum ≤ numFromId db.pendingSavannaLibId) →
    bs.Pairwise (fun x y => x.id ≠ y.id ∧ x.previous ≠ y.id) → (∀ x ∈ db.index, ∀ y ∈ bs, x.id ≠ y.id) →
    (∀ b ∈ bs, ∃ p, (db.root = some p ∨ p ∈ db.index ∨ p ∈ bs) ∧ p.id = b.previous) →
    (∃ e, (openBlocks savannaType codec validator bs.length db (bs.flatMap codec.state.pack ++ rest)).2 = .error e ∧
      ∃ b ∈ bs, ∃ p, (db.root = some p ∨ p ∈ db.index ∨ p ∈ bs) ∧ p.id = b.previous ∧
        checkFeatures savannaType validator b p = .error e) ∨
    openBlocks savannaType codec validator bs.length db (bs.flatMap codec.state.pack ++ rest) =
      ({ db with index := bs.reverse ++ db.index }, .ok rest)
  | [], db, _, _, _, _, _, _, _ => .inr rfl
  | b :: bs, db, h, hr, hbW, hs, hpa, hids, hpr => by
    obtain ⟨hb, hbW⟩ := forall_mem_cons.1 hbW
    obtain ⟨hset, hs⟩ := forall_mem_cons.1 hs
    obtain ⟨hf, hpa⟩ := pairwise_cons.1 hpa
    -- the parent is not among the blocks still to come
    obtain ⟨p, hp, hpi⟩ := hpr b (mem_cons_self ..)
    have hp : db.root = some p ∨ p ∈ db.index := by
      rcases hp with hp | hp | hp
      · exact .inl hp
      · exact .inr hp
      · rcases mem_cons.1 hp with rfl | hp
        · have := p.numbered
          rw [← hpi] at this
          exact absurd this (Nat.ne_of_lt (Nat.lt_succ_self _))
        · exact absurd hpi.symm (hf p hp).2
    obtain ⟨q, hq⟩ := getBlockImpl_parent (T := savannaType) hp hpi
    obtain ⟨hqm, hqi⟩ := getBlockImpl_some hq
    have hpe := h.advancePendingLib_self hW hb hr hset
    have hnew : savannaType.forest.find db.index (savannaType.id b) = none :=
      find?_eq_none.2 fun x hx heq => hids x hx b (mem_cons_self ..) (beq_iff_eq.1 heq)
    have hon : openBlocks savannaType codec validator (b :: bs).length db
        ((b :: bs).flatMap codec.state.pack ++ rest) =
        andThen (db.addImpl savannaType (some b) false true validator) fun db =>
          openBlocks savannaType codec validator bs.length db (bs.flatMap codec.state.pack ++ rest) := by
      rw [length_cons, openBlocks, flatMap_cons, append_assoc, unpack_pack]
      rfl
    rw [hon]
    rcases addImpl_new validator (by rw [hr]; rfl) hpe hq hnew with ⟨e, he, hadd⟩ | ⟨a, hadd⟩
    · rw [hadd]
      exact .inl ⟨e, rfl, b, mem_cons_self .., q, hqm.imp_right .inl, hqi, he⟩
    · rw [hadd]
      have hinv : LibInv W { db with index := b :: db.index } :=
        h.add hW hb hpe hqm hqi (h.tree.cons hnew (by rw [hr]; rfl) (Option.isSome_iff_exists.2 ⟨q, hq⟩))
      have hm : ∀ p, p ∈ b :: bs → p ∈ b :: db.index ∨ p ∈ bs := fun p hp =>
        (mem_cons.1 hp).imp_left (fun heq : p = b => heq ▸ mem_cons_self ..)
      have hba : ∀ p, p ∈ b :: db.index → p ∈ db.index ∨ p ∈ b :: bs := fun p hp =>
        (mem_cons.1 hp).elim (fun heq : p = b => .inr (heq ▸ mem_cons_self ..)) .inl
      rcases openBlocks_eq hW codec validator rest bs hinv hr hbW hs hpa
        (forall_mem_cons.2 ⟨fun y hy => (hf y hy).1, fun x hx y hy => hids x hx y (mem_cons_of_mem _ hy)⟩)
        (fun x hx => by
          obtain ⟨p, hp, hpi⟩ := hpr x (mem_cons_of_mem _ hx)
          refine ⟨p, ?_, hpi⟩
          rcases hp with hp | hp | hp
          · exact .inl hp
          · exact .inr (.inl (mem_cons_of_mem _ hp))
          · exact .inr (hm p hp)) with ⟨e, he, x, hx, p, hp, hre⟩ | he
      · refine .inl ⟨e, he, x, mem_cons_of_mem _ hx, p, ?_, hre⟩
        rcases hp with hp | hp | hp
        · exact .inl hp
        · exact .inr (hba p hp)
        · exact .inr (.inr (mem_cons_of_mem _ hp))
      · refine .inr ?_
        rw [andThen, he]
        simp

/-! ## Reopening -/

theorem LibInv.pairwise_file (h : LibInv W db) (hW : Linked W) :
    (byBestBranch savannaType db.index).reverse.Pairwise (fun x y => x.id ≠ y.id ∧ x.previous ≠ y.id) := by
  have hmem : ∀ b ∈ byBestBranch savannaType db.index, b ∈ db.index := fun b hb => (mem_insertionSort _).1 hb
  cases hr : db.root with
  | none =>
    rw [h.tree.unset hr]
    exact List.Pairwise.nil
  | some r =>
    have hids : (byBestBranch savannaType db.index).Pairwise (fun x y => x.id ≠ y.id) :=
      pairwise_map.1 (((perm_insertionSort _ _).map _).nodup_iff.2 (h.tree.rooted r hr).distinct)
    rw [pairwise_reverse]
    refine ((savanna_ordered.pairwise_byBestBranch db.index).and hids).imp_of_mem fun {x y} hx hy hxy => ?_
    refine ⟨fun heq => hxy.2 heq.symm, fun hp => ?_⟩
    have hbe := better_of_parent hW (h.index_mem y (hmem y hy)) (h.index_mem x (hmem x hx)) hp
      (h.ancestors_ne hW (hmem x hx))
    rw [hxy.1] at hbe
    cases hbe

/-- **A database that has been written is read back**, into whichever database: with the root, the blocks, the head and
the pending block it had, unless the validator refuses the protocol features of one of its blocks. -/
theorem FileInv.reopen (h : FileInv W db) (hW : Linked W)
    (codec : FileCodec τ SavannaBlock) (validator : Validator) (db0 : ForkDb SavannaBlock) (rest : List τ)
    (hr : db.root = some r) :
    (∃ e, (openImpl savannaType codec validator db0 (fileOf savannaType codec db r ++ rest)).2 = .error e ∧
      ∃ b ∈ db.index, ∃ p, (db.root = some p ∨ p ∈ db.index) ∧ p.id = b.previous ∧
        checkFeatures savannaType validator b p = .error e) ∨
    openImpl savannaType codec validator db0 (fileOf savannaType codec db r ++ rest) =
      ({ db with index := byBestBranch savannaType db.index }, .ok rest) := by
  have hlib : LibInv W ⟨some r, db.pendingSavannaLibId, []⟩ :=
    ⟨⟨fun hn => (by cases hn), fun r' _ => Forest.Rooted.nil _⟩,
      fun r' hr' => (by cases hr'; exact h.lib.root_mem r hr), fun b hb => absurd hb not_mem_nil,
      fun _ _ b hb => absurd hb not_mem_nil⟩
  obtain ⟨l, hl⟩ : ∃ l, l = (byBestBranch savannaType db.index).reverse := ⟨_, rfl⟩
  have hmem : ∀ b, b ∈ l ↔ b ∈ db.index := fun b => by
    rw [hl, mem_reverse]
    exact mem_insertionSort _
  have hlen : db.index.length = l.length := by
    rw [hl, length_reverse]
    exact (length_insertionSort _ _).symm
  -- the pending block is set again
  have hset : (((ForkDb.resetRootImpl db0 (some r)).1.setPendingSavannaLibIdImpl db.pendingSavannaLibId).1) =
      ⟨some r, db.pendingSavannaLibId, []⟩ := by
    have hres : (ForkDb.resetRootImpl db0 (some r)).1 = ⟨some r, BlockId.zero, []⟩ := rfl
    rw [hres, setPendingSavannaLibIdImpl]
    split
    · rfl
    · rename_i hle
      rcases h.pending with hz | hpos
      · rw [hz]
      · exact absurd hpos hle
  have hon : openImpl savannaType codec validator db0 (fileOf savannaType codec db r ++ rest) =
      openBlocks savannaType codec validator l.length ⟨some r, db.pendingSavannaLibId, []⟩
        (l.flatMap codec.state.pack ++ rest) := by
    simp only [openImpl, fileOf, append_assoc, unpack_pack, attempt, hset, ← hl]
    rw [hlen]
  rw [hon]
  have hpa : ∀ b ∈ l, ∃ p, (some r = some p ∨ p ∈ ([] : List SavannaBlock) ∨ p ∈ l) ∧ p.id = b.previous := fun b hb => by
    rcases (h.lib.tree.rooted r hr).linked b ((hmem b).1 hb) with hp | ⟨w, hw, hk⟩
    · exact ⟨r, .inl rfl, (mem_singleton.1 hp).symm⟩
    · exact ⟨w, .inr (.inr ((hmem w).2 hw)), hk⟩
  rcases openBlocks_eq hW codec validator rest l hlib rfl
    (fun b hb => h.lib.index_mem b ((hmem b).1 hb)) (fun b hb => h.settled r hr b ((hmem b).1 hb))
    (hl ▸ h.lib.pairwise_file hW) (fun x hx => absurd hx not_mem_nil) hpa with ⟨e, he, b, hb, p, hp, hid, hc⟩ | he
  · refine .inl ⟨e, he, b, (hmem b).1 hb, p, ?_, hid, hc⟩
    rcases hp with hp | hp | hp
    · exact .inl (hr.trans hp)
    · exact absurd hp not_mem_nil
    · exact .inr ((hmem p).1 hp)
  · refine .inr ?_
    rw [he, hl, reverse_reverse, append_nil, hr]

/-- **Closing and opening, over every sequence of calls**: a database with a root is written, and reading the file, into
whichever database and whatever follows it, stops only where the validator refuses the protocol features of a block;
otherwise it gives a database with the same root, blocks, head and pending last irreversible block. -/
theorem reopen_run (codec : FileCodec τ SavannaBlock) (ops : List (Op SavannaBlock))
    (hids : Linked (ops.flatMap Op.blocks)) (r : SavannaBlock) (hr : (run savannaType ops).root = some r) :
    ∃ file, (closeImpl savannaType codec (run savannaType ops)).2 = .ok file ∧
      ∀ (validator : Validator) (db₀ : ForkDb SavannaBlock) (rest : List τ),
        (∀ e, (openImpl savannaType codec validator db₀ (file ++ rest)).2 = .error e →
          ∃ b ∈ (run savannaType ops).index, ∃ p, (p = r ∨ p ∈ (run savannaType ops).index) ∧ p.id = b.previous ∧
            checkFeatures savannaType validator b p = .error e) ∧
        ((∀ b ∈ (run savannaType ops).index, ∀ p, (p = r ∨ p ∈ (run savannaType ops).index) → p.id = b.previous →
            checkFeatures savannaType validator b p = .ok ()) →
          ∃ db, openImpl savannaType codec validator db₀ (file ++ rest) = (db, .ok rest) ∧
            db.root = (run savannaType ops).root ∧ (∀ b, b ∈ db.index ↔ b ∈ (run savannaType ops).index) ∧
            (∀ includeRoot, db.headImpl savannaType includeRoot = (run savannaType ops).headImpl savannaType includeRoot) ∧
            db.pendingSavannaLibId = (run savannaType ops).pendingSavannaLibId) := by
  have h : FileInv (ops.flatMap Op.blocks) (run savannaType ops) :=
    FileInv.run hids ops FileInv.init (fun op hop b hb => mem_flatMap.2 ⟨op, hop, hb⟩)
  generalize run savannaType ops = db at h hr
  refine ⟨fileOf savannaType codec db r, by rw [closeImpl, hr], fun validator db₀ rest => ?_⟩
  have hroot : ∀ p, db.root = some p ↔ p = r := fun p => by rw [hr, Option.some.injEq, eq_comm]
  have hmem : ∀ b, b ∈ byBestBranch savannaType db.index ↔ b ∈ db.index := fun b => mem_insertionSort _
  rcases h.reopen hids codec validator db₀ rest hr with ⟨e, he, b, hb, p, hp, hid, hc⟩ | he
  · rw [hroot] at hp
    refine ⟨fun e' he' => ?_, fun hacc => ?_⟩
    · rw [he] at he'
      cases he'
      exact ⟨b, hb, p, hp, hid, hc⟩
    · rw [hacc b hb p hp hid] at hc
      cases hc
  · refine ⟨fun e' he' => ?_, fun _ => ⟨_, he, rfl, hmem, fun includeRoot => ?_, rfl⟩⟩
    · rw [he] at he'
      cases he'
    · have hem : (byBestBranch savannaType db.index).isEmpty = db.index.isEmpty := by
        rw [Bool.eq_iff_iff, List.isEmpty_iff, List.isEmpty_iff, ← length_eq_zero_iff, ← length_eq_zero_iff,
          byBestBranch, length_insertionSort]
      have hd := ((h.lib.tree.rooted r hr).distinct)
      simp only [headImpl, hem]
      rw [savanna_ordered.best_congr hd (fun b => (hmem b).symm)]

def sampleCodec : FileCodec (BlockId ⊕ SavannaBlock ⊕ Nat) SavannaBlock where
  id := ⟨fun a => [.inl a], fun | .inl a :: rest => some (a, rest) | _ => none, fun _ _ => rfl⟩
  state := ⟨fun a => [.inr (.inl a)], fun | .inr (.inl a) :: rest => some (a, rest) | _ => none, fun _ _ => rfl⟩
  size := ⟨fun a => [.inr (.inr a)], fun | .inr (.inr a) :: rest => some (a, rest) | _ => none, fun _ _ => rfl⟩

theorem reopen_run_sampleCalls : ∃ file db,
    (closeImpl savannaType sampleCodec (run savannaType sampleCalls)).2 = .ok file ∧
    openImpl savannaType sampleCodec (fun _ _ _ => .ok ()) init file = (db, .ok []) ∧
    db.root.map SavannaBlock.id = some ⟨5, 5⟩ ∧ (∀ b, b ∈ db.index ↔ b ∈ [sampleChild7, sampleChild6]) ∧
    (db.headImpl savannaType false).map SavannaBlock.id = some ⟨7, 7⟩ ∧ db.pendingSavannaLibId = ⟨5, 5⟩ := by
  obtain ⟨file, hf, hon⟩ := reopen_run sampleCodec sampleCalls (by unfold Linked; decide) sampleRoot rfl
  obtain ⟨db, h1, h2, h3, h4, h5⟩ := (hon (fun _ _ _ => .ok ()) init []).2 (by
    intro b hb p _ _
    have : b ∈ [sampleChild7, sampleChild6] := hb
    simp only [mem_cons, not_mem_nil, or_false] at this
    rcases this with rfl | rfl
    · rfl
    · rfl)
  rw [append_nil] at h1
  exact ⟨file, db, hf, h1, by rw [h2]; rfl, h3, by rw [h4]; rfl, h5⟩

end ForkDb
end TheChannel
