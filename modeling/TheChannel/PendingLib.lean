import TheChannel.Branch
import TheChannel.ForkDbRun
/-!
# PendingLib — the pending last irreversible block of a Savanna fork database

`add_impl` moves `pending_savanna_lib_id` through the core of the block that a strong claim names: to the block that one
claims. The finality core of the added block finds its last final block through its links. The two are the same block,
whichever claim is made and wherever the claimed block is.

A block of the database stands for the whole branch it extends, each claim of which was verified (`SavannaBlock`). Ids
are hashes of headers that hold the parent's id, so a block that names another as its parent has the same headers behind
it (`Linked`).
-/
namespace TheChannel
open FinalityCore List

/-! ## Headers -/

def headers (bs : List Block) : List (BlockRef × QcClaim) := bs.map (fun b => (b.ref, b.headerClaim))

variable {bs cs : List Block}

theorem headers_cons_inj {b c : Block} (h : headers (b :: bs) = headers (c :: cs)) :
    b.ref = c.ref ∧ b.headerClaim = c.headerClaim ∧ headers bs = headers cs := by
  simpa [headers, and_assoc] using h

theorem ValidBranch.core_eq_of_headers : ∀ {b c : Block} {bs cs}, ValidBranch (b :: bs) →
    ValidBranch (c :: cs) → headers (b :: bs) = headers (c :: cs) → b.core = c.core
  | _, _, _, _, .genesis r _, .genesis r' _, h => by
    have hr : r = r' := (headers_cons_inj h).1
    rw [hr]
  | _, _, _, _, .genesis _ _, .next _ _ _ _ _, h => by simp [headers] at h
  | _, _, _, _, .next _ _ _ _ _, .genesis _ _, h => by simp [headers] at h
  | _, _, _, _, .next parent _ _ _ core, .next parent' _ _ _ core', h => by
    obtain ⟨-, hq, h'⟩ := headers_cons_inj h
    have hc := parent.core_eq_of_headers parent' h'
    have hr := (headers_cons_inj h').1
    rw [hc, hr, hq] at core
    exact Except.ok.inj (core.symm.trans core')

theorem headers_claimedBlock (h : headers bs = headers cs) : headers (claimedBlock bs) = headers (claimedBlock cs) := by
  cases bs with
  | nil =>
    cases cs with
    | nil => rfl
    | cons c cs => simp [headers] at h
  | cons b bs =>
    cases cs with
    | nil => simp [headers] at h
    | cons c cs =>
      obtain ⟨hr, hq, -⟩ := headers_cons_inj h
      have hd : ∀ (n : Nat) (l : List Block), headers (l.drop n) = (headers l).drop n := fun n l => map_drop ..
      rw [claimedBlock, claimedBlock, ancestorAt, ancestorAt, hd, hd, h, Block.num, Block.num, hr, hq]

theorem ValidBranch.getBlockReference_lastFinal {b : Block} {bs : List Block} (h : ValidBranch (b :: bs)) (hne : bs ≠ [])
    (hs : b.headerClaim.isStrongQc = true) {a : Block} {as : List Block} (ha : claimedBlock (b :: bs) = a :: as)
    {c : Block} {cs : List Block} (hc : claimedBlock (a :: as) = c :: cs) :
    b.core.getBlockReference b.core.lastFinalBlockNum = .ok c.ref := by
  obtain ⟨a', as', ha', hl⟩ := h.front_of_strong hs
  obtain ⟨a'', as'', ha'', -, hva, hsuf⟩ := h.claimedBlock_eq
  rw [ha] at ha' ha''
  cases ha'
  cases ha''
  obtain ⟨c', cs', hc', hcn, -, -⟩ := hva.claimedBlock_eq
  rw [hc] at hc'
  cases hc'
  have hlf : b.core.lastFinalBlockNum = c.num := by rw [lastFinalBlockNum, hl, hcn]; rfl
  have hcs : c :: cs <:+ bs := by
    have := claimedBlock_suffix (a :: as)
    rw [hc] at this
    exact this.trans (hsuf hne)
  have hat := h.ancestorAt_of_suffix (hcs.trans (suffix_cons _ _))
  rw [hlf]
  exact h.view.getBlockReference_eq (by rw [hlf]) (h.num_lt hcs) hat

/-! ## The block states -/

/-- **A Savanna block state**, with the branch it extends: every claim on it was verified. -/
structure SavannaBlock where
  block : Block
  ancestors : List Block
  previous : BlockId
  activatedProtocolFeatures : List Digest
  newProtocolFeatures : Option (List Digest)
  valid : ValidBranch (block :: ancestors)
  parent : ∀ p ∈ ancestors.head?, previous = p.ref.blockId
  numbered : block.num = numFromId previous + 1

namespace SavannaBlock

def id (b : SavannaBlock) : BlockId := b.block.ref.blockId

def branch (b : SavannaBlock) : List Block := b.block :: b.ancestors

/-- `by_best_branch_if_t`: the latest QC block's timestamp, then the own one, then the id, greater first. -/
def better (a b : SavannaBlock) : Bool :=
  let qc := fun x : SavannaBlock => x.block.core.latestQcBlockTimestamp.toOption.getD 0
  decide (qc b < qc a) || (qc a == qc b && (decide (b.block.time < a.block.time) || (a.block.time == b.block.time &&
    (decide (b.id.num < a.id.num) || (a.id.num == b.id.num && decide (b.id.hash < a.id.hash))))))

end SavannaBlock

/-- `fork_database_if_t`. -/
def savannaType : BlockStateType SavannaBlock where
  id := SavannaBlock.id
  previous := SavannaBlock.previous
  timestamp := fun b => b.block.time
  activatedProtocolFeatures := SavannaBlock.activatedProtocolFeatures
  newProtocolFeatures := SavannaBlock.newProtocolFeatures
  better := SavannaBlock.better
  savanna := some ⟨fun b => b.block.headerClaim, fun b => b.block.core⟩
  numbered := SavannaBlock.numbered

/-- **Ids identify headers**: a block that names another as its parent extends that one's branch. -/
def Linked (W : List SavannaBlock) : Prop :=
  ∀ p ∈ W, ∀ b ∈ W, b.previous = p.id → headers b.ancestors = headers p.branch

namespace Linked
variable {W l : List SavannaBlock} {n p : SavannaBlock}

theorem ancestors_ne (hW : Linked W) (hp : p ∈ W) (hn : n ∈ W) (h : n.previous = p.id) : n.ancestors ≠ [] := by
  intro hnil
  have := hW p hp n hn h
  simp [hnil, headers, SavannaBlock.branch] at this

theorem path_suffix (hW : Linked W) (hl : ∀ b ∈ l, b ∈ W) (hn : n ∈ W) :
    ∀ w ∈ savannaType.forest.path l n.previous, headers w.branch <:+ headers n.ancestors := by
  refine Forest.path_induction (P := fun k (q : List SavannaBlock) => ∀ n ∈ W, n.previous = k →
      ∀ w ∈ q, headers w.branch <:+ headers n.ancestors)
    (fun _ _ _ _ _ _ hw => absurd hw not_mem_nil) (fun k v hf ih n hn hk w hw => ?_) n.previous n hn rfl
  obtain ⟨hv, hid⟩ := Forest.find_some hf
  have hh : headers n.ancestors = headers v.branch := hW v (hl v hv) n hn (hk.trans hid.symm)
  rw [hh]
  rcases mem_cons.1 hw with rfl | hw
  · exact suffix_refl _
  · exact (ih v (hl v hv) rfl w hw).trans (suffix_cons _ _)

/-- **Both ways to the last final block agree**: the block that the claimed block's core claims is the one that the core
of the claiming block has as last final. -/
theorem claimed_ref (hW : Linked W) (hl : ∀ b ∈ l, b ∈ W) (hn : n ∈ W) (hs : n.block.headerClaim.isStrongQc = true)
    {w : SavannaBlock} (hw : w ∈ savannaType.forest.path l n.previous) (hne : w.ancestors ≠ [])
    (hnum : w.block.num = n.block.headerClaim.blockNum) :
    ∃ ref, w.block.core.getBlockReference w.block.core.latestQcClaim.blockNum = .ok ref ∧
      n.block.core.getBlockReference n.block.core.lastFinalBlockNum = .ok ref := by
  obtain ⟨k, hk⟩ : ∃ k, headers w.branch = (headers n.ancestors).drop k :=
    ⟨_, suffix_iff_eq_drop.1 (hW.path_suffix hl hn w hw)⟩
  -- the ancestor with the claimed block's headers
  obtain ⟨a, as, has⟩ : ∃ a as, n.ancestors.drop k = a :: as := by
    refine exists_cons_of_ne_nil fun hnil => ?_
    rw [headers, headers, ← map_drop, hnil] at hk
    simp [SavannaBlock.branch] at hk
  have hh : headers w.branch = headers (a :: as) := by rw [hk, ← has, headers, headers, map_drop]
  have hsuf : a :: as <:+ n.ancestors := has ▸ drop_suffix _ _
  have ha : claimedBlock n.branch = a :: as := by
    have hwa : w.block.ref = a.ref := (headers_cons_inj hh).1
    have hna : a.num = n.block.headerClaim.blockNum := by rw [← hnum, Block.num, Block.num, hwa]
    rw [SavannaBlock.branch, claimedBlock, ← hna]
    exact n.valid.ancestorAt_of_suffix (hsuf.trans (suffix_cons _ _))
  have hva := n.valid.suffix (hsuf.trans (suffix_cons _ _)) (by simp)
  obtain ⟨x, xs, hx, -⟩ := w.valid.claimedBlock_eq
  obtain ⟨y, ys, hy, -⟩ := hva.claimedBlock_eq
  have hxy := headers_claimedBlock hh
  rw [SavannaBlock.branch, hx, hy] at hxy
  refine ⟨x.ref, w.valid.getBlockReference_claimed hne hx, ?_⟩
  rw [(headers_cons_inj hxy).1]
  exact n.valid.getBlockReference_lastFinal (by rintro h; rw [h] at hsuf; simp at hsuf) hs ha hy

theorem lastFinal_of_weak (hW : Linked W) (hp : p ∈ W) (hn : n ∈ W) (h : n.previous = p.id)
    (hs : n.block.headerClaim.isStrongQc = false) :
    n.block.core.lastFinalBlockNum = p.block.core.lastFinalBlockNum := by
  obtain ⟨q, qs, hq⟩ := exists_cons_of_ne_nil (hW.ancestors_ne hp hn h)
  have hv := n.valid
  have hh := hW p hp n hn h
  rw [hq] at hv hh
  have hco := (hv.suffix (suffix_cons _ _) (by simp)).core_eq_of_headers p.valid hh
  rw [lastFinalBlockNum, hv.front_of_weak hs, hco]
  rfl

end Linked

variable (b : SavannaBlock)

theorem SavannaBlock.lastFinal_le_claim : b.block.core.lastFinalBlockNum ≤ b.block.headerClaim.blockNum := by
  have h := b.valid.view
  rw [← h.claim]
  exact h.wf.lastFinal_le_claim

theorem SavannaBlock.lastFinal_le_num : b.block.core.lastFinalBlockNum ≤ b.block.num := by
  have h := b.valid.view
  rw [← h.current]
  exact h.wf.lastFinal_le_claim.trans h.wf.claim_le_current

theorem SavannaBlock.claim_lt_num (hne : b.ancestors ≠ []) : b.block.headerClaim.blockNum < b.block.num := by
  obtain ⟨a, as, -, ha, -, hs⟩ := b.valid.claimedBlock_eq
  rw [← ha]
  exact b.valid.num_lt (hs hne)

namespace ForkDb

section Pending

variable {β : Type} (db : ForkDb β) (id : BlockId)

theorem setPendingSavannaLibIdImpl_eq : (db.setPendingSavannaLibIdImpl id).1.pendingSavannaLibId = db.pendingSavannaLibId ∨
    (db.setPendingSavannaLibIdImpl id).1.pendingSavannaLibId = id := by
  unfold setPendingSavannaLibIdImpl
  split
  · exact .inr rfl
  · exact .inl rfl

theorem setPendingSavannaLibIdImpl_le :
    numFromId db.pendingSavannaLibId ≤ numFromId (db.setPendingSavannaLibIdImpl id).1.pendingSavannaLibId ∧
      numFromId id ≤ numFromId (db.setPendingSavannaLibIdImpl id).1.pendingSavannaLibId := by
  unfold setPendingSavannaLibIdImpl
  split
  · exact ⟨by simp only; omega, le_rfl⟩
  · exact ⟨le_rfl, by simp only; omega⟩

end Pending

def Op.blocks {β : Type} : Op β → List β
  | .resetRoot rootBsp => rootBsp.toList
  | .add n _ _ _ => n.toList
  | _ => []

/-- Whether a call is a `reset_root` that returns. -/
def Op.isReset {β : Type} : Op β → Bool
  | .resetRoot rootBsp => rootBsp.isSome
  | _ => false

/-- **What every sequence of calls keeps**, over the blocks `W` that are handed over: no block of the index has a last
final block above both the pending one and the root. -/
structure LibInv (W : List SavannaBlock) (db : ForkDb SavannaBlock) : Prop where
  tree : Inv savannaType db
  root_mem : ∀ r, db.root = some r → r ∈ W
  index_mem : ∀ b ∈ db.index, b ∈ W
  final : ∀ r, db.root = some r → ∀ b ∈ db.index,
    b.block.core.lastFinalBlockNum ≤ max (numFromId db.pendingSavannaLibId) r.block.num

namespace LibInv
variable {W : List SavannaBlock} {db db' : ForkDb SavannaBlock} {n : SavannaBlock}

theorem init : LibInv W init :=
  ⟨inv_init, fun _ h => absurd h (by simp [ForkDb.init]), fun _ h => absurd h (by simp [ForkDb.init]),
    fun _ h => absurd h (by simp [ForkDb.init])⟩

section

variable (h : LibInv W db)

include h

theorem shrink (ht : Inv savannaType db') (hs : Shrinks savannaType db db') : LibInv W db' := by
  refine ⟨ht, fun r' hr' => (hs.root r' hr').1.elim (h.root_mem r') (h.index_mem r'),
    fun b hb => h.index_mem b (hs.index b hb), fun r' hr' b hb => ?_⟩
  obtain ⟨r, hr⟩ := h.tree.exists_root (hs.index b hb)
  have h1 := h.final r hr b (hs.index b hb)
  have h2 : r.block.num ≤ r'.block.num := (hs.root r' hr').2 r hr
  have h3 : numFromId db.pendingSavannaLibId ≤ numFromId db'.pendingSavannaLibId :=
    hs.pending.elim (fun heq => by rw [heq]) Nat.le_of_lt
  omega

theorem root_lt {r b : SavannaBlock} (hr : db.root = some r) (hb : b ∈ db.index) :
    r.block.num < b.block.num := (h.tree.descends hr hb).rank_lt

theorem ancestors_ne (hW : Linked W) {b : SavannaBlock} (hb : b ∈ db.index) : b.ancestors ≠ [] := by
  obtain ⟨r, hr⟩ := h.tree.exists_root hb
  rcases (h.tree.rooted r hr).linked b hb with hp | ⟨w, hw, hk⟩
  · exact hW.ancestors_ne (h.root_mem r hr) (h.index_mem b hb) (mem_singleton.1 hp)
  · exact hW.ancestors_ne (h.index_mem w hw) (h.index_mem b hb) hk.symm

theorem search_ref (hW : Linked W) (hn : n ∈ W) (hs : n.block.headerClaim.isStrongQc = true)
    {claimed : SavannaBlock}
    (hf : db.searchOnBranchImpl savannaType n.previous n.block.headerClaim.blockNum false = some claimed) :
    ∃ ref, claimed.block.core.getBlockReference claimed.block.core.latestQcClaim.blockNum = .ok ref ∧
      n.block.core.getBlockReference n.block.core.lastFinalBlockNum = .ok ref := by
  obtain ⟨hmem, hnum⟩ := searchOnBranchImpl_some hf
  have hidx : claimed ∈ db.index := (Forest.mem_path (F := savannaType.forest) _ _ hmem).1
  exact hW.claimed_ref h.index_mem hn hs hmem (h.ancestors_ne hW hidx) hnum

theorem advancePendingLib (hW : Linked W) (hn : n ∈ W)
    (hp : db.advancePendingLib savannaType n = .ok db') :
    numFromId db.pendingSavannaLibId ≤ numFromId db'.pendingSavannaLibId ∧
    (db'.pendingSavannaLibId = db.pendingSavannaLibId ∨
      ∃ ref, n.block.core.getBlockReference n.block.core.lastFinalBlockNum = .ok ref ∧
        db'.pendingSavannaLibId = ref.blockId) := by
  obtain rfl | ⟨s, claimed, ref, hs, hst, hf, href, rfl⟩ := advancePendingLib_cases hp
  · exact ⟨le_rfl, .inl rfl⟩
  · cases hs
    refine ⟨(setPendingSavannaLibIdImpl_le db ref.blockId).1,
      (setPendingSavannaLibIdImpl_eq db ref.blockId).imp_right (fun heq => ⟨ref, ?_, heq⟩)⟩
    obtain ⟨ref', h1, h2⟩ := h.search_ref hW hn hst hf
    have h3 : Except.ok ref' = Except.ok ref := h1.symm.trans href
    rw [h2, h3]

/-- **A strong claim on a block above the root settles the last final block of the added one**: it is at or below the
pending one, once `add_impl` has looked at the claim. -/
theorem settled_added (hW : Linked W) (hn : n ∈ W)
    (hp : db.advancePendingLib savannaType n = .ok db') {r q : SavannaBlock} (hr : db.root = some r)
    (hq : db.root = some q ∨ q ∈ db.index) (hid : q.id = n.previous) (hs : n.block.headerClaim.isStrongQc = true)
    (hroot : r.block.num < n.block.headerClaim.blockNum) :
    n.block.core.lastFinalBlockNum ≤ numFromId db'.pendingSavannaLibId := by
  have hle := (h.advancePendingLib hW hn hp).1
  have hqW : q ∈ W := hq.elim (h.root_mem q) (h.index_mem q)
  have hqn : n.block.num = q.block.num + 1 := by
    have := n.numbered
    rw [← hid] at this
    exact this
  have hlf := n.lastFinal_le_claim
  have hcl := n.claim_lt_num (hW.ancestors_ne hqW hn hid.symm)
  rcases Nat.lt_or_ge (numFromId db.pendingSavannaLibId) n.block.headerClaim.blockNum with hpe | hpe
  · -- the claimed block is between the root and the added one, so it is found
    have hqi : q ∈ db.index := by
      rcases hq with hq | hq
      · rw [hr] at hq
        cases hq
        omega
      · exact hq
    obtain ⟨claimed, hf⟩ := Option.isSome_iff_exists.1 (h.tree.searchOnBranchImpl_isSome hr hqi hroot
      (show n.block.headerClaim.blockNum ≤ q.block.num by omega))
    rw [show savannaType.id q = n.previous from hid] at hf
    obtain ⟨ref, h1, h2⟩ := h.search_ref hW hn hs hf
    rw [advancePendingLib_eq rfl hs hpe hf h1] at hp
    have hset := (setPendingSavannaLibIdImpl_le db ref.blockId).2
    rw [Except.ok.inj hp] at hset
    have hnum : numFromId ref.blockId = n.block.core.lastFinalBlockNum :=
      n.valid.view.wf.blockNum_of_getBlockReference h2
    omega
  · omega

theorem add (hW : Linked W) {db1 : ForkDb SavannaBlock} {q : SavannaBlock} (hn : n ∈ W)
    (hp : db.advancePendingLib savannaType n = .ok db1) (hq : db.root = some q ∨ q ∈ db.index) (hid : q.id = n.previous)
    (ht : Inv savannaType { db1 with index := n :: db.index }) : LibInv W { db1 with index := n :: db.index } := by
  have hr := (advancePendingLib_frame hp).1
  have hle := (h.advancePendingLib hW hn hp).1
  refine ⟨ht, fun r hr' => h.root_mem r (hr ▸ hr'), forall_mem_cons.2 ⟨hn, h.index_mem⟩, fun r hr' => ?_⟩
  rw [show db1.root = some r from hr'] at hr
  refine forall_mem_cons.2 ⟨?_, fun b hb => ?_⟩
  · -- once `add_impl` has looked at its claim
    show _ ≤ max (numFromId db1.pendingSavannaLibId) _
    cases hs : n.block.headerClaim.isStrongQc with
    | false =>
      -- as in the parent
      have hqW : q ∈ W := hq.elim (h.root_mem q) (h.index_mem q)
      rw [hW.lastFinal_of_weak hqW hn hid.symm hs]
      rcases hq with hq | hq
      · rw [← hr] at hq
        cases hq
        have := q.lastFinal_le_num
        omega
      · have := h.final r hr.symm q hq
        omega
    | true =>
      rcases Nat.lt_or_ge r.block.num n.block.headerClaim.blockNum with hroot | hroot
      · have := h.settled_added hW hn hp hr.symm hq hid hs hroot
        omega
      · have := n.lastFinal_le_claim
        omega
  · have h1 := h.final r hr.symm b hb
    show _ ≤ max (numFromId db1.pendingSavannaLibId) _
    omega

theorem step (hW : Linked W) (op : Op SavannaBlock) (hop : ∀ b ∈ op.blocks, b ∈ W) :
    LibInv W (db.step savannaType op) := by
  have ht := h.tree.step op
  rcases h.tree.step_cases op with ⟨r, rfl, he⟩ | hs | ⟨b, _, _, _, db1, q, rfl, -, hp, -, hq, hid, he⟩
  · rw [he] at ht ⊢
    refine ⟨ht, fun r' hr' => ?_, fun b hb => absurd hb not_mem_nil, fun _ _ b hb => absurd hb not_mem_nil⟩
    cases hr'
    exact hop r (by simp [Op.blocks])
  · exact h.shrink ht hs
  · rw [he] at ht ⊢
    exact h.add hW (hop b (by simp [Op.blocks])) hp hq hid ht

end

end LibInv

/-! ## The pending block over sequences of calls -/

/-- **Where a pending id comes from**: a call sets it, or it is the last final block of the core of an added block. -/
def Marked (ops : List (Op SavannaBlock)) (id : BlockId) : Prop :=
  .setPendingSavannaLibId id ∈ ops ∨
  ∃ b ignoreDuplicate validate validator ref, .add (some b) ignoreDuplicate validate validator ∈ ops ∧
    b.block.core.getBlockReference b.block.core.lastFinalBlockNum = .ok ref ∧ ref.blockId = id

theorem Marked.mono {ops ops' : List (Op SavannaBlock)} {id : BlockId} (h : Marked ops id) (hsub : ops ⊆ ops') :
    Marked ops' id :=
  h.imp (fun hm => hsub hm)
    (fun ⟨b, i, v, f, ref, hm, hr⟩ => ⟨b, i, v, f, ref, hsub hm, hr⟩)

variable {W : List SavannaBlock}

theorem LibInv.pending_step {db : ForkDb SavannaBlock} (h : LibInv W db) (hW : Linked W)
    (op : Op SavannaBlock) (hop : ∀ b ∈ op.blocks, b ∈ W) (hres : op.isReset = false) :
    numFromId db.pendingSavannaLibId ≤ numFromId (db.step savannaType op).pendingSavannaLibId ∧
    ((db.step savannaType op).pendingSavannaLibId = db.pendingSavannaLibId ∨
      Marked [op] (db.step savannaType op).pendingSavannaLibId) := by
  cases op with
  | resetRoot rootBsp =>
    cases rootBsp with
    | none => exact ⟨le_rfl, .inl rfl⟩
    | some r => cases hres
  | add n ignoreDuplicate validate validator =>
    rcases addImpl_cases savannaType db n ignoreDuplicate validate validator with
      ⟨e, he⟩ | ⟨b, db1, rfl, -, hp, hr⟩
    · rw [ForkDb.step, he]; exact ⟨le_rfl, .inl rfl⟩
    · obtain ⟨hle, hpe⟩ := h.advancePendingLib hW (hop b (by simp [Op.blocks])) hp
      have hs : (db.step savannaType (.add (some b) ignoreDuplicate validate validator)).pendingSavannaLibId =
          db1.pendingSavannaLibId := by
        rcases hr with ⟨e, he⟩ | he | ⟨a, he, -⟩ <;> rw [ForkDb.step, he]
      rw [hs]
      refine ⟨hle, hpe.imp_right (fun hm => .inr ?_)⟩
      obtain ⟨ref, href, heq⟩ := hm
      exact ⟨b, ignoreDuplicate, validate, validator, ref, mem_singleton_self _, href, heq.symm⟩
  | remove id => exact ⟨le_rfl, .inl rfl⟩
  | removeFrom blockNum => exact ⟨le_rfl, .inl rfl⟩
  | advanceRoot isValid id =>
    rcases advanceRootImpl_cases savannaType db isValid id with ⟨e, he⟩ | ⟨_, _, -, -, -, -, he⟩ <;>
      rw [ForkDb.step, he] <;> exact ⟨le_rfl, .inl rfl⟩
  | setPendingSavannaLibId id =>
    refine ⟨(setPendingSavannaLibIdImpl_le db id).1,
      (setPendingSavannaLibIdImpl_eq db id).imp_right (fun heq => .inl ?_)⟩
    rw [ForkDb.step, heq]
    exact mem_singleton_self _

theorem LibInv.run (hW : Linked W) : ∀ ops {db},
    LibInv W db → (∀ op ∈ ops, ∀ b ∈ op.blocks, b ∈ W) →
    LibInv W (ops.foldl (ForkDb.step savannaType) db) ∧
    ((∀ op ∈ ops, op.isReset = false) → numFromId db.pendingSavannaLibId ≤
      numFromId (ops.foldl (ForkDb.step savannaType) db).pendingSavannaLibId) ∧
    ((ops.foldl (ForkDb.step savannaType) db).pendingSavannaLibId ∈ [BlockId.zero, db.pendingSavannaLibId] ∨
      Marked ops (ops.foldl (ForkDb.step savannaType) db).pendingSavannaLibId)
  | [], _, h, _ => ⟨h, fun _ => le_rfl, .inl (by simp)⟩
  | op :: ops, db, h, hos => by
    obtain ⟨hop, hos⟩ := forall_mem_cons.1 hos
    obtain ⟨hinv, hle, hf⟩ := LibInv.run hW ops (h.step hW op hop) hos
    rw [foldl_cons]
    refine ⟨hinv, fun hno => ?_, ?_⟩
    · obtain ⟨hno1, hno⟩ := forall_mem_cons.1 hno
      exact (h.pending_step hW op hop hno1).1.trans (hle hno)
    · rcases hf with hf | hf
      · -- unset, or as it was after the first call
        rcases mem_pair.1 hf with hz | hfi
        · exact .inl (mem_pair.2 (.inl hz))
        rw [hfi]
        cases hres : op.isReset with
        | true =>
          cases op with
          | resetRoot rootBsp =>
            cases rootBsp with
            | none => cases hres
            | some r => exact .inl (mem_pair.2 (.inl rfl))
          | _ => cases hres
        | false =>
          exact (h.pending_step hW op hop hres).2.imp (fun heq => mem_pair.2 (.inr heq))
            (fun hm => hm.mono (cons_subset_cons _ (nil_subset _)))
      · exact .inr (hf.mono (subset_cons_self _ _))

/-- **The pending last irreversible block over every sequence of calls**: it never goes back between resets; it is unset,
was set by a call, or is the last final block of the core of an added block; and no block of the index has its last final
block above both the pending one and the root. -/
theorem pendingLib_run (ops : List (Op SavannaBlock)) (hids : Linked (ops.flatMap Op.blocks)) :
    (∀ pre post, ops = pre ++ post → (∀ op ∈ post, op.isReset = false) →
      numFromId (ForkDb.run savannaType pre).pendingSavannaLibId ≤
        numFromId (ForkDb.run savannaType ops).pendingSavannaLibId) ∧
    ((ForkDb.run savannaType ops).pendingSavannaLibId = BlockId.zero ∨
      Marked ops (ForkDb.run savannaType ops).pendingSavannaLibId) ∧
    ∀ b ∈ (ForkDb.run savannaType ops).index, ∃ r, (ForkDb.run savannaType ops).root = some r ∧
      b.block.core.lastFinalBlockNum ≤
        max (numFromId (ForkDb.run savannaType ops).pendingSavannaLibId) (savannaType.blockNum r) := by
  have hos : ∀ op ∈ ops, ∀ b ∈ op.blocks, b ∈ ops.flatMap Op.blocks :=
    fun op hop b hb => mem_flatMap.2 ⟨op, hop, hb⟩
  obtain ⟨hinv, -, hf⟩ := LibInv.run hids ops LibInv.init hos
  refine ⟨fun pre post heq hno => ?_, hf.imp_left (fun h => ?_), fun b hb => ?_⟩
  · have hpre := (LibInv.run hids pre LibInv.init (fun op hop => hos op (heq ▸ mem_append_left _ hop))).1
    have := (LibInv.run hids post hpre (fun op hop => hos op (heq ▸ mem_append_right _ hop))).2.1 hno
    rwa [← foldl_append, ← heq] at this
  · exact (mem_pair.1 h).elim (·) fun h => h
  · obtain ⟨r, hr⟩ := hinv.tree.exists_root hb
    exact ⟨r, hr, hinv.final r hr b hb⟩

def sampleRoot : SavannaBlock :=
  { block := genesisBlock (sampleRef 5), ancestors := [], previous := ⟨4, 4⟩, activatedProtocolFeatures := [],
    newProtocolFeatures := none, valid := .genesis _ (by decide), parent := by simp, numbered := rfl }

def sampleChild6 : SavannaBlock :=
  { block := sampleFirst, ancestors := [genesisBlock (sampleRef 5)], previous := ⟨5, 5⟩, activatedProtocolFeatures := [],
    newProtocolFeatures := none, valid := sampleFirst_valid, parent := by simp [genesisBlock, sampleRef], numbered := rfl }

def sampleChild7 : SavannaBlock :=
  { block := sampleSecond, ancestors := [sampleFirst, genesisBlock (sampleRef 5)], previous := ⟨6, 6⟩,
    activatedProtocolFeatures := [], newProtocolFeatures := none
    valid := .next sampleFirst_valid (show verifyBasicProperBlockInvariants sampleSecond.properBlock
      (sampleFirst.prevBlock none false) = .ok sampleSecond.qc from rfl) rfl (by decide) rfl
    parent := by simp [sampleFirst, sampleRef], numbered := rfl }

def sampleCalls : List (Op SavannaBlock) :=
  [.resetRoot (some sampleRoot), .add (some sampleChild6) false false (fun _ _ _ => .ok ()),
    .add (some sampleChild7) false false (fun _ _ _ => .ok ())]

theorem pendingLib_run_sampleCalls : (ForkDb.run savannaType sampleCalls).pendingSavannaLibId = ⟨5, 5⟩ ∧
    Marked sampleCalls (ForkDb.run savannaType sampleCalls).pendingSavannaLibId ∧
    ∃ r, (ForkDb.run savannaType sampleCalls).root = some r ∧
      sampleChild7.block.core.lastFinalBlockNum ≤
        max (numFromId (ForkDb.run savannaType sampleCalls).pendingSavannaLibId) (savannaType.blockNum r) := by
  obtain ⟨-, hf, hfin⟩ := pendingLib_run sampleCalls (by unfold Linked; decide)
  exact ⟨rfl, hf.resolve_left (by decide), hfin sampleChild7 (mem_cons_self ..)⟩

/-- **A reset clears the pending block**: its number goes back, and no added block has the unset id as last final; and a
call can set an id that is no block's. -/
theorem pendingLib_reset : Linked ((sampleCalls ++ [Op.resetRoot (some sampleChild6)]).flatMap Op.blocks) ∧
    (ForkDb.run savannaType sampleCalls).pendingSavannaLibId = ⟨5, 5⟩ ∧
    (ForkDb.run savannaType (sampleCalls ++ [Op.resetRoot (some sampleChild6)])).pendingSavannaLibId = ⟨0, 0⟩ ∧
    (∀ b ∈ sampleCalls.flatMap Op.blocks,
      (b.block.core.getBlockReference b.block.core.lastFinalBlockNum).map BlockRef.blockId ≠ .ok ⟨0, 0⟩) ∧
    (ForkDb.run savannaType (sampleCalls ++ [Op.setPendingSavannaLibId ⟨9, 1⟩])).pendingSavannaLibId = ⟨9, 1⟩ := by
  refine ⟨by unfold Linked; decide, rfl, rfl, by decide, rfl⟩

end ForkDb
end TheChannel
