import TheChannel.HeaderChain
import TheChannel.Merkle
/-!
# BlockState — the validation trees of Savanna block states

`block_state.cpp`: a block state is a header state with its finality digest and, once the block was executed, `valid`: the
incremental Merkle tree of the finality leaves from the genesis block on, and the roots of the trees of the blocks from
the last final one on. `BlockChain` lists a block state's branch, newest first; a step adds a block or gives `valid` to
a block that was received before, at any place of the branch.

`ChainInv` is the invariant: a valid block's ancestors are valid, its tree holds the leaves of its branch and its roots are
a window over those of the branch's tails.
-/
namespace TheChannel
open BlockHeaderState IncrementalMerkleTree List

structure FinalityLeafNode where
  majorVersion : Nat
  minorVersion : Nat
  blockNum : Nat
  timestamp : Nat
  parentTimestamp : Nat
  finalityDigest : Digest
  actionMroot : Digest
  deriving DecidableEq

structure LeafHash where
  sha256 : FinalityLeafNode → Digest
  hashCombine : Digest → Digest → Digest

structure ValidT extends Valid where
  validationTree : IncrementalMerkleTree Digest
  deriving DecidableEq

/-- `block_state`. `actionMroot` is the action root that `valid` was made of; the source's cache of that name is read by
`get_finality_data` alone, and is not set at the end of the transition. -/
structure BlockState (Blob : Type) extends BlockHeaderState Blob where
  strongDigest : Digest
  valid : Option ValidT
  actionMroot : Digest

namespace BlockState
variable {Blob : Type} (x : Externals Blob) (h : LeafHash) {p s s' : BlockState Blob} {ps ss L : List (BlockState Blob)}
  {nextBhs : BlockHeaderState Blob} {validator : Validator} {b : BlockHeader Blob} {input : BlockHeaderStateInput} {m d : Digest}
  {bsp : Legacy Blob} {v : ValidT}

def lightHeaderProtocolVersionMajor : Nat := 1

def lightHeaderProtocolVersionMinor : Nat := 0

def leafNode (blockNum timestamp parentTimestamp : Nat) (finalityDigest actionMroot : Digest) : FinalityLeafNode :=
  ⟨lightHeaderProtocolVersionMajor, lightHeaderProtocolVersionMinor, blockNum, timestamp, parentTimestamp, finalityDigest,
    actionMroot⟩

def trimFront (mroots : List Digest) (start : Nat) : Result (List Digest) :=
  if start ≤ mroots.length then .ok (mroots.drop start)
  else .error (.undefined "valid->validation_mroots.cbegin() + start")

def newValid (s : BlockState Blob) (nextBhs : BlockHeaderState Blob) (actionMroot strongDigest : Digest) : Result ValidT :=
  match s.valid with
  | none => .error (.assertion "valid")
  | some valid => do
    assertThat "next_bhs.core.last_final_block_num() >= core.last_final_block_num()"
      (decide (s.core.lastFinalBlockNum ≤ nextBhs.core.lastFinalBlockNum))
    assertThat "!strong_digest.empty()" (strongDigest != 0)
    let kept ← trimFront valid.validationMroots (nextBhs.core.lastFinalBlockNum - s.core.lastFinalBlockNum)
    let tree ← valid.validationTree.append h.hashCombine
      (h.sha256 (leafNode nextBhs.blockNum nextBhs.timestamp s.timestamp strongDigest actionMroot))
    let root ← tree.getRoot h.hashCombine
    assertThat "next_valid.validation_mroots.size() == (next_bhs.block_num() - next_bhs.core.last_final_block_num() + 1)"
      ((kept ++ [root]).length == nextBhs.blockNum - nextBhs.core.lastFinalBlockNum + 1)
    return ⟨⟨kept ++ [root]⟩, tree⟩

def asPrev (s : BlockState Blob) (isValid : Bool) : PrevBlock :=
  { blockNum := s.blockNum
    isLegacyBlock := !s.header.containsHeaderExtension finalityExtensionId
    finalityExt := s.finalityExtension.map FinalityExtension.qcClaim
    core := s.core
    valid := s.valid.map ValidT.toValid
    isValid := isValid }

def getValidationMroot (s : BlockState Blob) (targetBlockNum : Nat) : Result Digest :=
  (s.asPrev true).getValidationMroot targetBlockNum

def getFinalityMrootClaim (s : BlockState Blob) (qcClaim : QcClaim) : Result Digest :=
  (s.asPrev true).getFinalityMrootClaim qcClaim

/-! ## How block states are made -/

def createIfGenesisBlock (bsp : Legacy Blob) : Result (BlockState Blob) := do
  let result ← BlockHeaderState.createIfGenesisBlock x bsp
  let strongDigest ← result.computeFinalityDigest x
  let validationTree ← (empty : IncrementalMerkleTree Digest).append h.hashCombine (h.sha256
    (leafNode bsp.header.blockNum bsp.header.timestamp 0 strongDigest (bsp.actionMrootSavanna.getD 0)))
  let root ← validationTree.getRoot h.hashCombine
  return ⟨result, strongDigest, some ⟨⟨[root]⟩, validationTree⟩, bsp.actionMrootSavanna.getD 0⟩

def ofHeader (prev : BlockState Blob) (b : BlockHeader Blob) (validator : Validator) : Result (BlockState Blob) := do
  let bhs ← prev.nextHeader x b validator
  let strongDigest ← bhs.computeFinalityDigest x
  return ⟨bhs, strongDigest, none, 0⟩

def validated (prev s : BlockState Blob) (nextBhs : BlockHeaderState Blob) (actionMroot : Digest) :
    Result (BlockState Blob) := do
  let valid ← prev.newValid h nextBhs actionMroot s.strongDigest
  return { s with valid := some valid, actionMroot := actionMroot }

def createTransitionBlock (prev : BlockState Blob) (b : BlockHeader Blob) (validator : Validator)
    (actionMrootSavanna : Option Digest) : Result (BlockState Blob) := do
  let result ← prev.ofHeader x b validator
  -- in irreversible mode the block was not executed yet
  if actionMrootSavanna.getD 0 = 0 then return result
  else prev.validated h result result.toBlockHeaderState (actionMrootSavanna.getD 0)

/-- `assemble_block` for a block that is produced, and the block state made of it. -/
def assembleProduced (parent : BlockState Blob) (input : BlockHeaderStateInput) (actionMroot : Digest) :
    Result (BlockState Blob) := do
  let bhs ← parent.next x input
  let strongDigest ← bhs.computeFinalityDigest x
  parent.validated h ⟨bhs, strongDigest, none, 0⟩ bhs actionMroot

/-- `assemble_block` for a received block, which is given `valid` if it has none. -/
def assembleValidating (parent validatingBsp : BlockState Blob) (input : BlockHeaderStateInput) (actionMroot : Digest) :
    Result (BlockState Blob) := do
  let bhs ← parent.next x input
  if validatingBsp.valid.isSome then return validatingBsp
  else parent.validated h validatingBsp bhs actionMroot

/-- `transition_add_to_savanna_fork_db`, after the block was executed. -/
def transitionAddToSavannaForkDb (prev newBsp : BlockState Blob) (actionMrootSavanna : Option Digest) :
    Result (BlockState Blob) :=
  match actionMrootSavanna with
  | some actionMroot =>
    if newBsp.valid.isSome then .ok newBsp else prev.validated h newBsp newBsp.toBlockHeaderState actionMroot
  | none => .ok newBsp

/-- The input that simulates a received block: its parent, time and claim. -/
structure Simulates (input : BlockHeaderStateInput) (parent validatingBsp : BlockState Blob) : Prop where
  parentId : input.parentId = parent.blockId
  time : input.timestamp = validatingBsp.timestamp
  claim : input.mostRecentAncestorWithQc = validatingBsp.core.latestQcClaim

/-- **The branches of block states**, newest first. -/
inductive BlockChain : List (BlockState Blob) → Prop
  | genesis {bsp : Legacy Blob} {s : BlockState Blob} (made : createIfGenesisBlock x h bsp = .ok s)
      (generation : s.activeFinalizerPolicy.generation = 1) : BlockChain [s]
  | received {s p : BlockState Blob} {ps : List (BlockState Blob)} (parent : BlockChain (p :: ps)) (b : BlockHeader Blob)
      (validator : Validator) (made : p.ofHeader x b validator = .ok s) : BlockChain (s :: p :: ps)
  | transition {s p : BlockState Blob} {ps : List (BlockState Blob)} (parent : BlockChain (p :: ps))
      (b : BlockHeader Blob) (validator : Validator) (actionMrootSavanna : Option Digest)
      (made : p.createTransitionBlock x h b validator actionMrootSavanna = .ok s) : BlockChain (s :: p :: ps)
  | produced {s p : BlockState Blob} {ps : List (BlockState Blob)} (parent : BlockChain (p :: ps))
      (input : BlockHeaderStateInput) (onParent : input.parentId = p.blockId) (actionMroot : Digest)
      (made : p.assembleProduced x h input actionMroot = .ok s) : BlockChain (s :: p :: ps)
  | validating {pre ps : List (BlockState Blob)} {s s' p : BlockState Blob} (chain : BlockChain (pre ++ s :: p :: ps))
      (input : BlockHeaderStateInput) (simulates : Simulates input p s) (actionMroot : Digest)
      (made : p.assembleValidating x h s input actionMroot = .ok s') : BlockChain (pre ++ s' :: p :: ps)
  | transitionAdded {pre ps : List (BlockState Blob)} {s s' p : BlockState Blob}
      (chain : BlockChain (pre ++ s :: p :: ps)) (actionMrootSavanna : Option Digest)
      (made : p.transitionAddToSavannaForkDb h s actionMrootSavanna = .ok s') : BlockChain (pre ++ s' :: p :: ps)

/-! ## What a step does -/

/-- **`valid` of a block, as its parent made it.** The header state that the parent was asked about may differ from the
block's, but not in number, time and finality core. -/
structure Given (p s : BlockState Blob) : Prop where
  made : ∃ nextBhs v, HeaderStep x p.toBlockHeaderState nextBhs ∧ nextBhs.timestamp = s.timestamp ∧
    nextBhs.core.lastFinalBlockNum = s.core.lastFinalBlockNum ∧
    p.newValid h nextBhs s.actionMroot s.strongDigest = .ok v ∧ s.valid = some v

variable {x h}

theorem validated_ok {actionMroot : Digest}
    (hm : p.validated h s nextBhs actionMroot = .ok s') : s'.toBlockHeaderState = s.toBlockHeaderState ∧
      ∃ v, p.newValid h nextBhs s'.actionMroot s'.strongDigest = .ok v ∧ s'.valid = some v := by
  obtain ⟨v, hv, hm⟩ := bind_ok hm
  cases hm
  exact ⟨rfl, v, hv, rfl⟩

theorem ofHeader_ok (hm : p.ofHeader x b validator = .ok s) :
    HeaderStep x p.toBlockHeaderState s.toBlockHeaderState ∧ s.valid = none := by
  obtain ⟨bhs, hb, hm⟩ := bind_ok hm
  obtain ⟨d, -, hm⟩ := bind_ok hm
  cases hm
  exact ⟨.validated b validator hb, rfl⟩

theorem createTransitionBlock_ok {m : Option Digest} (hm : p.createTransitionBlock x h b validator m = .ok s) :
    HeaderStep x p.toBlockHeaderState s.toBlockHeaderState ∧ (s.valid = none ∨ Given x h p s) := by
  obtain ⟨r, hr, hm⟩ := bind_ok hm
  obtain ⟨hstep, hn⟩ := ofHeader_ok hr
  by_cases hz : m.getD 0 = 0
  · rw [if_pos hz] at hm
    cases hm
    exact ⟨hstep, .inl hn⟩
  · rw [if_neg hz] at hm
    obtain ⟨hb, v, hv, hs⟩ := validated_ok hm
    refine ⟨hb ▸ hstep, .inr ⟨r.toBlockHeaderState, v, hstep, ?_, ?_, hv, hs⟩⟩
    · rw [hb]
    · rw [hb]

theorem next_timeClaim {s s' : BlockHeaderState Blob} (hp : input.parentId = s.blockId) (hn : s.next x input = .ok s') :
    s'.timestamp = input.timestamp ∧ ∃ f, Finished x s s' f ∧ f.qcClaim = input.mostRecentAncestorWithQc := by
  obtain ⟨fd, -, hn⟩ := bind_ok hn
  obtain ⟨pd, -, hn⟩ := bind_ok hn
  have hf := finishNext_ok hn hp (by cases input.newProtocolFeatureActivations <;> rfl)
  refine ⟨?_, _, hf, rfl⟩
  iterate 7 obtain ⟨_, -, hn⟩ := bind_ok hn
  cases hn
  rfl

theorem assembleValidating_ok (hc : HeaderChain x ((s :: p :: ps).map toBlockHeaderState))
    (hin : Simulates input p s) (hm : p.assembleValidating x h s input m = .ok s') :
    s'.toBlockHeaderState = s.toBlockHeaderState ∧ (s' = s ∨ s.valid = none ∧ Given x h p s') := by
  obtain ⟨bhs, hb, hm⟩ := bind_ok hm
  cases hv : s.valid with
  | some v =>
    rw [hv] at hm
    cases hm
    exact ⟨rfl, .inl rfl⟩
  | none =>
    rw [hv] at hm
    obtain ⟨hs, v, hnew, hval⟩ := validated_ok hm
    obtain ⟨ht, f', hf', hcl⟩ := next_timeClaim hin.parentId hb
    refine ⟨hs, .inr ⟨rfl, bhs, v, .produced input hin.parentId hb, ?_, ?_, hnew, hval⟩⟩
    · rw [ht, hin.time, hs]
    · cases hc with
      | next parent step =>
        obtain ⟨f, hf⟩ := step.finished
        obtain ⟨-, hco⟩ := hf.core_eq parent.linked
        have hq : _ = f.qcClaim := hco ▸ FinalityCore.advance_latestQcClaim ..
        rw [(hf'.core_eq parent.linked).2, hcl, hin.claim, hq, ← hco, hs]

theorem transitionAdd_ok (hc : HeaderChain x ((s :: p :: ps).map toBlockHeaderState)) {m : Option Digest}
    (hm : p.transitionAddToSavannaForkDb h s m = .ok s') :
    s'.toBlockHeaderState = s.toBlockHeaderState ∧ (s' = s ∨ s.valid = none ∧ Given x h p s') := by
  cases m with
  | none =>
    cases hm
    exact ⟨rfl, .inl rfl⟩
  | some m =>
    cases hv : s.valid with
    | some v =>
      rw [transitionAddToSavannaForkDb, hv] at hm
      cases hm
      exact ⟨rfl, .inl rfl⟩
    | none =>
      rw [transitionAddToSavannaForkDb, hv] at hm
      obtain ⟨hs, v, hnew, hval⟩ := validated_ok hm
      refine ⟨hs, .inr ⟨rfl, s.toBlockHeaderState, v, ?_, ?_, ?_, hnew, hval⟩⟩
      · cases hc with
        | next parent step => exact step
      · rw [hs]
      · rw [hs]

theorem createIfGenesisBlock_ok (hm : createIfGenesisBlock x h bsp = .ok s) :
    BlockHeaderState.createIfGenesisBlock x bsp = .ok s.toBlockHeaderState ∧ ∃ tree root,
      (empty : IncrementalMerkleTree Digest).append h.hashCombine
        (h.sha256 (leafNode bsp.header.blockNum bsp.header.timestamp 0 s.strongDigest s.actionMroot)) = .ok tree ∧
      tree.getRoot h.hashCombine = .ok root ∧ s.valid = some ⟨⟨[root]⟩, tree⟩ := by
  obtain ⟨r, hr, hm⟩ := bind_ok hm
  obtain ⟨d, -, hm⟩ := bind_ok hm
  obtain ⟨tree, ht, hm⟩ := bind_ok hm
  obtain ⟨root, hroot, hm⟩ := bind_ok hm
  cases hm
  exact ⟨hr, tree, root, ht, hroot, rfl⟩

/-- **What the branches are made of**: a first block, a block on top, or a block of the branch that is given `valid`.
In each case the header states are a header chain. -/
theorem BlockChain.induct {P : List (BlockState Blob) → Prop} (hL : BlockChain x h L)
    (genesis : ∀ {bsp s}, createIfGenesisBlock x h bsp = .ok s → Genesis x s.toBlockHeaderState → P [s])
    (add : ∀ {s p ps}, HeaderChain x ((s :: p :: ps).map toBlockHeaderState) → P (p :: ps) →
      (s.valid = none ∨ Given x h p s) → P (s :: p :: ps))
    (give : ∀ {pre s s' p ps}, HeaderChain x ((pre ++ s' :: p :: ps).map toBlockHeaderState) → P (pre ++ s :: p :: ps) →
      s'.toBlockHeaderState = s.toBlockHeaderState → s.valid = none → Given x h p s' → P (pre ++ s' :: p :: ps)) :
    HeaderChain x (L.map toBlockHeaderState) ∧ P L := by
  -- the two ways to give `valid` to a block of the branch end alike
  have hgi : ∀ {pre s s' p ps}, HeaderChain x ((pre ++ s :: p :: ps).map toBlockHeaderState) →
      P (pre ++ s :: p :: ps) → s'.toBlockHeaderState = s.toBlockHeaderState →
      (s' = s ∨ s.valid = none ∧ Given x h p s') →
      HeaderChain x ((pre ++ s' :: p :: ps).map toBlockHeaderState) ∧ P (pre ++ s' :: p :: ps) := by
    intro pre s s' p ps hc hP hs hca
    have hc' : HeaderChain x ((pre ++ s' :: p :: ps).map toBlockHeaderState) := by
      rw [map_append, map_cons, hs, ← map_cons, ← map_append]
      exact hc
    rcases hca with rfl | ⟨hn, hg⟩
    · exact ⟨hc', hP⟩
    · exact ⟨hc', give hc' hP hs hn hg⟩
  have ht : ∀ {pre s : List (BlockState Blob)} {t : BlockState Blob},
      HeaderChain x ((pre ++ t :: s).map toBlockHeaderState) → HeaderChain x ((t :: s).map toBlockHeaderState) :=
    fun hc => hc.suffix (by rw [map_append]; exact suffix_append _ _) (by simp)
  induction hL with
  | @genesis bsp s made generation =>
    have hg : Genesis x s.toBlockHeaderState := ⟨⟨bsp, (createIfGenesisBlock_ok made).1⟩, generation⟩
    exact ⟨.genesis hg, genesis made hg⟩
  | received parent b validator made ih =>
    obtain ⟨hstep, hn⟩ := ofHeader_ok made
    exact ⟨.next ih.1 hstep, add (.next ih.1 hstep) ih.2 (.inl hn)⟩
  | transition parent b validator m made ih =>
    obtain ⟨hstep, hca⟩ := createTransitionBlock_ok made
    exact ⟨.next ih.1 hstep, add (.next ih.1 hstep) ih.2 hca⟩
  | produced parent input onParent m made ih =>
    obtain ⟨bhs, hb, made⟩ := bind_ok made
    obtain ⟨d, -, made⟩ := bind_ok made
    obtain ⟨hs, v, hv, hval⟩ := validated_ok made
    have hstep : HeaderStep x _ bhs := .produced input onParent hb
    exact ⟨.next ih.1 (hs ▸ hstep), add (.next ih.1 (hs ▸ hstep)) ih.2 (.inr ⟨bhs, v, hstep, by rw [hs], by rw [hs], hv, hval⟩)⟩
  | validating chain input simulates m made ih =>
    obtain ⟨hs, hca⟩ := assembleValidating_ok (ht ih.1) simulates made
    exact hgi ih.1 ih.2 hs hca
  | transitionAdded chain m made ih =>
    obtain ⟨hs, hca⟩ := transitionAdd_ok (ht ih.1) made
    exact hgi ih.1 ih.2 hs hca

/-! ## The invariant -/

def leaves (h : LeafHash) : List (BlockState Blob) → List Digest
  | [] => []
  | [s] => [h.sha256 (leafNode s.blockNum s.timestamp 0 s.strongDigest s.actionMroot)]
  | s :: p :: ps =>
    leaves h (p :: ps) ++ [h.sha256 (leafNode s.blockNum s.timestamp p.timestamp s.strongDigest s.actionMroot)]

def validationRoot (h : LeafHash) (branch : List (BlockState Blob)) : Digest :=
  calculateMerkle h.hashCombine (leaves h branch)

/-- **The structure of a valid block**: the tree of its branch's leaves, and the roots of the branches of the blocks from
the last final one on. -/
structure Keeps (h : LeafHash) (s : BlockState Blob) (ss : List (BlockState Blob)) (v : ValidT) : Prop where
  tree : Holds h.hashCombine v.validationTree (leaves h (s :: ss))
  mroots : v.validationMroots = window (validationRoot h) (s.blockNum - s.core.lastFinalBlockNum + 1) (s :: ss).tails

def ChainInv (h : LeafHash) (L : List (BlockState Blob)) : Prop :=
  ∀ s ss v, s :: ss <:+ L → s.valid = some v → (∀ t ∈ ss, t.valid.isSome = true) ∧ Keeps h s ss v

theorem window_le (hc : HeaderChain x ((s :: ss).map toBlockHeaderState)) :
    s.core.lastFinalBlockNum ≤ s.blockNum ∧ s.blockNum - s.core.lastFinalBlockNum + 1 ≤ (s :: ss).length := by
  have hl := hc.linked
  have hlen : s.core.refs.length ≤ ss.length := by simpa [block] using hl.view.refs_le
  have hnum : s.core.lastFinalBlockNum + s.core.refs.length = s.core.currentBlockNum := hl.wf.ref_length
  have hcu : s.core.currentBlockNum = s.blockNum := hl.current
  simp only [length_cons]
  omega

theorem Keeps.newValid (hk : Keeps h p ps v) (hv : p.valid = some v)
    (hc : HeaderChain x ((p :: ps).map toBlockHeaderState)) {nextBhs : BlockHeaderState Blob}
    (hstep : HeaderStep x p.toBlockHeaderState nextBhs) {m d : Digest} (hd : d ≠ 0) :
    ∃ v', p.newValid h nextBhs m d = .ok v' ∧ ∀ s : BlockState Blob, s.blockNum = nextBhs.blockNum →
      s.timestamp = nextBhs.timestamp → s.core.lastFinalBlockNum = nextBhs.core.lastFinalBlockNum →
      s.strongDigest = d → s.actionMroot = m → Keeps h s (p :: ps) v' := by
  obtain ⟨f, hf⟩ := hstep.finished
  obtain ⟨hle, hlen⟩ := window_le hc
  obtain ⟨-, hcl, hfin⟩ := hf.core_le hc.linked
  have hnum : nextBhs.blockNum = p.blockNum + 1 := hf.blockNum_eq hc.linked
  have hfin' : nextBhs.core.lastFinalBlockNum ≤ p.blockNum :=
    (linked_next hc.linked hf).wf.lastFinal_le_claim.trans hcl
  have hta : p.blockNum - p.core.lastFinalBlockNum + 1 ≤ (p :: ps).tails.length := by
    rw [length_tails]
    omega
  have hml : v.validationMroots.length = p.blockNum - p.core.lastFinalBlockNum + 1 := by
    rw [hk.mroots, window_length hta]
  let start := nextBhs.core.lastFinalBlockNum - p.core.lastFinalBlockNum
  let leaf := h.sha256 (leafNode nextBhs.blockNum nextBhs.timestamp p.timestamp d m)
  let root := calculateMerkle h.hashCombine (leaves h (p :: ps) ++ [leaf])
  obtain ⟨tree, happ, htr⟩ := hk.tree.append leaf
  have htm : trimFront v.validationMroots start = .ok (v.validationMroots.drop start) := if_pos (by omega)
  refine ⟨⟨⟨v.validationMroots.drop start ++ [root]⟩, tree⟩, ?_, fun s hn ht hl hsd hsm => ?_⟩
  · unfold BlockState.newValid
    rw [hv]
    show (assertThat _ _ >>= _) = _
    rw [assertThat_bind (by simpa using hfin), assertThat_bind (by simpa using hd), htm, ok_bind, happ, ok_bind,
      htr.getRoot, ok_bind, assertThat_bind]
    · rfl
    · simp only [length_append, length_drop, length_singleton, beq_iff_eq]
      omega
  · have hla : leaves h (s :: p :: ps) = leaves h (p :: ps) ++ [leaf] := by rw [leaves, hn, ht, hsd, hsm]
    refine ⟨by rw [hla]; exact htr, ?_⟩
    have hroot : root = validationRoot h (s :: p :: ps) := by rw [validationRoot, hla]
    have hm : p.blockNum - p.core.lastFinalBlockNum + 1 - start + 1 =
        s.blockNum - s.core.lastFinalBlockNum + 1 := by
      rw [hn, hl]
      omega
    show v.validationMroots.drop start ++ [root] = _
    rw [hroot, hk.mroots, window_drop_concat hta, hm]
    rfl

theorem newValid_ok (hn : p.newValid h nextBhs m d = .ok v) : d ≠ 0 ∧ ∃ v0, p.valid = some v0 := by
  unfold newValid at hn
  split at hn
  · cases hn
  rename_i v0 hv
  replace hn := rest_ok hn
  obtain ⟨hd, -⟩ := unit_ok hn
  exact ⟨by simpa using hd, v0, hv⟩

theorem ChainInv.tail (hi : ChainInv h (s :: ss)) : ChainInv h ss :=
  fun t ts v hs => hi t ts v (hs.trans (suffix_cons _ _))

theorem ChainInv.given (hi : ChainInv h (p :: ps)) (hc : HeaderChain x ((s :: p :: ps).map toBlockHeaderState))
    (hg : Given x h p s) : ChainInv h (s :: p :: ps) := by
  obtain ⟨nextBhs, v', hstep, hti, hfin, hnew, hval⟩ := hg.made
  obtain ⟨hd, v0, hv0⟩ := newValid_ok hnew
  have hcp : HeaderChain x ((p :: ps).map toBlockHeaderState) := hc.parent
  obtain ⟨hall, hk⟩ := hi p ps v0 (suffix_refl _) hv0
  obtain ⟨v, hok, hke⟩ := hk.newValid hv0 hcp hstep hd (m := s.actionMroot)
  obtain rfl : v = v' := Except.ok.inj (hok.symm.trans hnew)
  obtain ⟨f, hf⟩ := hstep.finished
  have hnum : s.blockNum = nextBhs.blockNum :=
    (isChain_cons_cons.1 hc.descending).1.trans (hf.blockNum_eq hcp.linked).symm
  intro t ts w hs hw
  obtain heq | hs := suffix_cons_iff.1 hs
  · cases heq
    obtain rfl : v = w := Option.some.inj (hval.symm.trans hw)
    refine ⟨?_, hke s hnum hti.symm hfin.symm rfl rfl⟩
    intro t ht
    rcases mem_cons.1 ht with rfl | ht
    · rw [hv0]; rfl
    · exact hall t ht
  · exact hi t ts w hs hw

theorem ChainInv.give : ∀ {pre}, ChainInv h (pre ++ s :: p :: ps) → s.valid = none →
    ChainInv h (s' :: p :: ps) → ChainInv h (pre ++ s' :: p :: ps)
  | [], _, _, hi' => hi'
  | t :: pre, hi, hn, hi' => by
    have ih : ChainInv h (pre ++ s' :: p :: ps) := ChainInv.give hi.tail hn hi'
    intro a as v hs hv
    obtain heq | hs := suffix_cons_iff.1 hs
    · cases heq
      have hso := (hi t (pre ++ s :: p :: ps) v (suffix_refl _) hv).1 s (by simp)
      rw [hn] at hso
      cases hso
    · exact ih a as v hs hv

theorem chainInv_genesis (hm : createIfGenesisBlock x h bsp = .ok s)
    (hg : Genesis x s.toBlockHeaderState) : ChainInv h [s] := by
  obtain ⟨hb, tree, root, happ, hroot, hval⟩ := createIfGenesisBlock_ok hm
  have hh : s.header = bsp.header := by
    iterate 2 replace hb := rest_ok hb
    obtain ⟨f, -, hb⟩ := bind_ok hb
    split at hb
    · cases hb
    obtain ⟨policy, -, hb⟩ := bind_ok hb
    rw [← Except.ok.inj hb]
  have hl : leaves h [s] =
      [h.sha256 (leafNode bsp.header.blockNum bsp.header.timestamp 0 s.strongDigest s.actionMroot)] := by
    rw [leaves, BlockHeaderState.blockNum, BlockHeaderState.timestamp, hh]
  have he : Holds h.hashCombine (empty : IncrementalMerkleTree Digest) [] := holds_empty
  obtain ⟨tree', happ', ht⟩ := he.append
    (h.sha256 (leafNode bsp.header.blockNum bsp.header.timestamp 0 s.strongDigest s.actionMroot))
  obtain rfl : tree' = tree := Except.ok.inj (happ'.symm.trans happ)
  have hk : Keeps h s [] ⟨⟨[root]⟩, tree'⟩ := by
    refine ⟨by rw [hl]; exact ht, ?_⟩
    have hfin : s.core.lastFinalBlockNum = s.blockNum := by
      rw [hg.started.core, ← (linked_genesis hg).idNum]
      rfl
    rw [hfin, Nat.sub_self, ← Except.ok.inj (ht.getRoot.symm.trans hroot)]
    show [_] = [validationRoot h [s]]
    rw [validationRoot, hl]
    rfl
  intro t ts v hs hv
  obtain heq | hs := suffix_cons_iff.1 hs
  · cases heq
    obtain rfl : _ = v := Option.some.inj (hval.symm.trans hv)
    exact ⟨by simp, hk⟩
  · simp at hs

theorem BlockChain.inv (hL : BlockChain x h L) : HeaderChain x (L.map toBlockHeaderState) ∧ ChainInv h L := by
  refine hL.induct chainInv_genesis ?_ ?_
  · intro s p ps hc hi hca
    rcases hca with hn | hg
    · intro t ts v hs hv
      obtain heq | hs := suffix_cons_iff.1 hs
      · cases heq
        rw [hn] at hv
        cases hv
      · exact hi t ts v hs hv
    · exact hi.given hc hg
  · intro pre s s' p ps hc hi _ hn hg
    have ht : HeaderChain x ((s' :: p :: ps).map toBlockHeaderState) :=
      hc.suffix (by rw [map_append]; exact suffix_append _ _) (by simp)
    have hip : ChainInv h (p :: ps) :=
      fun t ts v hs => hi t ts v (hs.trans ((suffix_cons s _).trans (suffix_append _ _)))
    exact hi.give hn (hip.given ht hg)

/-! ## Reading the roots -/

theorem Keeps.getValidationMroot (hk : Keeps h s ss v) (hv : s.valid = some v)
    (hc : HeaderChain x ((s :: ss).map toBlockHeaderState)) {n : Nat} (h1 : s.core.lastFinalBlockNum ≤ n)
    (h2 : n ≤ s.blockNum) : ∃ a as, a :: as <:+ s :: ss ∧ a.blockNum = n ∧
      s.getValidationMroot n = .ok (validationRoot h (a :: as)) := by
  obtain ⟨hle, hlen⟩ := window_le hc
  have ht : s.blockNum - s.core.lastFinalBlockNum + 1 ≤ (s :: ss).tails.length := by
    rw [length_tails]
    omega
  have hm : v.validationMroots.length = s.blockNum - s.core.lastFinalBlockNum + 1 := by
    rw [hk.mroots, window_length ht]
  have hlt : s.blockNum - n < (s :: ss).length := by omega
  obtain ⟨a, as, ha⟩ := exists_cons_of_length_pos (l := (s :: ss).drop (s.blockNum - n))
    (by rw [length_drop]; omega)
  have hsuf : a :: as <:+ s :: ss := ha ▸ drop_suffix _ _
  have hget : (s :: ss)[s.blockNum - n]? = some a := by
    rw [← head?_drop, ha]
    rfl
  have hnum : a.blockNum = n := by
    have := descending_getElem? (f := BlockHeaderState.blockNum) (k := s.blockNum - n)
      (x := s.toBlockHeaderState) (y := a.toBlockHeaderState) hc.descending
      (by rw [← map_cons, getElem?_map, hget]; rfl)
    omega
  refine ⟨a, as, hsuf, hnum, ?_⟩
  have hroot : v.validationMroots[n - s.core.lastFinalBlockNum]? = some (validationRoot h (a :: as)) := by
    rw [hk.mroots, window_getElem? (by omega) ht,
      show s.blockNum - s.core.lastFinalBlockNum + 1 - 1 - (n - s.core.lastFinalBlockNum) = s.blockNum - n by omega,
      getElem?_eq_getElem (by rw [length_tails]; omega), getElem_tails, ha]
    rfl
  unfold BlockState.getValidationMroot PrevBlock.getValidationMroot asPrev
  simp only [hv, Option.map_some]
  rw [assertThat_bind (by simp [hm]), eosAssert_bind (by simp [hm]; omega), hroot]
  rfl

theorem Keeps.getFinalityMrootClaim (hk : Keeps h s ss v) (hv : s.valid = some v)
    (hc : HeaderChain x ((s :: ss).map toBlockHeaderState)) {q : QcClaim} (hq : s.core.Claimable q) :
    ∃ d, s.getFinalityMrootClaim q = .ok d := by
  have hl := hc.linked
  have hcu : s.core.currentBlockNum = s.blockNum := hl.current
  have h1 : s.core.lastFinalBlockNum ≤ q.blockNum := hl.wf.lastFinal_le_claim.trans hq.claim_le
  have h2 : q.blockNum ≤ s.core.currentBlockNum := hq.le_current
  obtain ⟨a, as, -, -, hroot⟩ := hk.getValidationMroot hv hc h1 (hcu ▸ h2)
  have hm : s.core.nextMetadata q = .ok ⟨(s.core.frontAfter q).targetBlockNum, q.blockNum⟩ := hl.view.nextMetadata_eq hq
  show ∃ d, (s.core.nextMetadata q >>= _) = .ok d
  rw [hm, ok_bind]
  show ∃ d, (s.core.isGenesisBlockNum q.blockNum >>= _) = .ok d
  unfold FinalityCore.isGenesisBlockNum
  rw [assertThat_bind (by simpa using ⟨h1, h2⟩)]
  by_cases hg : s.core.front.sourceBlockNum == s.core.front.targetBlockNum && s.core.front.sourceBlockNum == q.blockNum
  · exact ⟨0, by simp only [hg]; rfl⟩
  · exact ⟨_, by simp only [hg]; exact hroot⟩

/-- **A valid block state keeps one root for each block from the last final one to itself, each that of the Merkle tree of
the finality leaves from the genesis block to that block; a claim that a child may make is in range. `new_valid` for a
child fails no assert.** -/
theorem validationMroots_run {L : List (BlockState Blob)} (hL : BlockChain x h L) {v : ValidT} (hs : s :: ss <:+ L)
    (hv : s.valid = some v) :
    s.core.lastFinalBlockNum ≤ s.blockNum ∧
    v.validationMroots.length = s.blockNum - s.core.lastFinalBlockNum + 1 ∧
    (∀ n, s.core.lastFinalBlockNum ≤ n → n ≤ s.blockNum → ∃ a as, a :: as <:+ s :: ss ∧ a.blockNum = n ∧
      s.getValidationMroot n = .ok (calculateMerkle h.hashCombine (leaves h (a :: as)))) ∧
    (∀ q, s.core.Claimable q → ∃ d, s.getFinalityMrootClaim q = .ok d) ∧
    ∀ (nextBhs : BlockHeaderState Blob) (m d : Digest), HeaderStep x s.toBlockHeaderState nextBhs → d ≠ 0 →
      ∃ v', s.newValid h nextBhs m d = .ok v' := by
  obtain ⟨hcL, hi⟩ := hL.inv
  have hc : HeaderChain x ((s :: ss).map toBlockHeaderState) := hcL.suffix (hs.map _) (by simp)
  obtain ⟨-, hk⟩ := hi s ss v hs hv
  obtain ⟨hle, hlen⟩ := window_le hc
  refine ⟨hle, ?_, fun n h1 h2 => hk.getValidationMroot hv hc h1 h2, fun q hq => hk.getFinalityMrootClaim hv hc hq, ?_⟩
  · rw [hk.mroots, window_length]
    rw [length_tails]
    omega
  · intro nextBhs m d hstep hd
    obtain ⟨v', hok, -⟩ := hk.newValid hv hc hstep hd
    exact ⟨v', hok⟩

theorem exists_genesis {b : BlockHeaderState Blob}
    (hb : BlockHeaderState.createIfGenesisBlock x bsp = .ok b) (hd : b.computeFinalityDigest x = .ok d) :
    ∃ s, createIfGenesisBlock x h bsp = .ok s ∧ s.toBlockHeaderState = b ∧ s.valid.isSome = true := by
  have he : Holds h.hashCombine (empty : IncrementalMerkleTree Digest) [] := holds_empty
  obtain ⟨tree, happ, ht⟩ := he.append
    (h.sha256 (leafNode bsp.header.blockNum bsp.header.timestamp 0 d (bsp.actionMrootSavanna.getD 0)))
  rw [createIfGenesisBlock, hb, ok_bind, hd, ok_bind, happ, ok_bind, ht.getRoot]
  exact ⟨_, rfl, rfl, rfl⟩

/-! ## A sample branch -/

def sampleLeafHash : LeafHash := ⟨fun leaf => leaf.blockNum, fun a b => 2 * a + 3 * b⟩

theorem BlockChain.produce_sampleChild {p : BlockState BlockHeaderExtension} {ps : List (BlockState BlockHeaderExtension)}
    (hL : BlockChain sampleExternals sampleLeafHash (p :: ps)) (hv : p.valid.isSome = true)
    {b : BlockHeaderState BlockHeaderExtension} (hb : p.toBlockHeaderState = b) (input : BlockHeaderStateInput)
    (hp : input.parentId = b.blockId) (hn : (b.next sampleExternals input).toOption.isSome = true)
    (hd : (sampleChild b input).computeFinalityDigest sampleExternals = .ok 1) :
    ∃ s, s.toBlockHeaderState = sampleChild b input ∧ s.valid.isSome = true ∧
      BlockChain sampleExternals sampleLeafHash (s :: p :: ps) := by
  subst hb
  have hs : p.next sampleExternals input = .ok (sampleChild p.toBlockHeaderState input) := by
    unfold sampleChild
    cases hs : p.next sampleExternals input with
    | ok s' => rfl
    | error e => rw [hs] at hn; cases hn
  obtain ⟨v, hva⟩ := Option.isSome_iff_exists.1 hv
  obtain ⟨hc, hi⟩ := hL.inv
  obtain ⟨-, hk⟩ := hi p ps v (suffix_refl _) hva
  obtain ⟨v', hok, -⟩ := hk.newValid hva hc (.produced input hp hs) (show (1 : Digest) ≠ 0 by decide) (m := 1)
  refine ⟨⟨_, 1, some v', 1⟩, rfl, rfl, .produced hL input hp 1 ?_⟩
  rw [assembleProduced, hs, ok_bind, hd, ok_bind, validated]
  rw [hok, ok_bind]
  rfl

theorem blockChain_sampleBlock8 : ∃ (s : BlockState BlockHeaderExtension) (ss : List (BlockState BlockHeaderExtension)),
    s.toBlockHeaderState = sampleBlock8 ∧ s.valid.isSome = true ∧
    BlockChain sampleExternals sampleLeafHash (s :: ss) := by
  obtain ⟨g, hg, hgb, hgv⟩ : ∃ g, createIfGenesisBlock sampleExternals sampleLeafHash sampleLegacy = .ok g ∧
      g.toBlockHeaderState = sampleGenesis ∧ g.valid.isSome = true := exists_genesis rfl rfl
  have hL : BlockChain sampleExternals sampleLeafHash [g] := .genesis hg (by rw [hgb]; rfl)
  obtain ⟨s6, h6b, h6v, h6⟩ := hL.produce_sampleChild hgv hgb sampleProposal rfl rfl rfl
  obtain ⟨s7, h7b, h7v, h7⟩ := h6.produce_sampleChild h6v h6b (sampleInput sampleBlock6 (sampleLastRound - 20) ⟨6, true⟩) rfl rfl rfl
  obtain ⟨s8, h8b, h8v, h8⟩ := h7.produce_sampleChild h7v h7b (sampleInput sampleBlock7 (sampleLastRound - 12) ⟨7, true⟩) rfl rfl rfl
  exact ⟨s8, _, h8b, h8v, h8⟩

theorem validationMroots_run_sampleBlock8 : ∃ (s : BlockState BlockHeaderExtension) (v : ValidT),
    s.toBlockHeaderState = sampleBlock8 ∧ s.valid = some v ∧ v.validationMroots.length = 3 := by
  obtain ⟨s, ss, hb, hv, hL⟩ := blockChain_sampleBlock8
  obtain ⟨v, hv⟩ := Option.isSome_iff_exists.1 hv
  refine ⟨s, v, hb, hv, ?_⟩
  rw [(validationMroots_run hL (suffix_refl _) hv).2.1, hb]
  rfl

end BlockState
end TheChannel
