import TheChannel.Fault
/-!
# FinalityCore — the finality core of a Savanna block

`finality_core.hpp` and `finality_core.cpp`: the QC links and block references a block carries about its ancestors, and
`next`, which makes the child's core from the parent's and the child's QC claim. Every `assert` of the source is a step
of the model, in its place and by its text.

Block numbers and slots are `uint32_t` in the source and `Nat` here. A block's slot is above its parent's, so a block
number never passes the slot of its block and neither wraps while the slot type lasts.
-/
namespace TheChannel

abbrev Digest := Nat

/-- A block id: the number stored in its first four bytes, and the rest of the digest. -/
structure BlockId where
  num : Nat
  hash : Digest
  deriving DecidableEq, Inhabited

def BlockId.zero : BlockId := ⟨0, 0⟩

def BlockId.empty (id : BlockId) : Bool := id == BlockId.zero

def numFromId (id : BlockId) : Nat := id.num

structure BlockRef where
  blockId : BlockId
  timestamp : Nat
  finalityDigest : Digest
  activePolicyGeneration : Nat
  pendingPolicyGeneration : Nat
  deriving DecidableEq, Inhabited

def BlockRef.unset : BlockRef := ⟨BlockId.zero, 0, 0, 0, 0⟩

def BlockRef.empty (r : BlockRef) : Bool := r.blockId.empty

def BlockRef.blockNum (r : BlockRef) : Nat := numFromId r.blockId

structure QcLink where
  sourceBlockNum : Nat
  targetBlockNum : Nat
  isLinkStrong : Bool
  deriving DecidableEq, Inhabited

structure QcClaim where
  blockNum : Nat
  isStrongQc : Bool
  deriving DecidableEq, Inhabited

/-- `operator<=>` of `qc_claim_t`: by block number, then weak before strong. -/
def QcClaim.le (a b : QcClaim) : Bool :=
  decide (a.blockNum < b.blockNum) || (a.blockNum == b.blockNum && (!a.isStrongQc || b.isStrongQc))

theorem QcClaim.blockNum_le_of_le {a b : QcClaim} (h : a.le b = true) : a.blockNum ≤ b.blockNum := by
  simp only [QcClaim.le, Bool.or_eq_true, decide_eq_true_eq, Bool.and_eq_true, beq_iff_eq] at h
  omega

structure CoreMetadata where
  lastFinalBlockNum : Nat
  latestQcClaimBlockNum : Nat
  deriving DecidableEq

structure FinalityCore where
  links : List QcLink
  refs : List BlockRef
  genesisTimestamp : Nat
  deriving DecidableEq, Inhabited

namespace FinalityCore

def createCoreForGenesisBlock (blockId : BlockId) (timestamp : Nat) : FinalityCore :=
  { links := [⟨numFromId blockId, numFromId blockId, false⟩], refs := [], genesisTimestamp := timestamp }

def isGenesisCore (c : FinalityCore) : Bool := c.refs.isEmpty

def front (c : FinalityCore) : QcLink := c.links.head?.getD default

def back (c : FinalityCore) : QcLink := c.links.getLast?.getD default

def currentBlockNum (c : FinalityCore) : Nat := c.back.sourceBlockNum

def lastFinalBlockNum (c : FinalityCore) : Nat := c.front.targetBlockNum

def latestQcClaim (c : FinalityCore) : QcClaim := ⟨c.back.targetBlockNum, c.back.isLinkStrong⟩

def getBlockReference (c : FinalityCore) (blockNum : Nat) : Result BlockRef := do
  assertThat "!links.empty()" (!c.links.isEmpty)
  assertThat "last_final_block_num() <= block_num" (decide (c.lastFinalBlockNum ≤ blockNum))
  assertThat "block_num < current_block_num()" (decide (blockNum < c.currentBlockNum))
  match c.refs[blockNum - c.lastFinalBlockNum]? with
  | some r => .ok r
  | none => .error (.assertion "ref_index < refs.size()")

def lastFinalBlockTimestamp (c : FinalityCore) : Result Nat :=
  if c.isGenesisCore then .ok c.genesisTimestamp
  else (c.getBlockReference c.lastFinalBlockNum).map BlockRef.timestamp

def latestQcBlockTimestamp (c : FinalityCore) : Result Nat :=
  if c.isGenesisCore then .ok c.genesisTimestamp
  else (c.getBlockReference c.back.targetBlockNum).map BlockRef.timestamp

/-- Whether `id` is an ancestor of this block, as far back as the last final block. -/
def extends' (c : FinalityCore) (id : BlockId) : Result Bool :=
  if c.lastFinalBlockNum ≤ numFromId id ∧ numFromId id < c.currentBlockNum then
    (c.getBlockReference (numFromId id)).map (fun r => r.blockId == id)
  else .ok false

def isGenesisBlockNum (c : FinalityCore) (candidateBlockNum : Nat) : Result Bool := do
  assertThat "last_final_block_num() <= candidate_block_num && candidate_block_num <= current_block_num()"
    (decide (c.lastFinalBlockNum ≤ candidateBlockNum ∧ candidateBlockNum ≤ c.currentBlockNum))
  return c.front.sourceBlockNum == c.front.targetBlockNum && c.front.sourceBlockNum == candidateBlockNum

def getQcLinkFrom (c : FinalityCore) (blockNum : Nat) : Result QcLink := do
  assertThat "!links.empty()" (!c.links.isEmpty)
  assertThat "links.front().source_block_num <= block_num" (decide (c.front.sourceBlockNum ≤ blockNum))
  assertThat "block_num <= current_block_num()" (decide (blockNum ≤ c.currentBlockNum))
  match c.links[blockNum - c.front.sourceBlockNum]? with
  | some l => .ok l
  | none => .error (.assertion "link_index < links.size()")

def getNewBlockNumbers (c : FinalityCore) (q : QcClaim) : Result (Nat × Nat) := do
  assertThat "most_recent_ancestor_with_qc.block_num <= c.current_block_num()" (decide (q.blockNum ≤ c.currentBlockNum))
  assertThat "c.latest_qc_claim().block_num <= most_recent_ancestor_with_qc.block_num"
    (decide (c.latestQcClaim.blockNum ≤ q.blockNum))
  assertThat "c.links.front().source_block_num <= most_recent_ancestor_with_qc.block_num"
    (decide (c.front.sourceBlockNum ≤ q.blockNum))
  -- a weak claim changes neither number
  if !q.isStrongQc then return (c.lastFinalBlockNum, c.front.sourceBlockNum)
  else
    let link ← c.getQcLinkFrom q.blockNum
    assertThat "c.last_final_block_num() <= link.target_block_num" (decide (c.lastFinalBlockNum ≤ link.targetBlockNum))
    assertThat "c.links.front().source_block_num <= link.source_block_num"
      (decide (c.front.sourceBlockNum ≤ link.sourceBlockNum))
    assertThat "c.latest_qc_claim().block_num <= most_recent_ancestor_with_qc.block_num"
      (decide (c.latestQcClaim.blockNum ≤ q.blockNum))
    return (link.targetBlockNum, link.sourceBlockNum)

def nextMetadata (c : FinalityCore) (q : QcClaim) : Result CoreMetadata := do
  assertThat "most_recent_ancestor_with_qc.block_num <= current_block_num()" (decide (q.blockNum ≤ c.currentBlockNum))
  assertThat "latest_qc_claim() <= most_recent_ancestor_with_qc" (c.latestQcClaim.le q)
  let (newLastFinalBlockNum, _) ← c.getNewBlockNumbers q
  return ⟨newLastFinalBlockNum, q.blockNum⟩

/-- The core of a child of `currentBlock` (the block this core belongs to) that claims `q`. -/
def next (c : FinalityCore) (currentBlock : BlockRef) (q : QcClaim) : Result FinalityCore := do
  assertThat "!links.empty()" (!c.links.isEmpty)
  assertThat "current_block.block_num() == current_block_num()" (currentBlock.blockNum == c.currentBlockNum)
  assertThat "refs.empty() || (refs.back().block_num() + 1 == current_block.block_num())"
    (c.refs.getLast?.all (fun r => r.blockNum + 1 == currentBlock.blockNum))
  assertThat "refs.empty() || (refs.back().timestamp < current_block.timestamp)"
    (c.refs.getLast?.all (fun r => decide (r.timestamp < currentBlock.timestamp)))
  assertThat "most_recent_ancestor_with_qc.block_num <= current_block_num()" (decide (q.blockNum ≤ c.currentBlockNum))
  assertThat "latest_qc_claim() <= most_recent_ancestor_with_qc" (c.latestQcClaim.le q)
  let (newLastFinalBlockNum, newLinksFrontSourceBlockNum) ← c.getNewBlockNumbers q
  assertThat "new_last_final_block_num <= new_links_front_source_block_num"
    (decide (newLastFinalBlockNum ≤ newLinksFrontSourceBlockNum))
  assertThat "new_links_front_source_block_num <= most_recent_ancestor_with_qc.block_num"
    (decide (newLinksFrontSourceBlockNum ≤ q.blockNum))
  assertThat "last_final_block_num() <= new_last_final_block_num" (decide (c.lastFinalBlockNum ≤ newLastFinalBlockNum))
  assertThat "links.front().source_block_num <= new_links_front_source_block_num"
    (decide (c.front.sourceBlockNum ≤ newLinksFrontSourceBlockNum))
  -- garbage collect unnecessary links, then add the new one
  let linksIndex := newLinksFrontSourceBlockNum - c.front.sourceBlockNum
  assertThat "links_index < links.size()" (decide (linksIndex < c.links.length))
  let links := c.links.drop linksIndex
  assertThat "next_core.last_final_block_num() == new_last_final_block_num"
    (links.head?.all (fun l => l.targetBlockNum == newLastFinalBlockNum))
  assertThat "next_core.links.back().source_block_num == current_block_num()"
    (links.getLast?.all (fun l => l.sourceBlockNum == c.currentBlockNum))
  assertThat "next_core.links.back().target_block_num <= most_recent_ancestor_with_qc.block_num"
    (links.getLast?.all (fun l => decide (l.targetBlockNum ≤ q.blockNum)))
  let links := links ++ [⟨c.currentBlockNum + 1, q.blockNum, q.isStrongQc⟩]
  -- garbage collect unnecessary block references, then add the parent's
  let refsIndex := newLastFinalBlockNum - c.lastFinalBlockNum
  assertThat "!refs.empty() || (refs_index == 0)" (!c.refs.isEmpty || refsIndex == 0)
  assertThat "refs.empty() || (refs_index < refs.size())" (c.refs.isEmpty || decide (refsIndex < c.refs.length))
  let refs := c.refs.drop refsIndex
  assertThat "refs.empty() || (next_core.refs.front().block_num() == new_last_final_block_num)"
    (refs.head?.all (fun r => r.blockNum == newLastFinalBlockNum))
  let refs := refs ++ [currentBlock]
  assertThat "next_core.refs.front().block_num() == new_last_final_block_num"
    (refs.head?.all (fun r => r.blockNum == newLastFinalBlockNum))
  let nextCore : FinalityCore := { links, refs, genesisTimestamp := 0 }
  assertThat "latest_qc_claim().block_num <= next_core.latest_qc_claim().block_num"
    (decide (c.latestQcClaim.blockNum ≤ nextCore.latestQcClaim.blockNum))
  return nextCore

end FinalityCore
end TheChannel
