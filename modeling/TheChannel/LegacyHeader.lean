import TheChannel.HeaderChain
import TheChannel.LibFlatMap
import TheChannel.LibOrderStat
import TheChannel.Name
/-!
# LegacyHeader — header states before Savanna and the numbers DPoS makes irreversible

`block_header_state_legacy.cpp`: `next` makes the pending header state of a child, `_finish_next` checks a header against
it. Producers confirm blocks; a block with enough confirmations is proposed as irreversible, and the irreversible number
is an order statistic over what each producer's last block implied. Both numbers, and why the second can fall when a
pending schedule becomes active.

Signatures, `blockroot_merkle` and the hash of the pending schedule, which only signatures read, are left out.
-/
namespace TheChannel
open BlockHeaderState List

/-! ## The model -/

structure ScheduleInfo where
  scheduleLibNum : Nat
  schedule : ProducerAuthoritySchedule
  deriving DecidableEq

structure LegacyCommon where
  blockNum : Nat
  dposProposedIrreversibleBlocknum : Nat
  dposIrreversibleBlocknum : Nat
  activeSchedule : ProducerAuthoritySchedule
  producerToLastProduced : List (AccountName × Nat)
  producerToLastImpliedIrb : List (AccountName × Nat)
  confirmCount : List UInt8
  deriving DecidableEq

structure PendingBlockHeaderStateLegacy extends LegacyCommon where
  prevActivatedProtocolFeatures : Finset Digest
  prevPendingSchedule : ScheduleInfo
  wasPendingPromoted : Bool
  previous : BlockId
  producer : AccountName
  timestamp : Nat
  activeScheduleVersion : Nat
  confirmed : Nat
  deriving DecidableEq

structure BlockHeaderStateLegacy (Blob : Type) extends LegacyCommon where
  id : BlockId
  header : BlockHeader Blob
  pendingSchedule : ScheduleInfo
  activatedProtocolFeatures : Finset Digest
  headerExts : List (Nat × BlockHeaderExtension)
  deriving DecidableEq

namespace ProducerAuthoritySchedule

def ofLegacy (old : LegacyProducerSchedule) : ProducerAuthoritySchedule :=
  ⟨old.version, old.producers.map (fun p => ⟨p.1, ⟨1, [(p.2, 1)]⟩⟩)⟩

end ProducerAuthoritySchedule

def findScheduleChange (exts : List (Nat × BlockHeaderExtension)) : Option ProducerAuthoritySchedule :=
  match exts.lookup producerScheduleChangeId with
  | some (.producerScheduleChange schedule) => some schedule
  | _ => none

namespace BlockHeaderStateLegacy
variable {Blob : Type}

def maximumTrackedDposConfirmations : Nat := 1024

def calcDposLastIrreversible (s : BlockHeaderStateLegacy Blob) (producerOfNextBlock : AccountName) : Nat :=
  let blocknums := s.producerToLastImpliedIrb.map (fun i =>
    if i.1 = producerOfNextBlock then s.dposProposedIrreversibleBlocknum else i.2)
  if blocknums.length = 0 then 0
  else (nthElement blocknums ((blocknums.length - 1) / 3)).getD 0

def growConfirmCount (confirmCount : List UInt8) (requiredConfs : Nat) : List UInt8 :=
  if confirmCount.length < maximumTrackedDposConfirmations then confirmCount ++ [requiredConfs.toUInt8]
  else confirmCount.drop 1 ++ [requiredConfs.toUInt8]

/-- The loop over `confirm_count` from its back, here newest first: the distance from the back to the entry that reached
zero, and the entries that stay. -/
def confirm : (blocksToConfirm : Nat) → List UInt8 → Option Nat × List UInt8
  | 0, counts => (none, counts)
  | _, [] => (none, [])
  | blocksToConfirm + 1, c :: counts =>
    -- a block that reached zero leaves the vector, and so do the blocks before it
    if c - 1 = 0 then (some 0, [])
    else
      let (found, kept) := confirm blocksToConfirm counts
      (found.map (· + 1), (c - 1) :: kept)

def carryOver (schedule : ProducerAuthoritySchedule) (producer : AccountName) (own : Nat) (old : List (AccountName × Nat))
    (fresh : Nat) : List (AccountName × Nat) :=
  assignAll (fun name => if name = producer then own else (old.lookup name).getD fresh)
    (schedule.producers.map ProducerAuthority.producerName) []

def nextTime (s : BlockHeaderStateLegacy Blob) (when : Nat) : Result Nat :=
  if when ≠ 0 then do
    eosAssert (decide (s.header.timestamp < when)) .blockValidate "next block must be in the future"
    return when
  else .ok ((s.header.timestamp + 1) % 2 ^ 32)

/-- A producer confirms no block at or before its last one. The difference is a `uint32_t`. -/
def checkDoubleConfirm (s : BlockHeaderStateLegacy Blob) (producer : AccountName) (numPrevBlocksToConfirm : Nat) :
    Result Unit :=
  match s.producerToLastProduced.lookup producer with
  | some last =>
    eosAssert (decide (last < (s.blockNum + 1 + 2 ^ 32 - numPrevBlocksToConfirm) % 2 ^ 32)) .producerDoubleConfirm
      "producer ${prod} double-confirming known range"
  | none => .ok ()

def promotes (s : BlockHeaderStateLegacy Blob) (dposIrreversibleBlocknum : Nat) : Bool :=
  !s.pendingSchedule.schedule.producers.isEmpty && decide (s.pendingSchedule.scheduleLibNum ≤ dposIrreversibleBlocknum)

def confirmNext (s : BlockHeaderStateLegacy Blob) (numPrevBlocksToConfirm : Nat) : Option Nat × List UInt8 :=
  confirm (numPrevBlocksToConfirm + 1)
    (growConfirmCount s.confirmCount (s.activeSchedule.producers.length * 2 / 3 + 1)).reverse

def next (s : BlockHeaderStateLegacy Blob) (when numPrevBlocksToConfirm : Nat) : Result PendingBlockHeaderStateLegacy := do
  let when ← s.nextTime when
  let proauth ← getScheduledProducer s.activeSchedule.producers when
  let producer := proauth.producerName
  s.checkDoubleConfirm producer numPrevBlocksToConfirm
  let (found, confirmCount) := s.confirmNext numPrevBlocksToConfirm
  let blockNum := s.blockNum + 1
  let dposIrreversibleBlocknum := s.calcDposLastIrreversible producer
  let promoted := s.promotes dposIrreversibleBlocknum
  return {
    blockNum, dposIrreversibleBlocknum
    dposProposedIrreversibleBlocknum :=
      match found with
      | some distance => blockNum - distance
      | none => s.dposProposedIrreversibleBlocknum
    activeSchedule := if promoted then s.pendingSchedule.schedule else s.activeSchedule
    producerToLastProduced :=
      if promoted then
        assign producer blockNum
          (carryOver s.pendingSchedule.schedule producer blockNum s.producerToLastProduced dposIrreversibleBlocknum)
      else assign producer blockNum s.producerToLastProduced
    producerToLastImpliedIrb :=
      if promoted then
        carryOver s.pendingSchedule.schedule producer s.dposProposedIrreversibleBlocknum s.producerToLastImpliedIrb
          dposIrreversibleBlocknum
      else assign producer s.dposProposedIrreversibleBlocknum s.producerToLastImpliedIrb
    confirmCount := confirmCount.reverse
    prevActivatedProtocolFeatures := s.activatedProtocolFeatures
    prevPendingSchedule := s.pendingSchedule
    wasPendingPromoted := promoted
    previous := s.id
    producer := producer
    timestamp := when
    activeScheduleVersion := s.activeSchedule.version
    confirmed := numPrevBlocksToConfirm }

end BlockHeaderStateLegacy

namespace PendingBlockHeaderStateLegacy
variable {Blob : Type} (x : Externals Blob) (wtmsig : Option Digest)

/-- `is_builtin_activated` for `wtmsig_block_signatures`, whose digest is `wtmsig` if the node supports it. -/
def wtmsigEnabled (p : PendingBlockHeaderStateLegacy) : Bool :=
  wtmsig.any (fun digest => decide (digest ∈ p.prevActivatedProtocolFeatures))

def checkNewSchedule (p : PendingBlockHeaderStateLegacy) (version : Nat) : Result Unit := do
  eosAssert (!p.wasPendingPromoted) .producerSchedule
    "cannot set pending producer schedule in the same block in which pending was promoted to active"
  eosAssert (version == p.activeSchedule.version + 1) .producerSchedule "wrong producer schedule version specified"
  eosAssert p.prevPendingSchedule.schedule.producers.isEmpty .producerSchedule
    "cannot set new pending producers until last pending is confirmed"

def legacySchedule (p : PendingBlockHeaderStateLegacy) :
    Option LegacyProducerSchedule → Result (Option ProducerAuthoritySchedule)
  | some newProducers => do
    eosAssert (!p.wtmsigEnabled wtmsig) .producerSchedule
      "Block header contains legacy producer schedule outdated by activation of WTMsig Block Signatures"
    p.checkNewSchedule newProducers.version
    return some (.ofLegacy newProducers)
  | none => .ok none

def extensionSchedule (p : PendingBlockHeaderStateLegacy) (legacy : Option ProducerAuthoritySchedule) :
    Option ProducerAuthoritySchedule → Result (Option ProducerAuthoritySchedule)
  | some newProducerSchedule => do
    eosAssert (p.wtmsigEnabled wtmsig) .producerSchedule
      "Block header producer_schedule_change_extension before activation of WTMsig Block Signatures"
    p.checkNewSchedule newProducerSchedule.version
    return some newProducerSchedule
  | none => .ok legacy

def nextActivated (p : PendingBlockHeaderStateLegacy) (validator : Validator) : Option (List Digest) → Result (Finset Digest)
  | some newProtocolFeatures => do
    validator p.timestamp p.prevActivatedProtocolFeatures newProtocolFeatures
    activateProtocolFeatures p.prevActivatedProtocolFeatures newProtocolFeatures
  | none => .ok p.prevActivatedProtocolFeatures

def nextPendingSchedule (p : PendingBlockHeaderStateLegacy) : Option ProducerAuthoritySchedule → ScheduleInfo
  | some newProducerSchedule => ⟨p.blockNum, newProducerSchedule⟩
  | none =>
    ⟨p.prevPendingSchedule.scheduleLibNum,
      if p.wasPendingPromoted then ⟨p.prevPendingSchedule.schedule.version, []⟩ else p.prevPendingSchedule.schedule⟩

def finishNext (p : PendingBlockHeaderStateLegacy) (h : BlockHeader Blob) (validator : Validator) :
    Result (BlockHeaderStateLegacy Blob) := do
  eosAssert (h.timestamp == p.timestamp) .blockValidate "timestamp mismatch"
  eosAssert (h.previous == p.previous) .unlinkableBlock "previous mismatch ${p} != ${id}"
  eosAssert (h.confirmed == p.confirmed) .blockValidate "confirmed mismatch"
  eosAssert (h.producer == p.producer) .wrongProducer "wrong producer specified"
  eosAssert (h.scheduleVersion == p.activeScheduleVersion) .producerSchedule "schedule_version in signed block is corrupted"
  let exts ← h.validateAndExtractHeaderExtensions x
  let legacy ← p.legacySchedule wtmsig h.newProducers
  let newSchedule ← p.extensionSchedule wtmsig legacy (findScheduleChange exts)
  let activated ← p.nextActivated validator (findActivation exts)
  return {
    toLegacyCommon := p.toLegacyCommon
    id := h.calculateId x
    header := h
    pendingSchedule := p.nextPendingSchedule newSchedule
    activatedProtocolFeatures := activated
    headerExts := exts }

end PendingBlockHeaderStateLegacy

namespace BlockHeaderStateLegacy
variable {Blob : Type} (x : Externals Blob) (wtmsig : Option Digest)

def genesis (initialKey : PublicKey) (initialTimestamp : Nat) (chainId : Digest) : BlockHeaderStateLegacy Blob :=
  let initialSchedule : ProducerAuthoritySchedule := ⟨0, [⟨systemAccountName, ⟨1, [(initialKey, 1)]⟩⟩]⟩
  let header : BlockHeader Blob := ⟨initialTimestamp, 0, 1, BlockId.zero, 0, chainId, 0, none, []⟩
  { blockNum := header.blockNum
    dposProposedIrreversibleBlocknum := 0
    dposIrreversibleBlocknum := 0
    activeSchedule := initialSchedule
    producerToLastProduced := []
    producerToLastImpliedIrb := []
    confirmCount := []
    id := header.calculateId x
    header := header
    pendingSchedule := ⟨0, initialSchedule⟩
    activatedProtocolFeatures := ∅
    headerExts := [] }

/-- **The chains of legacy header states**, newest first. The producer finishes a pending state with the header it makes,
`next( const signed_block_header& )` one it received. -/
inductive LegacyChain : List (BlockHeaderStateLegacy Blob) → Prop
  | genesis (initialKey : PublicKey) (initialTimestamp : Nat) (chainId : Digest) :
      LegacyChain [genesis x initialKey initialTimestamp chainId]
  | next {s s' : BlockHeaderStateLegacy Blob} {ss : List (BlockHeaderStateLegacy Blob)} (parent : LegacyChain (s :: ss))
      (when numPrevBlocksToConfirm : Nat) {p : PendingBlockHeaderStateLegacy}
      (pending : s.next when numPrevBlocksToConfirm = .ok p) (h : BlockHeader Blob) (validator : Validator)
      (done : p.finishNext x wtmsig h validator = .ok s') : LegacyChain (s' :: s :: ss)

/-! ## What a step does -/

variable {x wtmsig} {s s' : BlockHeaderStateLegacy Blob} {ss : List (BlockHeaderStateLegacy Blob)}

def implied (s : BlockHeaderStateLegacy Blob) (producer : AccountName) (i : AccountName × Nat) : Nat :=
  if i.1 = producer then s.dposProposedIrreversibleBlocknum else i.2

structure Stepped (s s' : BlockHeaderStateLegacy Blob) : Prop where
  blockNum : s'.blockNum = s.blockNum + 1
  scheduled : s'.header.producer ∈ s.activeSchedule.producers.map ProducerAuthority.producerName
  irreversible : s'.dposIrreversibleBlocknum = s.calcDposLastIrreversible s'.header.producer
  confirmed : ∃ n, s'.confirmCount = (s.confirmNext n).2.reverse ∧ s'.dposProposedIrreversibleBlocknum =
    match (s.confirmNext n).1 with
    | some distance => s.blockNum + 1 - distance
    | none => s.dposProposedIrreversibleBlocknum
  schedule : s'.activeSchedule =
    if s.promotes s'.dposIrreversibleBlocknum then s.pendingSchedule.schedule else s.activeSchedule
  impliedIrb : s'.producerToLastImpliedIrb =
    if s.promotes s'.dposIrreversibleBlocknum then
      carryOver s.pendingSchedule.schedule s'.header.producer s.dposProposedIrreversibleBlocknum
        s.producerToLastImpliedIrb s'.dposIrreversibleBlocknum
    else assign s'.header.producer s.dposProposedIrreversibleBlocknum s.producerToLastImpliedIrb

theorem stepped {when n : Nat} {p : PendingBlockHeaderStateLegacy} (hp : s.next when n = .ok p) {h : BlockHeader Blob}
    {validator : Validator} (hd : p.finishNext x wtmsig h validator = .ok s') : Stepped s s' := by
  obtain ⟨time, -, hp⟩ := bind_ok hp
  obtain ⟨proauth, hs, hp⟩ := bind_ok hp
  replace hp := rest_ok hp
  cases hp
  iterate 3 replace hd := rest_ok hd
  obtain ⟨hpr, hd⟩ := unit_ok hd
  replace hd := rest_ok hd
  iterate 4 obtain ⟨_, -, hd⟩ := bind_ok hd
  cases hd
  have hpr : h.producer = proauth.producerName := by simpa using hpr
  refine ⟨rfl, ?_, ?_, ⟨n, rfl, rfl⟩, rfl, ?_⟩
  · show h.producer ∈ _
    rw [hpr]
    unfold getScheduledProducer at hs
    split at hs
    · rename_i q hq
      cases hs
      exact mem_map_of_mem (mem_of_getElem? hq)
    · cases hs
  · show s.calcDposLastIrreversible proauth.producerName = s.calcDposLastIrreversible h.producer
    rw [hpr]
  · show (if s.promotes (s.calcDposLastIrreversible proauth.producerName) then _ else _) = _
    rw [hpr]

/-! ## The invariant -/

theorem confirm_length : ∀ (b : Nat) counts, match confirm b counts with
    | (some distance, kept) => kept.length = distance ∧ distance < counts.length
    | (none, kept) => kept.length = counts.length
  | 0, counts => by cases counts <;> rfl
  | b + 1, [] => rfl
  | b + 1, c :: counts => by
    unfold confirm
    by_cases hc : c - 1 = 0
    · rw [if_pos hc]
      exact ⟨rfl, by simp⟩
    · rw [if_neg hc]
      have ih := confirm_length b counts
      rcases hr : confirm b counts with ⟨found, kept⟩
      rw [hr] at ih
      cases found with
      | none => simpa using ih
      | some distance => simpa using ih

/-- **The invariant of a legacy header state.** The tracked blocks come after the proposed one, no number goes beyond it,
and every scheduled producer has an entry; the first state has none, but its child makes a schedule active. -/
structure Inv (s : BlockHeaderStateLegacy Blob) : Prop where
  tracked : s.confirmCount.length + s.dposProposedIrreversibleBlocknum ≤ s.blockNum
  ascending : Ascending s.producerToLastImpliedIrb
  implied_le : ∀ i ∈ s.producerToLastImpliedIrb, i.2 ≤ s.dposProposedIrreversibleBlocknum
  irb_le : s.dposIrreversibleBlocknum ≤ s.dposProposedIrreversibleBlocknum
  entries : (s.producerToLastImpliedIrb = [] ∧ s.dposIrreversibleBlocknum = 0 ∧ ∀ n, s.promotes n = true) ∨
    ∀ name ∈ s.activeSchedule.producers.map ProducerAuthority.producerName, name ∈ s.producerToLastImpliedIrb.map Prod.fst

theorem Inv.proposed (hi : Inv s) (h : Stepped s s') :
    s.dposProposedIrreversibleBlocknum ≤ s'.dposProposedIrreversibleBlocknum ∧
    s'.confirmCount.length + s'.dposProposedIrreversibleBlocknum ≤ s'.blockNum := by
  obtain ⟨n, hcu, hp⟩ := h.confirmed
  have ht := hi.tracked
  have hlen : (growConfirmCount s.confirmCount (s.activeSchedule.producers.length * 2 / 3 + 1)).length ≤
      s.confirmCount.length + 1 := by
    unfold growConfirmCount
    split
    · simp
    · simp only [length_append, length_drop, length_singleton]
      omega
  have hco := confirm_length (n + 1)
    (growConfirmCount s.confirmCount (s.activeSchedule.producers.length * 2 / 3 + 1)).reverse
  rw [length_reverse] at hco
  rw [hcu, hp, h.blockNum, length_reverse, confirmNext]
  rcases hr : confirm (n + 1)
    (growConfirmCount s.confirmCount (s.activeSchedule.producers.length * 2 / 3 + 1)).reverse with ⟨found, kept⟩
  rw [hr] at hco
  cases found with
  | none =>
    simp only at hco ⊢
    omega
  | some distance =>
    simp only at hco ⊢
    omega

theorem third_lt {n : Nat} (h : n ≠ 0) : (n - 1) / 3 < n := by omega

variable (producer : AccountName)

theorem calc_eq (hne : s.producerToLastImpliedIrb ≠ []) :
    nthElement (s.producerToLastImpliedIrb.map (s.implied producer)) ((s.producerToLastImpliedIrb.length - 1) / 3) =
      some (s.calcDposLastIrreversible producer) := by
  obtain ⟨l, hl⟩ : ∃ l, l = s.producerToLastImpliedIrb.map (s.implied producer) := ⟨_, rfl⟩
  have hlen : l.length = s.producerToLastImpliedIrb.length := hl ▸ length_map _
  have hpos : l.length ≠ 0 := fun h0 => hne (length_eq_zero_iff.1 (hlen.symm.trans h0))
  obtain ⟨y, hy⟩ := nthElement_isSome (third_lt hpos)
  have hca : s.calcDposLastIrreversible producer = (nthElement l ((l.length - 1) / 3)).getD 0 := hl ▸ if_neg (hl ▸ hpos)
  rw [← hl, ← hlen, hca, hy]
  rfl

theorem calc_nil (hnil : s.producerToLastImpliedIrb = []) : s.calcDposLastIrreversible producer = 0 := by
  unfold calcDposLastIrreversible
  rw [hnil]
  rfl

theorem Inv.calc_le (hi : Inv s) (producer : AccountName) :
    s.calcDposLastIrreversible producer ≤ s.dposProposedIrreversibleBlocknum := by
  by_cases hne : s.producerToLastImpliedIrb = []
  · rw [calc_nil producer hne]
    exact Nat.zero_le _
  · obtain ⟨i, hm, hval⟩ := mem_map.1 (mem_of_nthElement (calc_eq producer hne))
    rw [← hval]
    unfold implied
    split
    · exact le_rfl
    · exact hi.implied_le i hm

theorem Inv.step (hi : Inv s) (h : Stepped s s') : Inv s' := by
  obtain ⟨hp, ht⟩ := hi.proposed h
  have hir : s'.dposIrreversibleBlocknum ≤ s.dposProposedIrreversibleBlocknum := by
    rw [h.irreversible]
    exact hi.calc_le _
  refine ⟨ht, ?_, ?_, hir.trans hp, .inr ?_⟩
  · rw [h.impliedIrb]
    split
    · exact ascending_assignAll List.Pairwise.nil
    · exact ascending_assign hi.ascending
  · rw [h.impliedIrb]
    split
    · intro i hm
      refine le_trans ?_ hp
      rcases mem_assignAll hm with hm | hval
      · cases hm
      · rw [hval]
        split
        · exact le_rfl
        · cases hl : s.producerToLastImpliedIrb.lookup i.1 with
          | none => exact hir
          | some v => exact hi.implied_le _ (mem_of_lookup_eq_some hl)
    · intro i hm
      rcases mem_assign hm with rfl | hm
      · exact hp
      · exact (hi.implied_le i hm).trans hp
  · rw [h.impliedIrb, h.schedule]
    split
    · exact fun name hm => key_mem_assignAll.2 (.inl hm)
    · rename_i hnot
      rcases hi.entries with ⟨-, -, hpr⟩ | he
      · exact absurd (hpr _) hnot
      · exact fun name hm => key_mem_assign.2 (.inr (he name hm))

theorem LegacyChain.inv : ∀ {s} {ss},
    LegacyChain x wtmsig (s :: ss) → Inv s
  | _, _, .genesis .. =>
    ⟨Nat.zero_le _, .nil, fun _ hm => absurd hm not_mem_nil, le_rfl, .inl ⟨rfl, rfl, fun _ => rfl⟩⟩
  | _, _, .next parent _ _ pending _ _ done => parent.inv.step (stepped pending done)

/-! ## When the irreversible number falls -/

def behind (s : BlockHeaderStateLegacy Blob) (producer : AccountName) : Nat :=
  s.producerToLastImpliedIrb.countP (fun i => decide (i.1 ≠ producer) && decide (i.2 < s.dposIrreversibleBlocknum))

theorem Inv.irreversible_le_iff (hi : Inv s) (h : Stepped s s') :
    s.dposIrreversibleBlocknum ≤ s'.dposIrreversibleBlocknum ↔
      s.behind s'.header.producer ≤ (s.producerToLastImpliedIrb.length - 1) / 3 := by
  by_cases hne : s.producerToLastImpliedIrb = []
  · have hz : s.dposIrreversibleBlocknum = 0 := by
      rcases hi.entries with ⟨-, hz, -⟩ | he
      · exact hz
      · have hmem := he _ h.scheduled
        rw [hne] at hmem
        cases hmem
    simp [behind, hne, hz]
  · rw [h.irreversible, le_nthElement_iff (calc_eq _ hne), countP_map, behind]
    -- the next producer's entry is at least the irreversible number
    have hco : ∀ i ∈ s.producerToLastImpliedIrb,
        ((fun n => decide (n < s.dposIrreversibleBlocknum)) ∘ s.implied s'.header.producer) i = true ↔
        (decide (i.1 ≠ s'.header.producer) && decide (i.2 < s.dposIrreversibleBlocknum)) = true := by
      intro i _
      have hle := hi.irb_le
      by_cases hp : i.1 = s'.header.producer
      · simp [implied, hp, hle]
      · simp [implied, hp]
    rw [countP_congr hco]

theorem Inv.irreversible_eq {t : BlockHeaderStateLegacy Blob} (hi : Inv t) (h : Stepped t s)
    (hnot : t.promotes s.dposIrreversibleBlocknum = false) :
    s.producerToLastImpliedIrb ≠ [] ∧ nthElement (s.producerToLastImpliedIrb.map Prod.snd)
      ((s.producerToLastImpliedIrb.length - 1) / 3) = some s.dposIrreversibleBlocknum := by
  have hkey : s.header.producer ∈ t.producerToLastImpliedIrb.map Prod.fst := by
    rcases hi.entries with ⟨-, -, hp⟩ | he
    · rw [hp] at hnot
      cases hnot
    · exact he _ h.scheduled
  have hne : t.producerToLastImpliedIrb ≠ [] := by
    intro hnil
    rw [hnil] at hkey
    cases hkey
  have hmap : s.producerToLastImpliedIrb = t.producerToLastImpliedIrb.map (fun i =>
      if i.1 = s.header.producer then (s.header.producer, t.dposProposedIrreversibleBlocknum) else i) := by
    rw [h.impliedIrb, hnot, if_neg Bool.false_ne_true, assign_eq_map hi.ascending hkey]
  have hv : s.producerToLastImpliedIrb.map Prod.snd = t.producerToLastImpliedIrb.map (t.implied s.header.producer) := by
    rw [hmap, map_map]
    refine map_congr_left fun i _ => ?_
    simp only [Function.comp, implied]
    split <;> rfl
  have hlen : s.producerToLastImpliedIrb.length = t.producerToLastImpliedIrb.length := by rw [hmap, length_map]
  refine ⟨fun hnil => hne ?_, ?_⟩
  · rw [hnil] at hlen
    exact length_eq_zero_iff.1 hlen.symm
  · rw [hv, hlen, h.irreversible]
    exact calc_eq _ hne

/-- **The proposed number never falls. The irreversible one falls exactly where more than a third of the producers in the
map are behind, and only after a block that made the pending schedule active.** -/
theorem dposNumbers_mono_iff (h : LegacyChain x wtmsig (s' :: s :: ss)) :
    s.dposProposedIrreversibleBlocknum ≤ s'.dposProposedIrreversibleBlocknum ∧
    (s.dposIrreversibleBlocknum ≤ s'.dposIrreversibleBlocknum ↔
      s.behind s'.header.producer ≤ (s.producerToLastImpliedIrb.length - 1) / 3) ∧
    ((∀ t ∈ ss.head?, t.promotes s.dposIrreversibleBlocknum = false) →
      s.dposIrreversibleBlocknum ≤ s'.dposIrreversibleBlocknum) := by
  cases h with
  | next parent _ _ pending _ _ done =>
    have hi := parent.inv
    have hs := stepped pending done
    refine ⟨(hi.proposed hs).1, hi.irreversible_le_iff hs, fun hnot => ?_⟩
    cases parent with
    | genesis => exact Nat.zero_le _
    | @next t _ ts grandparent _ _ _ pending' _ _ done' =>
      obtain ⟨hne, hir⟩ := grandparent.inv.irreversible_eq (stepped pending' done') (hnot t rfl)
      rw [hs.irreversible]
      refine nthElement_mono (fun i hm => ?_) hir (calc_eq _ hne)
      unfold implied
      split
      · exact hi.implied_le i hm
      · exact le_rfl

/-! ## A sample chain

Block 5 proposes to go from four producers to two of them, one of which has not produced. -/

section Sample

def sampleProducers (names : List AccountName) (version : Nat) : LegacyProducerSchedule :=
  ⟨version, names.map (fun name => (name, name))⟩

def sampleChild (s : BlockHeaderStateLegacy BlockHeaderExtension) (when confirmed : Nat)
    (newProducers : Option LegacyProducerSchedule) : Option (BlockHeaderStateLegacy BlockHeaderExtension) := do
  let p ← (s.next when confirmed).toOption
  (p.finishNext sampleExternals none
    ⟨p.timestamp, p.producer, p.confirmed, p.previous, 0, 0, p.activeScheduleVersion, newProducers, []⟩
    (fun _ _ _ => .ok ())).toOption

def sampleRun (s : BlockHeaderStateLegacy BlockHeaderExtension) :
    List (Nat × Nat × Option LegacyProducerSchedule) → Option (List (BlockHeaderStateLegacy BlockHeaderExtension))
  | [] => some [s]
  | (when, confirmed, newProducers) :: rest => do
    let ss ← sampleRun s rest
    let s ← ss.head?
    let s' ← sampleChild s when confirmed newProducers
    return s' :: ss

theorem legacyChain_sampleRun {s : BlockHeaderStateLegacy BlockHeaderExtension}
    (hL : LegacyChain sampleExternals none [s]) :
    ∀ {inputs} {ss},
      sampleRun s inputs = some ss → LegacyChain sampleExternals none ss
  | [], ss, h => by cases h; exact hL
  | (when, confirmed, newProducers) :: rest, ss, h => by
    obtain ⟨ss', hss', h⟩ := Option.bind_eq_some_iff.1 h
    obtain ⟨t, ht, h⟩ := Option.bind_eq_some_iff.1 h
    obtain ⟨s', hs', h⟩ := Option.bind_eq_some_iff.1 h
    cases h
    have hch := legacyChain_sampleRun hL hss'
    cases ss' with
    | nil => cases ht
    | cons a as =>
      cases ht
      unfold sampleChild at hs'
      cases hn : t.next when confirmed with
      | error e => rw [hn] at hs'; cases hs'
      | ok p =>
        rw [hn] at hs'
        dsimp only [Except.toOption, bind, Option.bind] at hs'
        refine .next hch when confirmed hn
          ⟨p.timestamp, p.producer, p.confirmed, p.previous, 0, 0, p.activeScheduleVersion, newProducers, []⟩
          (fun _ _ _ => .ok ()) ?_
        generalize p.finishNext _ _ _ _ = made at hs' ⊢
        cases made with
        | error e => cases hs'
        | ok s => cases hs'; rfl

def sampleInputs : List (Nat × Nat × Option LegacyProducerSchedule) :=
  [(108, 0, none), (84, 2, none), (72, 2, none), (60, 2, none), (36, 2, none), (24, 1, none),
   (12, 0, some (sampleProducers [1, 2] 2)), (4, 0, none), (3, 0, some (sampleProducers [1, 2, 3, 4] 1)), (2, 0, none)]

def sampleFirst : BlockHeaderStateLegacy BlockHeaderExtension := genesis sampleExternals 1 1 1

/-- **Block 10 makes a schedule active and has irreversible number 5, its child has 3.** -/
theorem dposIrreversible_falls : ∃ (s' s : BlockHeaderStateLegacy BlockHeaderExtension)
    (ss : List (BlockHeaderStateLegacy BlockHeaderExtension)),
    LegacyChain sampleExternals none (s' :: s :: ss) ∧
    s.dposIrreversibleBlocknum = 5 ∧ s'.dposIrreversibleBlocknum = 3 := by
  have hrun : ((sampleRun sampleFirst sampleInputs).map (fun ss =>
      (ss.map (·.dposIrreversibleBlocknum)).take 2)) = some [3, 5] := by decide +kernel
  obtain ⟨ss, hss, hn⟩ := Option.map_eq_some_iff.1 hrun
  have hL := legacyChain_sampleRun (.genesis 1 1 1) hss
  match ss, hL, hn with
  | s' :: s :: ss, hL, hn =>
    simp only [map_cons, take_succ_cons, take_zero, List.cons.injEq, and_true] at hn
    exact ⟨s', s, ss, hL, hn.2, hn.1⟩

theorem dposNumbers_mono_iff_sampleInputs : ∃ (s' s : BlockHeaderStateLegacy BlockHeaderExtension)
    (ss : List (BlockHeaderStateLegacy BlockHeaderExtension)),
    LegacyChain sampleExternals none (s' :: s :: ss) ∧ s'.blockNum = 9 ∧
    s.dposIrreversibleBlocknum ≤ s'.dposIrreversibleBlocknum := by
  have hrun : ((sampleRun sampleFirst (sampleInputs.drop 2)).map (fun ss => ((ss.map (·.blockNum)).head?,
      (ss.drop 2).head?.map (·.promotes 4), (ss.map (·.dposIrreversibleBlocknum)).drop 1 |>.head?))) =
      some (some 9, some false, some 4) := by decide +kernel
  obtain ⟨ss, hss, hn⟩ := Option.map_eq_some_iff.1 hrun
  have hL := legacyChain_sampleRun (.genesis 1 1 1) hss
  match ss, hL, hn with
  | s' :: s :: ss, hL, hn =>
    simp only [map_cons, head?_cons, drop_succ_cons, drop_zero, Prod.mk.injEq, Option.some.injEq] at hn
    obtain ⟨hnum, hp, hi⟩ := hn
    refine ⟨s', s, ss, hL, hnum, (dposNumbers_mono_iff hL).2.2 (fun t ht => ?_)⟩
    rw [ht] at hp
    rw [hi]
    exact Option.some.inj hp

end Sample
end BlockHeaderStateLegacy
end TheChannel
