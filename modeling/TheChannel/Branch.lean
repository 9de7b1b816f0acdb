import TheChannel.BlockCheck
import TheChannel.FinalityCoreInv
/-!
# Branch — chains of Savanna blocks from the genesis block

A block is known with its branch: the list of its ancestors, newest first. `ValidBranch` are the branches a node can
build: the genesis block's core comes from `create_core_for_genesis_block`, every other core from the parent's by `next`
with a claim that passed the controller's check. A transition block after the genesis block repeats its parent's claim,
as a proper block without a certificate does.

A core is a view of its own branch: its references are its nearest ancestors', its links their claims (`View`).
-/
namespace TheChannel
open FinalityCore List

/-- A block and the part of its state that finality is about. -/
structure Block where
  ref : BlockRef
  core : FinalityCore
  headerClaim : QcClaim -- of its finality header extension
  qc : Option Qc -- its quorum certificate block extension
  actionMroot : Digest

namespace Block

def num (b : Block) : Nat := b.ref.blockNum

def time (b : Block) : Nat := b.ref.timestamp

def properBlock (b : Block) : ProperBlock :=
  { blockNum := b.num, isProperSvnnBlock := true, actionMroot := b.actionMroot, finalityExt := some b.headerClaim,
    quorumCertificateExt := b.qc }

def prevBlock (b : Block) (valid : Option Valid) (isValid : Bool) : PrevBlock :=
  { blockNum := b.num, isLegacyBlock := false, finalityExt := some b.headerClaim, core := b.core, valid, isValid }

def link (b : Block) : QcLink := ⟨b.num, b.headerClaim.blockNum, b.headerClaim.isStrongQc⟩

end Block

def genesisBlock (r : BlockRef) : Block :=
  { ref := r, core := createCoreForGenesisBlock r.blockId r.timestamp, headerClaim := ⟨r.blockNum, false⟩, qc := none,
    actionMroot := 0 }

/-- **The branches of the chain**, newest block first. -/
inductive ValidBranch : List Block → Prop
  | genesis (r : BlockRef) (hpos : 0 < r.blockNum) : ValidBranch [genesisBlock r]
  | next {p b : Block} {bs : List Block} {valid : Option Valid} {isValid : Bool} {q : Option Qc}
      (parent : ValidBranch (p :: bs))
      (checked : verifyBasicProperBlockInvariants b.properBlock (p.prevBlock valid isValid) = .ok q)
      (num : b.num = p.num + 1) (time : p.time < b.time)
      (core : p.core.next p.ref b.headerClaim = .ok b.core) : ValidBranch (b :: p :: bs)

structure View (b : Block) (bs : List Block) : Prop where
  wf : b.core.Wf
  current : b.core.currentBlockNum = b.num
  claim : b.core.latestQcClaim = b.headerClaim
  refs_le : b.core.refs.length ≤ bs.length
  refs_eq : b.core.refs = window Block.ref b.core.refs.length bs
  links_le : b.core.links.length ≤ (b :: bs).length
  links_eq : b.core.links = window Block.link b.core.links.length (b :: bs)
  times : ∀ r ∈ b.core.refs, r.timestamp < b.time

variable {p b : Block} {bs as : List Block} {n : Nat}

theorem View.claimable (h : View p bs) {valid : Option Valid} {isValid : Bool}
    {q : Option Qc} (hc : verifyBasicProperBlockInvariants b.properBlock (p.prevBlock valid isValid) = .ok q) :
    p.core.Claimable b.headerClaim := by
  obtain ⟨c, c', h1, h2, h3, h4, -⟩ := verifyBasicProperBlockInvariants_ok hc
  cases h1; cases h2
  exact ⟨by rw [h.current]; exact h3, by rw [h.claim]; exact h4⟩

theorem View.next_eq {p : Block} {bs : List Block} (h : View p bs) {q : QcClaim} (hq : p.core.Claimable q) :
    p.core.next p.ref q = .ok (p.core.advance p.ref q) :=
  h.wf.next_eq hq h.current.symm (fun x hx => h.times x (mem_of_getLast? hx))

theorem view_genesis (r : BlockRef) : View (genesisBlock r) [] where
  wf := wf_genesis _ _
  current := rfl
  claim := rfl
  refs_le := le_rfl
  refs_eq := rfl
  links_le := le_rfl
  links_eq := rfl
  times := by simp [genesisBlock, createCoreForGenesisBlock]

theorem view_next (h : View p bs) (hq : p.core.Claimable b.headerClaim)
    (hn : b.num = p.num + 1) (ht : p.time < b.time) (hc : b.core = p.core.advance p.ref b.headerClaim) :
    View b (p :: bs) := by
  have hli : (⟨p.core.currentBlockNum + 1, b.headerClaim.blockNum, b.headerClaim.isStrongQc⟩ : QcLink) = b.link := by
    rw [Block.link, hn, h.current]
  have hre : b.core.refs = window Block.ref (p.core.refs.length -
      ((p.core.frontAfter b.headerClaim).targetBlockNum - p.core.lastFinalBlockNum) + 1) (p :: bs) := by
    rw [hc, advance]
    simp only
    rw [h.refs_eq, window_length h.refs_le, window_drop_concat h.refs_le]
  have hln : b.core.links = window Block.link (p.core.links.length -
      ((p.core.frontAfter b.headerClaim).sourceBlockNum - p.core.front.sourceBlockNum) + 1) (b :: p :: bs) := by
    rw [hc, advance]
    simp only
    rw [hli, h.links_eq, window_length h.links_le, window_drop_concat h.links_le]
  have hrl := h.refs_le
  have hll := h.links_le
  have hr := window_length (f := Block.ref) (L := p :: bs) (m := p.core.refs.length -
      ((p.core.frontAfter b.headerClaim).targetBlockNum - p.core.lastFinalBlockNum) + 1)
    (by simp only [length_cons]; omega)
  have hl := window_length (f := Block.link) (L := b :: p :: bs) (m := p.core.links.length -
      ((p.core.frontAfter b.headerClaim).sourceBlockNum - p.core.front.sourceBlockNum) + 1)
    (by simp only [length_cons] at hll ⊢; omega)
  rw [← hre] at hr
  rw [← hln] at hl
  refine ⟨?_, ?_, ?_, ?_, ?_, ?_, ?_, ?_⟩
  · rw [hc]
    exact wf_advance h.wf hq h.current.symm h.times
  · rw [hc, advance_currentBlockNum, hn, h.current]
  · rw [hc, advance_latestQcClaim]
  · rw [hr, length_cons]; omega
  · rw [hr, ← hre]
  · rw [hl]; simp only [length_cons] at hll ⊢; omega
  · rw [hl, ← hln]
  · intro r hr'
    rw [hc, advance] at hr'
    rcases mem_append.1 hr' with hr' | hr'
    · exact (h.times r (mem_of_mem_drop hr')).trans ht
    · rw [mem_singleton.1 hr']; exact ht

theorem ValidBranch.view : ∀ {b : Block} {bs}, ValidBranch (b :: bs) → View b bs
  | _, _, .genesis r _ => view_genesis r
  | b, _, .next (p := p) parent checked num time core => by
    have h := parent.view
    have hq := h.claimable checked
    rw [h.next_eq hq] at core
    exact view_next h hq num time (Except.ok.inj core).symm

theorem View.nextMetadata_eq (h : View p bs) {q : QcClaim} (hq : p.core.Claimable q) :
    p.core.nextMetadata q = .ok ⟨(p.core.frontAfter q).targetBlockNum, q.blockNum⟩ := by
  rw [nextMetadata, assertThat_bind (by simpa using hq.le_current), assertThat_bind hq.le_claim,
    h.wf.getNewBlockNumbers_eq hq, ok_bind]
  rfl

/-- **Every core of a valid branch satisfies the nine invariants; every claim that passes the check leads to a core again,
through calls none of whose asserts fails; the last final block number and the claim never decrease.** -/
theorem validBranch_core_invariants {b : Block} {bs : List Block} (h : ValidBranch (b :: bs)) : b.core.Invariants ∧
    (∀ n, b.core.front.sourceBlockNum ≤ n → n ≤ b.core.currentBlockNum → ∃ l, b.core.getQcLinkFrom n = .ok l) ∧
    (∀ n, b.core.lastFinalBlockNum ≤ n → n < b.core.currentBlockNum → ∃ r, b.core.getBlockReference n = .ok r) ∧
    ∀ (child : Block) (valid : Option Valid) (isValid : Bool) (q : Option Qc),
      verifyBasicProperBlockInvariants child.properBlock (b.prevBlock valid isValid) = .ok q →
        (∃ m, b.core.nextMetadata child.headerClaim = .ok m) ∧
        (∃ n, b.core.getNewBlockNumbers child.headerClaim = .ok n) ∧
        ∃ c, b.core.next b.ref child.headerClaim = .ok c ∧ c.Invariants ∧
          b.core.lastFinalBlockNum ≤ c.lastFinalBlockNum ∧ b.core.latestQcClaim.le c.latestQcClaim = true := by
  have hv := h.view
  refine ⟨hv.wf.invariants, fun n h1 h2 => ?_, fun n h1 h2 => ?_, fun child valid isValid q hc => ?_⟩
  · obtain ⟨l, hl, -⟩ := hv.wf.getQcLinkFrom_ok h1 h2
    exact ⟨l, hl⟩
  · obtain ⟨r, hr, -⟩ := hv.wf.getBlockReference_ok h1 h2
    exact ⟨r, hr⟩
  · have hq := hv.claimable hc
    refine ⟨⟨_, hv.nextMetadata_eq hq⟩, ⟨_, hv.wf.getNewBlockNumbers_eq hq⟩, _, hv.next_eq hq, ?_, ?_, ?_⟩
    · exact (wf_advance hv.wf hq hv.current.symm hv.times).invariants
    · rw [advance_lastFinalBlockNum hv.wf hq]
      exact hv.wf.front_target_le (hv.wf.frontAfter_mem hq)
    · rw [advance_latestQcClaim]
      exact hq.le_claim

def sampleRef (num : Nat) : BlockRef := ⟨⟨num, num⟩, 10 * num, num, 1, 0⟩

def sampleFirst : Block :=
  { ref := sampleRef 6, core := (genesisBlock (sampleRef 5)).core.advance (sampleRef 5) ⟨5, false⟩,
    headerClaim := ⟨5, false⟩, qc := none, actionMroot := 0 }

def sampleSecond : Block :=
  { ref := sampleRef 7, core := sampleFirst.core.advance (sampleRef 6) ⟨6, true⟩, headerClaim := ⟨6, true⟩,
    qc := some ⟨6, ⟨some [true], none, []⟩, none⟩, actionMroot := 0 }

theorem sampleFirst_valid : ValidBranch [sampleFirst, genesisBlock (sampleRef 5)] :=
  .next (.genesis _ (by decide))
    (show verifyBasicProperBlockInvariants sampleFirst.properBlock ((genesisBlock (sampleRef 5)).prevBlock none false) =
      .ok none from rfl) rfl (by decide) rfl

theorem validBranch_core_invariants_sampleFirst : sampleFirst.core.Invariants ∧
    ∃ c, sampleFirst.core.next sampleFirst.ref sampleSecond.headerClaim = .ok c ∧ c.Invariants ∧
      sampleFirst.core.lastFinalBlockNum ≤ c.lastFinalBlockNum := by
  obtain ⟨hi, -, -, hc⟩ := validBranch_core_invariants sampleFirst_valid
  obtain ⟨-, -, c, h1, h2, h3, -⟩ := hc sampleSecond none false sampleSecond.qc rfl
  exact ⟨hi, c, h1, h2, h3⟩

/-! ## Ancestors -/

def ancestorAt (bs : List Block) (num : Nat) : List Block :=
  match bs with
  | [] => []
  | b :: cs => (b :: cs).drop (b.num - num)

theorem ancestorAt_suffix (bs : List Block) (num : Nat) : ancestorAt bs num <:+ bs := by
  cases bs with
  | nil => exact suffix_refl _
  | cons b cs => exact drop_suffix _ _

namespace ValidBranch
variable {bs as : List Block}

theorem ne_nil (h : ValidBranch bs) : bs ≠ [] := by
  cases h <;> simp

theorem suffix (h : ValidBranch bs) : ∀ {as}, as <:+ bs → as ≠ [] → ValidBranch as := by
  induction h with
  | genesis r hpos =>
    intro as hs hne
    obtain rfl | hs := suffix_cons_iff.1 hs
    · exact .genesis r hpos
    · exact absurd (suffix_nil.1 hs) hne
  | next parent checked num time core ih =>
    intro as hs hne
    obtain rfl | hs := suffix_cons_iff.1 hs
    · exact .next parent checked num time core
    · exact ih hs hne

theorem length_le : ∀ {b : Block} {bs}, ValidBranch (b :: bs) → bs.length < b.num
  | _, _, .genesis r hpos => hpos
  | _, _, .next parent _ num _ _ => by
    have := parent.length_le
    rw [length_cons, num]
    omega

theorem descending : ∀ {bs}, ValidBranch bs → bs.IsChain (fun b p => b.num = p.num + 1)
  | _, .genesis _ _ => isChain_singleton _
  | _, .next parent _ num _ _ => isChain_cons_cons.2 ⟨num, parent.descending⟩

variable {b a : Block}

theorem num_drop {k : Nat} (h : ValidBranch (b :: bs)) (hd : (b :: bs).drop k = a :: as) : a.num + k = b.num :=
  descending_getElem? h.descending (by rw [← head?_drop, hd]; rfl)

theorem ancestorAt_eq (h : ValidBranch (b :: bs)) {num : Nat} (h1 : num ≤ b.num) (h2 : b.num ≤ num + bs.length) :
    ∃ a as, ancestorAt (b :: bs) num = a :: as ∧ a.num = num ∧ ValidBranch (a :: as) := by
  have hlt : b.num - num < (b :: bs).length := by simp only [length_cons]; omega
  obtain ⟨a, as, hd⟩ : ∃ a as, (b :: bs).drop (b.num - num) = a :: as :=
    exists_cons_of_ne_nil (fun hn => by have := drop_eq_nil_iff.1 hn; omega)
  refine ⟨a, as, hd, ?_, h.suffix (hd ▸ drop_suffix _ _) (by simp)⟩
  have := h.num_drop hd
  omega

theorem ancestorAt_of_suffix (h : ValidBranch (b :: bs))
    (hs : a :: as <:+ b :: bs) : ancestorAt (b :: bs) a.num = a :: as := by
  obtain ⟨k, hk⟩ : ∃ k, (b :: bs).drop k = a :: as := ⟨_, (suffix_iff_eq_drop.1 hs).symm⟩
  have := h.num_drop hk
  rw [ancestorAt, show b.num - a.num = k by omega, hk]

theorem time_lt : ∀ {b : Block} {bs} {a : Block} {as}, ValidBranch (b :: bs) →
    a :: as <:+ bs → a.time < b.time
  | _, _, _, _, .genesis _ _, hs => by simp at hs
  | _, _, _, _, .next parent _ _ time _, hs => by
    obtain hs | hs := suffix_cons_iff.1 hs
    · cases hs; exact time
    · exact (parent.time_lt hs).trans time

theorem num_lt (h : ValidBranch (b :: bs)) (hs : a :: as <:+ bs) : a.num < b.num := by
  obtain ⟨k, hk⟩ : ∃ k, bs.drop k = a :: as := ⟨_, (suffix_iff_eq_drop.1 hs).symm⟩
  have := h.num_drop (k := k + 1) (by simpa using hk)
  omega

end ValidBranch

theorem View.getBlockReference_eq (h : View b bs) (h1 : b.core.lastFinalBlockNum ≤ n) (h2 : n < b.num) {a : Block}
    (ha : ancestorAt (b :: bs) n = a :: as) : b.core.getBlockReference n = .ok a.ref := by
  obtain ⟨r, hr, hi, -⟩ := h.wf.getBlockReference_ok h1 (by rw [h.current]; exact h2)
  have hl := h.wf.ref_length
  rw [h.current] at hl
  rw [hr]
  rw [h.refs_eq, window_getElem? (by omega) h.refs_le] at hi
  have hk : (b :: bs)[b.num - n]? = some a := by rw [← head?_drop]; rw [ancestorAt] at ha; rw [ha]; rfl
  rw [show b.num - n = (b.core.refs.length - 1 - (n - b.core.lastFinalBlockNum)) + 1 by omega,
    getElem?_cons_succ] at hk
  rw [hk] at hi
  cases hi; rfl

theorem View.link_eq (h : View b bs) (h1 : b.core.front.sourceBlockNum ≤ n)
    (h2 : n ≤ b.num) {a : Block} (ha : ancestorAt (b :: bs) n = a :: as) :
    b.core.links[n - b.core.front.sourceBlockNum]? = some a.link := by
  obtain ⟨l, -, hl, -⟩ := h.wf.getQcLinkFrom_ok h1 (by rw [h.current]; exact h2)
  have hs := h.wf.source_back
  rw [h.current] at hs
  rw [hl]
  rw [h.links_eq, window_getElem? (by omega) h.links_le] at hl
  have hk : (b :: bs)[b.num - n]? = some a := by rw [← head?_drop]; rw [ancestorAt] at ha; rw [ha]; rfl
  rw [show b.core.links.length - 1 - (n - b.core.front.sourceBlockNum) = b.num - n by omega, hk] at hl
  exact hl.symm

/-! ## The claimed and the last final block -/

def claimedBlock : List Block → List Block
  | [] => []
  | b :: bs => ancestorAt (b :: bs) b.headerClaim.blockNum

def lastFinalBlock : List Block → List Block
  | [] => []
  | b :: bs => ancestorAt (b :: bs) b.core.lastFinalBlockNum

theorem claimedBlock_suffix (bs : List Block) : claimedBlock bs <:+ bs := by
  cases bs with
  | nil => exact suffix_refl _
  | cons b bs => rw [claimedBlock]; exact ancestorAt_suffix _ _

theorem ancestorAt_cons (hb : b.num = p.num + 1) (hn : n ≤ p.num) :
    ancestorAt (b :: p :: bs) n = ancestorAt (p :: bs) n := by
  simp only [ancestorAt]
  rw [show b.num - n = (p.num - n) + 1 by omega, drop_succ_cons]

theorem View.lastFinal_le (h : View b bs) : b.num ≤ b.core.lastFinalBlockNum + bs.length := by
  have h1 := h.wf.ref_length
  have h2 := h.refs_le
  rw [h.current] at h1
  omega

namespace ValidBranch
variable {b a : Block} {bs as cs : List Block}

theorem claimedBlock_eq (h : ValidBranch (b :: bs)) :
    ∃ a as, claimedBlock (b :: bs) = a :: as ∧ a.num = b.headerClaim.blockNum ∧ ValidBranch (a :: as) ∧
      (bs ≠ [] → a :: as <:+ bs) := by
  have hv := h.view
  have h1 := hv.wf.claim_le_current
  have h2 := hv.wf.lastFinal_le_claim
  have h3 := hv.lastFinal_le
  rw [hv.claim, hv.current] at h1
  rw [hv.claim] at h2
  obtain ⟨a, as, ha, hn, hva⟩ := h.ancestorAt_eq h1 (by omega)
  refine ⟨a, as, ha, hn, hva, fun hne => ?_⟩
  cases h with
  | genesis r hpos => exact absurd rfl hne
  | next parent checked num time core =>
    have hq := parent.view.claimable checked
    have := hq.le_current
    rw [parent.view.current] at this
    rw [← ha, ancestorAt_cons num this]
    exact ancestorAt_suffix _ _

theorem front_of_strong : ∀ {b : Block} {bs}, ValidBranch (b :: bs) → b.headerClaim.isStrongQc = true →
    ∃ a as, claimedBlock (b :: bs) = a :: as ∧ b.core.front = a.link
  | _, [], .genesis _ _, hs => absurd hs (by simp [genesisBlock])
  | b, p :: bs, .next parent checked num time core, hs => by
    have hv := parent.view
    have hq := hv.claimable checked
    rw [hv.next_eq hq] at core
    have h1 := hq.le_current
    have h2 := hq.claim_le
    have h3 := hv.wf.lastFinal_le_claim
    have h4 := hv.lastFinal_le
    have h5 := hv.wf.front_le
    rw [hv.current] at h1
    obtain ⟨a, as, ha, -, -⟩ := parent.ancestorAt_eq h1 (by omega)
    refine ⟨a, as, ?_, ?_⟩
    · rw [claimedBlock, ancestorAt_cons num h1, ha]
    · rw [← Except.ok.inj core, advance_front hv.wf hq, frontAfter, hs, if_pos rfl, hv.link_eq (h5.trans h2) h1 ha]
      rfl

theorem front_of_weak : ∀ {b p : Block} {bs}, ValidBranch (b :: p :: bs) → b.headerClaim.isStrongQc = false →
    b.core.front = p.core.front
  | b, p, bs, .next parent checked num time core, hs => by
    have hq := parent.view.claimable checked
    rw [parent.view.next_eq hq] at core
    rw [← Except.ok.inj core, advance_front parent.view.wf hq, frontAfter, hs]
    rfl

/-- **Where the front link comes from**: the genesis block's own link, or the link of a block that a block of the branch
claims a strong certificate on. -/
theorem front_cases : ∀ {b : Block} {bs}, ValidBranch (b :: bs) →
    (∃ r, [genesisBlock r] <:+ b :: bs ∧ b.core.front = (genesisBlock r).link) ∨
    ∃ d ds a as, d :: ds <:+ b :: bs ∧ d.headerClaim.isStrongQc = true ∧ ds ≠ [] ∧
      claimedBlock (d :: ds) = a :: as ∧ b.core.front = a.link
  | _, _, .genesis r _ => .inl ⟨r, suffix_refl _, rfl⟩
  | b, p :: bs, .next parent checked num time core => by
    have h : ValidBranch (b :: p :: bs) := .next parent checked num time core
    cases hs : b.headerClaim.isStrongQc with
    | true =>
      obtain ⟨a, as, ha, hl⟩ := h.front_of_strong hs
      exact .inr ⟨b, p :: bs, a, as, suffix_refl _, hs, by simp, ha, hl⟩
    | false =>
      rw [h.front_of_weak hs]
      rcases parent.front_cases with ⟨r, hr, hl⟩ | ⟨d, ds, a, as, hd, hre⟩
      · exact .inl ⟨r, hr.trans (suffix_cons _ _), hl⟩
      · exact .inr ⟨d, ds, a, as, hd.trans (suffix_cons _ _), hre⟩

theorem lastFinalBlock_cases (h : ValidBranch bs) :
    (∃ r, [genesisBlock r] <:+ bs ∧ lastFinalBlock bs = [genesisBlock r]) ∨
    ∃ d ds, d :: ds <:+ bs ∧ d.headerClaim.isStrongQc = true ∧ ds ≠ [] ∧
      lastFinalBlock bs = claimedBlock (claimedBlock (d :: ds)) := by
  cases hbs : bs with
  | nil => exact absurd hbs h.ne_nil
  | cons b cs =>
    subst hbs
    rcases h.front_cases with ⟨r, hr, hl⟩ | ⟨d, ds, a, as, hd, hs, hne, ha, hl⟩
    · have hlf : b.core.lastFinalBlockNum = (genesisBlock r).num := by rw [lastFinalBlockNum, hl]; rfl
      refine .inl ⟨r, hr, ?_⟩
      rw [lastFinalBlock, hlf, h.ancestorAt_of_suffix hr]
    · refine .inr ⟨d, ds, hd, hs, hne, ?_⟩
      have hda := h.suffix hd (by simp)
      obtain ⟨a', as', ha', -, hva, -⟩ := hda.claimedBlock_eq
      rw [ha] at ha'
      cases ha'
      obtain ⟨c, cs', hc, hcn, -, -⟩ := hva.claimedBlock_eq
      have hlf : b.core.lastFinalBlockNum = c.num := by rw [lastFinalBlockNum, hl, hcn]; rfl
      have hsuf : c :: cs' <:+ b :: cs := by
        have h1 := claimedBlock_suffix (a :: as)
        have h2 := claimedBlock_suffix (d :: ds)
        rw [hc] at h1
        rw [ha] at h2
        exact h1.trans (h2.trans hd)
      rw [ha, hc, lastFinalBlock, hlf, h.ancestorAt_of_suffix hsuf]

theorem time_le (h : ValidBranch bs) (hb : b :: cs <:+ bs) (ha : a :: as <:+ b :: cs) : a.time ≤ b.time := by
  obtain ha | ha := suffix_cons_iff.1 ha
  · cases ha; exact le_rfl
  · exact Nat.le_of_lt ((h.suffix hb (by simp)).time_lt ha)

theorem suffix_of_not_above (ha : a :: as <:+ bs) (hb : b :: cs <:+ bs) (h : ¬ b :: cs <:+ as) : a :: as <:+ b :: cs := by
  rcases suffix_or_suffix_of_suffix ha hb with hs | hs
  · exact hs
  · obtain hs | hs := suffix_cons_iff.1 hs
    · obtain ⟨rfl, rfl⟩ := List.cons.inj hs
      exact suffix_refl _
    · exact absurd hs h

theorem suffix_of_time_le (h : ValidBranch bs)
    (ha : a :: as <:+ bs) (hb : b :: cs <:+ bs) (ht : a.time ≤ b.time) : a :: as <:+ b :: cs :=
  suffix_of_not_above ha hb (fun hs => Nat.not_lt.2 ht ((h.suffix ha (by simp)).time_lt hs))

theorem suffix_of_num_le (h : ValidBranch bs)
    (ha : a :: as <:+ bs) (hb : b :: cs <:+ bs) (hn : a.num ≤ b.num) : a :: as <:+ b :: cs :=
  suffix_of_not_above ha hb (fun hs => Nat.not_lt.2 hn ((h.suffix ha (by simp)).num_lt hs))

theorem claim_le_of_suffix : ∀ {b : Block} {bs} {a : Block} {as}, ValidBranch (b :: bs) →
    a :: as <:+ b :: bs → a.headerClaim.blockNum ≤ b.headerClaim.blockNum
  | _, _, _, _, .genesis _ _, hs => by
    obtain hs | hs := suffix_cons_iff.1 hs
    · cases hs; exact le_rfl
    · simp at hs
  | _, _, _, _, .next parent checked _ _ _, hs => by
    obtain hs | hs := suffix_cons_iff.1 hs
    · cases hs; exact le_rfl
    · have h1 := parent.claim_le_of_suffix hs
      have h2 := (parent.view.claimable checked).claim_le
      rw [parent.view.claim] at h2
      exact h1.trans h2

theorem claimedBlock_suffix_of_suffix
    (h : ValidBranch (b :: bs)) (hs : a :: as <:+ b :: bs) : claimedBlock (a :: as) <:+ claimedBlock (b :: bs) := by
  have ha := h.suffix hs (by simp)
  obtain ⟨x, xs, hx, hxn, -, -⟩ := ha.claimedBlock_eq
  obtain ⟨y, ys, hy, hyn, -, -⟩ := h.claimedBlock_eq
  have h1 := (claimedBlock_suffix (a :: as)).trans hs
  have h2 := claimedBlock_suffix (b :: bs)
  rw [hx] at h1 ⊢
  rw [hy] at h2 ⊢
  exact h.suffix_of_num_le h1 h2 (by rw [hxn, hyn]; exact h.claim_le_of_suffix hs)

theorem getBlockReference_claimed (h : ValidBranch (b :: bs)) (hne : bs ≠ []) (ha : claimedBlock (b :: bs) = a :: as) :
    b.core.getBlockReference b.core.latestQcClaim.blockNum = .ok a.ref := by
  obtain ⟨a', as', ha', hn, -, hsuf⟩ := h.claimedBlock_eq
  rw [ha] at ha'
  cases ha'
  have hlt := h.num_lt (hsuf hne)
  have hv := h.view
  have hlf := hv.wf.lastFinal_le_claim
  rw [hv.claim] at hlf ⊢
  exact hv.getBlockReference_eq hlf (by omega) ha

theorem latestQcBlockTimestamp_eq (h : ValidBranch (b :: bs)) (hne : bs ≠ []) (ha : claimedBlock (b :: bs) = a :: as) :
    b.core.latestQcBlockTimestamp = .ok a.time := by
  have hr := h.getBlockReference_claimed hne ha
  have hg : b.core.isGenesisCore = false := by
    cases h with
    | genesis r hpos => exact absurd rfl hne
    | next parent checked num time core =>
      have hq := parent.view.claimable checked
      rw [parent.view.next_eq hq] at core
      rw [← Except.ok.inj core]
      simp [isGenesisCore, advance]
  rw [latestQcBlockTimestamp, hg]
  have hb : b.core.back.targetBlockNum = b.core.latestQcClaim.blockNum := rfl
  rw [hb, hr]
  rfl

theorem extends_ok (h : ValidBranch (b :: bs)) {id : BlockId}
    (he : b.core.extends' id = .ok true) : ∃ a as, a :: as <:+ bs ∧ a.ref.blockId = id := by
  have hv := h.view
  unfold extends' at he
  split at he
  · rename_i hc
    rw [hv.current] at hc
    have hlf := hv.lastFinal_le
    have hle : numFromId id ≤ b.num := Nat.le_of_lt hc.2
    obtain ⟨a, as, ha, hn, -⟩ := h.ancestorAt_eq hle (by omega)
    rw [hv.getBlockReference_eq hc.1 hc.2 ha] at he
    have hsuf := ancestorAt_suffix (b :: bs) (numFromId id)
    rw [ha] at hsuf
    refine ⟨a, as, ?_, by simpa [Except.map] using he⟩
    obtain hs | hs := suffix_cons_iff.1 hsuf
    · cases hs; omega
    · exact hs
  · cases he

/-- **`extends` is exact**: on every branch it accepts the ids of the ancestors from the last final block on, and no assert fails. -/
theorem extends_iff (h : ValidBranch (b :: bs)) (id : BlockId) : ∃ e, b.core.extends' id = .ok e ∧
    (e = true ↔ ∃ a as, a :: as <:+ bs ∧ a.ref.blockId = id ∧ b.core.lastFinalBlockNum ≤ a.num) := by
  have hv := h.view
  by_cases hc : b.core.lastFinalBlockNum ≤ numFromId id ∧ numFromId id < b.core.currentBlockNum
  · have hlt := hc.2
    rw [hv.current] at hlt
    obtain ⟨a, as, ha, -, -⟩ := h.ancestorAt_eq (Nat.le_of_lt hlt) (by have := hv.lastFinal_le; omega)
    have he : b.core.extends' id = .ok (a.ref.blockId == id) := by
      rw [extends', if_pos hc, hv.getBlockReference_eq hc.1 hlt ha]
      rfl
    refine ⟨_, he, fun ht => ?_, ?_⟩
    · rw [ht] at he
      obtain ⟨x, xs, hs, rfl⟩ := h.extends_ok he
      exact ⟨x, xs, hs, rfl, hc.1⟩
    · rintro ⟨x, xs, hs, rfl, -⟩
      -- the branch has one block of that number
      have hx : ancestorAt (b :: bs) (numFromId x.ref.blockId) = x :: xs :=
        h.ancestorAt_of_suffix (hs.trans (suffix_cons _ _))
      rw [ha] at hx
      cases hx
      exact beq_self_eq_true _
  · refine ⟨false, by rw [extends', if_neg hc], fun he => (by cases he), ?_⟩
    rintro ⟨x, xs, hs, rfl, hle⟩
    exact absurd ⟨hle, hv.current ▸ h.num_lt hs⟩ hc

theorem extends_iff_sampleFirst : ∃ e, sampleFirst.core.extends' ⟨5, 5⟩ = .ok e ∧ e = true := by
  obtain ⟨e, he, hi⟩ := sampleFirst_valid.extends_iff ⟨5, 5⟩
  exact ⟨e, he, hi.2 ⟨_, _, suffix_refl _, rfl, by decide⟩⟩

end ValidBranch
end TheChannel
