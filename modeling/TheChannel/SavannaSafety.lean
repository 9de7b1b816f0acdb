import TheChannel.SavannaVotes
import TheChannel.LibTwoChain
/-!
# SavannaSafety — no two conflicting blocks are final

`NetInv` holds in every reachable network (`netInv_reachable`). With Byzantine weight below `2T - W` it makes the votes
of a network a `VoteHistory`, so the last final blocks of any two cores of the tree are on one branch.
-/
namespace TheChannel
open FinalizerSafetyInformation List

section Inv

variable (pol : FinalizerPolicy) (honest : PublicKey → Bool) (r : BlockRef)

def Net.Casts (net : Net) (key : PublicKey) (B : List Block) (strong : Bool) : Prop :=
  B ∈ net.tree ∧ ⟨key, digestOf B, strong⟩ ∈ net.ballots

def Certified (ballots : List Ballot) (B : List Block) (strong : Bool) : Prop :=
  ∃ qc, Verified pol honest ballots qc (digestOf B) ∧ (strong = true → qc.isStrong = true)

structure NetInv (net : Net) : Prop where
  tree : Tree r net.tree
  digests : ∀ A ∈ net.tree, ∀ B ∈ net.tree, digestOf A = digestOf B → A = B
  ballots : ∀ x ∈ net.ballots, ∃ b bs, b :: bs ∈ net.tree ∧ bs ≠ [] ∧ x.digest = b.ref.finalityDigest
  claims : ∀ b bs, b :: bs ∈ net.tree → claimedBlock (b :: bs) = [genesisBlock r] ∨
    Certified pol honest net.ballots (claimedBlock (b :: bs)) b.headerClaim.isStrongQc
  keys : ∀ key, honest key = true → KeyInv r net.tree (net.Casts key) (net.fsi key)

end Inv

section Steps

variable {pol : FinalizerPolicy} {honest : PublicKey → Bool} {r : BlockRef} {net : Net} {B bs : List Block} {valid : Option Valid}
  {isValid : Bool} {q : Option Qc} {key : PublicKey} {fsi : FinalizerSafetyInformation} {b : Block} {qc : Qc}

theorem Certified.mono {ballots ballots' : List Ballot} {s : Bool}
    (h : Certified pol honest ballots B s) (hsub : ballots ⊆ ballots') : Certified pol honest ballots' B s :=
  h.imp fun _ hq => ⟨hq.1.mono hsub, hq.2⟩

theorem netInv_init (hpos : 0 < r.blockNum) : NetInv pol honest r (Net.init r) where
  tree := by
    refine ⟨?_, ?_, ?_, ?_⟩ <;> simp only [Net.init, mem_singleton, forall_eq]
    · exact .genesis r hpos
    · intro A hA hne
      obtain hA | hA := suffix_cons_iff.1 hA
      · exact hA
      · exact absurd (suffix_nil.1 hA) hne
    · exact suffix_refl _
    · exact fun _ => trivial
  digests := by simp [Net.init]
  ballots := by simp [Net.init]
  claims := by
    intro b bs hb
    simp only [Net.init, mem_singleton] at hb
    rw [hb]
    exact .inl (by simp [claimedBlock, ancestorAt, genesisBlock, Block.num])
  keys := by
    intro key _
    have hno : ∀ B s, ¬ (Net.init r).Casts key B s := fun B s hc => by simp [Net.Casts, Net.init] at hc
    refine ⟨fun B s hc => absurd hc (hno B s), .inl hno, .inl ⟨rfl, fun B => hno B true⟩, ?_, ?_, ?_⟩
    · exact fun A B s s' hA => absurd hA (hno A s)
    · exact fun A B s hA => absurd hA (hno A true)
    · exact fun A B s hA => absurd hA (hno A true)

theorem tree_cons (hT : Tree r net.tree) {b p : Block} (mem : p :: bs ∈ net.tree) (hval : ValidBranch (b :: p :: bs))
    (fresh : ∀ x xs, x :: xs ∈ net.tree → x.ref.blockId ≠ b.ref.blockId) : Tree r ((b :: p :: bs) :: net.tree) where
  valid := by
    intro B hB
    rcases mem_cons.1 hB with rfl | hB
    · exact hval
    · exact hT.valid B hB
  closed := by
    intro B hB A hs hne
    rcases mem_cons.1 hB with rfl | hB
    · obtain rfl | hs := suffix_cons_iff.1 hs
      · exact mem_cons_self
      · exact mem_cons_of_mem _ (hT.closed _ mem A hs hne)
    · exact mem_cons_of_mem _ (hT.closed B hB A hs hne)
  root := by
    intro B hB
    rcases mem_cons.1 hB with rfl | hB
    · exact (hT.root _ mem).trans (suffix_cons _ _)
    · exact hT.root B hB
  ids := by
    have hne : ∀ B ∈ net.tree, (refOf B).blockId ≠ b.ref.blockId := by
      intro B hB
      cases B with
      | nil => exact absurd rfl (hT.ne_nil hB)
      | cons x xs => exact fresh x xs hB
    intro A hA B hB he
    rcases mem_cons.1 hA with rfl | hA <;> rcases mem_cons.1 hB with rfl | hB
    · rfl
    · exact absurd he.symm (hne B hB)
    · exact absurd he (hne A hA)
    · exact hT.ids A hA B hB he

section AddBlock

variable (hi : NetInv pol honest r net) {b p : Block} (mem : p :: bs ∈ net.tree)
  (checked : verifyBasicProperBlockInvariants b.properBlock (p.prevBlock valid isValid) = .ok q)
  (num : b.num = p.num + 1) (verified : ∀ qc a as, q = some qc → ancestorAt (p :: bs) qc.blockNum = a :: as →
    Verified pol honest net.ballots qc a.ref.finalityDigest)

include hi mem checked num verified

theorem claims_cons : claimedBlock (b :: p :: bs) = [genesisBlock r] ∨
      Certified pol honest net.ballots (claimedBlock (b :: p :: bs)) b.headerClaim.isStrongQc := by
  have hv := (hi.tree.valid _ mem).view
  have hq := hv.claimable checked
  have hle := hq.le_current
  rw [hv.current] at hle
  have hcl : claimedBlock (b :: p :: bs) = ancestorAt (p :: bs) b.headerClaim.blockNum := by
    rw [claimedBlock, ancestorAt_cons num hle]
  obtain ⟨c, c', h1, h2, -, -, h⟩ := verifyBasicProperBlockInvariants_ok checked
  cases h1; cases h2
  rcases h with ⟨-, hsa⟩ | ⟨qc, hqc, -, hca⟩
  · have hp := hi.claims p bs mem
    rw [hcl, hsa]
    exact hp
  · have h3 := hq.claim_le
    have h4 := hv.wf.lastFinal_le_claim
    have h5 := hv.lastFinal_le
    obtain ⟨a, as, ha, -, -⟩ := (hi.tree.valid _ mem).ancestorAt_eq hle (by omega)
    have hn : qc.blockNum = b.headerClaim.blockNum := by rw [← hca]; rfl
    rw [hcl, ha]
    refine .inr ⟨qc, verified qc a as hqc (by rw [hn, ha]), fun hs => ?_⟩
    rw [← hca] at hs
    exact hs

theorem netInv_addBlock (time : p.time < b.time) (core : p.core.next p.ref b.headerClaim = .ok b.core)
    (fresh : ∀ x xs, x :: xs ∈ net.tree →
      x.ref.blockId ≠ b.ref.blockId ∧ x.ref.finalityDigest ≠ b.ref.finalityDigest) :
    NetInv pol honest r { net with tree := (b :: p :: bs) :: net.tree } := by
  have hval := ValidBranch.next (hi.tree.valid _ mem) checked num time core
  have hd : ∀ B ∈ net.tree, digestOf B ≠ b.ref.finalityDigest := by
    intro B hB
    cases B with
    | nil => exact absurd rfl (hi.tree.ne_nil hB)
    | cons x xs => exact (fresh x xs hB).2
  refine ⟨tree_cons hi.tree mem hval (fun x xs hx => (fresh x xs hx).1), ?_, ?_, ?_, ?_⟩
  · intro A hA B hB he
    rcases mem_cons.1 hA with rfl | hA <;> rcases mem_cons.1 hB with rfl | hB
    · rfl
    · exact absurd he.symm (hd B hB)
    · exact absurd he (hd A hA)
    · exact hi.digests A hA B hB he
  · intro x hx
    obtain ⟨c, cs, hc, hr⟩ := hi.ballots x hx
    exact ⟨c, cs, mem_cons_of_mem _ hc, hr⟩
  · intro c cs hc
    rcases mem_cons.1 hc with heq | hc
    · cases heq
      exact claims_cons hi mem checked num verified
    · exact hi.claims c cs hc
  · intro key hkey
    refine ((hi.keys key hkey).mono (subset_cons_self _ _)).congr fun B s => ?_
    -- nobody has voted on the new block yet
    constructor
    · rintro ⟨hB, hx⟩
      refine ⟨?_, hx⟩
      rcases mem_cons.1 hB with rfl | hB
      · obtain ⟨c, cs, hc, -, hdi⟩ := hi.ballots _ hx
        exact absurd hdi.symm (hd _ hc)
      · exact hB
    · rintro ⟨hB, hx⟩
      exact ⟨mem_cons_of_mem _ hB, hx⟩

end AddBlock

theorem netInv_fsi (hi : NetInv pol honest r net) (hk : honest key = true → KeyInv r net.tree (net.Casts key) fsi) :
    NetInv pol honest r { net with fsi := Function.update net.fsi key fsi } := by
  refine ⟨hi.tree, hi.digests, hi.ballots, hi.claims, fun k hkk => ?_⟩
  by_cases he : k = key
  · subst he
    simp only [Function.update_self]
    exact hk hkk
  · simp only [Function.update_of_ne he]
    exact hi.keys k hkk

theorem casts_release (hi : NetInv pol honest r net) {key k : PublicKey}
    (mem : b :: bs ∈ net.tree) (strong released : Bool) (B : List Block) (s : Bool) :
    (B ∈ net.tree ∧ (⟨k, digestOf B, s⟩ : Ballot) ∈
      (if released then ballotOf key b (if strong then .strongVote else .weakVote) else []) ++ net.ballots) ↔
    (net.Casts k B s ∨ (k = key ∧ released = true ∧ B = b :: bs ∧ s = strong)) := by
  have hone : (⟨k, digestOf B, s⟩ : Ballot) ∈ ballotOf key b (if strong then .strongVote else .weakVote) ↔
      k = key ∧ digestOf B = b.ref.finalityDigest ∧ s = strong := by
    cases strong <;> simp [ballotOf]
  cases released with
  | false => simp [Net.Casts]
  | true =>
    simp only [if_true, mem_append, hone, Net.Casts]
    constructor
    · rintro ⟨hB, ⟨hk, hd, hs⟩ | hx⟩
      · exact .inr ⟨hk, trivial, hi.digests B hB _ mem hd, hs⟩
      · exact .inl ⟨hB, hx⟩
    · rintro (⟨hB, hx⟩ | ⟨hk, -, rfl, hs⟩)
      · exact ⟨hB, .inr hx⟩
      · exact ⟨mem, .inl ⟨hk, rfl, hs⟩⟩

theorem netInv_vote (hi : NetInv pol honest r net) {res : VoteResult}
    (released : Bool) (hkey : honest key = true) (mem : b :: bs ∈ net.tree)
    (proper : bs ≠ []) (decided : (net.fsi key).decideVote b = .ok (res, fsi)) :
    NetInv pol honest r { net with
      fsi := Function.update net.fsi key fsi
      ballots := (if released then ballotOf key b res.decision else []) ++ net.ballots } := by
  rcases decideVote_ok decided with ⟨hd, rfl⟩ | ⟨strong, t, hd, hv⟩
  · have hno : (if released then ballotOf key b res.decision else []) = [] := by cases released <;> simp [hd, ballotOf]
    rw [hno]
    exact netInv_fsi hi (hi.keys key)
  · rw [hd]
    have hsub : net.ballots ⊆
        (if released then ballotOf key b (if strong then .strongVote else .weakVote) else []) ++ net.ballots :=
      subset_append_right _ _
    refine ⟨hi.tree, hi.digests, ?_, fun c cs hc => (hi.claims c cs hc).imp id (·.mono hsub), ?_⟩
    · intro x hx
      rcases mem_append.1 hx with hx | hx
      · refine ⟨b, bs, mem, proper, ?_⟩
        cases released <;> cases strong <;> simp_all [ballotOf]
      · exact hi.ballots x hx
    · intro k hkk
      by_cases he : k = key
      · subst he
        simp only [Function.update_self]
        refine (keyInv_vote hi.tree (hi.keys k hkk) mem proper hv released).congr fun B s => ?_
        rw [Net.Casts, casts_release hi mem strong released B s]
        simp
      · simp only [Function.update_of_ne he]
        refine (hi.keys k hkk).congr fun B s => ?_
        rw [Net.Casts, casts_release hi mem strong released B s]
        simp [he]

theorem netInv_reachable (h : Net.Reachable pol honest r net) : NetInv pol honest r net := by
  induction h with
  | init hpos => exact netInv_init hpos
  | @step net _ _ s ih =>
    cases s with
    | addBlock mem checked num time core verified fresh =>
      exact netInv_addBlock ih mem checked num verified time core fresh
    | vote released hkey mem proper decided => exact netInv_vote ih released hkey mem proper decided
    | @updateFsi key b bs qc updated fsi hkey mem _ verified voted done =>
      -- nothing changes: the key's last vote is already as recent
      have hca : net.Casts key (b :: bs) true := by
        unfold hasVotedStrong at voted
        rw [unit_bind_ok_iff] at voted
        obtain ⟨-, voted⟩ := voted
        split at voted
        · cases voted
        rename_i i hidx
        simp only [unit_bind_ok_iff] at voted
        obtain ⟨-, hget⟩ := voted
        have hlt := indexOf_lt hidx
        have hf : pol.finalizers[i].publicKey = key := by
          have := (findIdx?_eq_some_iff_getElem.1 hidx).2.1
          simpa using this
        have hst : qc.activePolicySig.strongAt i = true := by
          rw [get_ok_iff] at hget
          rw [QcSig.strongAt, getD_eq_getElem?_getD, hget]
          rfl
        have := (verified.2 i _ (getElem?_eq_getElem hlt) (by rw [hf]; exact hkey)).1 hst
        rw [hf] at this
        exact ⟨mem, this⟩
      have hle : b.time ≤ (net.fsi key).lastVote.timestamp := by
        rcases (ih.keys key hkey).last with hno | ⟨B, -, href, hall⟩
        · exact absurd hca (hno _ _)
        · rw [← href, refOf_timestamp]
          exact (hall _ _ hca).1
      have hs : fsi = net.fsi key := by
        obtain ⟨ref, -, done⟩ := bind_ok done
        rw [if_neg (by omega)] at done
        cases done; rfl
      rw [hs]
      exact netInv_fsi ih (ih.keys key)
    | @setDefault key _ _ _ mem _ =>
      refine netInv_fsi ih fun hkey => ?_
      have hk := ih.keys _ hkey
      unfold setDefaultSafetyInformation
      split
      · exact hk
      · rename_i hc
        simp only [Bool.or_eq_true, Bool.not_eq_true', not_or, Bool.not_eq_false] at hc
        have hno : ∀ B s, ¬ net.Casts key B s := by
          rcases hk.last with hno | ⟨B, hB, href, -⟩
          · exact hno
          · have := ih.tree.ref_nonempty hB
            rw [href, hc.1] at this
            cases this
        refine ⟨hk.mem, .inl hno, .inr ⟨_, mem, rfl, fun C hC => absurd hC (hno C true)⟩, hk.once, hk.covers, hk.guards⟩

/-! ## Agreement -/

def byzantine (pol : FinalizerPolicy) (honest : PublicKey → Bool) (i : Nat) : Bool :=
  (pol.finalizers[i]?).any (fun f => !honest f.publicKey)

theorem honest_intersection {P Q : Nat → Bool} (hby : weightWhere (fun _ => true) pol.weights +
    weightWhere (byzantine pol honest) pol.weights < 2 * pol.threshold.toNat)
    (hP : pol.threshold.toNat ≤ weightWhere P pol.weights) (hQ : pol.threshold.toNat ≤ weightWhere Q pol.weights) :
    ∃ i f, pol.finalizers[i]? = some f ∧ honest f.publicKey = true ∧ P i = true ∧ Q i = true := by
  obtain ⟨i, hi, hp, hq, hb⟩ := quorum_intersection hP hQ hby
  rw [FinalizerPolicy.weights, length_map] at hi
  refine ⟨i, pol.finalizers[i], getElem?_eq_getElem hi, ?_, hp, hq⟩
  simpa [byzantine, getElem?_eq_getElem hi] using hb

theorem Verified.voted {d : Digest} (h : Verified pol honest net.ballots qc d) {i : Nat}
    {f : FinalizerAuthority} (hf : pol.finalizers[i]? = some f) (hh : honest f.publicKey = true)
    (hv : (qc.activePolicySig.strongAt i || qc.activePolicySig.weakAt i) = true) :
    ∃ s, (⟨f.publicKey, d, s⟩ : Ballot) ∈ net.ballots := by
  rcases Bool.or_eq_true _ _ ▸ hv with hs | hw
  · exact ⟨true, (h.2 i f hf hh).1 hs⟩
  · exact ⟨false, (h.2 i f hf hh).2 hw⟩

/-- **The votes of a network are a vote history**: the blocks are the branches of the tree, ordered by suffix. -/
def NetInv.history (hi : NetInv pol honest r net) (hbyz : weightWhere (fun _ => true) pol.weights +
    weightWhere (byzantine pol honest) pol.weights < 2 * pol.threshold.toNat) :
    VoteHistory (List Block) PublicKey where
  block B := B ∈ net.tree
  le A B := A ≠ [] ∧ A <:+ B
  time := timeOf
  root := [genesisBlock r]
  claim := claimedBlock
  cert B := B ∈ net.tree ∧ Certified pol honest net.ballots B false
  strongCert B := B ∈ net.tree ∧ Certified pol honest net.ballots B true
  voted key B := honest key = true ∧ ∃ s, net.Casts key B s
  votedStrong key B := honest key = true ∧ net.Casts key B true
  le_trans h1 h2 := ⟨h1.1, h1.2.trans h2.2⟩
  le_of_le_le hc h1 h2 ht := ⟨h1.1, hi.tree.suffix_of_time_le hc h1.1 h2.1 h1.2 h2.2 ht⟩
  eq_of_time {A B} hB h ht := by
    have := hi.tree.suffix_of_time_le hB (hi.tree.ne_nil hB) h.1 (suffix_refl _) h.2 (Nat.le_of_eq ht.symm)
    exact h.2.eq_of_length_le this.length_le
  root_le hB := ⟨by simp, hi.tree.root _ hB⟩
  time_le hB h := hi.tree.time_le hB h.1 h.2
  claim_block hB := hi.tree.claimed_mem hB
  claim_le hB := ⟨hi.tree.ne_nil (hi.tree.claimed_mem hB), claimedBlock_suffix _⟩
  claim_cert {B} hB := by
    cases B with
    | nil => exact absurd rfl (hi.tree.ne_nil hB)
    | cons b bs =>
      rcases hi.claims b bs hB with hr | ⟨qc, hv, -⟩
      · exact .inl hr
      · exact .inr ⟨hi.tree.claimed_mem hB, qc, hv, fun h => by cases h⟩
  claim_time {B} h := by
    -- a certified block has an honest voter, so it is not the genesis block
    obtain ⟨hB, qc, hv, -⟩ := h
    obtain ⟨i, f, hf, hh, hp, -⟩ := honest_intersection hbyz hv.quorum.1 hv.quorum.1
    obtain ⟨s, hs⟩ := hv.voted hf hh hp
    obtain ⟨b, bs, hb, hne, hd⟩ := hi.ballots _ hs
    rw [hi.digests B hB _ hb hd]
    obtain ⟨a, as, ha, -, -, hsuf⟩ := (hi.tree.valid _ hb).claimedBlock_eq
    rw [ha]
    exact hi.tree.time_lt hb (by simp) (hsuf hne)
  cert_block h := h.1
  strong_cert h := ⟨h.1, h.2.imp fun _ hq => ⟨hq.1, fun h => by cases h⟩⟩
  quorum := by
    rintro A B ⟨hA, qa, ha, -⟩ ⟨hB, qb, hb, -⟩
    obtain ⟨i, f, hf, hh, hp, hq⟩ := honest_intersection hbyz ha.quorum.1 hb.quorum.1
    obtain ⟨s, hs⟩ := ha.voted hf hh hp
    obtain ⟨s', hs'⟩ := hb.voted hf hh hq
    exact ⟨f.publicKey, ⟨hh, s, hA, hs⟩, ⟨hh, s', hB, hs'⟩⟩
  quorum_strong := by
    rintro A B ⟨hA, qa, ha, hst⟩ ⟨hB, qb, hb, -⟩
    obtain ⟨i, f, hf, hh, hp, hq⟩ := honest_intersection hbyz (ha.quorum.2 (hst rfl)) hb.quorum.1
    obtain ⟨s', hs'⟩ := hb.voted hf hh hq
    exact ⟨f.publicKey, ⟨hh, hA, (ha.2 i f hf hh).1 hp⟩, ⟨hh, s', hB, hs'⟩⟩
  strong_voted h := ⟨h.1, true, h.2⟩
  voted_once := by
    rintro key A B ⟨hh, s, hA⟩ ⟨-, s', hB⟩ ht
    exact (hi.keys key hh).once A B s s' hA hB ht
  strong_covers := by
    rintro key A B ⟨hh, hA⟩ ⟨-, s, hB⟩ h1 h2
    exact ⟨hi.tree.ne_nil hB.1, (hi.keys key hh).covers A B s hA hB h1 h2⟩
  lock_guards := by
    rintro key A B ⟨hh, hA⟩ ⟨-, s, hB⟩ h1
    refine ((hi.keys key hh).guards A B s hA hB h1).imp id ?_
    rintro ⟨L, hL, h2, h3, h4, h5⟩
    refine ⟨L, hL, ⟨hi.tree.ne_nil hL, h2⟩, h3, h4, ?_⟩
    rcases h5 with h5 | rfl | ⟨D, hD, rfl⟩
    · exact .inl ⟨hi.tree.ne_nil (hi.tree.claimed_mem hA.1), h5⟩
    · exact .inr (.inl rfl)
    · cases D with
      | nil => exact absurd rfl (hi.tree.ne_nil hD)
      | cons d ds =>
        rcases hi.claims d ds hD with hr | ⟨qc, hv, -⟩
        · exact .inr (.inl hr)
        · exact .inr (.inr ⟨hL, qc, hv, fun h => by cases h⟩)

theorem NetInv.lastFinal_cases (hi : NetInv pol honest r net) (hB : B ∈ net.tree) :
    lastFinalBlock B = [genesisBlock r] ∨
    ∃ A ∈ net.tree, Certified pol honest net.ballots A true ∧ lastFinalBlock B = claimedBlock A := by
  rcases (hi.tree.valid B hB).lastFinalBlock_cases with ⟨r', hr', hl⟩ | ⟨d, ds, hd, hs, -, hl⟩
  · have := hi.tree.root _ (hi.tree.closed B hB _ hr' (by simp))
    have := this.eq_of_length (by simp)
    exact .inl (by rw [hl, ← this])
  · have hdm := hi.tree.closed B hB _ hd (by simp)
    rcases hi.claims d ds hdm with hr | hc
    · -- a claim on the genesis block, whose own claim is itself
      refine .inl ?_
      rw [hl, hr]
      simp [claimedBlock, ancestorAt, genesisBlock, Block.num]
    · rw [hs] at hc
      exact .inr ⟨_, hi.tree.claimed_mem hdm, hc, hl⟩

end Steps

/-- **Savanna safety**: under a fixed policy of total weight `W` and threshold `T`, with the weight of the keys that are
not honest below `2T - W`, in every reachable network the last final blocks of any two cores of the tree are on one
branch. -/
theorem lastFinalBlock_comparable (pol : FinalizerPolicy) (honest : PublicKey → Bool) (r : BlockRef) (net : Net)
    (hbyz : weightWhere (fun _ => true) pol.weights + weightWhere (byzantine pol honest) pol.weights <
      2 * pol.threshold.toNat)
    (hreach : Net.Reachable pol honest r net) (A B : List Block) (hA : A ∈ net.tree) (hB : B ∈ net.tree) :
    lastFinalBlock A <:+ lastFinalBlock B ∨ lastFinalBlock B <:+ lastFinalBlock A := by
  have hi := netInv_reachable hreach
  have hmem : ∀ C ∈ net.tree, lastFinalBlock C ∈ net.tree := by
    intro C hC
    rcases hi.lastFinal_cases hC with h | ⟨D, hD, -, h⟩
    · rw [h]
      exact hi.tree.closed C hC _ (hi.tree.root C hC) (by simp)
    · rw [h]
      exact hi.tree.claimed_mem hD
  rcases hi.lastFinal_cases hA with hrA | ⟨C, hC, hcC, hlA⟩
  · rw [hrA]
    exact .inl (hi.tree.root _ (hmem B hB))
  · rcases hi.lastFinal_cases hB with hrB | ⟨D, hD, hcD, hlB⟩
    · rw [hrB]
      exact .inr (hi.tree.root _ (hmem A hA))
    · rw [hlA, hlB]
      exact ((hi.history hbyz).claims_comparable (a := C) (b := D) ⟨hC, hcC⟩ ⟨hD, hcD⟩).imp And.right And.right

def samplePolicy : FinalizerPolicy :=
  { generation := 1, threshold := 3,
    finalizers := [⟨"a", 1, 1⟩, ⟨"b", 1, 2⟩, ⟨"c", 1, 3⟩, ⟨"d", 1, 4⟩] }

/-- A block on `p`, with a strong certificate of the honest keys for `p` or with the claim of `p`. -/
def sampleNext (p : Block) (hash : Nat) (certified : Bool) : Block :=
  let claim := if certified then ⟨p.num, true⟩ else p.headerClaim
  { ref := ⟨⟨p.num + 1, hash⟩, 10 * hash, hash, 1, 0⟩, core := p.core.advance p.ref claim, headerClaim := claim,
    qc := if certified then some ⟨p.num, ⟨some [true, true, true, false], none, []⟩, none⟩ else none, actionMroot := 0 }

def Net.grow (net : Net) (branch : List Block) : Net := { net with tree := branch :: net.tree }

/-- `key` decides on `b`, and its signature is released. -/
def Net.cast (net : Net) (b : Block) (key : PublicKey) : Net :=
  match (net.fsi key).decideVote b with
  | .ok (res, fsi) =>
    { net with fsi := Function.update net.fsi key fsi, ballots := ballotOf key b res.decision ++ net.ballots }
  | .error _ => net

def Net.default (net : Net) (key : PublicKey) : Net :=
  { net with fsi := Function.update net.fsi key (setDefaultSafetyInformation (net.fsi key) ⟨BlockRef.unset, sampleRef 5, 0⟩) }

def sampleB6 : List Block := [sampleFirst, genesisBlock (sampleRef 5)]
def sampleB7 : List Block := sampleNext sampleFirst 7 true :: sampleB6
def sampleB8 : List Block := sampleNext (sampleNext sampleFirst 7 true) 8 true :: sampleB7
def sampleB9 : List Block := sampleNext (sampleNext (sampleNext sampleFirst 7 true) 8 true) 9 true :: sampleB8
def sampleB10 : List Block := sampleNext (sampleNext (sampleNext sampleFirst 7 true) 8 true) 10 false :: sampleB8

def sampleStarted : Net := [1, 2, 3].foldl Net.default (Net.init (sampleRef 5))
def sampleNet6 : Net := [1, 2, 3].foldl (Net.cast · sampleFirst) (sampleStarted.grow sampleB6)
def sampleNet7 : Net := [1, 2, 3].foldl (Net.cast · (sampleNext sampleFirst 7 true)) (sampleNet6.grow sampleB7)
def sampleNet8 : Net :=
  [1, 2, 3].foldl (Net.cast · (sampleNext (sampleNext sampleFirst 7 true) 8 true)) (sampleNet7.grow sampleB8)
def sampleNet : Net := (sampleNet8.grow sampleB9).grow sampleB10

/-- Reachable with the sample policy, where the fourth key is not honest. -/
abbrev SampleReachable (net : Net) : Prop := Net.Reachable samplePolicy (· != 4) (sampleRef 5) net

section Sample

variable {net : Net} {p b : Block} {bs : List Block}

theorem Net.cast_tree (net : Net) (b : Block) (key : PublicKey) : (net.cast b key).tree = net.tree := by
  unfold Net.cast
  split <;> rfl

theorem SampleReachable.cast (h : SampleReachable net) (hb : b :: bs ∈ net.tree) (hbs : bs ≠ []) :
    SampleReachable ([1, 2, 3].foldl (Net.cast · b) net) := by
  have hone : ∀ {net : Net} {key : PublicKey}, SampleReachable net → b :: bs ∈ net.tree →
      (key != 4) = true → SampleReachable (net.cast b key) := by
    intro net key h hb hk
    unfold Net.cast
    split
    · rename_i res fsi hd
      exact .step h (.vote true hk hb hbs hd)
    · exact h
  refine hone (hone (hone h hb rfl) ?_ rfl) ?_ rfl
  · rwa [Net.cast_tree]
  · rwa [Net.cast_tree, Net.cast_tree]

theorem verified_sample {ballots : List Ballot} {d : Digest} {num : Nat} (h : ∀ key ∈ [1, 2, 3], ⟨key, d, true⟩ ∈ ballots) :
    Verified samplePolicy (· != 4) ballots ⟨num, ⟨some [true, true, true, false], none, []⟩, none⟩ d := by
  refine ⟨rfl, fun i f hf hh => ⟨fun _ => ?_, fun hw => by cases hw⟩⟩
  have hmem := mem_of_getElem? hf
  simp only [samplePolicy, mem_cons, not_mem_nil, or_false] at hmem
  rcases hmem with rfl | rfl | rfl | rfl
  · exact h 1 (by simp)
  · exact h 2 (by simp)
  · exact h 3 (by simp)
  · cases hh

theorem SampleReachable.next (hash : Nat) (certified : Bool) (h : SampleReachable net)
    (hp : p :: bs ∈ net.tree)
    (hch : verifyBasicProperBlockInvariants (sampleNext p hash certified).properBlock (p.prevBlock none false) =
      .ok (sampleNext p hash certified).qc)
    (hc : p.core.next p.ref (sampleNext p hash certified).headerClaim = .ok (sampleNext p hash certified).core)
    (htime : p.time < 10 * hash) (hvotes : certified = true → ∀ key ∈ [1, 2, 3], ⟨key, p.ref.finalityDigest, true⟩ ∈ net.ballots)
    (hfresh : ∀ B ∈ net.tree, ∀ x ∈ B.head?, x.ref.blockId.hash ≠ hash ∧ x.ref.finalityDigest ≠ hash) :
    SampleReachable (net.grow (sampleNext p hash certified :: p :: bs)) := by
  refine .step h (.addBlock hp hch rfl htime hc (fun qc a as hq ha => ?_) (fun x xs hx => ?_))
  · cases certified with
    | false => cases hq
    | true =>
      cases hq
      rw [ancestorAt, Nat.sub_self, drop_zero] at ha
      cases ha
      exact verified_sample (hvotes rfl)
  · obtain ⟨hid, hd⟩ := hfresh _ hx x rfl
    exact ⟨fun heq => hid (congrArg _ heq), hd⟩

end Sample

theorem sampleNet_reachable : SampleReachable sampleNet := by
  have hdefault : ∀ {net : Net} (key : PublicKey), SampleReachable net →
      [genesisBlock (sampleRef 5)] ∈ net.tree → SampleReachable (net.default key) :=
    fun _ h hg => .step h (.setDefault hg (.inl rfl))
  have hstart : SampleReachable sampleStarted :=
    hdefault 3 (hdefault 2 (hdefault 1 (.init (by decide)) mem_cons_self) mem_cons_self) mem_cons_self
  have h6 : SampleReachable sampleNet6 :=
    (hstart.next 6 false mem_cons_self rfl rfl (by decide) (by decide) (by decide)).cast mem_cons_self (by simp)
  have h7 : SampleReachable sampleNet7 :=
    (h6.next 7 true mem_cons_self rfl rfl (by decide) (by decide) (by decide)).cast mem_cons_self (by simp)
  have h8 : SampleReachable sampleNet8 :=
    (h7.next 8 true mem_cons_self rfl rfl (by decide) (by decide) (by decide)).cast mem_cons_self (by simp)
  have h9 := h8.next 9 true mem_cons_self rfl rfl (by decide) (by decide) (by decide)
  exact h9.next 10 false (mem_cons_of_mem _ mem_cons_self) rfl rfl (by decide) (by decide) (by decide)

theorem sampleNet_tree : sampleNet.tree = [sampleB10, sampleB9, sampleB8, sampleB7, sampleB6, [genesisBlock (sampleRef 5)]] := rfl

theorem lastFinalBlock_comparable_sampleNet : lastFinalBlock sampleB9 = sampleB7 ∧ lastFinalBlock sampleB10 = sampleB6 ∧
    (lastFinalBlock sampleB10 <:+ lastFinalBlock sampleB9 ∨ lastFinalBlock sampleB9 <:+ lastFinalBlock sampleB10) :=
  ⟨rfl, rfl, lastFinalBlock_comparable samplePolicy (· != 4) (sampleRef 5) _ (by decide) sampleNet_reachable _ _
    mem_cons_self (mem_cons_of_mem _ mem_cons_self)⟩

end TheChannel
