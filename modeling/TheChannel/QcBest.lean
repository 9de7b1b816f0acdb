import TheChannel.QcAggregateInv
import Mathlib.Data.List.Nodup
/-!
# QcBest — when the best certificate of a block is accepted

`AggInv` holds after every sequence of votes and verified received certificates, and `Traced` says where the recorded votes and
the kept certificates come from. `getBestQc_accepted`: what `get_best_qc` returns is accepted by `verify_basic` exactly when
`DualsAgree` holds of the state, and always if the votes and the received certificates are `Uniform`.
-/
namespace TheChannel
open AggregatingQcSig QcSig FinalizerAuthority Option

def Dual (active pending : FinalizerPolicy) (i j : Nat) : Prop :=
  ∃ f, active.finalizers[i]? = some f ∧ pending.indexOf f.publicKey = some j

theorem dualOk_iff {active pending : FinalizerPolicy} {a p : QcSig} : DualOk active pending a p ↔
    ∀ i j, Dual active pending i j → a.strongAt i = p.strongAt j ∧ a.weakAt i = p.weakAt j :=
  ⟨fun h i j ⟨f, hf, hj⟩ => h i f j hf hj, fun h i f j hf hj => h i j ⟨f, hf, hj⟩⟩

/-! ## Keys and indexes -/

variable {p : FinalizerPolicy} {i j : Nat} {k : PublicKey} {f : FinalizerAuthority} {a a' : AggregatingQcSig}

theorem indexOf_key (h : p.indexOf k = some i) : ∃ f, p.finalizers[i]? = some f ∧ f.publicKey = k := by
  obtain ⟨hlt, hk, -⟩ := List.findIdx?_eq_some_iff_getElem.1 h
  exact ⟨_, List.getElem?_eq_getElem hlt, by simpa using hk⟩

theorem key_unique (hp : p.Wf) {g : FinalizerAuthority}
    (hi : p.finalizers[i]? = some f) (hj : p.finalizers[j]? = some g) (hk : f.publicKey = g.publicKey) : i = j := by
  have hil := (List.getElem?_eq_some_iff.1 hi).1
  refine (List.getElem?_inj (by simpa using hil) hp.keys).1 ?_
  rw [List.getElem?_map, List.getElem?_map, hi, hj]
  exact congrArg some hk

theorem indexOf_none (h : p.indexOf k = none) (hi : p.finalizers[i]? = some f) : f.publicKey ≠ k := by
  have := List.findIdx?_eq_none_iff.1 h f (List.mem_of_getElem? hi)
  simpa using this

theorem indexOf_eq_iff (hp : p.Wf) (h : p.indexOf k = some i) (hj : p.finalizers[j]? = some f) :
    j = i ↔ f.publicKey = k := by
  obtain ⟨g, hg, hgk⟩ := indexOf_key h
  constructor
  · rintro rfl
    rw [hg] at hj
    cases hj
    exact hgk
  · exact fun hk => key_unique hp hj hg (hk.trans hgk.symm)

/-! ## One vote -/

structure Recorded (a a' : AggregatingQcSig) (strong : Bool) (i : Nat) : Prop where
  fresh : a.strongBit i = false ∧ a.weakBit i = false
  strongBit : ∀ j, a'.strongBit j = (a.strongBit j || (strong && j == i))
  weakBit : ∀ j, a'.weakBit j = (a.weakBit j || (!strong && j == i))

theorem addVoteTo_cases {vote : VoteMessage} {verified : Bool} (hp : p.Wf)
    (h : a.SigInv p) {s : VoteResultT} {auth : Option FinalizerAuthority}
    (he : addVoteTo vote verified p a = (s, auth, a')) : a'.SigInv p ∧
    ((a' = a ∧ s = .unknownPublicKey ∧ p.indexOf vote.finalizerKey = none) ∨
    (a' = a ∧ s ≠ .success ∧ s ≠ .unknownPublicKey ∧ ∃ i, p.indexOf vote.finalizerKey = some i ∧
      (verified = false ∨ a.strongBit i = true ∨ a.weakBit i = true)) ∨
    (s = .success ∧ verified = true ∧ ∃ i, p.indexOf vote.finalizerKey = some i ∧ Recorded a a' vote.strong i)) := by
  unfold addVoteTo at he
  cases hi : p.indexOf vote.finalizerKey with
  | none =>
    rw [hi] at he
    simp only [Prod.mk.injEq] at he
    obtain ⟨rfl, -, rfl⟩ := he
    exact ⟨h, .inl ⟨rfl, rfl, rfl⟩⟩
  | some i =>
    rw [hi] at he
    simp only at he
    have hv : a.hasVoted i = (a.strongBit i || a.weakBit i) := by
      rw [hasVoted, VotesT.hasVoted, VotesT.hasVoted, h.processed.1, h.processed.2]; rfl
    rw [hv] at he
    cases hb : (a.strongBit i || a.weakBit i) with
    | true =>
      rw [hb] at he
      simp only [if_true, Prod.mk.injEq] at he
      obtain ⟨rfl, -, rfl⟩ := he
      exact ⟨h, .inr (.inl ⟨rfl, by simp, by simp, i, rfl, .inr (by simpa using hb)⟩)⟩
    | false =>
      rw [hb] at he
      cases verified with
      | false =>
        simp only [Bool.false_eq_true, if_false, Bool.not_false, if_true, Prod.mk.injEq] at he
        obtain ⟨rfl, -, rfl⟩ := he
        exact ⟨h, .inr (.inl ⟨rfl, by simp, by simp, i, rfl, .inl rfl⟩)⟩
      | true =>
        obtain ⟨f, hf, -⟩ := indexOf_key hi
        have hb' : a.strongBit i = false ∧ a.weakBit i = false := by simpa using hb
        have hfr : Fresh a p i f.weight := ⟨by simp [FinalizerPolicy.weights, hf], hb'.1, hb'.2⟩
        have hdup : a.checkDuplicate i = .success := by
          rw [checkDuplicate, show a.strongVotes.bitset.getD i false = false from hb'.1,
            show a.weakVotes.bitset.getD i false = false from hb'.2]
          rfl
        simp only [Bool.false_eq_true, if_false, Bool.not_true, addVote, hdup, hf, map_some,
          getD_some, Prod.mk.injEq] at he
        obtain ⟨rfl, -, rfl⟩ := he
        obtain ⟨h1, h2⟩ := record_bits vote.sig vote.strong _ (h.strongLen ▸ hfr.lt) (h.weakLen ▸ hfr.lt)
        refine ⟨sigInv_record vote.sig vote.strong hp h hfr, .inr (.inr ⟨rfl, rfl, i, rfl, hb', ?_, ?_⟩)⟩
        · exact congrFun h1
        · exact congrFun h2

theorem addVoteTo_other {vote : VoteMessage} {verified : Bool} (hp : p.Wf) (h : a.SigInv p) {s : VoteResultT}
    {auth : Option FinalizerAuthority} (he : addVoteTo vote verified p a = (s, auth, a'))
    (hf : p.finalizers[i]? = some f) (hne : f.publicKey ≠ vote.finalizerKey) :
    a'.strongBit i = a.strongBit i ∧ a'.weakBit i = a.weakBit i := by
  obtain ⟨-, ⟨rfl, -⟩ | ⟨rfl, -⟩ | ⟨-, -, k, hk, hrec⟩⟩ := addVoteTo_cases hp h he
  · exact ⟨rfl, rfl⟩
  · exact ⟨rfl, rfl⟩
  · have hb := beq_false_of_ne fun h => hne ((indexOf_eq_iff hp hk hf).1 h)
    simp [hrec.strongBit, hrec.weakBit, hb]

/-! ## The invariant of both aggregations -/

def DualRecorded (active pending : FinalizerPolicy) (a p : AggregatingQcSig) : Prop :=
  ∀ i j, Dual active pending i j → a.strongBit i = p.strongBit j ∧ a.weakBit i = p.weakBit j

structure AggInv (active : FinalizerPolicy) (pending : Option FinalizerPolicy) (q : AggregatingQc) : Prop where
  activePolicy : q.activeFinalizerPolicy = active
  pendingPolicy : q.pendingFinalizerPolicy = pending
  activeSig : q.activePolicySig.SigInv active
  pendingNone : pending = none → q.pendingPolicySig = none
  pendingSig : ∀ p, pending = some p → ∃ ps, q.pendingPolicySig = some ps ∧ ps.SigInv p ∧
    DualRecorded active p q.activePolicySig ps

section Steps

variable {active : FinalizerPolicy} {pending : Option FinalizerPolicy} {q : AggregatingQc}

theorem new_bits (r : FinalizerPolicy) (k : Nat) : (new r).strongBit k = false ∧ (new r).weakBit k = false := by
  simp only [strongBit, weakBit, new, VotesT.new, List.getD_eq_getElem?_getD, List.getElem?_replicate]
  split <;> exact ⟨rfl, rfl⟩

theorem aggInv_new : AggInv active pending (.new active pending) where
  activePolicy := rfl
  pendingPolicy := rfl
  activeSig := sigInv_new active
  pendingNone := fun h => by rw [h]; rfl
  pendingSig := by
    rintro p rfl
    refine ⟨.new p, rfl, sigInv_new p, fun i j _ => ?_⟩
    exact ⟨(new_bits active i).1.trans (new_bits p j).1.symm, (new_bits active i).2.trans (new_bits p j).2.symm⟩

theorem dualRecorded_vote {p : FinalizerPolicy} (ha : active.Wf) (hp : p.Wf) {a a' ps ps' : AggregatingQcSig}
    (hd : DualRecorded active p a ps) (hai : a.SigInv active) (hpi : ps.SigInv p) {vote : VoteMessage} {verified : Bool}
    {s t : VoteResultT} {x y : Option FinalizerAuthority} (h1 : addVoteTo vote verified active a = (s, x, a'))
    (hgo : s = .success ∨ s = .unknownPublicKey) (h2 : addVoteTo vote verified p ps = (t, y, ps')) :
    DualRecorded active p a' ps' := by
  intro i j hij
  obtain ⟨f, hf, hj⟩ := hij
  have hold := hd i j ⟨f, hf, hj⟩
  obtain ⟨g, hg, hgk⟩ := indexOf_key hj
  by_cases hkey : f.publicKey = vote.finalizerKey
  · -- this finalizer's vote: it has not voted in either, so both record it
    rw [hkey] at hj
    rcases (addVoteTo_cases ha hai h1).2 with ⟨-, -, hno⟩ | ⟨-, h3, h4, -⟩ | ⟨-, hver, k, hk, hrec⟩
    · exact absurd hkey (indexOf_none hno hf)
    · rcases hgo with hgo | hgo
      · exact absurd hgo h3
      · exact absurd hgo h4
    obtain rfl := (indexOf_eq_iff ha hk hf).2 hkey
    rcases (addVoteTo_cases hp hpi h2).2 with ⟨-, -, hn⟩ | ⟨-, -, -, l, hl, hbi⟩ | ⟨-, -, l, hl, hrec'⟩
    · rw [hj] at hn; cases hn
    · rw [hj] at hl
      cases hl
      rcases hbi with hb | hb | hb
      · rw [hver] at hb; cases hb
      · rw [← hold.1, hrec.fresh.1] at hb; cases hb
      · rw [← hold.2, hrec.fresh.2] at hb; cases hb
    · rw [hj] at hl
      cases hl
      rw [hrec.strongBit, hrec.weakBit, hrec'.strongBit, hrec'.weakBit, hold.1, hold.2]
      simp
  · have hof := addVoteTo_other ha hai h1 hf hkey
    have hof' := addVoteTo_other hp hpi h2 hg (hgk ▸ hkey)
    rw [hof.1, hof.2, hof'.1, hof'.2]
    exact hold

theorem aggInv_vote (ha : active.Wf) (hp : ∀ p, pending = some p → p.Wf) (h : AggInv active pending q)
    (vote : VoteMessage) (verified : Bool) : AggInv active pending (q.aggregateVote vote verified).2 := by
  unfold AggregatingQc.aggregateVote
  rw [h.activePolicy]
  cases h1 : addVoteTo vote verified active q.activePolicySig with
  | mk s rest =>
    obtain ⟨auth, a'⟩ := rest
    obtain ⟨hinv, hcas⟩ := addVoteTo_cases ha h.activeSig h1
    simp only
    by_cases hgo : s ≠ .success ∧ s ≠ .unknownPublicKey
    · -- the active aggregation refused the vote and is unchanged
      rw [if_pos hgo]
      obtain rfl : a' = q.activePolicySig := by
        rcases hcas with ⟨h1, -⟩ | ⟨h1, -⟩ | ⟨h1, -⟩
        · exact h1
        · exact h1
        · exact absurd h1 hgo.1
      exact ⟨rfl, h.pendingPolicy, h.activeSig, h.pendingNone, h.pendingSig⟩
    · rw [if_neg hgo]
      have hgo' : s = .success ∨ s = .unknownPublicKey := by
        by_cases hs : s = .success
        · exact .inl hs
        · exact .inr (by simpa [hs] using hgo)
      cases hpe : pending with
      | none =>
        have hps := h.pendingNone hpe
        have hpp : q.pendingFinalizerPolicy = none := by rw [h.pendingPolicy, hpe]
        simp only [hps, hpp]
        exact ⟨rfl, rfl, hinv, fun _ => rfl, fun p hp' => by cases hp'⟩
      | some p =>
        obtain ⟨ps, hps, hpi, hd⟩ := h.pendingSig p hpe
        have hpp : q.pendingFinalizerPolicy = some p := by rw [h.pendingPolicy, hpe]
        simp only [hps, hpp]
        cases h2 : addVoteTo vote verified p ps with
        | mk t rest =>
          obtain ⟨pauth, ps'⟩ := rest
          have hpw := hp p hpe
          refine ⟨rfl, rfl, hinv, (fun hn => by cases hn), ?_⟩
          intro p' hp'
          cases hp'
          exact ⟨ps', rfl, (addVoteTo_cases hpw hpi h2).1,
            dualRecorded_vote ha hpw hd h.activeSig hpi h1 hgo' h2⟩

/-! ## Where the votes and the certificates come from -/

def VoteOf (events : List AggEvent) (key : PublicKey) (strong : Bool) : Prop :=
  ∃ vote, AggEvent.vote vote true ∈ events ∧ vote.finalizerKey = key ∧ vote.strong = strong

/-- The bits of a finalizer in an aggregation are those of its votes. -/
def BitsOf (events : List AggEvent) (a : AggregatingQcSig) (i : Nat) (key : PublicKey) : Prop :=
  (a.strongBit i = true → VoteOf events key true) ∧ (a.weakBit i = true → VoteOf events key false) ∧
    ∀ strong, VoteOf events key strong → a.strongBit i = true ∨ a.weakBit i = true

structure Traced (active : FinalizerPolicy) (pending : Option FinalizerPolicy) (events : List AggEvent) (q : AggregatingQc) :
    Prop where
  voted : ∀ i f, active.finalizers[i]? = some f → BitsOf events q.activePolicySig i f.publicKey
  activeReceived : ∀ r, q.activePolicySig.receivedQcSig = some r → ∃ qc, AggEvent.received qc ∈ events ∧ qc.activePolicySig = r
  pendingReceived : ∀ p ps r, pending = some p → q.pendingPolicySig = some ps → ps.receivedQcSig = some r →
    ∃ qc, AggEvent.received qc ∈ events ∧ DualOk active p qc.activePolicySig r

theorem exists_mem_cons {β : Type} {c : β → AggEvent} {P : β → Prop} {events : List AggEvent} {e : AggEvent}
    (h : ∃ x, c x ∈ events ∧ P x) : ∃ x, c x ∈ e :: events ∧ P x :=
  h.imp fun _ hx => ⟨List.mem_cons_of_mem _ hx.1, hx.2⟩

theorem voteOf_cons {events : List AggEvent} {vote : VoteMessage} {verified strong : Bool}
    (h : VoteOf (.vote vote verified :: events) k strong) :
    (verified = true ∧ vote.finalizerKey = k ∧ vote.strong = strong) ∨ VoteOf events k strong := by
  obtain ⟨v, hv, hk⟩ := h
  rcases List.mem_cons.1 hv with heq | hv
  · cases heq
    exact .inl ⟨rfl, hk⟩
  · exact .inr ⟨v, hv, hk⟩

theorem addVoteTo_received (vote : VoteMessage) (verified : Bool) (p : FinalizerPolicy) (a : AggregatingQcSig) :
    (addVoteTo vote verified p a).2.2.receivedQcSig = a.receivedQcSig := by
  unfold addVoteTo addVote
  split
  · rfl
  dsimp only
  split
  · rfl
  split
  · rfl
  split
  · cases vote.strong <;> rfl
  · rfl

/-- The votes of `active` after a vote, whether it was recorded or refused. -/
theorem voteOf_vote (ha : active.Wf) {a a' : AggregatingQcSig} (hinv : a.SigInv active) {events : List AggEvent} {vote : VoteMessage}
    {verified : Bool} {s : VoteResultT} {auth : Option FinalizerAuthority} (he : addVoteTo vote verified active a = (s, auth, a'))
    (hf : active.finalizers[i]? = some f) (h : BitsOf events a i f.publicKey) :
    BitsOf (.vote vote verified :: events) a' i f.publicKey := by
  obtain ⟨hs, hw, hall⟩ := h
  unfold BitsOf
  by_cases hkey : f.publicKey = vote.finalizerKey
  · rcases (addVoteTo_cases ha hinv he).2 with ⟨-, -, hno⟩ | ⟨rfl, -, -, k, hk, hbits⟩ | ⟨-, hver, k, hk, hrec⟩
    · exact absurd hkey (indexOf_none hno hf)
    · obtain rfl := (indexOf_eq_iff ha hk hf).2 hkey
      refine ⟨fun h => exists_mem_cons (hs h), fun h => exists_mem_cons (hw h), fun strong hv => ?_⟩
      rcases hbits with hver | hbits
      · rcases voteOf_cons hv with ⟨hver', -⟩ | hv
        · exact absurd (hver.symm.trans hver') Bool.false_ne_true
        · exact hall strong hv
      · exact hbits
    · obtain rfl := (indexOf_eq_iff ha hk hf).2 hkey
      have hnew : VoteOf (.vote vote verified :: events) f.publicKey vote.strong :=
        ⟨vote, hver ▸ List.mem_cons_self, hkey.symm, rfl⟩
      rw [hrec.strongBit, hrec.weakBit, hrec.fresh.1, hrec.fresh.2]
      cases hst : vote.strong <;> rw [hst] at hnew <;> simp [hnew]
  · obtain ⟨hs', hw'⟩ := addVoteTo_other ha hinv he hf hkey
    rw [hs', hw']
    refine ⟨fun h => exists_mem_cons (hs h), fun h => exists_mem_cons (hw h), fun strong hv => ?_⟩
    rcases voteOf_cons hv with ⟨-, hk, -⟩ | hv
    · exact absurd hk.symm hkey
    · exact hall strong hv

theorem traced_new : Traced active pending [] (.new active pending) where
  voted i f _ := by
    have hz : (new active).strongBit i = false ∧ (new active).weakBit i = false := new_bits active i
    refine ⟨fun h => ?_, fun h => ?_, fun _ ⟨_, hv, _⟩ => absurd hv List.not_mem_nil⟩
    · exact absurd (hz.1.symm.trans h) Bool.false_ne_true
    · exact absurd (hz.2.symm.trans h) Bool.false_ne_true
  activeReceived := fun _ h => by cases h
  pendingReceived := by
    rintro p ps r rfl hps hr
    cases hps
    cases hr

theorem traced_vote (ha : active.Wf) (hi : AggInv active pending q) {events : List AggEvent} (h : Traced active pending events q)
    (vote : VoteMessage) (verified : Bool) :
    Traced active pending (.vote vote verified :: events) (q.aggregateVote vote verified).2 := by
  have hact : (q.aggregateVote vote verified).2.activePolicySig = (addVoteTo vote verified active q.activePolicySig).2.2 := by
    unfold AggregatingQc.aggregateVote
    rw [hi.activePolicy]
    dsimp only
    split
    · rfl
    · split <;> rfl
  have hpend : ∀ ps', (q.aggregateVote vote verified).2.pendingPolicySig = some ps' →
      ∃ ps, q.pendingPolicySig = some ps ∧ ps'.receivedQcSig = ps.receivedQcSig := by
    intro ps'
    unfold AggregatingQc.aggregateVote
    dsimp only
    split
    · exact fun h => ⟨ps', h, rfl⟩
    · split
      · rename_i p ps hp hps
        rintro ⟨⟩
        exact ⟨ps, hps, addVoteTo_received ..⟩
      · exact fun h => ⟨ps', h, rfl⟩
  refine ⟨fun i f hf => ?_, fun r hr => ?_, fun p ps' r hp hps' hr => ?_⟩
  · rw [hact]
    exact voteOf_vote ha hi.activeSig rfl hf (h.voted i f hf)
  · rw [hact, addVoteTo_received] at hr
    exact exists_mem_cons (h.activeReceived r hr)
  · obtain ⟨ps, hps, heq⟩ := hpend ps' hps'
    exact exists_mem_cons (h.pendingReceived p ps r hp hps (heq ▸ hr))

theorem setReceivedQcSig_received {a : AggregatingQcSig} {qc r : QcSig} (h : (a.setReceivedQcSig qc).2.receivedQcSig = some r) :
    r = qc ∨ a.receivedQcSig = some r := by
  unfold setReceivedQcSig at h
  split at h
  · cases h
    exact .inl rfl
  · exact .inr h

theorem setReceivedQcSig_bits (a : AggregatingQcSig) (qc : QcSig) :
    (a.setReceivedQcSig qc).2.strongBit = a.strongBit ∧ (a.setReceivedQcSig qc).2.weakBit = a.weakBit := by
  unfold setReceivedQcSig
  split <;> exact ⟨rfl, rfl⟩

theorem aggInv_received (h : AggInv active pending q) {q' : AggregatingQc} {better : Bool} {qc : Qc}
    (verified : qc.verifyBasic q.policies = .ok ()) (set : q.setReceivedQc qc = .ok (better, q')) :
    AggInv active pending q' := by
  obtain ⟨hf, hq, hpe⟩ := Qc.verifyBasic_ok_iff.1 verified
  simp only [AggregatingQc.policies, h.activePolicy, h.pendingPolicy] at hf hq hpe
  unfold AggregatingQc.setReceivedQc at set
  rw [unit_bind_ok_iff] at set
  obtain ⟨-, set⟩ := set
  have hact := sigInv_setReceivedQcSig h.activeSig hf hq
  have hb := setReceivedQcSig_bits q.activePolicySig qc.activePolicySig
  cases hpn : pending with
  | none =>
    have hps := h.pendingNone hpn
    simp only [hps] at set
    cases set
    exact ⟨h.activePolicy, by rw [h.pendingPolicy, hpn], hact, fun _ => rfl, fun p hp => by cases hp⟩
  | some p =>
    obtain ⟨ps, hps, hpi, hd⟩ := h.pendingSig p hpn
    rw [hpn] at hpe
    cases hqp : qc.pendingPolicySig with
    | none => rw [hqp] at hpe; exact absurd hpe id
    | some qp =>
      rw [hqp] at hpe
      simp only [hps, hqp] at set
      cases set
      refine ⟨h.activePolicy, by rw [h.pendingPolicy, hpn], hact, (fun hn => by cases hn), ?_⟩
      intro p' hp'
      cases hp'
      have hpb := setReceivedQcSig_bits ps qp
      refine ⟨_, rfl, sigInv_setReceivedQcSig hpi hpe.2.1 hpe.2.2, fun i j hij => ?_⟩
      simp only [hb.1, hb.2, hpb.1, hpb.2]
      exact hd i j hij

theorem traced_received (hi : AggInv active pending q) {events : List AggEvent} (h : Traced active pending events q)
    {q' : AggregatingQc} {better : Bool} {qc : Qc} (verified : qc.verifyBasic q.policies = .ok ())
    (set : q.setReceivedQc qc = .ok (better, q')) : Traced active pending (.received qc :: events) q' := by
  obtain ⟨-, -, hpe⟩ := Qc.verifyBasic_ok_iff.1 verified
  simp only [AggregatingQc.policies, hi.activePolicy, hi.pendingPolicy] at hpe
  have hvo : ∀ {k strong}, VoteOf (.received qc :: events) k strong ↔ VoteOf events k strong := by simp [VoteOf]
  have hb := setReceivedQcSig_bits q.activePolicySig qc.activePolicySig
  have hact : ∀ r, (q.activePolicySig.setReceivedQcSig qc.activePolicySig).2.receivedQcSig = some r →
      ∃ qc', AggEvent.received qc' ∈ AggEvent.received qc :: events ∧ qc'.activePolicySig = r := by
    intro r hr
    rcases setReceivedQcSig_received hr with rfl | hr
    · exact ⟨qc, List.mem_cons_self, rfl⟩
    · exact exists_mem_cons (h.activeReceived r hr)
  unfold AggregatingQc.setReceivedQc at set
  rw [unit_bind_ok_iff] at set
  obtain ⟨-, set⟩ := set
  have hvoted : ∀ i f, active.finalizers[i]? = some f → BitsOf (.received qc :: events)
      (q.activePolicySig.setReceivedQcSig qc.activePolicySig).2 i f.publicKey := by
    simp only [BitsOf, hb.1, hb.2, hvo]
    exact h.voted
  cases hps : q.pendingPolicySig with
  | none =>
    simp only [hps] at set
    cases set
    exact ⟨hvoted, hact, fun p ps r _ hps' => by cases hps'⟩
  | some ps =>
    cases hqp : qc.pendingPolicySig with
    | none =>
      simp only [hps, hqp] at set
      cases set
      exact ⟨hvoted, hact, fun p ps' r hp hps' hr => exists_mem_cons (h.pendingReceived p ps' r hp (hps.trans hps') hr)⟩
    | some qp =>
      simp only [hps, hqp] at set
      cases set
      refine ⟨hvoted, hact, ?_⟩
      rintro p _ r hp ⟨⟩ hr
      rw [hp, hqp] at hpe
      rcases setReceivedQcSig_received hr with rfl | hr
      · exact ⟨qc, List.mem_cons_self, hpe.1⟩
      · exact exists_mem_cons (h.pendingReceived p ps r hp hps hr)

end Steps

/-! ## The best certificate -/

/-- Where a policy's part of the best certificate is taken from. -/
inductive Source
  | votes
  | received (sig : QcSig)

def AggregatingQcSig.source (a : AggregatingQcSig) : Option Source :=
  match a.receivedQcSig with
  | none => if a.isQuorumMet then some .votes else none
  | some r => if a.aggregatingState = .strong ∧ r.isStrong = false then some .votes else some (.received r)

/-- **The finalizers of both policies are counted alike in the parts that are chosen.** From the votes on both sides:
both aggregations are strong or neither is, or no finalizer of both policies has voted weak. Otherwise: the received
part and what it is combined with count each of them alike. -/
def DualsAgree (active pending : FinalizerPolicy) (a p : AggregatingQcSig) : Prop :=
  match a.source, p.source with
  | some .votes, some .votes =>
    (a.aggregatingState = .strong ↔ p.aggregatingState = .strong) ∨ ∀ i j, Dual active pending i j → a.weakBit i = false
  | some (.received r), some (.received s) =>
    ∀ i j, Dual active pending i j → r.strongAt i = s.strongAt j ∧ r.weakAt i = s.weakAt j
  | some .votes, some (.received s) =>
    ∀ i j, Dual active pending i j → a.strongBit i = s.strongAt j ∧
      (decide (a.aggregatingState ≠ .strong) && a.weakBit i) = s.weakAt j
  | some (.received r), some .votes =>
    ∀ i j, Dual active pending i j → r.strongAt i = p.strongBit j ∧
      r.weakAt i = (decide (p.aggregatingState ≠ .strong) && p.weakBit j)
  | _, _ => True

/-- **Votes and received certificates that cannot disagree**: no finalizer of both policies votes weak, and a received certificate
counts, of these, exactly those that have voted, as strong. -/
def Uniform (active pending : FinalizerPolicy) (events : List AggEvent) : Prop :=
  ∀ i j f, Dual active pending i j → active.finalizers[i]? = some f → ¬ VoteOf events f.publicKey false ∧
    ∀ qc, AggEvent.received qc ∈ events → qc.activePolicySig.weakAt i = false ∧
      (qc.activePolicySig.strongAt i = true ↔ VoteOf events f.publicKey true)

section Best

variable {a : AggregatingQcSig} {p : FinalizerPolicy}

theorem extract_at (hm : a.isQuorumMet = true) (i : Nat) : a.extractQcSigFromAggregating.strongAt i = a.strongBit i ∧
      a.extractQcSigFromAggregating.weakAt i = (decide (a.aggregatingState ≠ .strong) && a.weakBit i) := by
  unfold extractQcSigFromAggregating
  by_cases hs : a.aggregatingState = .strong
  · rw [if_pos hs]
    simp [strongAt, weakAt, strongBit, hs]
  · rw [if_neg hs, if_pos hm]
    simp [strongAt, weakAt, strongBit, weakBit, hs]

theorem extract_ok (hp : p.Wf) (h : a.SigInv p) (hm : a.isQuorumMet = true) :
    a.extractQcSigFromAggregating.FormatOk p ∧ a.extractQcSigFromAggregating.QuorumOk p := by
  have hsum := h.sums_le
  have htot := hp.total
  have hsw : (votedWeight a.strongVotes.bitset p.finalizers).toNat = weightWhere a.strongBit p.weights :=
    votedWeight_toNat _ _ hp.total
  have hww : (votedWeight a.weakVotes.bitset p.finalizers).toNat = weightWhere a.weakBit p.weights :=
    votedWeight_toNat _ _ hp.total
  unfold extractQcSigFromAggregating
  by_cases hs : a.aggregatingState = .strong
  · rw [if_pos hs]
    refine ⟨⟨rfl, ?_, ?_, ?_⟩, ?_⟩
    · rintro b hb; cases hb; exact h.strongLen
    · rintro b hb; cases hb
    · simp [weakAt]
    · have := h.strong hs
      simp only [QcSig.QuorumOk, isStrong, strongWeight, isSome_none, Bool.not_false, if_true,
        getD_some, UInt64.le_iff_toNat_le, hsw]
      exact this
  · rw [if_neg hs, if_pos hm]
    refine ⟨⟨rfl, ?_, ?_, h.exclusive⟩, ?_⟩
    · rintro b hb; cases hb; exact h.strongLen
    · rintro b hb; cases hb; exact h.weakLen
    · have := h.met hm
      simp only [QcSig.QuorumOk, isStrong, strongWeight, weakWeight, isSome_some,
        Bool.not_true, Bool.false_eq_true, if_false, getD_some, UInt64.le_iff_toNat_le, UInt64.toNat_add, hsw, hww]
      rw [Nat.mod_eq_of_lt (by omega)]
      exact this

theorem met_of_strong (hs : a.aggregatingState = .strong) : a.isQuorumMet = true := by
  simp [isQuorumMet, AggregatingState.isQuorumMet, hs]

theorem getBestQc_source : a.getBestQc = a.source.map (fun s => match s with
    | .votes => a.extractQcSigFromAggregating
    | .received r => r) := by
  unfold getBestQc source
  cases hm : a.isQuorumMet with
  | false =>
    have hs : a.aggregatingState ≠ .strong := fun h => by rw [met_of_strong h] at hm; cases hm
    cases a.receivedQcSig <;> simp [hs]
  | true =>
    have hw : a.extractQcSigFromAggregating.isWeak = decide (a.aggregatingState ≠ .strong) := by
      unfold extractQcSigFromAggregating
      by_cases hs : a.aggregatingState = .strong <;> simp [hs, hm, isWeak]
    cases hr : a.receivedQcSig with
    | none => simp
    | some r =>
      simp only [Bool.not_true, Bool.false_eq_true, if_false, hw]
      by_cases hs : a.aggregatingState = .strong <;> cases hrs : r.isStrong <;> simp [hs]

theorem source_votes_met (h : a.source = some .votes) : a.isQuorumMet = true := by
  unfold source at h
  split at h
  · split at h
    · assumption
    · cases h
  · split at h
    · rename_i hc; exact met_of_strong hc.1
    · cases h

theorem source_received {r : QcSig} (h : a.source = some (.received r)) : a.receivedQcSig = some r := by
  unfold source at h
  split at h
  · split at h <;> cases h
  · split at h
    · cases h
    · cases h; assumption

theorem best_ok (hp : p.Wf) (h : a.SigInv p) {sig : QcSig} (hb : a.getBestQc = some sig) :
    sig.FormatOk p ∧ sig.QuorumOk p := by
  rw [getBestQc_source, map_eq_some_iff] at hb
  obtain ⟨src, hs, hsig⟩ := hb
  cases src with
  | votes =>
    rw [← hsig]
    exact extract_ok hp h (source_votes_met hs)
  | received r =>
    rw [← hsig]
    exact h.received r (source_received hs)

theorem dualOk_best_iff {active pending : FinalizerPolicy} {a b : AggregatingQcSig}
    (hd : DualRecorded active pending a b) {x y : QcSig} (hx : a.getBestQc = some x) (hy : b.getBestQc = some y) :
    DualOk active pending x y ↔ DualsAgree active pending a b := by
  rw [getBestQc_source, map_eq_some_iff] at hx hy
  obtain ⟨s, hs, rfl⟩ := hx
  obtain ⟨t, ht, rfl⟩ := hy
  rw [dualOk_iff]
  unfold DualsAgree
  rw [hs, ht]
  cases s with
  | votes =>
    have hea := extract_at (source_votes_met hs)
    cases t with
    | votes =>
      have heb := extract_at (source_votes_met ht)
      simp only [hea, heb]
      -- the recorded votes agree, so the parts differ exactly where one side dropped a weak vote
      constructor
      · intro hall
        by_cases hsa : a.aggregatingState = .strong ↔ b.aggregatingState = .strong
        · exact .inl hsa
        · refine .inr (fun i j hij => ?_)
          have h1 := (hall i j hij).2
          rw [← (hd i j hij).2] at h1
          cases hw : a.weakBit i with
          | false => rfl
          | true =>
            rw [hw, Bool.and_true, Bool.and_true, decide_eq_decide] at h1
            exact absurd (not_iff_not.1 h1) hsa
      · intro hor i j hij
        refine ⟨(hd i j hij).1, ?_⟩
        rw [← (hd i j hij).2]
        rcases hor with hsa | hno
        · rw [show decide (a.aggregatingState ≠ .strong) = decide (b.aggregatingState ≠ .strong) from
            decide_eq_decide.2 (not_congr hsa)]
        · rw [hno i j hij, Bool.and_false, Bool.and_false]
    | received r => simp only [hea]
  | received r =>
    cases t with
    | votes => simp only [extract_at (source_votes_met ht)]
    | received r' => exact Iff.rfl

end Best

theorem accepted_iff_dualsAgree {active : FinalizerPolicy} {pending : Option FinalizerPolicy} {q : AggregatingQc}
    (ha : active.Wf) (hp : ∀ p, pending = some p → p.Wf) (hi : AggInv active pending q) :
    (∀ blockNum qc, q.getBestQc blockNum = some qc → qc.verifyBasic q.policies = .ok ()) ↔
      ∀ p ps, pending = some p → q.pendingPolicySig = some ps → DualsAgree active p q.activePolicySig ps := by
  have hpo : q.policies = ⟨0, active, pending⟩ := by rw [AggregatingQc.policies, hi.activePolicy, hi.pendingPolicy]
  rw [hpo]
  constructor
  · intro hall p ps hpe hps
    obtain ⟨ps', hps', hpi, hd⟩ := hi.pendingSig p hpe
    rw [hps] at hps'
    cases hps'
    cases hx : q.activePolicySig.getBestQc with
    | none =>
      rw [getBestQc_source, map_eq_none_iff] at hx
      simp [DualsAgree, hx]
    | some x =>
      cases hy : ps.getBestQc with
      | none =>
        rw [getBestQc_source, map_eq_none_iff] at hy
        cases hs : q.activePolicySig.source with
        | none => simp [DualsAgree, hs]
        | some src => cases src <;> simp [DualsAgree, hs, hy]
      | some y =>
        have hacc := hall 0 ⟨0, x, some y⟩ (by simp [AggregatingQc.getBestQc, hx, hps, hy])
        rw [Qc.verifyBasic_ok_iff, hpe] at hacc
        exact (dualOk_best_iff hd hx hy).1 hacc.2.2.1
  · intro hag blockNum qc hb
    rw [Qc.verifyBasic_ok_iff]
    unfold AggregatingQc.getBestQc at hb
    split at hb
    · cases hb
    rename_i x hx
    obtain ⟨hf, hq⟩ := best_ok ha hi.activeSig hx
    cases hpe : pending with
    | none =>
      rw [hi.pendingNone hpe] at hb
      cases hb
      exact ⟨hf, hq, trivial⟩
    | some p =>
      obtain ⟨ps, hps, hpi, hd⟩ := hi.pendingSig p hpe
      rw [hps] at hb
      cases hy : ps.getBestQc with
      | none => simp only [hy] at hb; cases hb
      | some y =>
        simp only [hy] at hb
        cases hb
        obtain ⟨hpf, hpq⟩ := best_ok (hp p hpe) hpi hy
        exact ⟨hf, hq, (dualOk_best_iff hd hx hy).2 (hag p ps hpe hps), hpf, hpq⟩

/-- Whichever parts are chosen, they count the finalizers of both policies as the votes do. -/
theorem dualsAgree_of_uniform {active pending : FinalizerPolicy} {events : List AggEvent} {q : AggregatingQc} {ps : AggregatingQcSig}
    (ht : Traced active (some pending) events q) (hps : q.pendingPolicySig = some ps)
    (hd : DualRecorded active pending q.activePolicySig ps) (hu : Uniform active pending events) :
    DualsAgree active pending q.activePolicySig ps := by
  have hrec : ∀ i j, Dual active pending i j → q.activePolicySig.weakBit i = false ∧
      ∀ qc, AggEvent.received qc ∈ events → qc.activePolicySig.weakAt i = false ∧
        qc.activePolicySig.strongAt i = q.activePolicySig.strongBit i := by
    intro i j hij
    obtain ⟨f, hf, -⟩ := id hij
    obtain ⟨hs, hw, hall⟩ := ht.voted i f hf
    obtain ⟨hno, hqc⟩ := hu i j f hij hf
    have hweak : q.activePolicySig.weakBit i = false := Bool.eq_false_iff.2 fun h => hno (hw h)
    have hiff : VoteOf events f.publicKey true ↔ q.activePolicySig.strongBit i = true :=
      ⟨fun hv => (hall true hv).resolve_right (by simp [hweak]), hs⟩
    exact ⟨hweak, fun qc hmem => ⟨(hqc qc hmem).1, Bool.eq_iff_iff.2 ((hqc qc hmem).2.trans hiff)⟩⟩
  have hra : ∀ r, q.activePolicySig.source = some (.received r) → ∀ i j, Dual active pending i j →
      r.weakAt i = false ∧ r.strongAt i = q.activePolicySig.strongBit i := by
    intro r hr i j hij
    obtain ⟨qc, hmem, rfl⟩ := ht.activeReceived r (source_received hr)
    exact (hrec i j hij).2 qc hmem
  have hrp : ∀ r, ps.source = some (.received r) → ∀ i j, Dual active pending i j →
      r.weakAt j = false ∧ r.strongAt j = q.activePolicySig.strongBit i := by
    intro r hr i j hij
    obtain ⟨qc, hmem, hdual⟩ := ht.pendingReceived pending ps r rfl hps (source_received hr)
    obtain ⟨h1, h2⟩ := dualOk_iff.1 hdual i j hij
    rw [← h1, ← h2]
    exact (hrec i j hij).2 qc hmem
  have hw : ∀ i j, Dual active pending i j → q.activePolicySig.weakBit i = false := fun i j hij => (hrec i j hij).1
  unfold DualsAgree
  split
  · exact .inr hw
  · rename_i r t hr ht
    intro i j hij
    rw [(hra r hr i j hij).1, (hra r hr i j hij).2, (hrp t ht i j hij).1, (hrp t ht i j hij).2]
    exact ⟨rfl, rfl⟩
  · rename_i t hr ht
    intro i j hij
    rw [(hrp t ht i j hij).1, (hrp t ht i j hij).2, hw i j hij, Bool.and_false]
    exact ⟨rfl, rfl⟩
  · rename_i r hr ht
    intro i j hij
    rw [(hra r hr i j hij).1, (hra r hr i j hij).2, ← (hd i j hij).1, ← (hd i j hij).2, hw i j hij, Bool.and_false]
    exact ⟨rfl, rfl⟩
  · trivial

/-- **When the best certificate is accepted**, after every sequence of votes and verified received certificates: exactly when the
finalizers of both policies are counted alike in the two chosen parts, or there is no pending policy. In particular if the
policies have no finalizer in common, and if the votes and the received certificates are `Uniform`. -/
theorem getBestQc_accepted (active : FinalizerPolicy) (pending : Option FinalizerPolicy) (events : List AggEvent) (q : AggregatingQc)
    (ha : active.Wf) (hp : ∀ p, pending = some p → p.Wf) (h : AggregatingQc.Reachable active pending events q) :
    ((∀ blockNum qc, q.getBestQc blockNum = some qc → qc.verifyBasic q.policies = .ok ()) ↔
      ∀ p ps, pending = some p → q.pendingPolicySig = some ps → DualsAgree active p q.activePolicySig ps) ∧
    ((∀ p, pending = some p → Uniform active p events) →
      ∀ blockNum qc, q.getBestQc blockNum = some qc → qc.verifyBasic q.policies = .ok ()) := by
  have hi : AggInv active pending q ∧ Traced active pending events q := by
    induction h with
    | new => exact ⟨aggInv_new, traced_new⟩
    | vote _ vote verified ih => exact ⟨aggInv_vote ha hp ih.1 vote verified, traced_vote ha ih.1 ih.2 vote verified⟩
    | received _ qc verified set ih => exact ⟨aggInv_received ih.1 verified set, traced_received ih.1 ih.2 verified set⟩
  have hiff := accepted_iff_dualsAgree ha hp hi.1
  refine ⟨hiff, fun hu => hiff.2 fun p ps hpe hps => ?_⟩
  obtain ⟨ps', hps', -, hd⟩ := hi.1.pendingSig p hpe
  cases hps.symm.trans hps'
  exact dualsAgree_of_uniform (hpe ▸ hi.2) hps hd (hu p hpe)

def sampleActive : FinalizerPolicy :=
  { generation := 1, threshold := 2, finalizers := [⟨"a", 1, 1⟩, ⟨"b", 1, 2⟩, ⟨"c", 1, 3⟩] }

def samplePending : FinalizerPolicy :=
  { generation := 2, threshold := 2, finalizers := [⟨"c", 1, 3⟩, ⟨"d", 1, 4⟩, ⟨"e", 1, 5⟩] }

def sampleVote (strong : Bool) (key : PublicKey) : VoteMessage := ⟨⟨9, 0⟩, strong, key, key⟩

def sampleAfter (votes : List VoteMessage) : AggregatingQc :=
  votes.foldl (fun q vote => (q.aggregateVote vote true).2) (.new sampleActive (some samplePending))

def sampleAggregation : AggregatingQc := sampleAfter [sampleVote true 1, sampleVote true 2, sampleVote false 3, sampleVote true 4]

/-- **A best certificate that is rejected**: the active part is strong and drops the weak vote of finalizer 3, the
pending part is weak and counts it. -/
theorem getBestQc_rejected : AggregatingQc.Reachable sampleActive (some samplePending)
      ([sampleVote true 4, sampleVote false 3, sampleVote true 2, sampleVote true 1].map (.vote · true)) sampleAggregation ∧
    sampleAggregation.getBestQc 9 =
      some ⟨9, ⟨some [true, true, false], none, [1, 2]⟩, some ⟨some [false, true, false], some [true, false, false], [4, 3]⟩⟩ ∧
    Qc.verifyBasic
      ⟨9, ⟨some [true, true, false], none, [1, 2]⟩, some ⟨some [false, true, false], some [true, false, false], [4, 3]⟩⟩
      sampleAggregation.policies = .error (.thrown .invalidQc
        "qc ${bn} contains a dual finalizer ${k} which does not vote the same on active and pending policies") :=
  ⟨.vote (.vote (.vote (.vote .new _ _) _ _) _ _) _ _, by decide, by decide⟩

def sampleReceivedQc : Qc :=
  ⟨9, ⟨some [true, false, true], none, [1, 3]⟩, some ⟨some [true, false, true], none, [3, 5]⟩⟩

def sampleEvents : List AggEvent :=
  [.received sampleReceivedQc, .vote (sampleVote false 4) true, .vote (sampleVote true 3) true, .vote (sampleVote false 2) true]

def sampleJoined : AggregatingQc := sampleAfter [sampleVote false 2, sampleVote true 3, sampleVote false 4]

theorem getBestQc_accepted_sampleEvents : ∃ q better, sampleJoined.setReceivedQc sampleReceivedQc = .ok (better, q) ∧
    (q.getBestQc 9).isSome = true ∧ ∀ qc, q.getBestQc 9 = some qc → qc.verifyBasic q.policies = .ok () := by
  refine ⟨_, _, rfl, by decide, fun qc hqc => ?_⟩
  refine (getBestQc_accepted sampleActive (some samplePending) sampleEvents _ ⟨by decide, by decide⟩
    (fun p hp => by cases hp; exact ⟨by decide, by decide⟩)
    (.received (.vote (.vote (.vote .new _ _) _ _) _ _) sampleReceivedQc (by decide) rfl)).2 ?_ 9 qc hqc
  rintro p ⟨⟩ i j f ⟨g, hg, hj⟩ hf
  cases hg.symm.trans hf
  -- the third of the active finalizers is the only one that is in both policies
  obtain rfl : f = ⟨"c", 1, 3⟩ := by
    have hmem := List.mem_of_getElem? hf
    simp only [sampleActive, List.mem_cons, List.not_mem_nil, or_false] at hmem
    rcases hmem with rfl | rfl | rfl
    · cases hj
    · cases hj
    · rfl
  obtain rfl := key_unique (p := sampleActive) ⟨by decide, by decide⟩ hf (j := 2) rfl rfl
  simp [VoteOf, sampleEvents, sampleVote, sampleReceivedQc, QcSig.weakAt, QcSig.strongAt]

end TheChannel
