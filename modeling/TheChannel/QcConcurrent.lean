import TheChannel.QcStrength
/-!
# QcConcurrent — concurrent votes for two policies

`aggregating_qc_t::aggregate_vote` of `qc.cpp`, called from many threads at once. A call looks for the finalizer in the active
and then in the pending policy; for each it reads `has_voted` without the lock, verifies the signature once, and adds the vote
with the lock held. A step of a call is one such check or one such addition, and a schedule says whose step comes next.

A finalizer of both policies is counted in the pending one only by the call that counted it in the active one (`Agrees`).
-/
namespace TheChannel
open AggregatingQcSig FinalizerPolicy Option List

/-- Where a call of `aggregate_vote` is. `verified` is `verified_sig`, and `r` the result from the active policy. -/
inductive VotePhase
  | activeCheck
  | activeAdd (index : Nat)
  | pendingCheck (verified : Bool) (r : VoteResultT)
  | pendingAdd (index : Nat)
  | returned (r : VoteResultT)
  deriving DecidableEq

/-- A call of `aggregate_vote`; `valid` is what `blslib::verify` says of the vote's signature. -/
structure VoteCall where
  vote : VoteMessage
  valid : Bool
  phase : VotePhase
  deriving DecidableEq

def VoteCall.hasReturned (c : VoteCall) : Bool :=
  match c.phase with
  | .returned _ => true
  | _ => false

def VoteCall.between (c : VoteCall) : Bool :=
  match c.phase with
  | .pendingCheck _ _ | .pendingAdd _ => true
  | _ => false

structure ConcurrentVotes where
  qc : AggregatingQc
  calls : List VoteCall
  deriving DecidableEq

open VoteCall

namespace ConcurrentVotes

def start (active : FinalizerPolicy) (pending : Option FinalizerPolicy) (votes : List (VoteMessage × Bool)) :
    ConcurrentVotes where
  qc := .new active pending
  calls := votes.map fun v => ⟨v.1, v.2, .activeCheck⟩

def afterActive (qc : AggregatingQc) (verified : Bool) (r : VoteResultT) : VotePhase :=
  if qc.pendingFinalizerPolicy.isSome then .pendingCheck verified r else .returned r

/-- The first part of the lambda `add_vote`: `has_voted`, and the signature. -/
def checkVote (a : AggregatingQcSig) (index : Nat) (verified : Bool) (add : VotePhase) : VotePhase :=
  if a.hasVoted index then .returned .duplicate
  else if !verified then .returned .invalidSignature
  else add

def lockedAdd (a : AggregatingQcSig) (policy : FinalizerPolicy) (index : Nat) (vote : VoteMessage) :
    VoteResultT × AggregatingQcSig :=
  a.addVote vote.strong index vote.sig (weightAt policy index)

def stepCall (qc : AggregatingQc) (c : VoteCall) : AggregatingQc × VotePhase :=
  match c.phase with
  | .activeCheck =>
    match qc.activeFinalizerPolicy.indexOf c.vote.finalizerKey with
    | none => (qc, afterActive qc false .unknownPublicKey)
    | some index => (qc, checkVote qc.activePolicySig index c.valid (.activeAdd index))
  | .activeAdd index =>
    let added := lockedAdd qc.activePolicySig qc.activeFinalizerPolicy index c.vote
    ({ qc with activePolicySig := added.2 },
      if added.1 = .success then afterActive qc true .success else .returned added.1)
  | .pendingCheck verified r =>
    match qc.pendingFinalizerPolicy, qc.pendingPolicySig with
    | some policy, some sig =>
      match policy.indexOf c.vote.finalizerKey with
      | none => (qc, .returned r)
      | some index => (qc, checkVote sig index (verified || c.valid) (.pendingAdd index))
    | _, _ => (qc, .returned r)
  | .pendingAdd index =>
    match qc.pendingFinalizerPolicy, qc.pendingPolicySig with
    | some policy, some sig =>
      let added := lockedAdd sig policy index c.vote
      ({ qc with pendingPolicySig := some added.2 }, .returned added.1)
    | _, _ => (qc, c.phase)
  | .returned r => (qc, .returned r)

def step (q : ConcurrentVotes) (t : Nat) : ConcurrentVotes :=
  match q.calls[t]? with
  | none => q
  | some c => ⟨(stepCall q.qc c).1, q.calls.set t { c with phase := (stepCall q.qc c).2 }⟩

def run (q : ConcurrentVotes) (schedule : List Nat) : ConcurrentVotes := schedule.foldl step q

end ConcurrentVotes

/-! ## The votes that are recorded -/

namespace AggregatingQcSig

def voteOf (a : AggregatingQcSig) (i : Nat) : Option Bool :=
  if a.strongBit i then some true else if a.weakBit i then some false else none

/-- No finalizer is recorded twice, and the sums are the weights of the recorded ones (as `uint64_t`, whatever the policy). -/
structure Counted (a : AggregatingQcSig) (p : FinalizerPolicy) : Prop where
  strongLen : a.strongVotes.bitset.length = p.finalizers.length
  weakLen : a.weakVotes.bitset.length = p.finalizers.length
  processed : a.strongVotes.processed = a.strongVotes.bitset ∧ a.weakVotes.processed = a.weakVotes.bitset
  once : ∀ i : Nat, ¬ (a.strongBit i = true ∧ a.weakBit i = true)
  strongSum : a.strongSum = UInt64.ofNat (weightWhere a.strongBit p.weights)
  weakSum : a.weakSum = UInt64.ofNat (weightWhere a.weakBit p.weights)

variable (p : FinalizerPolicy)

theorem counted_new : (new p).Counted p := by
  have h := sigInv_new p
  refine ⟨h.strongLen, h.weakLen, h.processed, h.exclusive, ?_, ?_⟩
  · rw [← h.strongSum]
    exact UInt64.ofNat_toNat.symm
  · rw [← h.weakSum]
    exact UInt64.ofNat_toNat.symm

theorem voteOf_new (i : Nat) : (new p).voteOf i = none := by
  simp only [voteOf, strongBit, weakBit, new, VotesT.new, getD_eq_getElem?_getD, getElem?_replicate]
  split <;> rfl

section Counted

variable {a : AggregatingQcSig} {p : FinalizerPolicy} {i : Nat}

theorem Counted.hasVoted_eq (h : a.Counted p) (i : Nat) : a.hasVoted i = (a.voteOf i).isSome := by
  unfold hasVoted VotesT.hasVoted voteOf strongBit weakBit
  rw [h.processed.1, h.processed.2]
  cases a.strongVotes.bitset.getD i false <;> cases a.weakVotes.bitset.getD i false <;> rfl

theorem voteOf_none_iff : a.voteOf i = none ↔ a.strongBit i = false ∧ a.weakBit i = false := by
  unfold voteOf
  cases a.strongBit i <;> cases a.weakBit i <;> simp

theorem addVote_duplicate (h : a.voteOf i ≠ none) (strong : Bool) (sig : BlsSignature) (w : UInt64) :
    a.addVote strong i sig w = (.duplicate, a) := by
  have hb : (a.strongVotes.bitset.getD i false || a.weakVotes.bitset.getD i false) = true := by
    by_contra hn
    simp only [Bool.or_eq_true, not_or, Bool.not_eq_true] at hn
    exact h (voteOf_none_iff.2 hn)
  simp only [addVote, checkDuplicate, hb, if_true]

theorem addVote_new (h : a.voteOf i = none) (strong : Bool) (sig : BlsSignature) (w : UInt64) :
    a.addVote strong i sig w = (.success, a.record strong i sig w) := by
  obtain ⟨hs, hw⟩ := voteOf_none_iff.1 h
  simp only [strongBit, weakBit] at hs hw
  simp only [addVote, checkDuplicate, hs, hw, Bool.or_false, Bool.false_eq_true, if_false, record]

theorem Counted.voteOf_addVote (h : a.Counted p) (hnew : a.voteOf i = none) (hi : i < p.finalizers.length) (strong : Bool)
    (sig : BlsSignature) (w : UInt64) (j : Nat) :
    (a.addVote strong i sig w).2.voteOf j = if j = i then some strong else a.voteOf j := by
  obtain ⟨hs, hw⟩ := voteOf_none_iff.1 hnew
  obtain ⟨hbs, hbw⟩ := record_bits sig strong w (h.strongLen ▸ hi) (h.weakLen ▸ hi)
  rw [addVote_new hnew, voteOf, hbs, hbw]
  by_cases hj : j = i
  · subst hj
    cases strong <;> simp [hs, hw]
  · simp [voteOf, hj]

theorem Counted.addVote (h : a.Counted p) (hi : i < p.finalizers.length) (strong : Bool) (sig : BlsSignature) :
    (a.addVote strong i sig (weightAt p i)).2.Counted p := by
  by_cases hnew : a.voteOf i = none
  swap
  · rw [addVote_duplicate hnew]
    exact h
  obtain ⟨hs, hw⟩ := voteOf_none_iff.1 hnew
  have hwe : p.weights[i]? = some (weightAt p i).toNat := by
    simp [weights, weightAt, hi]
  obtain ⟨hbs, hbw⟩ := record_bits sig strong (weightAt p i) (h.strongLen ▸ hi) (h.weakLen ▸ hi)
  obtain ⟨hsl, hwl, hpr, hex⟩ := record_votes sig strong (weightAt p i) hi hs hw h.strongLen h.weakLen h.processed h.once
  rw [addVote_new hnew]
  refine ⟨hsl, hwl, hpr, hex, ?_, ?_⟩
  · rw [hbs, weightWhere_record strong hwe hs, UInt64.ofNat_add, ← h.strongSum]
    cases strong <;> simp [record, addStrongVote, addWeakVote]
  · rw [hbw, weightWhere_record (!strong) hwe hw, UInt64.ofNat_add, ← h.weakSum]
    cases strong <;> simp [record, addStrongVote, addWeakVote]

end Counted
end AggregatingQcSig

/-! ## The finalizers of both policies -/

variable {p : FinalizerPolicy} {k : PublicKey} {i : Nat}

theorem FinalizerPolicy.indexOf_some (h : p.indexOf k = some i) : ∃ f, p.finalizers[i]? = some f ∧ f.publicKey = k := by
  obtain ⟨hi, hk, -⟩ := findIdx?_eq_some_iff_getElem.1 h
  exact ⟨_, getElem?_eq_getElem hi, by simpa using hk⟩

theorem FinalizerPolicy.indexOf_inj {l : PublicKey} (hk : p.indexOf k = some i)
    (hl : p.indexOf l = some i) : k = l := by
  obtain ⟨f, hf, rfl⟩ := indexOf_some hk
  obtain ⟨g, hg, rfl⟩ := indexOf_some hl
  rw [hf] at hg
  cases hg
  rfl

namespace ConcurrentVotes

def activeVote (q : ConcurrentVotes) (i : Nat) : Option Bool := q.qc.activePolicySig.voteOf i

def pendingVote (q : ConcurrentVotes) (j : Nat) : Option Bool := q.qc.pendingPolicySig.bind (·.voteOf j)

def Placed (q : ConcurrentVotes) (c : VoteCall) : Prop :=
  match c.phase with
  | .activeAdd i => q.qc.activeFinalizerPolicy.indexOf c.vote.finalizerKey = some i
  | .pendingCheck verified _ => verified = true ∨ q.qc.activeFinalizerPolicy.indexOf c.vote.finalizerKey = none
  | .pendingAdd j => ∃ p, q.qc.pendingFinalizerPolicy = some p ∧ p.indexOf c.vote.finalizerKey = some j
  | _ => True

/-- The finalizer with the key `k`, of index `i` in the active and `j` in the pending policy, is recorded in the active policy
alone only while the one call that recorded it is on its way to the pending policy. -/
structure Agrees (q : ConcurrentVotes) (k : PublicKey) (i j : Nat) : Prop where
  between : ∀ (t : Nat) (c : VoteCall), q.calls[t]? = some c → c.vote.finalizerKey = k → c.between = true →
    q.activeVote i = some c.vote.strong ∧ q.pendingVote j = none
  one : ∀ (t u : Nat) (c d : VoteCall), q.calls[t]? = some c → q.calls[u]? = some d → c.vote.finalizerKey = k →
    d.vote.finalizerKey = k → c.between = true → d.between = true → t = u
  same : (∀ (t : Nat) (c : VoteCall), q.calls[t]? = some c → c.vote.finalizerKey = k → c.between = false) →
    q.activeVote i = q.pendingVote j

theorem getElem?_moved {calls : List VoteCall} {t : Nat} {c : VoteCall} (hc : calls[t]? = some c) (d : VoteCall) (u : Nat) :
    (calls.set t d)[u]? = if u = t then some d else calls[u]? := by
  obtain ⟨ht, -⟩ := List.getElem?_eq_some_iff.1 hc
  rw [getElem?_set]
  by_cases hut : t = u
  · subst hut
    simp [ht]
  · rw [if_neg hut, if_neg (Ne.symm hut)]

section Moved

variable {q q' : ConcurrentVotes} {k : PublicKey} {i j t : Nat} {c d : VoteCall}
variable (hc : q.calls[t]? = some c) (hcalls : q'.calls = q.calls.set t d) (hvote : d.vote = c.vote)

include hc hcalls hvote

theorem Agrees.keep (h : Agrees q k i j) (hact : q'.activeVote i = q.activeVote i)
    (hp : q'.pendingVote j = q.pendingVote j)
    (hbt : c.vote.finalizerKey = k → d.between = c.between) : Agrees q' k i j := by
  -- every call of this finalizer stands where it stood
  have hba : ∀ (u : Nat) (e : VoteCall), q'.calls[u]? = some e → e.vote.finalizerKey = k →
      ∃ e0, q.calls[u]? = some e0 ∧ e0.vote = e.vote ∧ e0.between = e.between := by
    intro u e he hk
    rw [hcalls, getElem?_moved hc] at he
    by_cases hut : u = t
    · rw [if_pos hut] at he
      cases he
      rw [hvote] at hk
      exact ⟨c, hut ▸ hc, hvote.symm, (hbt hk).symm⟩
    · rw [if_neg hut] at he
      exact ⟨e, he, rfl, rfl⟩
  have hfo : ∀ (u : Nat) (e : VoteCall), q.calls[u]? = some e → e.vote.finalizerKey = k →
      ∃ e1, q'.calls[u]? = some e1 ∧ e1.vote = e.vote ∧ e1.between = e.between := by
    intro u e he hk
    rw [hcalls, getElem?_moved hc]
    by_cases hut : u = t
    · subst hut
      rw [hc] at he
      cases he
      exact ⟨d, if_pos rfl, hvote, hbt hk⟩
    · exact ⟨e, by rw [if_neg hut]; exact he, rfl, rfl⟩
  refine ⟨?_, ?_, ?_⟩
  · intro u e he hk hb
    obtain ⟨e0, he0, hv, hbe⟩ := hba u e he hk
    rw [hact, hp, ← hv]
    exact h.between u e0 he0 (hv ▸ hk) (hbe.trans hb)
  · intro u w e f he hf hke hkf hbe hbf
    obtain ⟨e0, he0, hve, hbe0⟩ := hba u e he hke
    obtain ⟨f0, hf0, hvf, hbf0⟩ := hba w f hf hkf
    exact h.one u w e0 f0 he0 hf0 (hve ▸ hke) (hvf ▸ hkf) (hbe0.trans hbe) (hbf0.trans hbf)
  · intro hn
    rw [hact, hp]
    refine h.same fun u e he hk => ?_
    obtain ⟨e1, he1, hv, hb⟩ := hfo u e he hk
    rw [← hb]
    exact hn u e1 he1 (hv ▸ hk)

theorem Agrees.enter (h : Agrees q k i j) (hkey : c.vote.finalizerKey = k) (hfr : q.activeVote i = none)
    (hact : q'.activeVote i = some c.vote.strong) (hp : q'.pendingVote j = q.pendingVote j)
    (hd : d.between = true) : Agrees q' k i j := by
  have hn : ∀ (u : Nat) (e : VoteCall), q.calls[u]? = some e → e.vote.finalizerKey = k → e.between = false := by
    intro u e he hk
    by_contra hb
    have := (h.between u e he hk (by simpa using hb)).1
    rw [hfr] at this
    exact absurd this (by simp)
  have hon : ∀ (u : Nat) (e : VoteCall), q'.calls[u]? = some e → e.vote.finalizerKey = k → e.between = true →
      u = t ∧ e = d := by
    intro u e he hk hb
    rw [hcalls, getElem?_moved hc] at he
    by_cases hut : u = t
    · rw [if_pos hut] at he
      cases he
      exact ⟨hut, rfl⟩
    · rw [if_neg hut] at he
      rw [hn u e he hk] at hb
      exact absurd hb (by simp)
  refine ⟨?_, ?_, ?_⟩
  · intro u e he hk hb
    obtain ⟨-, rfl⟩ := hon u e he hk hb
    rw [hact, hp, hvote, ← h.same hn, hfr]
    exact ⟨rfl, rfl⟩
  · intro u w e f he hf hke hkf hbe hbf
    rw [(hon u e he hke hbe).1, (hon w f hf hkf hbf).1]
  · intro hall
    have := hall t d (by rw [hcalls, getElem?_moved hc, if_pos rfl]) (by rw [hvote, hkey])
    rw [hd] at this
    exact absurd this (by simp)

omit hvote in
theorem Agrees.leave (h : Agrees q k i j) (hkey : c.vote.finalizerKey = k) (hb : c.between = true)
    (hact : q'.activeVote i = q.activeVote i) (hp : q'.pendingVote j = some c.vote.strong)
    (hd : d.between = false) : Agrees q' k i j := by
  have hn : ∀ (u : Nat) (e : VoteCall), q'.calls[u]? = some e → e.vote.finalizerKey = k → e.between = false := by
    intro u e he hk
    rw [hcalls, getElem?_moved hc] at he
    by_cases hut : u = t
    · rw [if_pos hut] at he
      cases he
      exact hd
    · rw [if_neg hut] at he
      by_contra hbe
      exact hut (h.one u t e c he hc hk hkey (by simpa using hbe) hb)
  refine ⟨?_, ?_, ?_⟩
  · intro u e he hk hbe
    rw [hn u e he hk] at hbe
    exact absurd hbe (by simp)
  · intro u w e f he hf hke hkf hbe hbf
    rw [hn u e he hke] at hbe
    exact absurd hbe (by simp)
  · intro _
    rw [hact, hp, (h.between t c hc hkey hb).1]

end Moved

structure Sound (q : ConcurrentVotes) : Prop where
  active : q.qc.activePolicySig.Counted q.qc.activeFinalizerPolicy
  pending : ∀ (p : FinalizerPolicy) (a : AggregatingQcSig), q.qc.pendingFinalizerPolicy = some p →
    q.qc.pendingPolicySig = some a → a.Counted p
  both : q.qc.pendingPolicySig.isSome = q.qc.pendingFinalizerPolicy.isSome
  placed : ∀ (t : Nat) (c : VoteCall), q.calls[t]? = some c → Placed q c
  agrees : ∀ (k : PublicKey) (i : Nat) (p : FinalizerPolicy) (j : Nat), q.qc.activeFinalizerPolicy.indexOf k = some i →
    q.qc.pendingFinalizerPolicy = some p → p.indexOf k = some j → Agrees q k i j

theorem Sound.start (active : FinalizerPolicy) (pending : Option FinalizerPolicy) (votes : List (VoteMessage × Bool)) :
    Sound (start active pending votes) where
  active := counted_new active
  pending p a hp ha := by
    change pending = some p at hp
    change pending.map .new = some a at ha
    subst hp
    cases ha
    exact counted_new p
  both := isSome_map
  placed t c hc := by
    obtain ⟨v, -, rfl⟩ := mem_map.1 (mem_of_getElem? hc)
    trivial
  agrees k i p j _ hp _ := by
    have hca : ∀ (t : Nat) (c : VoteCall), (ConcurrentVotes.start active pending votes).calls[t]? = some c →
        c.between = false := by
      intro t c hc
      obtain ⟨v, -, rfl⟩ := mem_map.1 (mem_of_getElem? hc)
      rfl
    change pending = some p at hp
    subst hp
    refine ⟨?_, ?_, ?_⟩
    · intro t c hc _ hb
      rw [hca t c hc] at hb
      exact absurd hb (by simp)
    · intro t u c d hc _ _ _ hb
      rw [hca t c hc] at hb
      exact absurd hb (by simp)
    · intro _
      exact (voteOf_new active i).trans (voteOf_new p j).symm

section Step

variable {q : ConcurrentVotes} (h : Sound q) {t : Nat} {c : VoteCall} (hc : q.calls[t]? = some c)
variable {qc : AggregatingQc} {phase : VotePhase} (hstep : stepCall q.qc c = (qc, phase))

include hc hstep in
theorem step_eq : q.step t = ⟨qc, q.calls.set t { c with phase := phase }⟩ := by
  simp only [step, hc, hstep]

include h hc in
theorem Sound.placed_set (hact : qc.activeFinalizerPolicy = q.qc.activeFinalizerPolicy)
    (hp : qc.pendingFinalizerPolicy = q.qc.pendingFinalizerPolicy) (hnew : Placed q { c with phase := phase })
    (u : Nat) (e : VoteCall) (he : (q.calls.set t { c with phase := phase })[u]? = some e) :
    Placed ⟨qc, q.calls.set t { c with phase := phase }⟩ e := by
  have hs : ∀ e, Placed ⟨qc, q.calls.set t { c with phase := phase }⟩ e ↔ Placed q e := by
    intro e
    simp only [Placed, hact, hp]
  rw [hs]
  rw [getElem?_moved hc] at he
  split at he
  · cases he
    exact hnew
  · exact h.placed u e he

include h hc in
theorem Sound.move (phase : VotePhase) (hstep : stepCall q.qc c = (q.qc, phase)) (hnew : Placed q { c with phase := phase })
    (hb : ∀ (i : Nat) p (j : Nat), q.qc.activeFinalizerPolicy.indexOf c.vote.finalizerKey = some i →
      q.qc.pendingFinalizerPolicy = some p → p.indexOf c.vote.finalizerKey = some j →
      between { c with phase := phase } = c.between) : Sound (q.step t) := by
  rw [step_eq hc hstep]
  refine ⟨h.active, h.pending, h.both, h.placed_set hc rfl rfl hnew, ?_⟩
  intro k i p j hi hp hj
  refine (h.agrees k i p j hi hp hj).keep hc rfl rfl rfl rfl ?_
  intro hk
  subst hk
  exact hb i p j hi hp hj

include h hc

theorem Sound.activeCheck (hp : c.phase = .activeCheck) : Sound (q.step t) := by
  have hb : c.between = false := by simp [between, hp]
  cases hin : q.qc.activeFinalizerPolicy.indexOf c.vote.finalizerKey with
  | none =>
    refine h.move hc (afterActive q.qc false .unknownPublicKey) (by simp only [stepCall, hp, hin]) ?_ ?_
    · unfold afterActive
      split
      · exact .inr hin
      · trivial
    · intro i p j hi
      exact absurd (hin.symm.trans hi) (by simp)
  | some index =>
    refine h.move hc (checkVote q.qc.activePolicySig index c.valid (.activeAdd index))
      (by simp only [stepCall, hp, hin]) ?_ ?_
    · unfold checkVote
      split
      · trivial
      · split
        · trivial
        · exact hin
    · intro i p j _ _ _
      rw [hb]
      unfold checkVote
      split
      · rfl
      · split <;> rfl

theorem Sound.activeAdd {index : Nat} (hph : c.phase = .activeAdd index) : Sound (q.step t) := by
  have hb : c.between = false := by simp [between, hph]
  have hin : q.qc.activeFinalizerPolicy.indexOf c.vote.finalizerKey = some index := by
    have := h.placed t c hc
    simpa only [Placed, hph] using this
  have hlt := indexOf_lt hin
  by_cases hnew : q.qc.activePolicySig.voteOf index = none
  swap
  · -- the vote is a duplicate, and the call returns
    have hadd := addVote_duplicate hnew c.vote.strong c.vote.sig
      (weightAt q.qc.activeFinalizerPolicy index)
    refine h.move hc (.returned .duplicate) ?_ trivial fun _ _ _ _ _ _ => hb.symm
    simp only [stepCall, hph, lockedAdd, hadd, reduceCtorEq, if_false]
  have hadd := addVote_new hnew c.vote.strong c.vote.sig
    (weightAt q.qc.activeFinalizerPolicy index)
  have hco := h.active.addVote hlt c.vote.strong c.vote.sig
  have hv := h.active.voteOf_addVote hnew hlt c.vote.strong c.vote.sig
    (weightAt q.qc.activeFinalizerPolicy index)
  have hstep : stepCall q.qc c = ({ q.qc with activePolicySig := (lockedAdd q.qc.activePolicySig q.qc.activeFinalizerPolicy
      index c.vote).2 }, afterActive q.qc true .success) := by
    simp only [stepCall, hph, lockedAdd, hadd, if_true]
  rw [step_eq hc hstep]
  refine ⟨hco, h.pending, h.both, h.placed_set hc rfl rfl ?_, ?_⟩
  · unfold afterActive
    split
    · exact .inl rfl
    · trivial
  · intro k i p j hi hp hj
    have hag := h.agrees k i p j hi hp hj
    by_cases hk : c.vote.finalizerKey = k
    · subst hk
      obtain rfl : i = index := Option.some.inj (hi.symm.trans hin)
      refine hag.enter hc rfl rfl rfl hnew ?_ rfl ?_
      · exact (hv i).trans (if_pos rfl)
      · have hs : q.qc.pendingFinalizerPolicy = some p := hp
        simp [afterActive, hs, between]
    · have hne : i ≠ index := by
        rintro rfl
        exact hk (indexOf_inj hin hi)
      exact hag.keep hc rfl rfl ((hv i).trans (if_neg hne)) rfl fun hk' => absurd hk' hk

theorem Sound.pendingCheck {verified : Bool} {r : VoteResultT} (hph : c.phase = .pendingCheck verified r) :
    Sound (q.step t) := by
  have hpl := h.placed t c hc
  simp only [Placed, hph] at hpl
  cases hp : q.qc.pendingFinalizerPolicy with
  | none =>
    refine h.move hc (.returned r) (by simp only [stepCall, hph, hp]) trivial ?_
    intro i p j _ hp'
    exact absurd (hp.symm.trans hp') (by simp)
  | some p =>
    obtain ⟨a, ha⟩ := isSome_iff_exists.1 (h.both.trans (by rw [hp]; rfl))
    cases hin : p.indexOf c.vote.finalizerKey with
    | none =>
      refine h.move hc (.returned r) (by simp only [stepCall, hph, hp, ha, hin]) trivial ?_
      intro i p' j _ hp' hj
      cases hp.symm.trans hp'
      exact absurd (hin.symm.trans hj) (by simp)
    | some index =>
      refine h.move hc (checkVote a index (verified || c.valid) (.pendingAdd index))
        (by simp only [stepCall, hph, hp, ha, hin]) ?_ ?_
      · unfold checkVote
        split
        · trivial
        · split
          · trivial
          · exact ⟨p, hp, hin⟩
      · -- a finalizer of both policies is not yet recorded in the pending one, and its signature was verified
        intro i p' j hi hp' hj
        cases hp.symm.trans hp'
        obtain rfl : j = index := Option.some.inj (hj.symm.trans hin)
        have hb : c.between = true := by simp [between, hph]
        have hn := ((h.agrees _ i p j hi hp hj).between t c hc rfl hb).2
        simp only [pendingVote, ha, bind_some] at hn
        have hver : verified = true := by
          rcases hpl with hv | hv
          · exact hv
          · exact absurd (hv.symm.trans hi) (by simp)
        have hvo : a.hasVoted j = false := by rw [(h.pending p a hp ha).hasVoted_eq, hn]; rfl
        rw [hb]
        simp [checkVote, hvo, hver, between]

theorem Sound.pendingAdd {index : Nat} (hph : c.phase = .pendingAdd index) : Sound (q.step t) := by
  have hb : c.between = true := by simp [between, hph]
  have hpl := h.placed t c hc
  simp only [Placed, hph] at hpl
  obtain ⟨p, hp, hin⟩ := hpl
  obtain ⟨a, ha⟩ := isSome_iff_exists.1 (h.both.trans (by rw [hp]; rfl))
  have hco := h.pending p a hp ha
  have hlt := indexOf_lt hin
  have hstep : stepCall q.qc c = ({ q.qc with pendingPolicySig := some (lockedAdd a p index c.vote).2 },
      .returned (lockedAdd a p index c.vote).1) := by
    simp only [stepCall, hph, hp, ha]
  rw [step_eq hc hstep]
  refine ⟨h.active, ?_, ?_, h.placed_set hc rfl rfl trivial, ?_⟩
  · intro p' a' hp' ha'
    cases hp.symm.trans hp'
    cases ha'
    exact hco.addVote hlt c.vote.strong c.vote.sig
  · exact (by rw [hp]; rfl : true = q.qc.pendingFinalizerPolicy.isSome)
  · intro k i p' j hi hp' hj
    cases hp.symm.trans hp'
    have hag := h.agrees k i p j hi hp hj
    by_cases hk : c.vote.finalizerKey = k
    · subst hk
      obtain rfl : j = index := Option.some.inj (hj.symm.trans hin)
      have hn := (hag.between t c hc rfl hb).2
      simp only [pendingVote, ha, bind_some] at hn
      refine hag.leave hc rfl rfl hb rfl ?_ rfl
      exact (hco.voteOf_addVote hn hlt _ _ _ j).trans (if_pos rfl)
    · have hne : j ≠ index := by
        rintro rfl
        exact hk (indexOf_inj hin hj)
      refine hag.keep hc rfl rfl rfl ?_ fun hk' => absurd hk' hk
      simp only [pendingVote, ha, bind_some, lockedAdd]
      by_cases hnew : a.voteOf index = none
      · exact (hco.voteOf_addVote hnew hlt _ _ _ j).trans (if_neg hne)
      · rw [addVote_duplicate hnew]

end Step

theorem Sound.step {q : ConcurrentVotes} (h : Sound q) (t : Nat) : Sound (q.step t) := by
  cases hc : q.calls[t]? with
  | none =>
    have : q.step t = q := by simp only [ConcurrentVotes.step, hc]
    rw [this]
    exact h
  | some c =>
    cases hp : c.phase with
    | activeCheck => exact h.activeCheck hc hp
    | activeAdd index => exact h.activeAdd hc hp
    | pendingCheck verified r => exact h.pendingCheck hc hp
    | pendingAdd index => exact h.pendingAdd hc hp
    | returned r =>
      refine h.move hc (.returned r) (by simp only [stepCall, hp]) trivial ?_
      intro _ _ _ _ _ _
      simp [between, hp]

variable (schedule : List Nat)

theorem Sound.run : ∀ {q}, Sound q → Sound (q.run schedule) := by
  induction schedule with
  | nil => exact fun h => h
  | cons t schedule ih => exact fun h => ih (h.step t)

theorem run_policies : ∀ q : ConcurrentVotes, (q.run schedule).qc.activeFinalizerPolicy = q.qc.activeFinalizerPolicy ∧
    (q.run schedule).qc.pendingFinalizerPolicy = q.qc.pendingFinalizerPolicy := by
  have hstep : ∀ (q : ConcurrentVotes) (t : Nat), (q.step t).qc.activeFinalizerPolicy = q.qc.activeFinalizerPolicy ∧
      (q.step t).qc.pendingFinalizerPolicy = q.qc.pendingFinalizerPolicy := by
    intro q t
    unfold ConcurrentVotes.step
    split
    · exact ⟨rfl, rfl⟩
    · unfold stepCall
      split
      · split <;> exact ⟨rfl, rfl⟩
      · exact ⟨rfl, rfl⟩
      · split
        · split <;> exact ⟨rfl, rfl⟩
        · exact ⟨rfl, rfl⟩
      · split <;> exact ⟨rfl, rfl⟩
      · exact ⟨rfl, rfl⟩
  induction schedule with
  | nil => exact fun _ => ⟨rfl, rfl⟩
  | cons t schedule ih =>
    intro q
    exact ⟨(ih (q.step t)).1.trans (hstep q t).1, (ih (q.step t)).2.trans (hstep q t).2⟩

/-- **Concurrent votes.** Whatever calls of `aggregate_vote` run at once and however their steps interleave, each finalizer's
weight is counted at most once in each policy, and once all calls have returned a finalizer of both policies is recorded in
both with the same strength or in neither. -/
theorem run_votes_agree (active : FinalizerPolicy) (pending : Option FinalizerPolicy) (votes : List (VoteMessage × Bool))
    (schedule : List Nat) : let q := run (start active pending votes) schedule
    q.qc.activePolicySig.Counted active ∧
    (∀ p : FinalizerPolicy, pending = some p → ∃ a, q.qc.pendingPolicySig = some a ∧ a.Counted p) ∧
    (q.calls.all hasReturned = true → ∀ (p : FinalizerPolicy) (k : PublicKey) (i j : Nat), pending = some p →
      active.indexOf k = some i → p.indexOf k = some j → q.activeVote i = q.pendingVote j) := by
  intro q
  have h : Sound q := (Sound.start active pending votes).run schedule
  have hpo := run_policies schedule (start active pending votes)
  have hact : q.qc.activeFinalizerPolicy = active := hpo.1
  have hpe : q.qc.pendingFinalizerPolicy = pending := hpo.2
  refine ⟨hact ▸ h.active, ?_, ?_⟩
  · intro p hp
    obtain ⟨a, ha⟩ := isSome_iff_exists.1 (h.both.trans (by rw [hpe, hp]; rfl))
    exact ⟨a, ha, h.pending p a (hpe.trans hp) ha⟩
  · intro hret p k i j hp hi hj
    refine (h.agrees k i p j (hact ▸ hi) (hpe.trans hp) hj).same ?_
    intro t c hc _
    have := all_eq_true.1 hret c (mem_of_getElem? hc)
    unfold hasReturned at this
    unfold between
    cases hph : c.phase <;> rw [hph] at this <;> first | rfl | exact absurd this (by simp)

/-- A strong and a weak vote of one finalizer that both pass the first check: the one that adds first decides both policies. -/
theorem run_votes_agree_sampleRace : let policy : FinalizerPolicy := ⟨1, 1, [⟨"a", 1, 1⟩]⟩
    let q := run (start policy (some policy) [(⟨.zero, true, 1, 0⟩, true), (⟨.zero, false, 1, 0⟩, true)]) [0, 1, 1, 0, 1, 1]
    q.calls.all hasReturned = true ∧ q.activeVote 0 = some false ∧ q.activeVote 0 = q.pendingVote 0 := by
  intro policy q
  have hret : q.calls.all hasReturned = true := by decide
  exact ⟨hret, by decide, (run_votes_agree policy (some policy) _ _).2.2 hret policy 1 0 0 rfl (by decide) (by decide)⟩

end ConcurrentVotes
end TheChannel
