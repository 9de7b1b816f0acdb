import TheChannel.Qc
import TheChannel.LibQuorum
/-!
# QcVerify — what an accepted certificate says

`verifyBasic_ok_iff`: a certificate is accepted exactly when each part has the policy's shape, reaches its quorum and
every finalizer of both policies is counted alike in both parts.
-/
namespace TheChannel
open QcSig List

variable {i j : Nat} {b : VoteBitset} {p : FinalizerPolicy}

theorem get_of_lt (h : i < b.length) : VoteBitset.get b i = .ok (b.getD i false) := by
  simp [VoteBitset.get, h]

theorem get_ok_iff {x : Bool} : VoteBitset.get b i = .ok x ↔ b[i]? = some x := by
  unfold VoteBitset.get
  cases b[i]? <;> simp

def votedWeight : VoteBitset → List FinalizerAuthority → UInt64
  | b :: bs, f :: fs => (if b then f.weight else 0) + votedWeight bs fs
  | _, _ => 0

def FinalizerPolicy.weights (p : FinalizerPolicy) : List Nat := p.finalizers.map (fun f => f.weight.toNat)

theorem votedWeight_toNat_le : ∀ fs b,
    (votedWeight b fs).toNat ≤ weightWhere (fun i => b.getD i false) (fs.map (·.weight.toNat))
  | [], b => by cases b <;> simp [votedWeight, weightWhere]
  | f :: fs, [] => by simp [votedWeight]
  | f :: fs, x :: b => by
    have ih := votedWeight_toNat_le fs b
    simp only [votedWeight, map_cons, weightWhere, getD_cons_zero, getD_cons_succ]
    have h1 := UInt64.toNat_add (if x then f.weight else 0) (votedWeight b fs)
    have h2 := Nat.mod_le ((if x then f.weight else 0).toNat + (votedWeight b fs).toNat) (2 ^ 64)
    cases x <;> simp only [Bool.false_eq_true, if_true, if_false, UInt64.toNat_zero] at h1 h2 ⊢ <;> omega

theorem votedWeight_toNat : ∀ fs b,
    weightWhere (fun _ => true) (fs.map (·.weight.toNat)) < 2 ^ 64 →
    (votedWeight b fs).toNat = weightWhere (fun i => b.getD i false) (fs.map (·.weight.toNat))
  | [], b, _ => by cases b <;> simp [votedWeight, weightWhere]
  | f :: fs, [], _ => by
    have hz := weightWhere_none (f :: fs |>.map (·.weight.toNat)) (P := fun i => ([] : VoteBitset).getD i false)
      (by simp)
    rw [hz]
    simp [votedWeight]
  | f :: fs, x :: b, h => by
    simp only [map_cons, weightWhere, if_true] at h
    have ih := votedWeight_toNat fs b (by omega)
    have hle := weightWhere_mono (fs.map (·.weight.toNat)) (P := fun i => b.getD i false)
      (Q := fun _ => true) (fun _ _ _ => rfl)
    simp only [votedWeight, map_cons, weightWhere, getD_cons_zero, getD_cons_succ, UInt64.toNat_add]
    cases x <;> simp only [Bool.false_eq_true, if_true, if_false, UInt64.toNat_zero] <;>
      rw [Nat.mod_eq_of_lt (by omega)] <;> omega

namespace QcSig

def strongAt (s : QcSig) (i : Nat) : Bool := (s.strongVotes.getD []).getD i false

def weakAt (s : QcSig) (i : Nat) : Bool := (s.weakVotes.getD []).getD i false

def strongWeight (s : QcSig) (p : FinalizerPolicy) : UInt64 := votedWeight (s.strongVotes.getD []) p.finalizers

def weakWeight (s : QcSig) (p : FinalizerPolicy) : UInt64 := votedWeight (s.weakVotes.getD []) p.finalizers

structure FormatOk (s : QcSig) (p : FinalizerPolicy) : Prop where
  present : s.strongVotes.isSome || s.weakVotes.isSome
  strongLen : ∀ b, s.strongVotes = some b → b.length = p.finalizers.length
  weakLen : ∀ b, s.weakVotes = some b → b.length = p.finalizers.length
  exclusive : ∀ i, ¬ (s.strongAt i = true ∧ s.weakAt i = true)

def QuorumOk (s : QcSig) (p : FinalizerPolicy) : Prop :=
  if s.isStrong then p.threshold ≤ s.strongWeight p else p.threshold ≤ s.strongWeight p + s.weakWeight p

theorem weightsFrom_eq (votes : VoteBitset) : ∀ fs (i : Nat) sum,
    votes.length = i + fs.length → weightsFrom votes i sum fs = .ok (sum + votedWeight (votes.drop i) fs)
  | [], i, sum, h => by
    rw [drop_of_length_le (by simp at h; omega)]
    simp [weightsFrom, votedWeight]
  | f :: fs, i, sum, h => by
    rw [length_cons] at h
    have hi : i < votes.length := by omega
    rw [weightsFrom, get_of_lt hi, ok_bind, weightsFrom_eq votes fs (i + 1) _ (by omega), drop_eq_getElem_cons hi,
      votedWeight, getD_eq_getElem?_getD, getElem?_eq_getElem hi, Option.getD_some]
    congr 1
    cases votes[i]
    · simp
    · simp [UInt64.add_assoc]

variable {p : FinalizerPolicy} {votes : Option VoteBitset}

theorem weights_eq (h : ∀ b, votes = some b → b.length = p.finalizers.length) :
    weights p votes = .ok (votedWeight (votes.getD []) p.finalizers) := by
  cases votes with
  | none => cases hf : p.finalizers <;> simp [weights, votedWeight]
  | some b =>
    rw [weights, weightsFrom_eq b _ 0 0 (by rw [h b rfl]; omega)]
    simp

theorem verifyExclusive_ok_iff {strong weak : VoteBitset} (hl : strong.length = weak.length) : ∀ (n : Nat),
    n ≤ strong.length →
      (verifyExclusive strong weak n = .ok () ↔ ∀ i < n, ¬ (strong.getD i false = true ∧ weak.getD i false = true))
  | 0, _ => by simp [verifyExclusive]
  | n + 1, hn => by
    have hs : n < strong.length := by omega
    have hw : n < weak.length := by omega
    have hstep : (verifyExclusive strong weak (n + 1) = .ok ()) ↔ (verifyExclusive strong weak n = .ok () ∧
        ¬ (strong.getD n false = true ∧ weak.getD n false = true)) := by
      rw [verifyExclusive, unit_bind_ok_iff, get_of_lt hs, get_of_lt hw]
      simp only [ok_bind]
      cases strong.getD n false <;> cases weak.getD n false <;> simp
    rw [hstep, verifyExclusive_ok_iff hl n (by omega)]
    constructor
    · rintro ⟨h1, h2⟩ i hi
      rcases Nat.lt_succ_iff_lt_or_eq.1 hi with hi | rfl
      · exact h1 i hi
      · exact h2
    · intro h
      exact ⟨fun i hi => h i (by omega), h n (by omega)⟩

theorem verifyBitsetSize_ok_iff {u : Unit} :
    verifyBitsetSize p votes = .ok u ↔ ∀ b, votes = some b → b.length = p.finalizers.length := by
  unfold verifyBitsetSize
  rw [eosAssert_ok_iff]
  cases votes with
  | none => simp
  | some b =>
    simp only [Option.all_some, beq_iff_eq, Option.some.injEq, forall_eq']
    exact eq_comm

theorem verifyVoteFormat_ok_iff {s : QcSig} : s.verifyVoteFormat p = .ok () ↔ s.FormatOk p := by
  unfold verifyVoteFormat
  simp only [unit_bind_ok_iff, eosAssert_ok_iff, verifyBitsetSize_ok_iff]
  constructor
  · rintro ⟨hp, hs, hw, hx⟩
    refine ⟨hp, hs, hw, fun i hi => ?_⟩
    cases hss : s.strongVotes with
    | none => simp [strongAt, hss] at hi
    | some strong =>
      cases hww : s.weakVotes with
      | none => simp [weakAt, hww] at hi
      | some weak =>
        rw [hss, hww] at hx
        have hl : strong.length = weak.length := by rw [hs strong hss, hw weak hww]
        have hi' := hi
        simp only [strongAt, weakAt, hss, hww, Option.getD_some] at hi'
        refine (verifyExclusive_ok_iff hl _ (Nat.le_refl _)).1 hx i ?_ hi'
        by_contra hlt
        have := hi'.1
        rw [getD_eq_getElem?_getD, getElem?_eq_none (by omega)] at this
        cases this
  · intro h
    refine ⟨h.present, h.strongLen, h.weakLen, ?_⟩
    cases hss : s.strongVotes with
    | none => rfl
    | some strong =>
      cases hww : s.weakVotes with
      | none => rfl
      | some weak =>
        have hl : strong.length = weak.length := by rw [h.strongLen strong hss, h.weakLen weak hww]
        refine (verifyExclusive_ok_iff hl _ (Nat.le_refl _)).2 fun i _ hi => h.exclusive i ?_
        simpa [strongAt, weakAt, hss, hww] using hi

theorem verifyWeights_ok_iff {s : QcSig} (h : s.FormatOk p) : s.verifyWeights p = .ok () ↔ s.QuorumOk p := by
  unfold verifyWeights QuorumOk
  rw [weights_eq h.strongLen, weights_eq h.weakLen]
  simp only [ok_bind, strongWeight, weakWeight]
  split <;> simp

/-- **The bitsets that are present have a bit at the index.** -/
def Reaches (s : QcSig) (i : Nat) : Prop :=
  (∀ b, s.strongVotes = some b → i < b.length) ∧ ∀ b, s.weakVotes = some b → i < b.length

theorem votedAt_of_reach {votes : Option VoteBitset} (h : ∀ b, votes = some b → i < b.length) :
    votedAt votes i = .ok ((votes.getD []).getD i false) ∧ votes.all (fun b => decide (i < b.length)) = true := by
  cases votes with
  | none => exact ⟨rfl, rfl⟩
  | some b => exact ⟨get_of_lt (h b rfl), by simpa using h b rfl⟩

theorem FormatOk.reaches {s : QcSig} (h : s.FormatOk p) (hi : i < p.finalizers.length) : s.Reaches i :=
  ⟨fun b hb => by rwa [h.strongLen b hb], fun b hb => by rwa [h.weakLen b hb]⟩

theorem voteSameAt_of_reach {s t : QcSig} (hs : s.Reaches i) (ht : t.Reaches j) :
    s.voteSameAt t i j = .ok (s.strongAt i == t.strongAt j && s.weakAt i == t.weakAt j) := by
  rw [voteSameAt, assertThat_bind (votedAt_of_reach hs.1).2, assertThat_bind (votedAt_of_reach hs.2).2,
    (votedAt_of_reach hs.1).1, (votedAt_of_reach ht.1).1, (votedAt_of_reach hs.2).1, (votedAt_of_reach ht.2).1]
  rfl

end QcSig

theorem indexOf_lt {k : PublicKey} (h : p.indexOf k = some j) : j < p.finalizers.length :=
  (findIdx?_eq_some_iff_findIdx_eq.1 h).1

/-- **Dual finalizers agree**: a finalizer of both policies is counted alike in both parts. -/
def DualOk (active pending : FinalizerPolicy) (a p : QcSig) : Prop :=
  ∀ i f j, active.finalizers[i]? = some f → pending.indexOf f.publicKey = some j →
    a.strongAt i = p.strongAt j ∧ a.weakAt i = p.weakAt j

theorem next_finalizer {p : FinalizerPolicy} {i : Nat} {f : FinalizerAuthority} {fs : List FinalizerAuthority}
    (hd : p.finalizers.drop i = f :: fs) : p.finalizers[i]? = some f ∧ p.finalizers.drop (i + 1) = fs := by
  rw [← head?_drop, ← tail_drop, hd]
  exact ⟨rfl, rfl⟩

theorem verifyDualFinalizersVotes_ok_iff {active pending : FinalizerPolicy} {a p : QcSig} (ha : a.FormatOk active)
    (hp : p.FormatOk pending) : ∀ fs (i : Nat), active.finalizers.drop i = fs →
      (verifyDualFinalizersVotes pending a p i fs = .ok () ↔ ∀ k f j, i ≤ k → active.finalizers[k]? = some f →
        pending.indexOf f.publicKey = some j → a.strongAt k = p.strongAt j ∧ a.weakAt k = p.weakAt j)
  | [], i, hd => by
    simp only [verifyDualFinalizersVotes, true_iff]
    intro k f j hk hf
    have := (List.getElem?_eq_some_iff.1 hf).1
    have := drop_eq_nil_iff.1 hd
    omega
  | f :: fs, i, hd => by
    obtain ⟨hi, hfs⟩ := next_finalizer hd
    have hlt := (List.getElem?_eq_some_iff.1 hi).1
    have ih := verifyDualFinalizersVotes_ok_iff ha hp fs (i + 1) hfs
    have hstep : verifyDualFinalizersVotes pending a p i (f :: fs) = .ok () ↔
        (∀ j, pending.indexOf f.publicKey = some j → a.strongAt i = p.strongAt j ∧ a.weakAt i = p.weakAt j) ∧
          verifyDualFinalizersVotes pending a p (i + 1) fs = .ok () := by
      rw [verifyDualFinalizersVotes]
      cases hj : pending.indexOf f.publicKey with
      | none => simp
      | some j =>
        simp only [voteSameAt_of_reach (ha.reaches hlt) (hp.reaches (indexOf_lt hj)), ok_bind, unit_bind_ok_iff, eosAssert_ok_iff,
          Bool.and_eq_true, beq_iff_eq, Option.some.injEq, forall_eq']
    rw [hstep, ih]
    constructor
    · rintro ⟨h1, h2⟩ k g j hk hg hj
      rcases Nat.eq_or_lt_of_le hk with rfl | hk
      · rw [hi] at hg
        obtain rfl := Option.some.inj hg
        exact h1 j hj
      · exact h2 k g j hk hg hj
    · intro h
      exact ⟨fun j hj => h i f j (Nat.le_refl _) hi hj, fun k g j hk => h k g j (by omega)⟩

namespace Qc

def Accepted (qc : Qc) (pol : FinalizerPolicies) : Prop :=
  qc.activePolicySig.FormatOk pol.activeFinalizerPolicy ∧ qc.activePolicySig.QuorumOk pol.activeFinalizerPolicy ∧
    match qc.pendingPolicySig, pol.pendingFinalizerPolicy with
    | some p, some pending => DualOk pol.activeFinalizerPolicy pending qc.activePolicySig p ∧ p.FormatOk pending ∧
        p.QuorumOk pending
    | none, none => True
    | _, _ => False

theorem verifyBasic_ok_iff {qc : Qc} {pol : FinalizerPolicies} : qc.verifyBasic pol = .ok () ↔ qc.Accepted pol := by
  unfold verifyBasic Accepted
  rw [unit_bind_ok_iff, unit_bind_ok_iff, verifyVoteFormat_ok_iff]
  refine and_congr_right fun ha => ?_
  rw [verifyWeights_ok_iff ha]
  refine and_congr_right fun _ => ?_
  cases qc.pendingPolicySig with
  | none => cases pol.pendingFinalizerPolicy <;> simp
  | some p =>
    cases pol.pendingFinalizerPolicy with
    | none => simp
    | some pending =>
      simp only [unit_bind_ok_iff, verifyVoteFormat_ok_iff]
      constructor
      · rintro ⟨hd, hp, hw⟩
        refine ⟨fun i f j hf => ?_, hp, (verifyWeights_ok_iff hp).1 hw⟩
        exact (verifyDualFinalizersVotes_ok_iff ha hp _ 0 rfl).1 hd i f j (Nat.zero_le _) hf
      · rintro ⟨hd, hp, hw⟩
        refine ⟨(verifyDualFinalizersVotes_ok_iff ha hp _ 0 rfl).2 (fun k f j _ => hd k f j), hp, ?_⟩
        exact (verifyWeights_ok_iff hp).2 hw

end Qc

/-! ## No bitset is read outside its size

The dual finalizers are compared before the pending part's format is checked: a pending bitset that is too short for one of
them is read outside its size. -/

abbrev Refuses {α : Type} (r : Result α) : Prop := FailsOnly (fun e => ∃ msg, e = .thrown .invalidQc msg) r

theorem refuses_eosAssert (c : Bool) (msg : String) : Refuses (eosAssert c .invalidQc msg) :=
  failsOnly_eosAssert ⟨msg, rfl⟩ c

theorem QcSig.refuses_verifyExclusive {strong weak : VoteBitset} (hl : strong.length = weak.length) :
    ∀ n ≤ strong.length, Refuses (verifyExclusive strong weak n)
  | 0, _ => failsOnly_ok ()
  | n + 1, hn => by
    refine (refuses_verifyExclusive hl n (by omega)).bind fun _ _ => ?_
    rw [get_of_lt (by omega), ok_bind, get_of_lt (by omega)]
    cases strong.getD n false
    · exact failsOnly_ok ()
    · exact refuses_eosAssert (!(true && weak.getD n false)) _

theorem QcSig.refuses_verifyVoteFormat (s : QcSig) (p : FinalizerPolicy) : Refuses (s.verifyVoteFormat p) := by
  refine (refuses_eosAssert _ _).bind fun _ _ => ?_
  refine (refuses_eosAssert _ _).bind fun _ hs => (refuses_eosAssert _ _).bind fun _ hw => ?_
  have hst := verifyBitsetSize_ok_iff.1 hs
  have hwe := verifyBitsetSize_ok_iff.1 hw
  split
  · rename_i strong weak hss hww
    exact refuses_verifyExclusive (by rw [hst strong hss, hwe weak hww]) _ (Nat.le_refl _)
  · exact failsOnly_ok ()

theorem QcSig.refuses_verifyWeights {s : QcSig} (h : s.FormatOk p) : Refuses (s.verifyWeights p) := by
  unfold verifyWeights
  rw [weights_eq h.strongLen, weights_eq h.weakLen, ok_bind, ok_bind]
  split <;> exact refuses_eosAssert _ _

theorem votedAt_outside {votes : Option VoteBitset} (h : ¬ ∀ b, votes = some b → i < b.length) :
    votedAt votes i = .error (.assertion "pos < m_num_bits") := by
  cases votes with
  | none => exact absurd (fun b hb => by cases hb) h
  | some b =>
    have hle : b.length ≤ i := by simpa using h
    simp [votedAt, VoteBitset.get, getElem?_eq_none hle]

theorem QcSig.voteSameAt_outside {s t : QcSig} (hs : s.Reaches i) (ht : ¬ t.Reaches j) :
    s.voteSameAt t i j = .error (.assertion "pos < m_num_bits") := by
  rw [voteSameAt, assertThat_bind (votedAt_of_reach hs.1).2, assertThat_bind (votedAt_of_reach hs.2).2,
    (votedAt_of_reach hs.1).1, ok_bind]
  by_cases hst : ∀ b, t.strongVotes = some b → j < b.length
  · have hweak : ¬ ∀ b, t.weakVotes = some b → j < b.length := fun hwe => ht ⟨hst, hwe⟩
    rw [(votedAt_of_reach hst).1, ok_bind, (votedAt_of_reach hs.2).1, ok_bind, votedAt_outside hweak]
    rfl
  · rw [votedAt_outside hst]
    rfl

/-- Each finalizer of both policies, from position `i` on, is within reach of the pending part if those before it are counted
alike in both parts. -/
def ReachedFrom (active pending : FinalizerPolicy) (a p : QcSig) (i : Nat) : Prop :=
  ∀ k f j, i ≤ k → active.finalizers[k]? = some f → pending.indexOf f.publicKey = some j →
    (∀ l g m, i ≤ l → l < k → active.finalizers[l]? = some g → pending.indexOf g.publicKey = some m →
      a.strongAt l = p.strongAt m ∧ a.weakAt l = p.weakAt m) → p.Reaches j

/-- The finalizers after `i` decide, when the one at `i` passes. -/
theorem reachedFrom_succ {active pending : FinalizerPolicy} {a p : QcSig} {i : Nat} {f : FinalizerAuthority}
    (hi : active.finalizers[i]? = some f) (hpass : ∀ j, pending.indexOf f.publicKey = some j →
      p.Reaches j ∧ a.strongAt i = p.strongAt j ∧ a.weakAt i = p.weakAt j) :
    ReachedFrom active pending a p (i + 1) ↔ ReachedFrom active pending a p i := by
  constructor
  · intro h k g j hk hg hj hbefore
    rcases Nat.eq_or_lt_of_le hk with rfl | hk
    · cases hi.symm.trans hg
      exact (hpass j hj).1
    · exact h k g j hk hg hj fun l g' m hl => hbefore l g' m (by omega)
  · intro h k g j hk hg hj hbefore
    refine h k g j (by omega) hg hj fun l g' m hl hlk hg' hm => ?_
    rcases Nat.eq_or_lt_of_le hl with rfl | hl
    · cases hi.symm.trans hg'
      exact (hpass m hm).2
    · exact hbefore l g' m hl hlk hg' hm

theorem refuses_verifyDualFinalizersVotes_iff {active pending : FinalizerPolicy} {a p : QcSig}
    (ha : ∀ k < active.finalizers.length, a.Reaches k) : ∀ fs (i : Nat), active.finalizers.drop i = fs →
      (Refuses (verifyDualFinalizersVotes pending a p i fs) ↔ ReachedFrom active pending a p i)
  | [], i, hd => by
    refine iff_of_true (failsOnly_ok ()) fun k f j hk hf => ?_
    have := (List.getElem?_eq_some_iff.1 hf).1
    have := drop_eq_nil_iff.1 hd
    omega
  | f :: fs, i, hd => by
    obtain ⟨hi, hfs⟩ := next_finalizer hd
    have hlt := (List.getElem?_eq_some_iff.1 hi).1
    have ih := @refuses_verifyDualFinalizersVotes_iff active pending a p ha fs (i + 1) hfs
    rw [verifyDualFinalizersVotes]
    cases hj : pending.indexOf f.publicKey with
    | none => exact ih.trans (reachedFrom_succ hi fun j h => by rw [hj] at h; cases h)
    | some j =>
      by_cases hr : p.Reaches j
      · simp only [voteSameAt_of_reach (ha i hlt) hr, ok_bind]
        by_cases hsame : (a.strongAt i == p.strongAt j && a.weakAt i == p.weakAt j) = true
        · rw [hsame]
          simp only [Bool.and_eq_true, beq_iff_eq] at hsame
          refine ih.trans (reachedFrom_succ hi fun j' h => ?_)
          cases hj.symm.trans h
          exact ⟨hr, hsame⟩
        · rw [Bool.not_eq_true] at hsame
          rw [hsame]
          refine iff_of_true (failsOnly_error ⟨_, rfl⟩) fun k g m hk hg hm hbefore => ?_
          rcases Nat.eq_or_lt_of_le hk with rfl | hk
          · cases hi.symm.trans hg
            cases hj.symm.trans hm
            exact hr
          · have halike := hbefore i f j (Nat.le_refl i) hk hi hj
            simp [halike.1, halike.2] at hsame
      · simp only [voteSameAt_outside (ha i hlt) hr]
        refine iff_of_false (fun href => ?_) fun h => hr (h i f j (Nat.le_refl i) hi hj fun l g m hl hlk => by omega)
        obtain ⟨msg, hmsg⟩ := href _ rfl
        cases hmsg

namespace Qc

/-- **When `verify_basic` returns or throws `invalid_qc`**, so that no bitset is read outside its size: exactly if a check of the
active part refuses the certificate first, or there is not both a pending part and a pending policy, or the first finalizer of
both policies that is out of reach of the pending part comes after one that is not counted alike. -/
theorem verifyBasic_refuses_iff (qc : Qc) (pol : FinalizerPolicies) :
    (qc.verifyBasic pol = .ok () ∨ ∃ msg, qc.verifyBasic pol = .error (.thrown .invalidQc msg)) ↔
      (qc.activePolicySig.FormatOk pol.activeFinalizerPolicy → qc.activePolicySig.QuorumOk pol.activeFinalizerPolicy →
        ∀ sig pending, qc.pendingPolicySig = some sig → pol.pendingFinalizerPolicy = some pending →
          ReachedFrom pol.activeFinalizerPolicy pending qc.activePolicySig sig 0) := by
  have href : (qc.verifyBasic pol = .ok () ∨ ∃ msg, qc.verifyBasic pol = .error (.thrown .invalidQc msg)) ↔
      Refuses (qc.verifyBasic pol) := by
    cases h : qc.verifyBasic pol with
    | ok u => exact iff_of_true (.inl rfl) (failsOnly_ok ())
    | error e => simp [Refuses, FailsOnly]
  rw [href]
  unfold verifyBasic
  by_cases hf : qc.activePolicySig.FormatOk pol.activeFinalizerPolicy
  · rw [verifyVoteFormat_ok_iff.2 hf, ok_bind]
    by_cases hq : qc.activePolicySig.QuorumOk pol.activeFinalizerPolicy
    · rw [(verifyWeights_ok_iff hf).2 hq, ok_bind]
      cases hsig : qc.pendingPolicySig with
      | none =>
        refine iff_of_true ?_ (fun _ _ sig _ h => by cases h)
        cases pol.pendingFinalizerPolicy with
        | none => exact failsOnly_ok ()
        | some pending => exact failsOnly_error ⟨_, rfl⟩
      | some sig =>
        cases hpo : pol.pendingFinalizerPolicy with
        | none => exact iff_of_true (failsOnly_error ⟨_, rfl⟩) fun _ _ _ _ _ h => by cases h
        | some pending =>
          have hdual := @refuses_verifyDualFinalizersVotes_iff pol.activeFinalizerPolicy pending qc.activePolicySig sig
            (fun k => hf.reaches) pol.activeFinalizerPolicy.finalizers 0 rfl
          constructor
          · intro h _ _ sig' pending' hs hp
            cases hs
            cases hp
            refine hdual.1 fun e he => h e ?_
            dsimp only
            rw [he]
            rfl
          · intro h
            refine (hdual.2 (h hf hq sig pending rfl rfl)).bind fun _ _ => ?_
            exact (refuses_verifyVoteFormat _ _).bind fun _ hp => refuses_verifyWeights (verifyVoteFormat_ok_iff.1 hp)
    · refine iff_of_true ?_ fun _ h => absurd h hq
      exact (refuses_verifyWeights hf).bind fun _ h => absurd ((verifyWeights_ok_iff hf).1 h) hq
  · refine iff_of_true ?_ fun h => absurd h hf
    exact (refuses_verifyVoteFormat _ _).bind fun _ h => absurd (verifyVoteFormat_ok_iff.1 h) hf

def samplePolicies : FinalizerPolicies :=
  ⟨0, ⟨1, 1, [⟨"a", 1, 7⟩]⟩, some ⟨2, 1, [⟨"a", 1, 7⟩]⟩⟩

def sampleQc (pendingVotes : VoteBitset) : Qc :=
  ⟨1, ⟨some [true], none, []⟩, some ⟨some pendingVotes, none, []⟩⟩

/-- **An empty pending bitset is read at index 0.** -/
theorem verifyBasic_reads_outside :
    (sampleQc []).verifyBasic samplePolicies = .error (.assertion "pos < m_num_bits") := by decide

end Qc
end TheChannel
