import TheChannel.LibFlatMap
import TheChannel.QcBest
/-!
# QcMetrics — who voted in a certificate

`aggregating_qc_t::vote_metrics` and `missing_votes`. A `fin_auth_set_t` orders its elements by public key; `insert` leaves
an element with the key as it is. So a finalizer of both policies keeps the generation of the active policy, which is
added first, where the comments in the source have the pending one.
-/
namespace TheChannel
open QcSig
open List hiding set

structure FinAuth where
  finAuth : FinalizerAuthority
  generation : Nat
  deriving DecidableEq

abbrev FinAuthSet := List (PublicKey × FinAuth)

def FinAuthSet.insert (set : FinAuthSet) (x : FinAuth) : FinAuthSet :=
  if x.finAuth.publicKey ∈ set.map Prod.fst then set else assign x.finAuth.publicKey x set

def FinAuthSet.insertAll (generation : Nat) (fs : List FinalizerAuthority) (set : FinAuthSet) : FinAuthSet :=
  fs.foldl (fun set f => set.insert ⟨f, generation⟩) set

def pick {α : Type} (P : Nat → Bool) : List α → List α
  | [] => []
  | f :: fs => if P 0 then f :: pick (fun i => P (i + 1)) fs else pick (fun i => P (i + 1)) fs

structure QcVoteMetrics where
  strongVotes : FinAuthSet
  weakVotes : FinAuthSet
  missingVotes : FinAuthSet
  deriving DecidableEq

namespace QcVoteMetrics

/-- The lambda `add_votes`: how many it inserts, and the set. -/
def addVotes (policy : FinalizerPolicy) (votes : VoteBitset) (results : FinAuthSet) : Result (Nat × FinAuthSet) := do
  assertThat "votes.size() == finalizer_policy->finalizers.size()" (votes.length == policy.finalizers.length)
  let voters := pick (fun i => votes.getD i false) policy.finalizers
  return (voters.length, results.insertAll policy.generation voters)

def addPresent (policy : FinalizerPolicy) (votes : Option VoteBitset) (added : Nat) (results : FinAuthSet) :
    Result (Nat × FinAuthSet) :=
  match votes with
  | some votes => addVotes policy votes results
  | none => .ok (added, results)

/-- The lambda `add_policy_votes`; the weak votes overwrite `added`. -/
def addPolicyVotes (policy : FinalizerPolicy) (sig : QcSig) (m : QcVoteMetrics) : Result QcVoteMetrics := do
  let strong ← addPresent policy sig.strongVotes 0 m.strongVotes
  let weak ← addPresent policy sig.weakVotes strong.1 m.weakVotes
  if weak.1 = policy.finalizers.length then return ⟨strong.2, weak.2, m.missingVotes⟩
  else
    let voted := sig.strongVotes.getD (replicate policy.finalizers.length false)
    assertThat "not_voted.size() == qc_sig.weak_votes->size()"
      (sig.weakVotes.all (fun votes => voted.length == votes.length))
    let missing ← addVotes policy ((sig.weakVotes.elim voted (zipWith or voted)).map not) m.missingVotes
    return ⟨strong.2, weak.2, missing.2⟩

def voteMetrics (active : FinalizerPolicy) (pending : Option FinalizerPolicy) (qc : Qc) : Result QcVoteMetrics := do
  let m ← addPolicyVotes active qc.activePolicySig ⟨[], [], []⟩
  match pending, qc.pendingPolicySig with
  | none, _ => return m
  | some p, some sig => addPolicyVotes p sig m
  | some _, none => .error (.undefined "*qc.pending_policy_sig")

def addNotVoted (policy : FinalizerPolicy) (sig : QcSig) (notVoted : FinAuthSet) : Result FinAuthSet := do
  assertThat "qc_sig.strong_votes || qc_sig.weak_votes" (sig.strongVotes.isSome || sig.weakVotes.isSome)
  let votes := sig.strongVotes.getD (sig.weakVotes.getD [])
  let otherVotes := if sig.strongVotes.isSome then sig.weakVotes else sig.strongVotes
  assertThat "votes.size() == finalizers.size()" (votes.length == policy.finalizers.length)
  assertThat "!other_votes || other_votes->size() == finalizers.size()"
    (otherVotes.all (fun other => other.length == policy.finalizers.length))
  let missing := pick (fun i => !votes.getD i false && !(otherVotes.getD []).getD i false) policy.finalizers
  return notVoted.insertAll policy.generation missing

def missingVotesOf (active : FinalizerPolicy) (pending : Option FinalizerPolicy) (qc : Qc) : Result FinAuthSet := do
  let notVoted ← addNotVoted active qc.activePolicySig []
  match pending, qc.pendingPolicySig with
  | none, _ => return notVoted
  | some p, some sig => addNotVoted p sig notVoted
  | some _, none => .error (.undefined "*qc.pending_policy_sig")

end QcVoteMetrics

/-! ## Picking finalizers -/

section Pick

variable {α : Type}

theorem pick_congr : ∀ {fs : List α} {P Q : Nat → Bool}, (∀ i < fs.length, P i = Q i) → pick P fs = pick Q fs
  | [], _, _, _ => rfl
  | f :: fs, P, Q, h => by
    rw [length_cons] at h
    rw [pick, pick, h 0 (by omega), pick_congr (fun i hi => h (i + 1) (by omega))]

theorem mem_pick : ∀ {fs} {P : Nat → Bool} {f : α}, f ∈ pick P fs ↔ ∃ i, fs[i]? = some f ∧ P i = true
  | [], P, f => by simp [pick]
  | g :: fs, P, f => by
    have hs : (∃ i, (g :: fs)[i]? = some f ∧ P i = true) ↔
        (g = f ∧ P 0 = true) ∨ ∃ i, fs[i]? = some f ∧ P (i + 1) = true := by
      refine ⟨fun ⟨i, hi⟩ => ?_, fun h => ?_⟩
      · cases i with
        | zero => exact .inl (by simpa using hi)
        | succ i => exact .inr ⟨i, by simpa using hi⟩
      · rcases h with ⟨rfl, h0⟩ | ⟨i, hi⟩
        · exact ⟨0, by simpa using h0⟩
        · exact ⟨i + 1, by simpa using hi⟩
    rw [hs, pick]
    split
    · rename_i h0
      rw [mem_cons, mem_pick, eq_comm, and_iff_left h0]
    · rename_i h0
      rw [mem_pick, or_iff_right (fun h => h0 h.2)]

theorem pick_length_le : ∀ (fs : List α) (P : Nat → Bool), (pick P fs).length ≤ fs.length
  | [], _ => le_rfl
  | f :: fs, P => by
    have := pick_length_le fs fun i => P (i + 1)
    rw [pick]
    split <;> simp only [length_cons] <;> omega

theorem all_of_pick_length : ∀ {fs : List α} {P : Nat → Bool}, (pick P fs).length = fs.length →
    ∀ i < fs.length, P i = true
  | f :: fs, P, h, i, hi => by
    have hle := pick_length_le fs fun i => P (i + 1)
    rw [pick] at h
    split at h
    · rename_i h0
      rw [length_cons, length_cons, Nat.succ_inj] at h
      cases i with
      | zero => exact h0
      | succ i => exact all_of_pick_length h i (by simpa using hi)
    · rw [length_cons] at h
      omega

end Pick

/-! ## The sets -/

variable {generation : Nat}

theorem key_mem_insertAll {k : PublicKey} : ∀ {fs : List FinalizerAuthority} {set : FinAuthSet},
    k ∈ (set.insertAll generation fs).map Prod.fst ↔ (∃ f ∈ fs, f.publicKey = k) ∨ k ∈ set.map Prod.fst
  | [], set => by simp [FinAuthSet.insertAll]
  | f :: fs, set => by
    have hins : k ∈ (set.insert ⟨f, generation⟩).map Prod.fst ↔ f.publicKey = k ∨ k ∈ set.map Prod.fst := by
      unfold FinAuthSet.insert
      split
      · rename_i hmem
        exact ⟨.inr, fun h => h.elim (· ▸ hmem) id⟩
      · rw [key_mem_assign, eq_comm]
    show k ∈ ((set.insert ⟨f, generation⟩).insertAll generation fs).map Prod.fst ↔ _
    rw [key_mem_insertAll, hins, exists_mem_cons_iff, or_left_comm, or_assoc]

theorem mem_insertAll {e : PublicKey × FinAuth} : ∀ {fs : List FinalizerAuthority} {set : FinAuthSet},
    e ∈ set.insertAll generation fs →
      e ∈ set ∨ (e.2.generation = generation ∧ e.1 ∉ set.map Prod.fst ∧ ∃ f ∈ fs, f.publicKey = e.1)
  | [], set, h => .inl h
  | f :: fs, set, h => by
    have h : e ∈ (set.insert ⟨f, generation⟩).insertAll generation fs := h
    unfold FinAuthSet.insert at h
    split at h
    · exact (mem_insertAll h).imp_right fun ⟨hg, hk, g, hg', hgk⟩ => ⟨hg, hk, g, mem_cons_of_mem _ hg', hgk⟩
    · rename_i hnot
      rcases mem_insertAll h with h | ⟨hg, hk, g, hg', hgk⟩
      · rcases mem_assign h with rfl | h
        · exact .inr ⟨rfl, hnot, f, mem_cons_self, rfl⟩
        · exact .inl h
      · rw [key_mem_assign, not_or] at hk
        exact .inr ⟨hg, hk.2, g, mem_cons_of_mem _ hg', hgk⟩

/-! ## How a finalizer is counted -/

inductive VoteKind
  | strong
  | weak
  | missing
  deriving DecidableEq

def QcSig.kindAt (s : QcSig) (i : Nat) : VoteKind :=
  if s.strongAt i then .strong else if s.weakAt i then .weak else .missing

namespace QcVoteMetrics

def votes (m : QcVoteMetrics) : VoteKind → FinAuthSet
  | .strong => m.strongVotes
  | .weak => m.weakVotes
  | .missing => m.missingVotes

def counted (policy : FinalizerPolicy) (sig : QcSig) (kind : VoteKind) : List FinalizerAuthority :=
  pick (fun i => sig.kindAt i == kind) policy.finalizers

variable {policy active pending : FinalizerPolicy} {sig : QcSig} {m : QcVoteMetrics} {kind kind' : VoteKind} {k : PublicKey}

theorem counted_weak (h : sig.FormatOk policy) : pick sig.weakAt policy.finalizers = counted policy sig .weak :=
  pick_congr fun i _ => by
    have := h.exclusive i
    unfold kindAt
    cases hs : sig.strongAt i <;> cases hw : sig.weakAt i <;> simp_all

theorem counted_missing : pick (fun i => !sig.strongAt i && !sig.weakAt i) policy.finalizers =
    counted policy sig .missing :=
  pick_congr fun i _ => by unfold kindAt; cases sig.strongAt i <;> cases sig.weakAt i <;> rfl

theorem addVotes_eq {votes : VoteBitset} (h : votes.length = policy.finalizers.length) (set : FinAuthSet) :
    addVotes policy votes set = .ok ((pick (fun i => votes.getD i false) policy.finalizers).length,
      set.insertAll policy.generation (pick (fun i => votes.getD i false) policy.finalizers)) := by
  rw [addVotes, assertThat_bind (by simpa using h)]
  rfl

theorem addPresent_eq {votes : Option VoteBitset} (h : ∀ b, votes = some b → b.length = policy.finalizers.length)
    (added : Nat) (set : FinAuthSet) : addPresent policy votes added set =
      .ok (votes.elim added (fun b => (pick (fun i => b.getD i false) policy.finalizers).length),
        set.insertAll policy.generation (pick (fun i => (votes.getD []).getD i false) policy.finalizers)) := by
  cases votes with
  | none =>
    have hn : pick (fun i => ([] : VoteBitset).getD i false) policy.finalizers = [] :=
      eq_nil_iff_forall_not_mem.2 fun f hf => by simpa using mem_pick.1 hf
    show _ = Except.ok (added, set.insertAll policy.generation (pick (fun i => ([] : VoteBitset).getD i false) _))
    rw [hn]
    rfl
  | some b => exact addVotes_eq (h b rfl) set

theorem counted_missing_of_added (hadd : sig.weakVotes.elim
      (sig.strongVotes.elim 0 fun b => (pick (fun i => b.getD i false) policy.finalizers).length)
      (fun b => (pick (fun i => b.getD i false) policy.finalizers).length) = policy.finalizers.length) :
    counted policy sig .missing = [] := by
  have hv : ∀ i < policy.finalizers.length, sig.strongAt i = true ∨ sig.weakAt i = true := by
    intro i hi
    unfold strongAt weakAt
    cases hw : sig.weakVotes with
    | some b =>
      rw [hw] at hadd
      exact .inr (all_of_pick_length hadd i hi)
    | none =>
      cases hs : sig.strongVotes with
      | some b =>
        rw [hw, hs] at hadd
        exact .inl (all_of_pick_length hadd i hi)
      | none =>
        rw [hw, hs] at hadd
        exact absurd hadd (Nat.ne_of_lt (Nat.zero_lt_of_lt hi))
  refine eq_nil_iff_forall_not_mem.2 fun f hf => ?_
  rw [← counted_missing, mem_pick] at hf
  obtain ⟨i, hi, hn⟩ := hf
  rcases hv i (List.getElem?_eq_some_iff.1 hi).1 with h | h <;> simp [h] at hn

theorem notVoted_eq (h : sig.FormatOk policy) {st : VoteBitset}
    (hst : sig.strongVotes.getD (replicate policy.finalizers.length false) = st) (set : FinAuthSet) :
    addVotes policy ((sig.weakVotes.elim st (zipWith or st)).map not) set =
    .ok ((counted policy sig .missing).length, set.insertAll policy.generation (counted policy sig .missing)) := by
  have hlen : st.length = policy.finalizers.length := by
    cases hs : sig.strongVotes with
    | none => simp [← hst, hs]
    | some b => simpa [← hst, hs] using h.strongLen b hs
  have hget : ∀ i < policy.finalizers.length, st[i]? = some (sig.strongAt i) := by
    intro i hi
    unfold strongAt
    cases hs : sig.strongVotes with
    | none => simp [← hst, hs, hi]
    | some b => simp [← hst, hs, h.strongLen b hs, hi]
  rw [addVotes_eq, ← counted_missing]
  · refine congrArg (fun l => Except.ok (l.length, set.insertAll policy.generation l)) (pick_congr fun i hi => ?_)
    have hst := hget i hi
    unfold weakAt
    cases hw : sig.weakVotes with
    | none => simp [getD_eq_getElem?_getD, hst]
    | some b =>
      obtain ⟨w, hb⟩ : ∃ w, b[i]? = some w := ⟨_, getElem?_eq_getElem (by rw [h.weakLen b hw]; exact hi)⟩
      rw [getD_eq_getElem?_getD, getElem?_map, Option.elim_some, getElem?_zipWith, hst, hb,
        Option.getD_some, getD_eq_getElem?_getD, hb]
      cases sig.strongAt i <;> cases w <;> rfl
  · cases hw : sig.weakVotes with
    | none => simpa using hlen
    | some b => simp [hlen, h.weakLen b hw]

theorem addPolicyVotes_eq (h : sig.FormatOk policy) (m : QcVoteMetrics) : ∃ m', addPolicyVotes policy sig m = .ok m' ∧
    ∀ kind, m'.votes kind = (m.votes kind).insertAll policy.generation (counted policy sig kind) := by
  have hst : pick sig.strongAt policy.finalizers = counted policy sig .strong :=
    pick_congr fun i _ => by unfold kindAt; cases sig.strongAt i <;> cases sig.weakAt i <;> rfl
  have hwe := counted_weak h
  have hsi : sig.weakVotes.all (fun votes =>
      (sig.strongVotes.getD (replicate policy.finalizers.length false)).length == votes.length) = true := by
    cases hw : sig.weakVotes with
    | none => rfl
    | some b =>
      cases hs : sig.strongVotes with
      | none => simp [h.weakLen b hw]
      | some a => simp [h.weakLen b hw, h.strongLen a hs]
  unfold addPolicyVotes
  rw [addPresent_eq h.strongLen, ok_bind, addPresent_eq h.weakLen, ok_bind]
  split
  · rename_i hadd
    have hm := counted_missing_of_added hadd
    refine ⟨_, rfl, fun kind => ?_⟩
    cases kind with
    | strong => exact congrArg _ hst
    | weak => exact congrArg _ hwe
    | missing => rw [hm]; rfl
  · simp only [assertThat_bind hsi, notVoted_eq h rfl m.missingVotes, ok_bind]
    refine ⟨_, rfl, fun kind => ?_⟩
    cases kind with
    | strong => exact congrArg _ hst
    | weak => exact congrArg _ hwe
    | missing => rfl

theorem addNotVoted_eq (h : sig.FormatOk policy) (set : FinAuthSet) :
    addNotVoted policy sig set = .ok (set.insertAll policy.generation (counted policy sig .missing)) := by
  rw [addNotVoted, ← counted_missing]
  unfold strongAt weakAt
  have hpre := h.present
  cases hs : sig.strongVotes with
  | none =>
    cases hw : sig.weakVotes with
    | none => simp [hs, hw] at hpre
    | some b => simp [assertThat, h.weakLen b hw, Bool.and_comm]
  | some a =>
    cases hw : sig.weakVotes with
    | none => simp [assertThat, h.strongLen a hs]
    | some b => simp [assertThat, h.strongLen a hs, h.weakLen b hw]

/-! ## Each finalizer is in one set -/

def Counts (policy : FinalizerPolicy) (sig : QcSig) (kind : VoteKind) (k : PublicKey) : Prop :=
  ∃ f ∈ counted policy sig kind, f.publicKey = k

theorem counts_iff : Counts policy sig kind k ↔
    ∃ i f, policy.finalizers[i]? = some f ∧ f.publicKey = k ∧ sig.kindAt i = kind := by
  constructor
  · rintro ⟨f, hf, hk⟩
    obtain ⟨i, hi, hki⟩ := mem_pick.1 hf
    exact ⟨i, f, hi, hk, by simpa using hki⟩
  · rintro ⟨i, f, hi, hk, hki⟩
    exact ⟨f, mem_pick.2 ⟨i, hi, by simpa using hki⟩, hk⟩

theorem counts_of_mem (h : ∃ f ∈ policy.finalizers, f.publicKey = k) : ∃ kind, Counts policy sig kind k := by
  obtain ⟨f, hf, hk⟩ := h
  obtain ⟨i, hi⟩ := getElem?_of_mem hf
  exact ⟨_, counts_iff.2 ⟨i, f, hi, hk, rfl⟩⟩

theorem counts_unique (hp : policy.Wf) (h : Counts policy sig kind k)
    (h' : Counts policy sig kind' k) : kind = kind' := by
  obtain ⟨i, f, hi, hk, rfl⟩ := counts_iff.1 h
  obtain ⟨j, g, hj, hk', rfl⟩ := counts_iff.1 h'
  rw [key_unique hp hi hj (hk.trans hk'.symm)]

theorem counts_dual {a p : QcSig} (hp : pending.Wf) (hd : DualOk active pending a p)
    (h : Counts active a kind k) (h' : Counts pending p kind' k) : kind = kind' := by
  obtain ⟨i, f, hi, rfl, rfl⟩ := counts_iff.1 h
  obtain ⟨j, g, hj, hk, rfl⟩ := counts_iff.1 h'
  cases hin : pending.indexOf f.publicKey with
  | none => exact absurd hk (indexOf_none hin hj)
  | some j' =>
    obtain rfl := (indexOf_eq_iff hp hin hj).2 hk
    obtain ⟨hs, hw⟩ := hd i f j hi hin
    unfold kindAt
    rw [hs, hw]

theorem existsUnique_counts {a p : QcSig} (ha : active.Wf) (hp : pending.Wf) (hd : DualOk active pending a p)
    (hk : (∃ f ∈ active.finalizers, f.publicKey = k) ∨ ∃ f ∈ pending.finalizers, f.publicKey = k) :
    ∃! kind, Counts pending p kind k ∨ Counts active a kind k := by
  have huni : ∀ {c c'}, Counts pending p c k ∨ Counts active a c k → Counts pending p c' k ∨ Counts active a c' k →
      c' = c := by
    rintro c c' (h | h) (h' | h')
    · exact counts_unique hp h' h
    · exact counts_dual hp hd h' h
    · exact (counts_dual hp hd h h').symm
    · exact counts_unique ha h' h
  obtain ⟨kind, hki⟩ : ∃ kind, Counts pending p kind k ∨ Counts active a kind k := by
    rcases hk with hk | hk
    · obtain ⟨kind, h⟩ := counts_of_mem hk
      exact ⟨kind, .inr h⟩
    · obtain ⟨kind, h⟩ := counts_of_mem hk
      exact ⟨kind, .inl h⟩
  exact ⟨kind, hki, fun c hc => huni hki hc⟩

theorem key_mem_votes {active : FinalizerPolicy} {a : QcSig} :
    k ∈ (FinAuthSet.insertAll active.generation (counted active a kind) []).map Prod.fst ↔ Counts active a kind k := by
  rw [key_mem_insertAll]
  exact or_iff_left not_mem_nil

theorem generation_iff {a p : QcSig} (ha : active.Wf) (hp : pending.Wf) (hd : DualOk active pending a p) {e : PublicKey × FinAuth}
    (he : e ∈ FinAuthSet.insertAll pending.generation (counted pending p kind)
      (FinAuthSet.insertAll active.generation (counted active a kind) [])) :
    e.2.generation = pending.generation ↔
      (¬ ∃ f ∈ active.finalizers, f.publicKey = e.1) ∨ active.generation = pending.generation := by
  by_cases hin : ∃ f ∈ active.finalizers, f.publicKey = e.1
  · -- both policies count it alike, so what the active one inserted is there already
    obtain ⟨kind', hact⟩ : ∃ kind', Counts active a kind' e.1 := counts_of_mem hin
    obtain rfl : kind' = kind := by
      rcases key_mem_insertAll.1 (mem_map_of_mem he) with hc | hc
      · exact counts_dual hp hd hact hc
      · exact counts_unique ha hact (key_mem_votes.1 hc)
    have hold := (mem_insertAll he).resolve_right fun h => h.2.1 (key_mem_votes.2 hact)
    rw [((mem_insertAll hold).resolve_left not_mem_nil).1, or_iff_right (not_not.2 hin)]
  · refine iff_of_true ?_ (.inl hin)
    rcases mem_insertAll he with hold | ⟨hg, -, -⟩
    · obtain ⟨-, -, f, hf, hk⟩ := (mem_insertAll hold).resolve_left not_mem_nil
      obtain ⟨i, hi, -⟩ := mem_pick.1 hf
      exact absurd ⟨f, mem_of_getElem? hi, hk⟩ hin
    · exact hg

/-- **The metrics of an accepted certificate**: the finalizers of both policies are each in exactly one set, and the missing
ones are those of `missing_votes`. A finalizer of the pending policy is reported with its generation exactly if the active
policy does not have the finalizer, or has the same generation. -/
theorem voteMetrics_of_accepted {qc : Qc} {pol : FinalizerPolicies} (hqc : qc.verifyBasic pol = .ok ())
    (hactive : pol.activeFinalizerPolicy.Wf) (hpending : ∀ p, pol.pendingFinalizerPolicy = some p → p.Wf) :
    ∃ m, voteMetrics pol.activeFinalizerPolicy pol.pendingFinalizerPolicy qc = .ok m ∧
      missingVotesOf pol.activeFinalizerPolicy pol.pendingFinalizerPolicy qc = .ok m.missingVotes ∧
      (∀ k, ((∃ f ∈ pol.activeFinalizerPolicy.finalizers, f.publicKey = k) ∨
        ∃ p, pol.pendingFinalizerPolicy = some p ∧ ∃ f ∈ p.finalizers, f.publicKey = k) →
          ∃! kind, k ∈ (m.votes kind).map Prod.fst) ∧
      ∀ p, pol.pendingFinalizerPolicy = some p → ∀ kind, ∀ e ∈ m.votes kind, (∃ f ∈ p.finalizers, f.publicKey = e.1) →
        (e.2.generation = p.generation ↔ (¬ ∃ f ∈ pol.activeFinalizerPolicy.finalizers, f.publicKey = e.1) ∨
          pol.activeFinalizerPolicy.generation = p.generation) := by
  obtain ⟨hfo, -, hpa⟩ := Qc.verifyBasic_ok_iff.1 hqc
  obtain ⟨m, hm, hv⟩ := addPolicyVotes_eq hfo ⟨[], [], []⟩
  have hem : ∀ kind, (QcVoteMetrics.mk [] [] []).votes kind = [] := fun kind => by cases kind <;> rfl
  simp only [hem] at hv
  unfold voteMetrics missingVotesOf
  rw [hm, ok_bind, addNotVoted_eq hfo, ok_bind]
  cases hpo : pol.pendingFinalizerPolicy with
  | none =>
    refine ⟨m, rfl, congrArg Except.ok (hv .missing).symm, fun k hk => ?_, fun p hp => by cases hp⟩
    obtain ⟨kind, hki⟩ : ∃ kind, Counts pol.activeFinalizerPolicy qc.activePolicySig kind k := by
      refine counts_of_mem (hk.resolve_right ?_)
      rintro ⟨p, hp, -⟩
      cases hp
    refine ⟨kind, by simpa only [hv] using key_mem_votes.2 hki, fun kind' h => ?_⟩
    exact counts_unique hactive (key_mem_votes.1 (by simpa only [hv] using h)) hki
  | some pending =>
    cases hsig : qc.pendingPolicySig with
    | none => simp only [hpo, hsig] at hpa
    | some sig =>
      simp only [hpo, hsig] at hpa
      obtain ⟨hd, hf', -⟩ := hpa
      have hwf := hpending pending hpo
      obtain ⟨m', hm', hv'⟩ := addPolicyVotes_eq hf' m
      simp only [hv] at hv'
      refine ⟨m', hm', ?_, fun k hk => ?_, fun p hp kind e he hmem => ?_⟩
      · exact (addNotVoted_eq hf' _).trans (congrArg Except.ok (hv' .missing).symm)
      · simp only [hv', key_mem_insertAll, map_nil, not_mem_nil, or_false]
        refine existsUnique_counts hactive hwf hd (hk.imp_right ?_)
        rintro ⟨p, hp, hk⟩
        cases hp
        exact hk
      · cases hp
        rw [hv'] at he
        exact generation_iff hactive hwf hd he

def sampleDualQc : Qc :=
  ⟨1, ⟨some [true, true, false], some [false, false, true], []⟩, some ⟨some [false, true, false], some [true, false, false], []⟩⟩

theorem voteMetrics_of_accepted_sampleDualQc : ∃ m, voteMetrics sampleActive (some samplePending) sampleDualQc = .ok m ∧
    (∃! kind, 3 ∈ (m.votes kind).map Prod.fst) ∧ ∀ kind, ∀ e ∈ m.votes kind, e.1 = 4 → e.2.generation = 2 := by
  obtain ⟨m, hm, -, hone, hgen⟩ := @voteMetrics_of_accepted sampleDualQc ⟨0, sampleActive, some samplePending⟩ (by decide)
    ⟨by decide, by decide⟩ (fun p hp => by cases hp; exact ⟨by decide, by decide⟩)
  refine ⟨m, hm, hone 3 (.inl (by decide)), fun kind e he hk => ?_⟩
  refine (hgen samplePending rfl kind e he ?_).2 (.inl ?_) <;> rw [hk] <;> decide

/-- **A finalizer of both policies is reported with the active generation.** -/
theorem voteMetrics_active_generation : (Qc.sampleQc [true]).verifyBasic Qc.samplePolicies = .ok () ∧
    voteMetrics Qc.samplePolicies.activeFinalizerPolicy Qc.samplePolicies.pendingFinalizerPolicy (Qc.sampleQc [true]) =
      .ok ⟨[(7, ⟨⟨"a", 1, 7⟩, 1⟩)], [], []⟩ ∧
    Qc.samplePolicies.pendingFinalizerPolicy.map (·.generation) = some 2 := by decide

end QcVoteMetrics
end TheChannel
