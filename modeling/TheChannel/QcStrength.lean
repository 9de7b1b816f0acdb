import Mathlib
import TheChannel.QcAggregateInv
/-!
# QcStrength — which certificate the votes make

The states of one policy's aggregation (`QcAggregate`) commit early to a weak certificate. What a state says of the two sums
(`RightAbout`) is kept by every vote, so for the votes of different finalizers the certificate depends on the votes and not on their
order, but in one case: a weak vote that brings the weak weight exactly to the total less the threshold, while a weak quorum is
there, makes the state final although the rest can still make a strong quorum (`strength_depends_on_order`). `OrderDecides` says
for which votes there is such an order.
-/
namespace TheChannel
open List

structure FinalizerPolicy.Accepted (p : FinalizerPolicy) : Prop extends p.Wf where
  covered : p.threshold.toNat ≤ weightWhere (fun _ => true) p.weights
  half : weightWhere (fun _ => true) p.weights < 2 * p.threshold.toNat

namespace FinalizerPolicy

abbrev totalWeight (p : FinalizerPolicy) : Nat := weightWhere (fun _ => true) p.weights

/-! ## The bound of the weak weight -/

theorem truncated_add (acc : BitVec 32) (w : UInt64) :
    (((acc.signExtend 64 + w.toBitVec).truncate 32 : BitVec 32)) = acc + BitVec.ofNat 32 w.toNat := by
  have hs : (acc.signExtend 64).setWidth 32 = acc := by
    apply BitVec.eq_of_getElem_eq
    intro i hi
    rw [BitVec.getElem_setWidth, BitVec.getLsbD_signExtend]
    simp [hi, show i < 64 by omega]
  rw [BitVec.truncate_eq_setWidth, BitVec.setWidth_add _ _ (by omega), hs]
  congr 1

theorem truncated_foldl (fs : List FinalizerAuthority) : ∀ acc : BitVec 32,
    fs.foldl (fun acc f => (acc.signExtend 64 + f.weight.toBitVec).truncate 32) acc =
      acc + BitVec.ofNat 32 (weightWhere (fun _ => true) (fs.map fun f => f.weight.toNat)) := by
  induction fs with
  | nil =>
    intro acc
    simp [weightWhere]
  | cons f fs ih =>
    intro acc
    rw [foldl_cons, truncated_add, ih, map_cons, weightWhere, if_pos rfl, BitVec.ofNat_add, BitVec.add_assoc]

theorem toNat_signExtend_ofNat (t : Nat) : ((BitVec.ofNat 32 t).signExtend 64).toNat =
    t % 2 ^ 32 + if 2 ^ 31 ≤ t % 2 ^ 32 then 2 ^ 64 - 2 ^ 32 else 0 := by
  rw [BitVec.toNat_signExtend, BitVec.toNat_setWidth, BitVec.toNat_ofNat, BitVec.msb_eq_decide, BitVec.toNat_ofNat]
  simp only [decide_eq_true_eq, Nat.reduceSub]
  omega

theorem maxWeakSum_toNat (p : FinalizerPolicy) : p.maxWeakSumBeforeWeakFinal.toNat =
    (2 ^ 64 - p.threshold.toNat + ((BitVec.ofNat 32 p.totalWeight).signExtend 64).toNat) % 2 ^ 64 := by
  unfold maxWeakSumBeforeWeakFinal
  simp only [truncated_foldl p.finalizers 0]
  rw [UInt64.toNat_sub, BitVec.ofNat_eq_ofNat, BitVec.zero_add]
  rfl

variable {p : FinalizerPolicy} (hp : p.Accepted)

include hp

theorem Accepted.le_maxWeakSum : p.totalWeight - p.threshold.toNat ≤ p.maxWeakSumBeforeWeakFinal.toNat := by
  have ht := hp.total
  have hq := hp.covered
  have hh := hp.half
  rw [maxWeakSum_toNat, toNat_signExtend_ofNat]
  unfold totalWeight
  split <;> omega

/-- **When the bound is exact**: the total is an `int`, or so near to 2^64 that its sign is carried over. -/
theorem Accepted.maxWeakSum_exact_iff : p.maxWeakSumBeforeWeakFinal.toNat = p.totalWeight - p.threshold.toNat ↔
    p.totalWeight < 2 ^ 31 ∨ 2 ^ 64 - 2 ^ 31 ≤ p.totalWeight := by
  have ht := hp.total
  have hq := hp.covered
  have hh := hp.half
  rw [maxWeakSum_toNat, toNat_signExtend_ofNat]
  unfold totalWeight
  split <;> omega

omit hp

def onePolicy (weight : UInt64) : FinalizerPolicy := ⟨1, weight, [⟨"a", weight, 1⟩]⟩

def weightedPolicy : FinalizerPolicy := ⟨1, 9, [⟨"a", 3, 1⟩, ⟨"b", 5, 2⟩, ⟨"c", 7, 3⟩]⟩

theorem maxWeakSum_exact_iff_weightedPolicy : weightedPolicy.maxWeakSumBeforeWeakFinal.toNat = 15 - 9 :=
  (Accepted.maxWeakSum_exact_iff ⟨⟨by decide, by decide⟩, by decide, by decide⟩).2 (.inl (by decide))

/-- **A total of 2^31**: the bound is far above the weight that is not needed. -/
theorem maxWeakSum_wraps : (onePolicy (2 ^ 31)).Accepted ∧
    (onePolicy (2 ^ 31)).totalWeight = (onePolicy (2 ^ 31)).threshold.toNat ∧
    (onePolicy (2 ^ 31)).maxWeakSumBeforeWeakFinal.toNat = 2 ^ 64 - 2 ^ 32 :=
  ⟨⟨⟨by decide, by decide⟩, by decide, by decide⟩, by decide, by decide⟩

end FinalizerPolicy

/-! ## What a state says -/

namespace AggregatingQcSig

/-- What a state says of the strong weight `S` and the weak weight `W`, for the quorum `q` and the bound `m`. -/
def RightAbout (q m S W : Nat) : AggregatingState → Prop
  | .unrestricted => S + W < q
  | .restricted => S + W < q ∧ m < W
  | .weakAchieved => S < q ∧ q ≤ S + W
  | .weakFinal => q ≤ S + W ∧ m ≤ W
  | .strong => q ≤ S

variable {a : AggregatingQcSig} {p : FinalizerPolicy} {votes : List IndexedVote}

theorem strongTransition_right {S : Nat} (hS : S ≤ a.strongSum.toNat)
    (hf : a.strongSum.toNat + a.weakSum.toNat < 2 ^ 64)
    (h : RightAbout a.quorum.toNat a.maxWeakSumBeforeWeakFinal.toNat S a.weakSum.toNat a.aggregatingState) :
    RightAbout a.quorum.toNat a.maxWeakSumBeforeWeakFinal.toNat a.strongSum.toNat a.weakSum.toNat a.strongTransition := by
  have hadd := toNat_add_of_lt (x := a.weakSum) (y := a.strongSum) (by omega)
  simp only [strongTransition, ge_iff_le, UInt64.le_iff_toNat_le, hadd]
  by_cases hs : a.quorum.toNat ≤ a.strongSum.toNat <;>
    by_cases hq : a.quorum.toNat ≤ a.weakSum.toNat + a.strongSum.toNat <;>
    cases hst : a.aggregatingState <;> rw [hst] at h <;>
    simp only [RightAbout, hs, hq, reduceCtorEq, if_false, if_true] at h ⊢ <;> omega

theorem weakTransition_right {W : Nat} (hW : W ≤ a.weakSum.toNat) (hf : a.strongSum.toNat + a.weakSum.toNat < 2 ^ 64)
    (h : RightAbout a.quorum.toNat a.maxWeakSumBeforeWeakFinal.toNat a.strongSum.toNat W a.aggregatingState) :
    RightAbout a.quorum.toNat a.maxWeakSumBeforeWeakFinal.toNat a.strongSum.toNat a.weakSum.toNat a.weakTransition := by
  have hadd := toNat_add_of_lt (x := a.weakSum) (y := a.strongSum) (by omega)
  simp only [weakTransition, ge_iff_le, gt_iff_lt, UInt64.le_iff_toNat_le, UInt64.lt_iff_toNat_lt, hadd]
  by_cases hq : a.quorum.toNat ≤ a.weakSum.toNat + a.strongSum.toNat <;>
    by_cases hm : a.maxWeakSumBeforeWeakFinal.toNat < a.weakSum.toNat <;>
    by_cases hm' : a.maxWeakSumBeforeWeakFinal.toNat ≤ a.weakSum.toNat <;>
    cases hs : a.aggregatingState <;> rw [hs] at h <;>
    simp only [RightAbout, hq, hm, hm', reduceCtorEq, if_false, if_true, and_true] at h ⊢ <;> omega

theorem record_right (strong : Bool) (sig : BlsSignature) {i : Nat} {w : UInt64}
    (hf : a.strongSum.toNat + a.weakSum.toNat + w.toNat < 2 ^ 64)
    (h : RightAbout a.quorum.toNat a.maxWeakSumBeforeWeakFinal.toNat a.strongSum.toNat a.weakSum.toNat
      a.aggregatingState) :
    RightAbout a.quorum.toNat a.maxWeakSumBeforeWeakFinal.toNat (a.record strong i sig w).strongSum.toNat
      (a.record strong i sig w).weakSum.toNat (a.record strong i sig w).aggregatingState := by
  cases strong
  · have hsum := toNat_add_of_lt (x := a.weakSum) (y := w) (by omega)
    exact @weakTransition_right { a with weakVotes := _, weakSum := _ } _ (hsum ▸ Nat.le_add_right _ _)
      (by dsimp only; omega) h
  · have hsum := toNat_add_of_lt (x := a.strongSum) (y := w) (by omega)
    exact @strongTransition_right { a with strongVotes := _, strongSum := _ } _ (hsum ▸ Nat.le_add_right _ _)
      (by dsimp only; omega) h

/-- A state becomes final by a weak vote when a weak quorum is there, or beyond the bound. -/
theorem record_final {strong : Bool} {sig : BlsSignature} {i : Nat} {w : UInt64}
    (h : RightAbout a.quorum.toNat a.maxWeakSumBeforeWeakFinal.toNat a.strongSum.toNat a.weakSum.toNat a.aggregatingState)
    (hfinal : (a.record strong i sig w).aggregatingState = .weakFinal) :
    a.aggregatingState = .weakFinal ∨ a.maxWeakSumBeforeWeakFinal.toNat < (a.record strong i sig w).weakSum.toNat ∨
      strong = false ∧ a.aggregatingState = .weakAchieved := by
  cases strong with
  | false =>
    simp only [record, Bool.false_eq_true, if_false, addWeakVote, weakTransition] at hfinal ⊢
    cases hs : a.aggregatingState with
    | weakAchieved => exact .inr (.inr ⟨trivial, rfl⟩)
    | weakFinal => exact .inl rfl
    | strong =>
      rw [hs] at hfinal
      cases hfinal
    | unrestricted | restricted =>
      rw [hs] at hfinal
      dsimp only at hfinal
      split at hfinal
      · rename_i hgt
        exact .inr (.inl (UInt64.lt_iff_toNat_lt.1 hgt))
      · split at hfinal <;> cases hfinal
  | true =>
    simp only [record, if_true, addStrongVote, strongTransition] at hfinal ⊢
    cases hs : a.aggregatingState with
    | weakFinal => exact .inl rfl
    | restricted =>
      rw [hs] at h
      exact .inr (.inl h.2)
    | strong =>
      rw [hs] at hfinal
      cases hfinal
    | weakAchieved =>
      rw [hs] at hfinal
      dsimp only at hfinal
      split at hfinal <;> cases hfinal
    | unrestricted =>
      rw [hs] at hfinal
      dsimp only at hfinal
      split at hfinal
      · cases hfinal
      · split at hfinal
        · cases hfinal
        · cases hfinal

/-! ## A run of votes -/

structure IndexedVote where
  strong : Bool
  index : Nat
  sig : BlsSignature
  deriving DecidableEq

def weightAt (p : FinalizerPolicy) (index : Nat) : UInt64 := (p.finalizers[index]?.map FinalizerAuthority.weight).getD 0

/-- The aggregation of votes for the policy `p`, in the order they come. -/
def aggregate (p : FinalizerPolicy) (a : AggregatingQcSig) (votes : List IndexedVote) : AggregatingQcSig :=
  votes.foldl (fun a v => (a.addVote v.strong v.index v.sig (weightAt p v.index)).2) a

def strength (a : AggregatingQcSig) : Option Bool := a.getBestQc.map QcSig.isStrong

def weightOf (p : FinalizerPolicy) (strong : Bool) (votes : List IndexedVote) : Nat :=
  ((votes.filter (·.strong == strong)).map fun v => (weightAt p v.index).toNat).sum

/-- `a` is what the votes made of the policy `p`: its sums are theirs, and its state is right about them. -/
structure Settled (p : FinalizerPolicy) (votes : List IndexedVote) (a : AggregatingQcSig) : Prop where
  inv : a.SigInv p
  bound : a.maxWeakSumBeforeWeakFinal = p.maxWeakSumBeforeWeakFinal
  right : RightAbout p.threshold.toNat p.maxWeakSumBeforeWeakFinal.toNat (weightOf p true votes) (weightOf p false votes)
    a.aggregatingState
  final : a.aggregatingState = .weakFinal → p.maxWeakSumBeforeWeakFinal.toNat < weightOf p false votes ∨
    ∃ before v after, votes = before ++ v :: after ∧ v.strong = false ∧ weightOf p true before < p.threshold.toNat ∧
      p.threshold.toNat ≤ weightOf p true before + weightOf p false before
  received : a.receivedQcSig = none
  voted : ∀ i : Nat, (a.strongBit i || a.weakBit i) = true → i ∈ votes.map (·.index)
  strong : a.strongSum.toNat = weightOf p true votes
  weak : a.weakSum.toNat = weightOf p false votes

theorem Settled.new (hp : p.Accepted) : Settled p [] (new p) where
  inv := sigInv_new p
  bound := rfl
  right := by
    have := hp.covered
    have := hp.half
    change 0 + 0 < p.threshold.toNat
    omega
  final h := by cases h
  received := rfl
  voted i h := by
    simp only [strongBit, weakBit, AggregatingQcSig.new, VotesT.new, getD_eq_getElem?_getD, getElem?_replicate] at h
    split at h <;> simp at h
  strong := rfl
  weak := rfl

variable {p : FinalizerPolicy}

theorem Settled.sum_le (h : Settled p votes a) : weightOf p true votes + weightOf p false votes ≤ p.totalWeight := by
  rw [← h.strong, ← h.weak, h.inv.strongSum, h.inv.weakSum]
  exact h.inv.sums_le

theorem weightOf_append (p : FinalizerPolicy) (strong : Bool) (votes later : List IndexedVote) :
    weightOf p strong (votes ++ later) = weightOf p strong votes + weightOf p strong later := by
  simp [weightOf, filter_append]

theorem weightOf_cons (p : FinalizerPolicy) (strong : Bool) (v : IndexedVote) (votes : List IndexedVote) :
    weightOf p strong (v :: votes) =
      (if v.strong = strong then (weightAt p v.index).toNat else 0) + weightOf p strong votes := by
  by_cases h : v.strong = strong <;> simp [weightOf, h]

theorem weightOf_singleton (p : FinalizerPolicy) (strong : Bool) (v : IndexedVote) :
    weightOf p strong [v] = if v.strong = strong then (weightAt p v.index).toNat else 0 := weightOf_cons p strong v []

theorem Settled.fresh (h : Settled p votes a) {i : Nat}
    (hi : i < p.finalizers.length) (hnew : i ∉ votes.map (·.index)) : Fresh a p i (weightAt p i) := by
  have hn : ¬ (a.strongBit i || a.weakBit i) = true := fun hv => hnew (h.voted i hv)
  simp only [Bool.or_eq_true, not_or, Bool.not_eq_true] at hn
  exact ⟨by simp [FinalizerPolicy.weights, weightAt, hi], hn.1, hn.2⟩

theorem addVote_fresh {v : IndexedVote} (hf : Fresh a p v.index (weightAt p v.index)) :
    (a.addVote v.strong v.index v.sig (weightAt p v.index)).2 = a.record v.strong v.index v.sig (weightAt p v.index) := by
  have hs := hf.strong
  have hw := hf.weak
  simp only [strongBit, weakBit] at hs hw
  simp only [AggregatingQcSig.addVote, checkDuplicate, hs, hw, Bool.or_false, Bool.false_eq_true, if_false]
  rfl

theorem Settled.addVote (hp : p.Accepted) {votes : List IndexedVote} {a : AggregatingQcSig}
    (h : Settled p votes a) {v : IndexedVote} (hv : v.index < p.finalizers.length) (hnew : v.index ∉ votes.map (·.index)) :
    Settled p (votes ++ [v]) (a.addVote v.strong v.index v.sig (weightAt p v.index)).2 := by
  have hf := h.fresh hv hnew
  have hle := hf.weight_le h.inv
  have htot := hp.total
  obtain ⟨hS, hW⟩ := record_sums v.sig v.strong hp.toWf h.inv hf
  rw [← h.inv.strongSum, h.strong, ← weightOf_singleton, ← weightOf_append] at hS
  rw [← h.inv.weakSum, h.weak] at hW
  have hW : _ = weightOf p false (votes ++ [v]) :=
    hW.trans (by simp only [weightOf_append, weightOf_singleton, Bool.not_eq_true'])
  have hright := h.right
  rw [← h.strong, ← h.weak, ← h.inv.quorum, ← h.bound] at hright
  rw [addVote_fresh hf]
  refine ⟨sigInv_record v.sig v.strong hp.toWf h.inv hf, ?_, ?_, fun hfinal => ?_, ?_, ?_, hS, hW⟩
  · cases v.strong <;> exact h.bound
  · rw [← hS, ← hW, ← h.inv.quorum, ← h.bound]
    refine record_right v.strong v.sig ?_ hright
    rw [h.inv.strongSum, h.inv.weakSum]
    omega
  · rcases record_final hright hfinal with hold | hgt | ⟨hv, hach⟩
    · rcases h.final hold with hgt | ⟨before, u, after, rfl, hu⟩
      · exact .inl (Nat.lt_of_lt_of_le hgt (weightOf_append .. ▸ Nat.le_add_right _ _))
      · exact .inr ⟨before, u, after ++ [v], by simp, hu⟩
    · exact .inl (h.bound ▸ hW ▸ hgt)
    · have hr := h.right
      rw [hach] at hr
      exact .inr ⟨votes, v, [], rfl, hv, hr⟩
  · cases v.strong <;> exact h.received
  · intro i hi
    obtain ⟨hs, hw⟩ := record_bits v.sig v.strong _ (h.inv.strongLen ▸ hf.lt) (h.inv.weakLen ▸ hf.lt)
    rw [map_append, mem_append]
    rw [hs, hw] at hi
    by_cases hiv : i = v.index
    · exact .inr (by simp [hiv])
    · exact .inl (h.voted i (by simpa [hiv] using hi))

theorem Settled.aggregate (hp : p.Accepted) (votes : List IndexedVote) :
    ∀ {done} {a}, Settled p done a →
      ((done ++ votes).map (·.index)).Nodup → (∀ v ∈ votes, v.index < p.finalizers.length) →
      Settled p (done ++ votes) (aggregate p a votes) := by
  induction votes with
  | nil =>
    intro done a h _ _
    rw [append_nil]
    exact h
  | cons v votes ih =>
    intro done a h hn hval
    have hnew : v.index ∉ done.map (·.index) := by
      rw [map_append, nodup_append] at hn
      exact fun hmem => hn.2.2 _ hmem _ (mem_map_of_mem mem_cons_self) rfl
    have hstep := h.addVote hp (hval v mem_cons_self) hnew
    have := ih hstep (by rw [append_assoc]; exact hn) fun w hw => hval w (mem_cons_of_mem _ hw)
    rw [append_assoc, singleton_append] at this
    exact this

theorem Settled.strength_eq (h : Settled p votes a) :
    a.strength = if a.aggregatingState = .strong then some true else if a.isQuorumMet then some false else none := by
  unfold strength getBestQc extractQcSigFromAggregating isQuorumMet
  rw [h.received]
  cases a.aggregatingState <;> rfl

/-- **The order decides**: the strong weight is just a quorum and the weak weight just what is not needed for one, the bound is
exact, and besides some strong vote and some weak one the others make a weak quorum. -/
def OrderDecides (p : FinalizerPolicy) (votes : List IndexedVote) : Prop :=
  weightOf p true votes = p.threshold.toNat ∧ weightOf p false votes + p.threshold.toNat = p.totalWeight ∧
  p.maxWeakSumBeforeWeakFinal.toNat = weightOf p false votes ∧
  ∃ s ∈ votes, ∃ v ∈ votes, s.strong = true ∧ v.strong = false ∧ 0 < (weightAt p s.index).toNat ∧
    (weightAt p s.index).toNat + (weightAt p v.index).toNat ≤ weightOf p false votes

instance (p : FinalizerPolicy) (votes : List IndexedVote) : Decidable (OrderDecides p votes) :=
  inferInstanceAs (Decidable (_ ∧ _ ∧ _ ∧ _))

/-- The certificate is the one the weights of the votes call for. -/
def RightStrength (p : FinalizerPolicy) (votes : List IndexedVote) (strength : Option Bool) : Prop :=
  (strength = some true ↔ p.threshold.toNat ≤ weightOf p true votes) ∧
  (strength = some false ↔ weightOf p true votes < p.threshold.toNat ∧
    p.threshold.toNat ≤ weightOf p true votes + weightOf p false votes) ∧
  (strength = none ↔ weightOf p true votes + weightOf p false votes < p.threshold.toNat)

theorem Settled.rightStrength_iff (h : Settled p votes a) : RightStrength p votes a.strength ↔
    (a.aggregatingState = .weakFinal → weightOf p true votes < p.threshold.toNat) := by
  have hr := h.right
  rw [h.strength_eq]
  unfold RightStrength
  cases hs : a.aggregatingState <;> rw [hs] at hr <;> simp only [RightAbout] at hr <;>
    simp [isQuorumMet, AggregatingState.isQuorumMet, hs] <;> omega

theorem exists_strong : ∀ {votes : List IndexedVote}, 0 < weightOf p true votes →
    ∃ s ∈ votes, s.strong = true ∧ 0 < (weightAt p s.index).toNat ∧ (weightAt p s.index).toNat ≤ weightOf p true votes
  | [], h => absurd h (Nat.lt_irrefl 0)
  | v :: votes, h => by
    rw [weightOf_cons] at h ⊢
    by_cases hv : v.strong = true ∧ 0 < (weightAt p v.index).toNat
    · exact ⟨v, mem_cons_self, hv.1, hv.2, by simp [hv.1]⟩
    · have hz : (if v.strong = true then (weightAt p v.index).toNat else 0) = 0 := by
        split
        · rename_i hs
          exact Nat.eq_zero_of_not_pos fun hpos => hv ⟨hs, hpos⟩
        · rfl
      rw [hz, Nat.zero_add] at h ⊢
      obtain ⟨s, hs, hrest⟩ := exists_strong h
      exact ⟨s, mem_cons_of_mem _ hs, hrest⟩

theorem Settled.orderDecides (hp : p.Accepted) (h : Settled p votes a) (hfinal : a.aggregatingState = .weakFinal)
    (hquorum : p.threshold.toNat ≤ weightOf p true votes) : OrderDecides p votes := by
  have hr := h.right
  rw [hfinal] at hr
  obtain ⟨-, hbound⟩ := hr
  have hmax := hp.le_maxWeakSum
  have hsum := h.sum_le
  have hco : p.threshold.toNat ≤ p.totalWeight := hp.covered
  rcases h.final hfinal with hgt | ⟨before, v, after, hvotes, hv, hless, hweak⟩
  · omega
  · have hS : weightOf p true votes = weightOf p true before + weightOf p true after := by
      simp [hvotes, weightOf_append, weightOf_cons, hv]
    have hW : weightOf p false votes = weightOf p false before + ((weightAt p v.index).toNat + weightOf p false after) := by
      simp [hvotes, weightOf_append, weightOf_cons, hv]
    -- the votes before `v` are short of a strong quorum, so one with a weight comes later
    have hafter : 0 < weightOf p true after := by omega
    obtain ⟨s, hs, hstrong, hpos, hle⟩ := exists_strong hafter
    exact ⟨by omega, by omega, by omega, s, by simp [hvotes, hs], v, by simp [hvotes], hstrong, hv, hpos, by omega⟩

theorem weightOf_perm {order : List IndexedVote} (h : order.Perm votes) (strong : Bool) :
    weightOf p strong order = weightOf p strong votes := ((h.filter _).map _).sum_eq

theorem record_keeps_final (strong : Bool) (i : Nat) (sig : BlsSignature) (w : UInt64) (h : a.aggregatingState = .weakFinal) :
    (a.record strong i sig w).aggregatingState = .weakFinal := by
  cases strong
  · simp [record, addWeakVote, weakTransition, h]
  · simp [record, addStrongVote, strongTransition, h]

theorem record_makes_final (i : Nat) (sig : BlsSignature) {w : UInt64} (h : a.aggregatingState = .weakAchieved)
    (hm : a.maxWeakSumBeforeWeakFinal ≤ a.weakSum + w) : (a.record false i sig w).aggregatingState = .weakFinal := by
  simp [record, addWeakVote, weakTransition, h, hm]

/-- The votes but `s` and `v`, then `v`, then `s`: the state is final at `v`. -/
theorem OrderDecides.exists_order (hp : p.Accepted) (hdifferent : (votes.map (·.index)).Nodup)
    (hvalid : ∀ v ∈ votes, v.index < p.finalizers.length) (h : OrderDecides p votes) :
    ∃ order : List IndexedVote, order.Perm votes ∧ (aggregate p (new p) order).aggregatingState = .weakFinal := by
  obtain ⟨hS, hW, hm, s, hs, v, hv, hstrong, hweak, hpos, hle⟩ := h
  have hne : s ≠ v := by
    rintro rfl
    rw [hstrong] at hweak
    cases hweak
  have hperm : (((votes.erase v).erase s) ++ [v, s]).Perm votes :=
    calc (((votes.erase v).erase s) ++ [v, s]).Perm (v :: s :: (votes.erase v).erase s) := perm_append_comm
      _ |>.Perm votes := ((perm_cons_erase ((mem_erase_of_ne hne).2 hs)).symm.cons v).trans (perm_cons_erase hv).symm
  refine ⟨_, hperm, ?_⟩
  generalize (votes.erase v).erase s = rest at hperm
  have hnodup := (hperm.map (·.index)).nodup_iff.2 hdifferent
  have hval : ∀ u ∈ rest ++ [v, s], u.index < p.finalizers.length := fun u hu => hvalid u (hperm.mem_iff.1 hu)
  rw [← weightOf_perm hperm] at hS
  rw [← weightOf_perm hperm] at hW hm hle
  have hnil : ∀ strong, weightOf p strong [] = 0 := fun _ => rfl
  simp only [weightOf_append, weightOf_cons, hnil, hstrong, hweak, Bool.false_eq_true, if_false, if_true, Bool.true_eq_false,
    Nat.zero_add, Nat.add_zero] at hS hW hm hle
  rw [map_append, nodup_append] at hnodup
  have hrest : Settled p rest (aggregate p (new p) rest) :=
    Settled.aggregate hp rest (Settled.new hp) hnodup.1 fun u hu => hval u (mem_append_left _ hu)
  have hnew : v.index ∉ rest.map (·.index) := fun hmem => hnodup.2.2 _ hmem _ (by simp) rfl
  have hs' : s.index ∉ (rest ++ [v]).map (·.index) := by
    have h1 : s.index ∉ rest.map (·.index) := fun hmem => hnodup.2.2 _ hmem _ (by simp) rfl
    have h2 := hnodup.2.1
    simp only [map_cons, map_nil, nodup_cons, mem_singleton] at h2
    simpa [mem_append] using ⟨by simpa using h1, fun h => h2.1 h.symm⟩
  have hagg : aggregate p (new p) (rest ++ [v, s]) =
      ((aggregate p (new p) rest).record v.strong v.index v.sig (weightAt p v.index)).record s.strong s.index s.sig
        (weightAt p s.index) := by
    have hvote := addVote_fresh (hrest.fresh (hval v (by simp)) hnew)
    rw [← hvote, ← addVote_fresh ((hrest.addVote hp (hval v (by simp)) hnew).fresh (hval s (by simp)) hs')]
    simp [aggregate]
  rw [hagg]
  refine record_keeps_final _ _ _ _ ?_
  have hr := hrest.right
  cases hstate : (aggregate p (new p) rest).aggregatingState with
  | weakFinal => exact record_keeps_final _ _ _ _ hstate
  | weakAchieved =>
    rw [hweak]
    refine record_makes_final _ _ hstate ?_
    have hsum := toNat_add_of_lt (x := (aggregate p (new p) rest).weakSum) (y := weightAt p v.index) (by
      have htot := hp.total
      rw [hrest.weak]
      unfold FinalizerPolicy.totalWeight at hW
      omega)
    rw [UInt64.le_iff_toNat_le, hsum, hrest.bound, hrest.weak]
    exact hm.le
  | unrestricted | restricted | strong =>
    rw [hstate] at hr
    simp only [RightAbout] at hr
    omega

/-- **Where the order of the votes does not decide.** For votes of different finalizers of an accepted policy, in every order
there is a strong certificate iff the strong votes make a quorum, a weak one iff only all votes together do, and none otherwise,
exactly if not `OrderDecides`; and in the states `restricted` and `weak_final` the finalizers that did not vote weak can no longer
make a quorum, exactly if the weak votes are not just all that is not needed for one. -/
theorem aggregate_strength {p : FinalizerPolicy} (hp : p.Accepted) {votes : List IndexedVote}
    (hdifferent : (votes.map (·.index)).Nodup) (hvalid : ∀ v ∈ votes, v.index < p.finalizers.length) :
    ((∀ order : List IndexedVote, order.Perm votes → RightStrength p votes (aggregate p (new p) order).strength) ↔
      ¬ OrderDecides p votes) ∧
    ((aggregate p (new p) votes).aggregatingState = .restricted ∨ (aggregate p (new p) votes).aggregatingState = .weakFinal →
      (p.totalWeight - weightOf p false votes < p.threshold.toNat ↔
        weightOf p false votes + p.threshold.toNat ≠ p.totalWeight)) := by
  have hset : ∀ order : List IndexedVote, order.Perm votes → Settled p order (aggregate p (new p) order) := by
    intro order hpe
    refine Settled.aggregate hp order (Settled.new hp) ?_ ?_
    · exact (hpe.map _).nodup_iff.2 hdifferent
    · exact fun v hv => hvalid v (hpe.mem_iff.1 hv)
  have hright : ∀ order : List IndexedVote, order.Perm votes → (RightStrength p votes (aggregate p (new p) order).strength ↔
      ((aggregate p (new p) order).aggregatingState = .weakFinal → weightOf p true votes < p.threshold.toNat)) := by
    intro order hpe
    have h := (hset order hpe).rightStrength_iff
    simpa only [RightStrength, weightOf_perm hpe] using h
  refine ⟨⟨fun hall hdec => ?_, fun hno order hpe => ?_⟩, fun hs => ?_⟩
  · obtain ⟨order, hpe, hfinal⟩ := hdec.exists_order hp hdifferent hvalid
    have hlt := (hright order hpe).1 (hall order hpe) hfinal
    exact absurd hdec.1 hlt.ne
  · refine (hright order hpe).2 fun hfinal => Nat.lt_of_not_le fun hquorum => hno ?_
    have hdec := (hset order hpe).orderDecides hp hfinal (weightOf_perm hpe true ▸ hquorum)
    simpa only [OrderDecides, weightOf_perm hpe, hpe.mem_iff] using hdec
  · have h := hset votes (.refl _)
    have hr := h.right
    have hmax := hp.le_maxWeakSum
    have hsum := h.sum_le
    have hco : p.threshold.toNat ≤ p.totalWeight := hp.covered
    rcases hs with hs | hs <;> rw [hs] at hr <;> simp only [RightAbout] at hr <;> omega

def samplePolicy : FinalizerPolicy :=
  ⟨1, 3, [⟨"a", 1, 1⟩, ⟨"b", 1, 2⟩, ⟨"c", 1, 3⟩, ⟨"d", 1, 4⟩, ⟨"e", 1, 5⟩]⟩

theorem samplePolicy_accepted : samplePolicy.Accepted := ⟨⟨by decide, by decide⟩, by decide, by decide⟩

theorem aggregate_strength_samplePolicy :
    let votes : List IndexedVote := [⟨false, 0, 0⟩, ⟨true, 1, 0⟩, ⟨true, 2, 0⟩, ⟨true, 3, 0⟩]
    ∀ order : List IndexedVote, order.Perm votes → (aggregate samplePolicy (new samplePolicy) order).strength = some true := by
  intro votes order hp
  have h := @aggregate_strength samplePolicy samplePolicy_accepted votes (by decide) (by decide)
  exact ((h.1.2 (by decide) order hp).1).2 (by decide)

/-- **Where the order decides.** With three strong votes and two weak ones of five, the state is final as soon as the second
weak vote follows two strong ones, though the third finalizer of a strong quorum has still to vote. -/
theorem strength_depends_on_order :
    let weakFirst : List IndexedVote := [⟨false, 0, 0⟩, ⟨true, 1, 0⟩, ⟨true, 2, 0⟩, ⟨false, 3, 0⟩, ⟨true, 4, 0⟩]
    let strongFirst : List IndexedVote := [⟨true, 1, 0⟩, ⟨true, 2, 0⟩, ⟨true, 4, 0⟩, ⟨false, 0, 0⟩, ⟨false, 3, 0⟩]
    samplePolicy.Accepted ∧ weakFirst.Perm strongFirst ∧ (weakFirst.map (·.index)).Nodup ∧
    (aggregate samplePolicy (new samplePolicy) weakFirst).strength = some false ∧
    (aggregate samplePolicy (new samplePolicy) strongFirst).strength = some true ∧
    (aggregate samplePolicy (new samplePolicy) (weakFirst.take 4)).aggregatingState = .weakFinal ∧
    weightOf samplePolicy true strongFirst = samplePolicy.threshold.toNat :=
  ⟨samplePolicy_accepted, by decide, by decide, by decide, by decide, by decide, by decide⟩

end AggregatingQcSig
end TheChannel
