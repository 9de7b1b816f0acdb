import TheChannel.HeaderChain
/-!
# ProposerRun — proposer policies from proposed to active

A proposer policy is proposed in a block, waits in the proposed slot, may move to the pending slot in the first block of a
round, and becomes active in the first block of a round once its proposal is final. `Due` says when
`get_active_proposer_policy_for_block_at` changes the policy, `Finished.proposerStep` what a step does to the three slots.
Along a chain the versions in the slots stay ordered, which makes a policy that left the slots one that never comes back
(`Gone`).

The rounds are exact up to slot `2 ^ 32 - 4`, where the last round of the slot type starts: it has only four slots, and
the end that `in_same_round` computes for it wraps.
-/
namespace TheChannel

def roundOf (t : Nat) : Nat := t / producerRepetitions

theorem getCurrentRoundStartSlot_eq (t : Nat) : getCurrentRoundStartSlot t = producerRepetitions * roundOf t := by
  have := Nat.div_add_mod t producerRepetitions
  unfold getCurrentRoundStartSlot roundOf
  omega

theorem round_lt_of_not_inSameRound {next curr : Nat} (hc : curr < 2 ^ 32 - 4) (h : inSameRound next curr = false) :
    roundOf curr < roundOf next := by
  have hge := of_decide_eq_false h
  rw [getCurrentRoundStartSlot_eq] at hge
  simp only [roundOf, producerRepetitions] at *
  omega

theorem round_lt_of_lt_prior {p t start : Nat} (hs : getPriorRoundStartSlot t = some start) (h : p < start) :
    roundOf p + 1 < roundOf t := by
  unfold getPriorRoundStartSlot at hs
  split at hs
  · cases hs
  · cases hs
    rw [getCurrentRoundStartSlot_eq] at h
    simp only [roundOf, producerRepetitions] at *
    omega

namespace ProposerPipeline

def inFlight (P : ProposerPipeline) : List ProposerPolicy :=
  P.activeProposerPolicy :: (P.latestPendingProposerPolicy.toList ++ P.latestProposedProposerPolicy.toList)

def Occupied (P : ProposerPipeline) : ProposerSlot → Prop
  | .active => True
  | .pending => P.latestPendingProposerPolicy ≠ none
  | .proposed => P.latestProposedProposerPolicy ≠ none

variable {P : ProposerPipeline} {p : ProposerPolicy} {slot : ProposerSlot}

theorem inFlight_getLast? (P : ProposerPipeline) : P.inFlight.getLast? = some P.getLastProposedProposerPolicy := by
  unfold inFlight getLastProposedProposerPolicy
  cases P.latestProposedProposerPolicy <;> cases P.latestPendingProposerPolicy <;> rfl

@[simp] theorem advanceProposed_inFlight (P : ProposerPipeline) (b : Bool) : (P.advanceProposed b).inFlight = P.inFlight := by
  unfold advanceProposed
  split
  · rename_i h
    simp only [Bool.and_eq_true, Option.isNone_iff_eq_none] at h
    simp [inFlight, h.2]
  · rfl

theorem advanceProposed_active (P : ProposerPipeline) (b : Bool) :
    (P.advanceProposed b).activeProposerPolicy = P.activeProposerPolicy := by
  unfold advanceProposed
  split <;> rfl

theorem activate_proposed
    (h : (P.activate slot).latestProposedProposerPolicy = some p) : P.latestProposedProposerPolicy = some p := by
  cases slot with
  | active => exact h
  | pending => exact h
  | proposed => cases h

theorem activate_inFlight (h : P.Occupied slot) : (P.activate slot).inFlight.Sublist P.inFlight ∧
      (P.activate slot).getLastProposedProposerPolicy = P.getLastProposedProposerPolicy := by
  cases slot with
  | active => exact ⟨List.Sublist.refl _, rfl⟩
  | pending =>
    obtain ⟨p, hp⟩ := Option.ne_none_iff_exists'.1 h
    cases hq : P.latestProposedProposerPolicy <;>
      simp [inFlight, activate, policyAt, hp, hq, getLastProposedProposerPolicy]
  | proposed =>
    obtain ⟨p, hp⟩ := Option.ne_none_iff_exists'.1 h
    cases hq : P.latestPendingProposerPolicy <;>
      simp [inFlight, activate, policyAt, hp, hq, getLastProposedProposerPolicy]

end ProposerPipeline

namespace BlockHeaderState
open FinalityCore List ProposerPipeline

variable {Blob : Type} {x : Externals Blob} {s s' : BlockHeaderState Blob} {ss older : List (BlockHeaderState Blob)}
  {fExt : FinalityExtension} {t : Nat} {slot : ProposerSlot} {p : ProposerPolicy}

/-! ## A step -/

def ProposalFinal (s : BlockHeaderState Blob) (p : ProposerPolicy) : Prop :=
  ∃ lastFinal, s.core.lastFinalBlockTimestamp = .ok lastFinal ∧ p.proposalTime ≤ lastFinal

/-- **When a slot's policy is the active one for a child at `t`.** -/
inductive Due (s : BlockHeaderState Blob) (t : Nat) : ProposerSlot → Prop
  | active : Due s t .active
  | pending {p : ProposerPolicy} (newRound : inSameRound t s.timestamp = false)
      (held : s.latestPendingProposerPolicy = some p) (final : s.ProposalFinal p) : Due s t .pending
  | proposed {p : ProposerPolicy} {start : Nat} (newRound : inSameRound t s.timestamp = false)
      (held : s.latestProposedProposerPolicy = some p) (prior : getPriorRoundStartSlot s.timestamp = some start)
      (before : p.proposalTime < start) (final : s.ProposalFinal p) : Due s t .proposed

theorem isProposalFinal_ok (h : s.isProposalFinal p = .ok true) : s.ProposalFinal p := by
  obtain ⟨lastFinal, hl, h⟩ := bind_ok h
  exact ⟨lastFinal, hl, of_decide_eq_true (Except.ok.inj h)⟩

theorem due_of_ok (h : s.activeProposerSlotForBlockAt t = .ok slot) : s.timestamp < t ∧ Due s t slot := by
  obtain ⟨ht, h⟩ := unit_ok h
  refine ⟨by simpa using ht, ?_⟩
  split at h
  · cases h; exact .active
  rename_i hr
  split at h
  · cases h; exact .active
  obtain ⟨proposedDue, hpo, h⟩ := bind_ok h
  split at h
  · rename_i hd
    cases h
    rw [hd] at hpo
    unfold proposedIsDue at hpo
    split at hpo
    · rename_i p hp
      split at hpo
      · rename_i hpr
        obtain ⟨start, hs, hlt⟩ := (Option.any_eq_true _ _).1 hpr
        exact .proposed (by simpa using hr) hp hs (by simpa using hlt) (isProposalFinal_ok hpo)
      · cases hpo
    · cases hpo
  obtain ⟨pendingDue, hpe, h⟩ := bind_ok h
  cases h
  split
  · rename_i hd
    rw [hd] at hpe
    unfold pendingIsDue at hpe
    split at hpe
    · rename_i p hp
      exact .pending (by simpa using hr) hp (isProposalFinal_ok hpe)
    · cases hpe
  · exact .active

theorem Due.occupied (h : Due s t slot) : Occupied s.toProposerPipeline slot := by
  cases h with
  | active => exact trivial
  | pending _ held _ => exact fun hn => by rw [held] at hn; cases hn
  | proposed _ held _ _ _ => exact fun hn => by rw [held] at hn; cases hn

/-- **What a step does to the slots**: the due policy becomes active, in the first block of a round the proposed one may
move, and a policy the header proposes takes the proposed slot. -/
theorem Finished.proposerStep (h : Finished x s s' fExt) : ∃ slot Q, Due s s'.timestamp slot ∧
    Q = (s.toProposerPipeline.activate slot).advanceProposed (decide (s.timestamp < getCurrentRoundStartSlot s'.timestamp)) ∧
    s'.activeProposerPolicy = Q.activeProposerPolicy ∧ s'.latestPendingProposerPolicy = Q.latestPendingProposerPolicy ∧
    (s'.latestProposedProposerPolicy = Q.latestProposedProposerPolicy ∨
      ∃ d q, fExt.newProposerPolicyDiff = some d ∧ s.getLastProposedProposerPolicy.applyDiff d = .ok q ∧
        s'.latestProposedProposerPolicy = some q) := by
  obtain ⟨Q, hQ, hact, hpe, hpr⟩ := h.proposers
  replace hQ := rest_ok hQ
  obtain ⟨slot, hs, hQ⟩ := bind_ok hQ
  obtain ⟨isFirst, hf, hQ⟩ := bind_ok hQ
  replace hf := rest_ok hf
  cases hf
  cases hQ
  refine ⟨slot, _, (due_of_ok hs).2, rfl, hact, hpe, ?_⟩
  rcases hpr with ⟨-, hp⟩ | hp
  · exact .inl hp
  · exact .inr hp

/-! ## The versions in the slots -/

/-- **Proposals as the controller makes them**: with the proposing block's time and a version above the last proposed
one. -/
def ControllerProposals : List (BlockHeaderState Blob) → Prop
  | s' :: s :: ss => (∀ f d, s'.finalityExtension = some f → f.newProposerPolicyDiff = some d →
      d.proposalTime = s'.timestamp ∧ s.getLastProposedProposerPolicy.proposerSchedule.version < d.version) ∧
      ControllerProposals (s :: ss)
  | _ => True

def BeforeLastRound (L : List (BlockHeaderState Blob)) : Prop := ∀ a ∈ L.tail, a.timestamp < 2 ^ 32 - 4

def ProposesSchedule (p : ProposerPolicy) : List (BlockHeaderState Blob) → Prop
  | a :: b :: _ => ∃ f d, a.finalityExtension = some f ∧ f.newProposerPolicyDiff = some d ∧
      b.getLastProposedProposerPolicy.applyDiff d = .ok p
  | _ => False

def versions (l : List ProposerPolicy) : List Nat := l.map (fun p => p.proposerSchedule.version)

/-- **A step and the policies in the slots**: some of them stay, in their order and with the last one, or some of them
stay and the one the header proposes is behind them. -/
theorem Finished.inFlight (h : Finished x s s' fExt) :
    (s'.inFlight.Sublist s.inFlight ∧ s'.getLastProposedProposerPolicy = s.getLastProposedProposerPolicy) ∨
      ∃ d q kept, fExt.newProposerPolicyDiff = some d ∧ s.getLastProposedProposerPolicy.applyDiff d = .ok q ∧
        s'.latestProposedProposerPolicy = some q ∧ s'.inFlight = kept ++ [q] ∧ kept.Sublist s.inFlight := by
  obtain ⟨slot, Q, hdu, hQ, hact, hpe, hpr⟩ := h.proposerStep
  obtain ⟨hsub, hl⟩ := activate_inFlight hdu.occupied
  have hQsub : Q.inFlight.Sublist s.inFlight := by rw [hQ, advanceProposed_inFlight]; exact hsub
  rcases hpr with hp | ⟨d, q, hd, hq, hp⟩
  · have heq : s'.toProposerPipeline = Q := by
      cases Q
      simp only at hact hpe hp
      rw [← hact, ← hpe, ← hp]
    refine .inl ⟨by rw [heq]; exact hQsub, ?_⟩
    rw [heq, ← hl]
    have h1 := inFlight_getLast? Q
    rw [hQ, advanceProposed_inFlight, inFlight_getLast?] at h1
    rw [hQ]
    exact (Option.some.inj h1).symm
  · refine .inr ⟨d, q, Q.activeProposerPolicy :: Q.latestPendingProposerPolicy.toList, hd, hq, hp, ?_, ?_⟩
    · simp only [ProposerPipeline.inFlight, hact, hpe, hp, Option.toList_some, cons_append]
    · exact (sublist_append_left _ Q.latestProposedProposerPolicy.toList).trans hQsub

theorem version_le_last {P : ProposerPipeline} (ho : (versions P.inFlight).Pairwise (· < ·)) (hp : p ∈ P.inFlight) :
    p.proposerSchedule.version ≤ P.getLastProposedProposerPolicy.proposerSchedule.version := by
  have hl := dropLast_append_getLast? _ P.inFlight_getLast?
  rw [← hl] at ho hp
  rcases mem_append.1 hp with hp | hp
  · rw [versions, map_append, pairwise_append] at ho
    exact Nat.le_of_lt (ho.2.2 _ (mem_map_of_mem hp) _ (by simp))
  · rw [mem_singleton.1 hp]

/-- **What holds of the proposer policies of every state on a chain.** -/
structure ProposerInv (L : List (BlockHeaderState Blob)) (s : BlockHeaderState Blob) : Prop where
  ordered : (versions s.inFlight).Pairwise (· < ·)
  proposed : ∀ p, s.latestProposedProposerPolicy = some p → p.proposalTime ≤ s.timestamp
  pending : ∀ p, s.latestPendingProposerPolicy = some p → roundOf p.proposalTime < roundOf s.timestamp
  origin : ∀ p, s.latestProposedProposerPolicy = some p ∨ s.latestPendingProposerPolicy = some p →
    ∃ a as, a :: as <:+ L ∧ ProposesSchedule p (a :: as) ∧ a.timestamp = p.proposalTime

theorem proposerInv_genesis (h : Genesis x s) : ProposerInv [s] s := by
  obtain ⟨hpe, hpr, -⟩ := h.started.proposer
  have hin : s.inFlight = [s.activeProposerPolicy] := by simp [ProposerPipeline.inFlight, hpe, hpr]
  refine ⟨by rw [hin]; exact pairwise_singleton _ _, fun p hp => ?_, fun p hp => ?_, fun p hp => ?_⟩
  · rw [hpr] at hp; cases hp
  · rw [hpe] at hp; cases hp
  · rw [hpe, hpr] at hp; rcases hp with hp | hp <;> cases hp

theorem roundOf_mono {t t' : Nat} (h : t ≤ t') : roundOf t ≤ roundOf t' := Nat.div_le_div_right h

theorem proposerInv_next (hi : ProposerInv (s :: ss) s) (h : Finished x s s' fExt)
    (hc : ControllerProposals (s' :: s :: ss)) : ProposerInv (s' :: s :: ss) s' := by
  have ht := h.time_lt
  have hnew : ∀ d q, fExt.newProposerPolicyDiff = some d → s.getLastProposedProposerPolicy.applyDiff d = .ok q →
      q.proposalTime = s'.timestamp ∧
      s.getLastProposedProposerPolicy.proposerSchedule.version < q.proposerSchedule.version := fun d q hd hq => by
    obtain ⟨h1, h2⟩ := hc.1 fExt d h.extension hd
    obtain ⟨h3, h4⟩ := ProposerPolicy.applyDiff_ok hq
    exact ⟨h3.trans h1, by omega⟩
  obtain ⟨slot, Q, hdu, hQ, -, hpn, hpo⟩ := h.proposerStep
  -- what is pending was so in the parent, or was proposed there and this is the first block of a round
  have hpe : ∀ p, s'.latestPendingProposerPolicy = some p → s.latestPendingProposerPolicy = some p ∨
      (s.latestProposedProposerPolicy = some p ∧ roundOf s.timestamp < roundOf s'.timestamp) := fun p hp => by
    rw [hpn, hQ] at hp
    unfold advanceProposed at hp
    split at hp
    case isFalse =>
      cases slot with
      | active => exact .inl hp
      | pending => cases hp
      | proposed => cases hp
    case isTrue hc =>
      simp only [Bool.and_eq_true] at hc
      refine .inr ⟨activate_proposed hp, ?_⟩
      have hlt := of_decide_eq_true hc.1.1
      rw [getCurrentRoundStartSlot_eq] at hlt
      simp only [roundOf, producerRepetitions] at *
      omega
  have hpr : ∀ p, s'.latestProposedProposerPolicy = some p → s.latestProposedProposerPolicy = some p ∨
      ∃ d, fExt.newProposerPolicyDiff = some d ∧ s.getLastProposedProposerPolicy.applyDiff d = .ok p := fun p hp => by
    rcases hpo with hq | ⟨d, q, hd, hq, hso⟩
    · rw [hq, hQ] at hp
      unfold advanceProposed at hp
      split at hp
      · cases hp
      · exact .inl (activate_proposed hp)
    · rw [hso] at hp
      cases hp
      exact .inr ⟨d, hd, hq⟩
  have hold : ∀ p, s.latestProposedProposerPolicy = some p ∨ s.latestPendingProposerPolicy = some p →
      ∃ a as, a :: as <:+ s' :: s :: ss ∧ ProposesSchedule p (a :: as) ∧ a.timestamp = p.proposalTime := fun p hp => by
    obtain ⟨a, as, hs, ha⟩ := hi.origin p hp
    exact ⟨a, as, hs.trans (suffix_cons _ _), ha⟩
  refine ⟨?_, fun p hp => ?_, fun p hp => ?_, fun p hp => ?_⟩
  · rcases h.inFlight with ⟨hsub, -⟩ | ⟨d, q, kept, hd, hq, -, hin, hsub⟩
    · exact hi.ordered.sublist (hsub.map _)
    · rw [hin, versions, map_append, pairwise_append]
      refine ⟨hi.ordered.sublist (hsub.map _), pairwise_singleton _ _, fun v hv w hw => ?_⟩
      obtain ⟨p, hp, rfl⟩ := mem_map.1 hv
      have hle := version_le_last hi.ordered (hsub.subset hp)
      have := (hnew d q hd hq).2
      simp only [map_cons, map_nil, mem_singleton] at hw
      omega
  · rcases hpr p hp with hp | ⟨d, hd, hq⟩
    · exact (hi.proposed p hp).trans (Nat.le_of_lt ht)
    · exact Nat.le_of_eq (hnew d p hd hq).1
  · rcases hpe p hp with hp | ⟨hp, hr⟩
    · exact Nat.lt_of_lt_of_le (hi.pending p hp) (roundOf_mono (Nat.le_of_lt ht))
    · exact Nat.lt_of_le_of_lt (roundOf_mono (hi.proposed p hp)) hr
  · rcases hp with hp | hp
    · rcases hpr p hp with hp | ⟨d, hd, hq⟩
      · exact hold p (.inl hp)
      · exact ⟨s', s :: ss, suffix_refl _, ⟨fExt, d, h.extension, hd, hq⟩, (hnew d p hd hq).1.symm⟩
    · rcases hpe p hp with hp | ⟨hp, -⟩
      · exact hold p (.inr hp)
      · exact hold p (.inl hp)

theorem HeaderChain.proposerInv : ∀ {s} {ss},
    HeaderChain x (s :: ss) → ControllerProposals (s :: ss) → ProposerInv (s :: ss) s
  | _, _, .genesis h, _ => proposerInv_genesis h
  | _, _, .next parent step, hc => by
    obtain ⟨fExt, hf⟩ := step.finished
    exact proposerInv_next (parent.proposerInv hc.2) hf hc

/-! ## Policies that left the slots -/

def Gone (p : ProposerPolicy) (s : BlockHeaderState Blob) : Prop :=
  p ∉ s.inFlight ∧ p.proposerSchedule.version ≤ s.getLastProposedProposerPolicy.proposerSchedule.version

theorem last_le (h : Finished x s s' fExt) (hc : ControllerProposals (s' :: s :: ss)) :
    s.getLastProposedProposerPolicy.proposerSchedule.version ≤
      s'.getLastProposedProposerPolicy.proposerSchedule.version ∧
    ∀ p, p ∉ s.inFlight → p ∈ s'.inFlight →
      s.getLastProposedProposerPolicy.proposerSchedule.version < p.proposerSchedule.version := by
  rcases h.inFlight with ⟨hsub, hla⟩ | ⟨d, q, kept, hd, hq, hp, hin, hsub⟩
  · exact ⟨by rw [hla], fun p hp hp' => absurd (hsub.subset hp') hp⟩
  · have hv : s.getLastProposedProposerPolicy.proposerSchedule.version < q.proposerSchedule.version := by
      rw [(ProposerPolicy.applyDiff_ok hq).2]
      exact (hc.1 fExt d h.extension hd).2
    have hl : s'.getLastProposedProposerPolicy = q := by simp [ProposerPipeline.getLastProposedProposerPolicy, hp]
    refine ⟨by rw [hl]; exact Nat.le_of_lt hv, fun p hp hp' => ?_⟩
    rw [hin, mem_append, mem_singleton] at hp'
    rcases hp' with hk | rfl
    · exact absurd (hsub.subset hk) hp
    · exact hv

theorem gone_next (h : Finished x s s' fExt) (hc : ControllerProposals (s' :: s :: ss))
    (hg : Gone p s) : Gone p s' := by
  obtain ⟨hle, hnew⟩ := last_le h hc
  refine ⟨fun hp => ?_, hg.2.trans hle⟩
  exact absurd (hnew p hg.1 hp) (Nat.not_lt_of_le hg.2)

theorem gone_run {p : ProposerPolicy} {a : BlockHeaderState Blob} :
    ∀ newer : List (BlockHeaderState Blob), HeaderChain x (newer ++ a :: older) →
      ControllerProposals (newer ++ a :: older) → Gone p a → ∀ b ∈ newer ++ [a], Gone p b
  | [], _, _, hg => fun b hb => mem_singleton.1 hb ▸ hg
  | [b0], h, hc, hg => by
    cases h with
    | next parent step =>
      obtain ⟨fExt, hf⟩ := step.finished
      have := gone_next hf hc hg
      simpa using ⟨this, hg⟩
  | b0 :: b1 :: newer, h, hc, hg => by
    cases h with
    | next parent step =>
      obtain ⟨fExt, hf⟩ := step.finished
      have ih := gone_run (b1 :: newer) parent hc.2 hg
      intro b hb
      rcases mem_cons.1 hb with rfl | hb
      · exact gone_next hf hc (ih b1 (by simp))
      · exact ih b hb

theorem ControllerProposals.suffix :
    ∀ newer : List (BlockHeaderState Blob), ControllerProposals (newer ++ older) → ControllerProposals older
  | [], h => h
  | [_], h => by
    cases older with
    | nil => exact trivial
    | cons a older => exact h.2
  | _ :: b :: newer, h => ControllerProposals.suffix (b :: newer) h.2

/-- **What a change of the active policy needs**: the first block of a round, two rounds after the proposal, and the
proposal final in the parent. -/
theorem active_changes (h : HeaderChain x (s' :: s :: ss)) (hc : ControllerProposals (s' :: s :: ss))
    (ht : s.timestamp < 2 ^ 32 - 4) (hne : s'.activeProposerPolicy ≠ s.activeProposerPolicy) :
    roundOf s.timestamp < roundOf s'.timestamp ∧
    (∃ a as, a :: as <:+ s :: ss ∧ ProposesSchedule s'.activeProposerPolicy (a :: as) ∧
      roundOf a.timestamp + 2 ≤ roundOf s'.timestamp) ∧
    s.ProposalFinal s'.activeProposerPolicy := by
  cases h with
  | next parent step =>
    obtain ⟨fExt, hf⟩ := step.finished
    have hi := parent.proposerInv hc.2
    obtain ⟨slot, Q, hd, hQ, hact, -, -⟩ := hf.proposerStep
    rw [hQ, advanceProposed_active] at hact
    cases hd with
    | active => exact absurd hact hne
    | @pending p newRound held final =>
      have hp : s'.activeProposerPolicy = p := by
        rw [hact]; simp [ProposerPipeline.activate, ProposerPipeline.policyAt, held]
      have hr := round_lt_of_not_inSameRound ht newRound
      obtain ⟨a, as, hs, ha, hat⟩ := hi.origin p (.inr held)
      have hlt := hi.pending p held
      rw [hp]
      exact ⟨hr, ⟨a, as, hs, ha, by rw [hat]; omega⟩, final⟩
    | @proposed p start newRound held prior before final =>
      have hp : s'.activeProposerPolicy = p := by
        rw [hact]; simp [ProposerPipeline.activate, ProposerPipeline.policyAt, held]
      have hr := round_lt_of_not_inSameRound ht newRound
      obtain ⟨a, as, hs, ha, hat⟩ := hi.origin p (.inl held)
      have hlt := round_lt_of_lt_prior prior before
      rw [hp]
      exact ⟨hr, ⟨a, as, hs, ha, by rw [hat]; omega⟩, final⟩

/-- **The proposer policies over every run** in which no block of the last round has a child. In every state the
versions are strictly increasing from the active over the pending to the proposed policy. The active policy changes only
in the first block of a round, to a policy proposed at least two rounds before, whose proposal is at or before the
parent's last final block. And a policy that was in a block's slots and is in none of its child's is never active in
the child or later. -/
theorem proposerPolicies_run (h : HeaderChain x (s :: ss)) (hc : ControllerProposals (s :: ss))
    (ht : BeforeLastRound (s :: ss)) : (versions s.inFlight).Pairwise (· < ·) ∧
    (∀ parent rest, ss = parent :: rest → s.activeProposerPolicy ≠ parent.activeProposerPolicy →
      roundOf parent.timestamp < roundOf s.timestamp ∧
      (∃ a as, a :: as <:+ ss ∧ ProposesSchedule s.activeProposerPolicy (a :: as) ∧
        roundOf a.timestamp + 2 ≤ roundOf s.timestamp) ∧
      parent.ProposalFinal s.activeProposerPolicy) ∧
    ∀ p newer child a older, s :: ss = newer ++ child :: a :: older → p ∈ a.inFlight → p ∉ child.inFlight →
      ∀ b ∈ newer ++ [child], b.activeProposerPolicy ≠ p := by
  refine ⟨(h.proposerInv hc).ordered, ?_, ?_⟩
  · rintro parent rest rfl hne
    exact active_changes h hc (ht parent (mem_cons_self ..)) hne
  · rintro p newer child a older hL hp hp' b hb hact
    rw [hL] at h hc
    have hg : Gone p child := by
      have hcs := ControllerProposals.suffix newer hc
      cases h.suffix (suffix_append _ _) (by simp) with
      | next parent step =>
        obtain ⟨fExt, hf⟩ := step.finished
        exact ⟨hp', (version_le_last (parent.proposerInv hcs.2).ordered hp).trans (last_le hf hcs).1⟩
    have hb' := (gone_run newer h hc hg b hb).1
    rw [ProposerPipeline.inFlight, hact] at hb'
    exact hb' (mem_cons_self ..)

/-! ## The last round -/

def sampleBlock9 : BlockHeaderState BlockHeaderExtension :=
  sampleChild sampleBlock8 (sampleInput sampleBlock8 sampleLastRound ⟨8, true⟩)

theorem controllerProposals_sampleBlock7 : ControllerProposals [sampleBlock7, sampleBlock6, sampleGenesis] := by
  refine ⟨fun f d hf hd => ?_, fun f d hf hd => ?_, trivial⟩
  · cases hf; cases hd
  · cases hf; cases hd; exact ⟨rfl, by decide⟩

theorem proposerPolicies_run_sampleBlock9 : sampleBlock9.activeProposerPolicy ≠ sampleBlock8.activeProposerPolicy ∧
      roundOf sampleBlock8.timestamp < roundOf sampleBlock9.timestamp := by
  refine ⟨by decide, ?_⟩
  refine ((proposerPolicies_run (.next headerChain_sampleBlock8 (headerStep_sampleChild rfl rfl)) ⟨?_, ?_, ?_⟩ ?_).2.1
    _ _ rfl (by decide)).1
  · intro f d hf hd; cases hf; cases hd
  · intro f d hf hd; cases hf; cases hd
  · exact controllerProposals_sampleBlock7
  · intro a ha
    simp only [tail_cons, mem_cons, not_mem_nil, or_false] at ha
    rcases ha with rfl | rfl | rfl | rfl <;> decide

def sampleLate8 : BlockHeaderState BlockHeaderExtension :=
  sampleChild sampleBlock7 (sampleInput sampleBlock7 sampleLastRound ⟨7, true⟩)

def sampleLate9 : BlockHeaderState BlockHeaderExtension :=
  sampleChild sampleLate8 (sampleInput sampleLate8 (sampleLastRound + 1) ⟨8, true⟩)

/-- **In the last round the active policy changes in the second block.** -/
theorem activeProposerPolicy_changes_in_round :
    HeaderChain sampleExternals [sampleLate9, sampleLate8, sampleBlock7, sampleBlock6, sampleGenesis] ∧
    ControllerProposals [sampleLate9, sampleLate8, sampleBlock7, sampleBlock6, sampleGenesis] ∧
    sampleLate9.timestamp < 2 ^ 32 ∧ roundOf sampleLate8.timestamp = roundOf sampleLate9.timestamp ∧
    sampleLate9.activeProposerPolicy ≠ sampleLate8.activeProposerPolicy := by
  refine ⟨.next (.next headerChain_sampleBlock7 (headerStep_sampleChild rfl rfl)) (headerStep_sampleChild rfl rfl),
    ⟨?_, ?_, controllerProposals_sampleBlock7⟩, by decide, by decide, by decide⟩
  · intro f d hf hd; cases hf; cases hd
  · intro f d hf hd; cases hf; cases hd

end BlockHeaderState
end TheChannel
