import TheChannel.FinalizerRun
/-!
# FinalizerLookup — the finalizer policies in force at an ancestor

`get_finalizer_policies` rebuilds the policies of an ancestor from the generations in its reference and the policies a
state still holds. A certificate can be about any block from the claimed one on, so these are the ancestors it must work
for. `PolicyView` is what a state holds about them: while a policy is pending nothing else changes (`since`), so between
the claimed block and the current one at most one policy became active, and the one it replaced is kept.
-/
namespace TheChannel
namespace BlockHeaderState
open FinalityCore List
open FinalizerPipeline (Promotes Opened)

variable {Blob : Type} {x : Externals Blob} {s s' a : BlockHeaderState Blob} {ss : List (BlockHeaderState Blob)}
  {fExt : FinalityExtension}

structure PolicyView (s : BlockHeaderState Blob) (ss : List (BlockHeaderState Blob)) : Prop where
  since : ∀ q, s.pendingFinalizerPolicy = some q → ∀ a ∈ s :: ss, q.1 ≤ a.blockNum →
    a.pendingFinalizerPolicy = some q ∧ a.activeFinalizerPolicy = s.activeFinalizerPolicy
  active : ∀ a ∈ s :: ss, s.core.latestQcClaim.blockNum ≤ a.blockNum →
    a.activeFinalizerPolicy = s.activeFinalizerPolicy ∨
      (s.latestQcClaimBlockActiveFinalizerPolicy = some a.activeFinalizerPolicy ∧
        a.activeFinalizerPolicy.generation < s.activeFinalizerPolicy.generation)
  pending : ∀ a ∈ s :: ss, s.core.latestQcClaim.blockNum ≤ a.blockNum → ∀ q, a.pendingFinalizerPolicy = some q →
    q.2 = s.activeFinalizerPolicy ∨ ∃ m, s.pendingFinalizerPolicy = some (m, q.2)

/-! ## Looking up -/

theorem activePolicyOf_eq (hi : PipelineInv s) (hv : PolicyView s ss) (ha : a ∈ s :: ss)
    (hc : s.core.latestQcClaim.blockNum ≤ a.blockNum) :
    s.activePolicyOf a.activeFinalizerPolicy.generation = .ok a.activeFinalizerPolicy := by
  unfold activePolicyOf
  rcases hv.active a ha hc with heq | ⟨hl, hlt⟩
  · rw [if_pos (by rw [heq]), heq]
  · rw [if_neg (by omega), assertThat_bind, hl]
    · simp [assertThat, eosAssert, pure, Except.pure]
    · cases hp : s.pendingFinalizerPolicy with
      | none => rfl
      | some q =>
        have := active_lt_pending hi hp
        simp only [Option.all_some, decide_eq_true_eq]
        omega

theorem pendingPolicyOf_eq (hi : PipelineInv s) (hia : PipelineInv a) (hv : PolicyView s ss) (ha : a ∈ s :: ss)
    (hc : s.core.latestQcClaim.blockNum ≤ a.blockNum) :
    s.pendingPolicyOf ((a.pendingFinalizerPolicy.map (·.2.generation)).getD 0) =
      .ok (a.pendingFinalizerPolicy.map Prod.snd) := by
  unfold pendingPolicyOf
  cases hp : a.pendingFinalizerPolicy with
  | none => rfl
  | some q =>
    have hpos := hia.positive q.2 (by simp [FinalizerPipeline.policies, hp])
    simp only [Option.map_some, Option.getD_some]
    rw [if_neg (by omega)]
    rcases hv.pending a ha hc q hp with heq | ⟨m, hm⟩
    · rw [if_pos (by rw [heq]), heq]
    · have := active_lt_pending hi hm
      rw [if_neg (by simp only at this; omega), hm]
      simp [assertThat, eosAssert, pure, Except.pure]

theorem getFinalizerPolicies_eq (h : HeaderChain x (s :: ss)) (hv : PolicyView s ss) (ha : a ∈ s :: ss)
    (hc : s.core.latestQcClaim.blockNum ≤ a.blockNum) :
    s.getFinalizerPolicies (a.ref x) =
      .ok ⟨(a.ref x).finalityDigest, a.activeFinalizerPolicy, a.pendingFinalizerPolicy.map Prod.snd⟩ := by
  obtain ⟨as, hca⟩ := h.of_mem ha
  have hia := hca.pipelineInv
  have hla := hca.linked
  obtain ⟨-, hid, -, hag, hpg⟩ := makeBlockRef_ok (x := x) hla.wf
  have hnum : (a.ref x).blockNum = a.blockNum := by rw [BlockRef.blockNum, hid]; exact hla.idNum
  have hle := h.blockNum_le ha
  have hpos := hia.positive a.activeFinalizerPolicy List.mem_cons_self
  unfold getFinalizerPolicies
  rw [assertThat_bind, assertThat_bind, hag, hpg, activePolicyOf_eq h.pipelineInv hv ha hc, ok_bind,
    pendingPolicyOf_eq h.pipelineInv hia hv ha hc]
  · rfl
  · rw [hag]
    simp only [bne_iff_ne, ne_eq]
    omega
  · rw [hnum, h.linked.current]
    simp only [Bool.or_eq_true, decide_eq_true_eq]
    exact .inr ⟨hc, hle⟩

theorem getActiveFinalizerPolicyGeneration_eq (h : HeaderChain x (s :: ss)) (ha : a ∈ s :: ss)
    (hlf : s.core.lastFinalBlockNum ≤ a.blockNum) :
    s.getActiveFinalizerPolicyGeneration a.blockNum = .ok a.activeFinalizerPolicy.generation := by
  have hl := h.linked
  unfold getActiveFinalizerPolicyGeneration
  rcases mem_cons.1 ha with rfl | ha
  · rw [assertThat_bind, if_pos rfl]
    · rfl
    · rw [hl.current]
      simp only [Bool.or_eq_true, decide_eq_true_eq]
      exact .inr ⟨hlf, le_rfl⟩
  · have hlt := h.blockNum_lt ha
    obtain ⟨as, hca⟩ := h.of_mem (mem_cons_of_mem _ ha)
    obtain ⟨-, -, -, hag, -⟩ := makeBlockRef_ok (x := x) hca.linked.wf
    rw [assertThat_bind, if_neg (by omega), h.getBlockReference_eq ha hlf, ← hag]
    · rfl
    · rw [hl.current]
      simp only [Bool.or_eq_true, decide_eq_true_eq]
      exact .inr ⟨hlf, Nat.le_of_lt hlt⟩

/-! ## Along the chain -/

theorem claimedActivePolicy_eq (h : HeaderChain x (s :: ss)) (hv : PolicyView s ss) {q : QcClaim}
    (hq : s.core.Claimable q) (ha : a ∈ s :: ss) (hn : a.blockNum = q.blockNum) (generation : Nat) :
    s.claimedActivePolicy (s.core.advance (s.ref x) q) generation =
      .ok (if a.activeFinalizerPolicy.generation = generation then none else some a.activeFinalizerPolicy) := by
  have hl := h.linked
  have hle := hq.claim_le
  have hlf := hl.wf.lastFinal_le_claim
  have hne : (s.core.advance (s.ref x) q).lastFinalBlockNum ≤ a.blockNum := by
    have := (wf_advance hl.wf hq hl.view.current.symm hl.view.times).lastFinal_le_claim
    rwa [advance_latestQcClaim, ← hn] at this
  unfold claimedActivePolicy
  rw [advance_latestQcClaim, ← hn]
  simp only
  rw [getActiveFinalizerPolicyGeneration_eq h ha (by omega), ok_bind]
  split
  · rfl
  · rw [h.advance_getBlockReference hq ha hne, ok_bind, getFinalizerPolicies_eq h hv ha (by omega), ok_bind]
    rfl

theorem policyView_genesis (h : Genesis x s) : PolicyView s [] := by
  have hp := h.started.pending
  refine ⟨fun q hq => ?_, fun a ha _ => ?_, fun a ha _ q hq => ?_⟩
  · rw [hp] at hq; cases hq
  · rw [mem_singleton.1 ha]; exact .inl rfl
  · rw [mem_singleton.1 ha, hp] at hq; cases hq

theorem policyView_next (h : HeaderChain x (s' :: s :: ss)) (hf : Finished x s s' fExt) (hv : PolicyView s ss) :
    PolicyView s' (s :: ss) := by
  have hp := h.parent
  have hle := hf.core_le hp.linked
  have hlf := hp.linked.wf.lastFinal_le_claim
  have hnum := hf.blockNum_eq hp.linked
  -- the block the child claims
  obtain ⟨c, hc, hcn⟩ := hp.exists_at (n := s'.core.latestQcClaim.blockNum) (by omega) hle.2.1
  have hk : s'.latestQcClaimBlockActiveFinalizerPolicy =
      if c.activeFinalizerPolicy.generation = s'.activeFinalizerPolicy.generation then none
      else some c.activeFinalizerPolicy := by
    obtain ⟨hq, hco⟩ := hf.core_eq hp.linked
    have hcl := hf.claimed
    rw [hco, claimedActivePolicy_eq hp hv hq hc (by rw [hcn, hco, advance_latestQcClaim])] at hcl
    exact (Except.ok.inj hcl).symm
  have hnew : (∀ q, s'.pendingFinalizerPolicy = some q → q.1 = s'.blockNum) → ∀ q, s'.pendingFinalizerPolicy = some q →
      ∀ a ∈ s' :: s :: ss, q.1 ≤ a.blockNum →
        a.pendingFinalizerPolicy = some q ∧ a.activeFinalizerPolicy = s'.activeFinalizerPolicy := by
    intro hq q hs a ha hqa
    rcases mem_cons.1 ha with rfl | ha
    · exact ⟨hs, rfl⟩
    · have := hq q hs
      have := hp.blockNum_le ha
      omega
  rcases hf.active_cases with ⟨hac, hpn⟩ | ⟨m, hm, hfin, hq⟩
  · -- the active policy stays
    have hact : ∀ a ∈ s :: ss, s'.core.latestQcClaim.blockNum ≤ a.blockNum →
        a.activeFinalizerPolicy = s'.activeFinalizerPolicy ∨
          (s'.latestQcClaimBlockActiveFinalizerPolicy = some a.activeFinalizerPolicy ∧
            a.activeFinalizerPolicy.generation < s'.activeFinalizerPolicy.generation) := by
      intro a ha hca
      rw [hac]
      rcases hv.active a ha (by omega) with heq | ⟨ha', hlt⟩
      · exact .inl heq
      · have hmo := hp.active_mono a ha c hc (by omega)
        refine .inr ⟨?_, hlt⟩
        rw [hk, hac, if_neg (by omega)]
        rcases hv.active c hc (by omega) with heq | ⟨hc', -⟩
        · rw [heq] at hmo; omega
        · rw [← hc', ha']
    have hpe : ∀ a ∈ s :: ss, s'.core.latestQcClaim.blockNum ≤ a.blockNum → ∀ q, a.pendingFinalizerPolicy = some q →
        q.2 = s'.activeFinalizerPolicy ∨ ∃ m, s'.pendingFinalizerPolicy = some (m, q.2) := by
      intro a ha hca q hq
      rw [hac]
      rcases hv.pending a ha (by omega) q hq with heq | ⟨m, hm⟩
      · exact .inl heq
      · rcases hpn with hpn | ⟨hn, -⟩
        · exact .inr ⟨m, hpn.trans hm⟩
        · rw [hn] at hm; cases hm
    refine ⟨?_, fun a ha hca => ?_, fun a ha hca q hq => ?_⟩
    · rcases hpn with hpn | ⟨-, hq⟩
      · intro q hs a ha hqa
        rcases mem_cons.1 ha with rfl | ha
        · exact ⟨hs, rfl⟩
        · rw [hac]
          exact hv.since q (hpn ▸ hs) a ha hqa
      · exact hnew hq
    · rcases mem_cons.1 ha with rfl | ha
      · exact .inl rfl
      · exact hact a ha hca
    · rcases mem_cons.1 ha with rfl | ha
      · exact .inr ⟨q.1, hq⟩
      · exact hpe a ha hca q hq
  · -- the pending policy becomes active: it was pending, and nothing else changed, since before the claimed block
    have hlt := active_lt_pending hp.pipelineInv hm
    have hlf' := h.linked.wf.lastFinal_le_claim
    refine ⟨hnew hq, fun a ha hca => ?_, fun a ha hca q hqa => ?_⟩
    · rcases mem_cons.1 ha with rfl | ha
      · exact .inl rfl
      · obtain ⟨-, hct⟩ := hv.since _ hm c hc (by simp only; omega)
        obtain ⟨-, haa⟩ := hv.since _ hm a ha (by simp only; omega)
        simp only at hlt
        rw [hk, haa, hct, if_neg (by omega)]
        exact .inr ⟨rfl, hlt⟩
    · rcases mem_cons.1 ha with rfl | ha
      · exact .inr ⟨q.1, hqa⟩
      · obtain ⟨hap, -⟩ := hv.since _ hm a ha (by simp only; omega)
        rw [hqa] at hap
        cases hap
        exact .inl rfl

theorem HeaderChain.policyView : ∀ {s} {ss},
    HeaderChain x (s :: ss) → PolicyView s ss
  | _, _, .genesis h => policyView_genesis h
  | _, _, .next parent step => by
    obtain ⟨fExt, hf⟩ := step.finished
    exact policyView_next (.next parent step) hf parent.policyView

/-- **The policies of every ancestor a certificate can be about**: for every block of the chain from the latest claimed
one to the current one, `get_finalizer_policies` on the reference that block made of itself, and on its number, returns
the active and the pending policy of that block's own state. -/
theorem getFinalizerPolicies_ancestor (h : HeaderChain x (s :: ss)) (ha : a ∈ s :: ss)
    (hc : s.core.latestQcClaim.blockNum ≤ a.blockNum) :
    ∃ r, a.makeBlockRef x = .ok r ∧
      s.getFinalizerPolicies r =
        .ok ⟨r.finalityDigest, a.activeFinalizerPolicy, a.pendingFinalizerPolicy.map Prod.snd⟩ ∧
      s.getFinalizerPoliciesAt x a.blockNum =
        .ok ⟨r.finalityDigest, a.activeFinalizerPolicy, a.pendingFinalizerPolicy.map Prod.snd⟩ := by
  have hl := getFinalizerPolicies_eq h h.policyView ha hc
  obtain ⟨as, hca⟩ := h.of_mem ha
  refine ⟨a.ref x, hca.linked.made, hl, ?_⟩
  unfold getFinalizerPoliciesAt
  rcases mem_cons.1 ha with rfl | ha
  · rw [if_pos rfl, h.linked.made, ok_bind, hl]
  · have hlt := h.blockNum_lt ha
    have hlf := h.linked.wf.lastFinal_le_claim
    rw [if_neg (by omega), h.getBlockReference_eq ha (by omega), ok_bind, hl]

theorem getFinalizerPolicies_ancestor_sampleBlock8 :
    sampleBlock8.pendingFinalizerPolicy = some (8, sampleFinalizerPolicy 2) ∧
    ∃ r, sampleBlock7.makeBlockRef sampleExternals = .ok r ∧
      sampleBlock8.getFinalizerPolicies r = .ok ⟨r.finalityDigest, sampleFinalizerPolicy 1, none⟩ ∧
      sampleBlock8.getFinalizerPoliciesAt sampleExternals 7 = .ok ⟨r.finalityDigest, sampleFinalizerPolicy 1, none⟩ :=
  ⟨rfl, getFinalizerPolicies_ancestor headerChain_sampleBlock8 (mem_cons_of_mem _ (mem_cons_self ..)) (by decide)⟩

end BlockHeaderState
end TheChannel
