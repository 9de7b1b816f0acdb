import TheChannel.HeaderChain
/-!
# FinalizerRun — finalizer policies from proposed to active

A finalizer policy is proposed in a block, becomes pending when that block is final and active when the block in which it
became pending is final. `Promotes` says what one `evaluate_finalizer_policies_for_promotion` can do; a step adds at
most one proposal behind it (`Finished.pipeline`). Along a chain the generations in flight stay strictly ordered
(`PipelineInv`) and every policy in flight has the blocks it came from behind it (`Provenance`).
-/
namespace TheChannel
open FinalizerPipeline List

namespace FinalizerPipeline
variable {P Q : FinalizerPipeline} {lib n : Nat}

def policies (P : FinalizerPipeline) : List FinalizerPolicy :=
  P.activeFinalizerPolicy :: (P.pendingFinalizerPolicy.toList ++ P.proposedFinalizerPolicies).map Prod.snd

/-- The pending slot is open and `active` is active: nothing was pending, or its block is final. -/
def Opened (P : FinalizerPipeline) (lib : Nat) (active : FinalizerPolicy) : Prop :=
  (P.pendingFinalizerPolicy = none ∧ active = P.activeFinalizerPolicy) ∨
    ∃ m, P.pendingFinalizerPolicy = some (m, active) ∧ m ≤ lib

/-- **What an evaluation can do** at last final block `lib`, in block `n`: the pending policy waits, and of the proposed
ones those before a final one are dropped; or its slot is open and stays so; or the last final proposal takes it. -/
inductive Promotes (P : FinalizerPipeline) (lib n : Nat) : FinalizerPipeline → Prop
  | wait {m : Nat} {p : FinalizerPolicy} {dropped rest : List (Nat × FinalizerPolicy)}
      (pending : P.pendingFinalizerPolicy = some (m, p)) (notFinal : lib < m)
      (split : P.proposedFinalizerPolicies = dropped ++ rest)
      (overtaken : dropped = [] ∨ ∃ t ts, rest = t :: ts ∧ t.1 ≤ lib) :
      Promotes P lib n ⟨P.activeFinalizerPolicy, rest, some (m, p)⟩
  | idle {active : FinalizerPolicy} (opened : Opened P lib active) :
      Promotes P lib n ⟨active, P.proposedFinalizerPolicies, none⟩
  | start {active : FinalizerPolicy} {dropped rest : List (Nat × FinalizerPolicy)} {target : Nat × FinalizerPolicy}
      (opened : Opened P lib active) (split : P.proposedFinalizerPolicies = dropped ++ target :: rest)
      (final : target.1 ≤ lib) : Promotes P lib n ⟨active, rest, some (n, target.2)⟩

theorem target_split {l : List (Nat × FinalizerPolicy)} {t : Nat × FinalizerPolicy}
    (h : (l.takeWhile (fun p => decide (p.1 ≤ lib))).getLast? = some t) :
    t.1 ≤ lib ∧ l = (l.takeWhile (fun p => decide (p.1 ≤ lib))).dropLast ++ t ::
      l.dropWhile (fun p => decide (p.1 ≤ lib)) := by
  refine ⟨by simpa using mem_takeWhile_imp (mem_of_getLast? h), ?_⟩
  have hl := dropLast_append_getLast? t h
  calc l = l.takeWhile (fun p => decide (p.1 ≤ lib)) ++ l.dropWhile (fun p => decide (p.1 ≤ lib)) :=
        takeWhile_append_dropWhile.symm
    _ = _ := by rw [← singleton_append, ← append_assoc, hl]

theorem promotes_evaluate (P : FinalizerPipeline) (lib n : Nat) : Promotes P lib n (P.evaluateForPromotion lib n).1 := by
  unfold evaluateForPromotion promotePending
  cases hp : P.pendingFinalizerPolicy with
  | none =>
    simp only
    cases ht : (P.proposedFinalizerPolicies.takeWhile (fun p => decide (p.1 ≤ lib))).getLast? with
    | none => exact .idle (.inl ⟨hp, rfl⟩)
    | some t =>
      obtain ⟨hle, hs⟩ := target_split ht
      exact .start (.inl ⟨hp, rfl⟩) hs hle
  | some q =>
    by_cases hq : q.1 ≤ lib
    · simp only [hq, if_true]
      cases ht : (P.proposedFinalizerPolicies.takeWhile (fun p => decide (p.1 ≤ lib))).getLast? with
      | none => exact .idle (.inr ⟨q.1, hp, hq⟩)
      | some t =>
        obtain ⟨hle, hs⟩ := target_split ht
        exact .start (.inr ⟨q.1, hp, hq⟩) hs hle
    · simp only [hq, if_false]
      cases ht : (P.proposedFinalizerPolicies.takeWhile (fun p => decide (p.1 ≤ lib))).getLast? with
      | none => exact .wait hp (Nat.lt_of_not_le hq) (nil_append _).symm (.inl rfl)
      | some t =>
        obtain ⟨hle, hs⟩ := target_split ht
        exact .wait hp (Nat.lt_of_not_le hq) hs (.inr ⟨t, _, rfl, hle⟩)

theorem Promotes.policies_sublist (h : Promotes P lib n Q) : Q.policies.Sublist P.policies := by
  cases h with
  | wait pending notFinal split overtaken =>
    simp only [policies, pending, split, Option.toList_some, map_append]
    exact .cons_cons _ (.append_left (sublist_append_right _ _) _)
  | idle opened =>
    rcases opened with ⟨hn, rfl⟩ | ⟨m, hm, -⟩
    · simp [policies, hn]
    · simp [policies, hm]
  | start opened split final =>
    rcases opened with ⟨hn, rfl⟩ | ⟨m, hm, -⟩
    · simp [policies, hn, split]
    · simp [policies, hm, split]

theorem Promotes.proposed_suffix (h : Promotes P lib n Q) :
    Q.proposedFinalizerPolicies <:+ P.proposedFinalizerPolicies := by
  cases h with
  | wait _ _ split _ => exact split ▸ suffix_append _ _
  | idle _ => exact suffix_refl _
  | start _ split _ => rw [split]; exact (suffix_cons _ _).trans (suffix_append _ _)

end FinalizerPipeline

namespace BlockHeaderState
open FinalizerPipeline (Promotes Opened promotes_evaluate)

variable {Blob : Type} {x : Externals Blob} {s s' : BlockHeaderState Blob} {ss : List (BlockHeaderState Blob)}
  {fExt : FinalityExtension} {q : Nat × FinalizerPolicy} {p : FinalizerPolicy}

theorem Finished.pipeline (h : Finished x s s' fExt) : ∃ Q,
    Promotes s.toFinalizerPipeline s'.core.lastFinalBlockNum s'.blockNum Q ∧
    s'.activeFinalizerPolicy = Q.activeFinalizerPolicy ∧ s'.pendingFinalizerPolicy = Q.pendingFinalizerPolicy ∧
    ((s'.proposedFinalizerPolicies = Q.proposedFinalizerPolicies ∧
        s'.finalizerPolicyGeneration = s.finalizerPolicyGeneration) ∨
      ∃ d p, fExt.newFinalizerPolicyDiff = some d ∧ s.getLastProposedFinalizerPolicy.applyDiff d = .ok p ∧
        s.finalizerPolicyGeneration < p.generation ∧ s'.finalizerPolicyGeneration = p.generation ∧
        s'.proposedFinalizerPolicies = Q.proposedFinalizerPolicies ++ [(s'.blockNum, p)]) := by
  refine ⟨_, promotes_evaluate _ _ _, h.promoted.1, h.promoted.2, ?_⟩
  have hnew := h.proposed
  cases hd : fExt.newFinalizerPolicyDiff with
  | none =>
    rw [hd] at hnew
    simp only [addNewFinalizerPolicy, Except.ok.injEq, Prod.mk.injEq] at hnew
    exact .inl ⟨hnew.2.symm, hnew.1.symm⟩
  | some d =>
    rw [hd] at hnew
    obtain ⟨p, hp, hnew⟩ := bind_ok hnew
    obtain ⟨hg, hnew⟩ := unit_ok hnew
    simp only [pure, Except.pure, Except.ok.injEq, Prod.mk.injEq] at hnew
    exact .inr ⟨d, p, rfl, hp, by simpa using hg, hnew.1.symm, hnew.2.symm⟩

/-! ## The order of the policies in flight -/

/-- **The policies in flight are ordered**: by generation, up to the last one given; the proposed ones by block. -/
structure PipelineInv (s : BlockHeaderState Blob) : Prop where
  ordered : (s.policies.map FinalizerPolicy.generation).Pairwise (· < ·)
  bounded : ∀ p ∈ s.policies, p.generation ≤ s.finalizerPolicyGeneration
  positive : ∀ p ∈ s.policies, 0 < p.generation
  numbers : (s.proposedFinalizerPolicies.map Prod.fst).Pairwise (· < ·)
  number : ∀ q ∈ s.proposedFinalizerPolicies, q.1 ≤ s.blockNum

theorem pipelineInv_genesis (h : Genesis x s) : PipelineInv s := by
  have hs := h.started
  have hpo : s.policies = [s.activeFinalizerPolicy] := by simp [policies, hs.pending, hs.proposed]
  refine ⟨by simp [hpo], ?_, ?_, by simp [hs.proposed], by simp [hs.proposed]⟩
  · intro p hp
    rw [hpo, mem_singleton] at hp
    rw [hp, h.generation, hs.last]
  · intro p hp
    rw [hpo, mem_singleton] at hp
    rw [hp, h.generation]
    exact Nat.one_pos

theorem pipelineInv_next (hi : PipelineInv s) (hn : s'.blockNum = s.blockNum + 1) (h : Finished x s s' fExt) :
    PipelineInv s' := by
  obtain ⟨Q, hQ, hact, hpe, hnew⟩ := h.pipeline
  have hsub := hQ.policies_sublist
  have hsuf := hQ.proposed_suffix
  have hord : (Q.policies.map FinalizerPolicy.generation).Pairwise (· < ·) := hi.ordered.sublist (hsub.map _)
  have hnu : (Q.proposedFinalizerPolicies.map Prod.fst).Pairwise (· < ·) := hi.numbers.sublist (hsuf.sublist.map _)
  have hnum : ∀ q ∈ Q.proposedFinalizerPolicies, q.1 < s'.blockNum := fun q hq => by
    have := hi.number q (hsuf.subset hq)
    omega
  rcases hnew with ⟨hp, hg⟩ | ⟨d, p, -, -, hlt, hg, hp⟩
  · have hpo : s'.policies = Q.policies := by simp only [policies, hact, hpe, hp]
    refine ⟨hpo ▸ hord, ?_, ?_, hp ▸ hnu, fun q hq => Nat.le_of_lt (hnum q (hp ▸ hq))⟩
    · rw [hpo, hg]
      exact fun q hq => hi.bounded q (hsub.subset hq)
    · rw [hpo]
      exact fun q hq => hi.positive q (hsub.subset hq)
  · have hpo : s'.policies = Q.policies ++ [p] := by
      simp only [policies, hact, hpe, hp, map_append, cons_append,
        append_assoc, map_cons, map_nil]
    have hb : ∀ q ∈ Q.policies, q.generation < p.generation := fun q hq =>
      Nat.lt_of_le_of_lt (hi.bounded q (hsub.subset hq)) hlt
    refine ⟨?_, ?_, ?_, ?_, ?_⟩
    · rw [hpo, map_append, pairwise_append]
      refine ⟨hord, by simp, ?_⟩
      simpa using hb
    · rw [hpo, hg]
      intro q hq
      rcases mem_append.1 hq with hq | hq
      · exact Nat.le_of_lt (hb q hq)
      · rw [mem_singleton.1 hq]
    · rw [hpo]
      intro q hq
      rcases mem_append.1 hq with hq | hq
      · exact hi.positive q (hsub.subset hq)
      · rw [mem_singleton.1 hq]; omega
    · rw [hp, map_append, pairwise_append]
      refine ⟨hnu, by simp, ?_⟩
      simpa using fun m q hq => hnum (m, q) hq
    · rw [hp]
      intro q hq
      rcases mem_append.1 hq with hq | hq
      · exact Nat.le_of_lt (hnum q hq)
      · rw [mem_singleton.1 hq]

theorem HeaderChain.pipelineInv : ∀ {s} {ss},
    HeaderChain x (s :: ss) → PipelineInv s
  | _, _, .genesis h => pipelineInv_genesis h
  | _, _, .next parent step => by
    obtain ⟨fExt, hf⟩ := step.finished
    exact pipelineInv_next parent.pipelineInv (hf.blockNum_eq parent.linked) hf

theorem active_lt_pending (hi : PipelineInv s) (h : s.pendingFinalizerPolicy = some q) :
    s.activeFinalizerPolicy.generation < q.2.generation := by
  have := hi.ordered
  simp only [policies, h, Option.toList_some, map_cons, singleton_append,
    pairwise_cons] at this
  exact this.1 _ mem_cons_self

theorem Finished.active_cases (h : Finished x s s' fExt) :
    (s'.activeFinalizerPolicy = s.activeFinalizerPolicy ∧ (s'.pendingFinalizerPolicy = s.pendingFinalizerPolicy ∨
        (s.pendingFinalizerPolicy = none ∧ ∀ q, s'.pendingFinalizerPolicy = some q → q.1 = s'.blockNum))) ∨
      ∃ m, s.pendingFinalizerPolicy = some (m, s'.activeFinalizerPolicy) ∧ m ≤ s'.core.lastFinalBlockNum ∧
        ∀ q, s'.pendingFinalizerPolicy = some q → q.1 = s'.blockNum := by
  obtain ⟨Q, hQ, hact, hp, -⟩ := h.pipeline
  rw [hact, hp]
  cases hQ with
  | wait pending _ _ _ => exact .inl ⟨rfl, .inl pending.symm⟩
  | idle opened =>
    rcases opened with ⟨hn, heq⟩ | ⟨m, hm, hle⟩
    · exact .inl ⟨heq, .inl hn.symm⟩
    · exact .inr ⟨m, hm, hle, fun q hq => by cases hq⟩
  | start opened _ _ =>
    rcases opened with ⟨hn, heq⟩ | ⟨m, hm, hle⟩
    · exact .inl ⟨heq, .inr ⟨hn, fun q hq => by cases hq; rfl⟩⟩
    · exact .inr ⟨m, hm, hle, fun q hq => by cases hq; rfl⟩

theorem HeaderChain.active_descending : ∀ {L}, HeaderChain x L →
    L.IsChain (fun a b => b.blockNum < a.blockNum ∧ b.activeFinalizerPolicy.generation ≤ a.activeFinalizerPolicy.generation)
  | _, .genesis _ => isChain_singleton _
  | _, .next parent step => by
    obtain ⟨fExt, hf⟩ := step.finished
    refine isChain_cons_cons.2 ⟨⟨?_, ?_⟩, parent.active_descending⟩
    · have := hf.blockNum_eq parent.linked
      omega
    · rcases hf.active_cases with ⟨heq, -⟩ | ⟨m, hm, -⟩
      · rw [heq]
      · exact Nat.le_of_lt (active_lt_pending parent.pipelineInv hm)

theorem HeaderChain.active_mono {L : List (BlockHeaderState Blob)} (h : HeaderChain x L) :
    ∀ a ∈ L, ∀ b ∈ L, b.blockNum ≤ a.blockNum →
      b.activeFinalizerPolicy.generation ≤ a.activeFinalizerPolicy.generation := by
  have : IsTrans (BlockHeaderState Blob) (fun a b => b.blockNum < a.blockNum ∧
      b.activeFinalizerPolicy.generation ≤ a.activeFinalizerPolicy.generation) :=
    ⟨fun _ _ _ h1 h2 => ⟨h2.1.trans h1.1, h2.2.trans h1.2⟩⟩
  have hp := isChain_iff_pairwise.1 h.active_descending
  let R : BlockHeaderState Blob → BlockHeaderState Blob → Prop := fun a b => b.blockNum ≤ a.blockNum →
    b.activeFinalizerPolicy.generation ≤ a.activeFinalizerPolicy.generation
  have hR : L.Pairwise R := hp.imp fun hab _ => hab.2
  have hf : L.Pairwise (flip R) := hp.imp fun hab hle => absurd hab.1 (Nat.not_lt.2 hle)
  exact fun a ha b hb => List.Pairwise.forall_of_forall_of_flip (fun _ _ _ => le_rfl) hR hf ha hb

/-! ## Where the policies in flight come from -/

/-- The newest block of this chain proposed `p`: its header carries the diff that makes `p` of the policy proposed last
before it. -/
def Proposes (p : FinalizerPolicy) : List (BlockHeaderState Blob) → Prop
  | a :: b :: _ => ∃ f d, a.finalityExtension = some f ∧ f.newFinalizerPolicyDiff = some d ∧
      b.getLastProposedFinalizerPolicy.applyDiff d = .ok p
  | _ => False

def StartsPending (p : FinalizerPolicy) : List (BlockHeaderState Blob) → Prop
  | a :: b :: _ => a.pendingFinalizerPolicy = some (a.blockNum, p) ∧ b.pendingFinalizerPolicy ≠ some (a.blockNum, p)
  | _ => False

/-- **Every policy in flight has its blocks on the chain**: the number a proposed policy is listed with is that of the
block that proposed it, the number of the pending one that of the block in which it became pending. -/
structure Provenance (L : List (BlockHeaderState Blob)) (s : BlockHeaderState Blob) : Prop where
  proposed : ∀ m p, (m, p) ∈ s.proposedFinalizerPolicies → ∃ a as, a :: as <:+ L ∧ a.blockNum = m ∧ Proposes p (a :: as)
  pending : ∀ m p, s.pendingFinalizerPolicy = some (m, p) →
    ∃ a as, a :: as <:+ L ∧ a.blockNum = m ∧ StartsPending p (a :: as)

theorem provenance_genesis (h : Genesis x s) : Provenance [s] s := by
  have hs := h.started
  refine ⟨fun m p hm => ?_, fun m p hm => ?_⟩
  · rw [hs.proposed] at hm; cases hm
  · rw [hs.pending] at hm; cases hm

theorem provenance_next (hi : Provenance (s :: ss) s) (hc : HeaderChain x (s :: ss)) (h : Finished x s s' fExt) :
    Provenance (s' :: s :: ss) s' := by
  obtain ⟨Q, hQ, -, hpe, hnew⟩ := h.pipeline
  have hsuf := hQ.proposed_suffix
  have hnum := h.blockNum_eq hc.linked
  have hold : ∀ m p, (m, p) ∈ s.proposedFinalizerPolicies →
      ∃ a as, a :: as <:+ s' :: s :: ss ∧ a.blockNum = m ∧ Proposes p (a :: as) := fun m p hm => by
    obtain ⟨a, as, hs, ha⟩ := hi.proposed m p hm
    exact ⟨a, as, hs.trans (suffix_cons _ _), ha⟩
  refine ⟨fun m p hm => ?_, fun m p hm => ?_⟩
  · rcases hnew with ⟨hpr, -⟩ | ⟨d, q, hd, hq, -, -, hpr⟩
    · exact hold m p (hsuf.subset (hpr ▸ hm))
    · rw [hpr] at hm
      rcases mem_append.1 hm with hm | hm
      · exact hold m p (hsuf.subset hm)
      · obtain ⟨rfl, rfl⟩ := Prod.mk.injEq .. ▸ mem_singleton.1 hm
        exact ⟨s', s :: ss, suffix_refl _, rfl, fExt, d, h.extension, hd, hq⟩
  · rw [hpe] at hm
    cases hQ with
    | wait hold' _ _ _ =>
      obtain ⟨a, as, hs, ha⟩ := hi.pending m p (hold'.trans hm)
      exact ⟨a, as, hs.trans (suffix_cons _ _), ha⟩
    | idle _ => cases hm
    | start _ _ _ =>
      cases hm
      refine ⟨s', s :: ss, suffix_refl _, rfl, hpe, fun hp => ?_⟩
      -- what is pending in the parent has been so since the parent or before
      obtain ⟨a, as, hs, ha, -⟩ := hi.pending _ _ hp
      have := hc.blockNum_le (hs.subset mem_cons_self)
      omega

theorem HeaderChain.provenance : ∀ {s} {ss},
    HeaderChain x (s :: ss) → Provenance (s :: ss) s
  | _, _, .genesis h => provenance_genesis h
  | _, _, .next parent step => by
    obtain ⟨fExt, hf⟩ := step.finished
    exact provenance_next parent.provenance parent hf

/-! ## The run -/

theorem dropped_overtaken (hc : HeaderChain x (s :: ss)) (h : Finished x s s' fExt) {m : Nat}
    (hm : (m, p) ∈ s.proposedFinalizerPolicies) (hn : (m, p) ∉ s'.proposedFinalizerPolicies) :
    s'.pendingFinalizerPolicy = some (s'.blockNum, p) ∨
      ∃ a as q, a :: as <:+ s :: ss ∧ Proposes q (a :: as) ∧ m < a.blockNum ∧
        a.blockNum ≤ s'.core.lastFinalBlockNum := by
  obtain ⟨Q, hQ, -, hpe, hnew⟩ := h.pipeline
  have hn' : (m, p) ∉ Q.proposedFinalizerPolicies := fun hq => hn (by
    rcases hnew with ⟨hp, -⟩ | ⟨d, q, -, -, -, -, hp⟩
    · rw [hp]; exact hq
    · rw [hp]; exact mem_append_left _ hq)
  have hl : ∀ {pre post : List (Nat × FinalizerPolicy)} {t : Nat × FinalizerPolicy},
      s.proposedFinalizerPolicies = pre ++ t :: post → (m, p) ∈ pre → t.1 ≤ s'.core.lastFinalBlockNum →
      ∃ a as q, a :: as <:+ s :: ss ∧ Proposes q (a :: as) ∧ m < a.blockNum ∧
        a.blockNum ≤ s'.core.lastFinalBlockNum := by
    intro pre post t hsp hpre hfin
    have hord := hc.pipelineInv.numbers
    rw [hsp, map_append, pairwise_append] at hord
    have hlt : m < t.1 := hord.2.2 m (mem_map_of_mem hpre) t.1 (by simp)
    obtain ⟨a, as, hs, ha, hp⟩ := hc.provenance.proposed t.1 t.2 (by rw [hsp]; simp)
    exact ⟨a, as, t.2, hs, hp, by rw [ha]; exact hlt, by rw [ha]; exact hfin⟩
  cases hQ with
  | wait _ _ split overtaken =>
    rw [split] at hm
    rcases mem_append.1 hm with hpre | hr
    · rcases overtaken with rfl | ⟨t, ts, rfl, hle⟩
      · cases hpre
      · exact .inr (hl split hpre hle)
    · exact absurd hr hn'
  | idle _ => exact absurd hm hn'
  | start _ split final =>
    rw [split] at hm
    rcases mem_append.1 hm with hm | hm
    · exact .inr (hl split hm final)
    · rcases mem_cons.1 hm with rfl | hm
      · exact .inl hpe
      · exact absurd hm hn'

/-- **The finalizer policies over every run.** In every state the generations are strictly increasing from the active
policy over the pending to the proposed ones, none above the last one given, and the proposed ones are in the order of
their blocks. In every step a policy becomes pending only when the block that proposed it is final, active only when
the block in which it became pending is final, and a proposed one that is dropped without becoming pending is dropped
for one that a later block proposed and that is final. -/
theorem finalizerPolicies_run (h : HeaderChain x (s :: ss)) :
    ((s.policies.map FinalizerPolicy.generation).Pairwise (· < ·) ∧
      (∀ p ∈ s.policies, p.generation ≤ s.finalizerPolicyGeneration) ∧
      (s.proposedFinalizerPolicies.map Prod.fst).Pairwise (· < ·)) ∧
    ∀ parent rest, ss = parent :: rest →
      (∀ n p, s.pendingFinalizerPolicy = some (n, p) → parent.pendingFinalizerPolicy ≠ some (n, p) →
        n = s.blockNum ∧ ∃ a as, a :: as <:+ ss ∧ Proposes p (a :: as) ∧
          (a.blockNum, p) ∈ parent.proposedFinalizerPolicies ∧ a.blockNum ≤ s.core.lastFinalBlockNum) ∧
      (s.activeFinalizerPolicy ≠ parent.activeFinalizerPolicy →
        ∃ a as, a :: as <:+ ss ∧ StartsPending s.activeFinalizerPolicy (a :: as) ∧
          parent.pendingFinalizerPolicy = some (a.blockNum, s.activeFinalizerPolicy) ∧
          a.blockNum ≤ s.core.lastFinalBlockNum) ∧
      ∀ m p, (m, p) ∈ parent.proposedFinalizerPolicies → (m, p) ∉ s.proposedFinalizerPolicies →
        s.pendingFinalizerPolicy = some (s.blockNum, p) ∨
          ∃ a as q, a :: as <:+ ss ∧ Proposes q (a :: as) ∧ m < a.blockNum ∧ a.blockNum ≤ s.core.lastFinalBlockNum := by
  have hi := h.pipelineInv
  refine ⟨⟨hi.ordered, hi.bounded, hi.numbers⟩, ?_⟩
  rintro parent rest rfl
  cases h with
  | next hpa step =>
    obtain ⟨fExt, hf⟩ := step.finished
    obtain ⟨Q, hQ, hact, hpe, hnew⟩ := hf.pipeline
    refine ⟨fun n p hp hne => ?_, fun hne => ?_, fun m p hm hn => ?_⟩
    · -- a policy becomes pending once its proposal is final
      rw [hpe] at hp
      cases hQ with
      | wait hold _ _ _ => exact absurd (hold.trans hp) hne
      | idle _ => cases hp
      | @start _ _ _ target _ split final =>
        cases hp
        have hmem : (target.1, target.2) ∈ parent.proposedFinalizerPolicies := by rw [split]; simp
        obtain ⟨a, as, hs, ha, hpr⟩ := hpa.provenance.proposed _ _ hmem
        exact ⟨rfl, a, as, hs, hpr, by rw [ha]; exact hmem, by rw [ha]; exact final⟩
    · -- it becomes active only once the block in which it became pending is final
      have hoe : Opened parent.toFinalizerPipeline s.core.lastFinalBlockNum s.activeFinalizerPolicy := by
        rw [hact] at hne ⊢
        cases hQ with
        | wait _ _ _ _ => exact absurd rfl hne
        | idle opened => exact opened
        | start opened _ _ => exact opened
      rcases hoe with ⟨-, heq⟩ | ⟨m, hm, hle⟩
      · exact absurd heq hne
      · obtain ⟨a, as, hs, rfl, hst⟩ := hpa.provenance.pending _ _ hm
        exact ⟨a, as, hs, hst, hm, hle⟩
    · exact dropped_overtaken hpa hf hm hn

theorem finalizerPolicies_run_sampleBlock8 :
    ∃ a as, a :: as <:+ [sampleBlock7, sampleBlock6, sampleGenesis] ∧ Proposes (sampleFinalizerPolicy 2) (a :: as) ∧
      a.blockNum ≤ sampleBlock8.core.lastFinalBlockNum := by
  obtain ⟨-, a, as, hs, hp, -, hle⟩ := ((finalizerPolicies_run headerChain_sampleBlock8).2 _ _ rfl).1 8
    (sampleFinalizerPolicy 2) rfl (by decide)
  exact ⟨a, as, hs, hp, hle⟩

end BlockHeaderState
end TheChannel
