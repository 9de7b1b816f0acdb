import TheChannel.TransactionContext
/-!
# TransactionRestart — an interrupted transaction and an uninterrupted one

`reset` undoes the session that was started before `init_for_input_trx`. So the second attempt of `exec` runs on rows in
which the usage of the billed accounts is not brought to the block's slot and the transaction is not recorded. The
actions do not see either. Usage can be billed to the old average only if it can to the settled one, with the same
result. What remains is that the transaction is not recorded (`pushTransaction_restart`).
-/
namespace TheChannel
open TransactionContext UsageAccumulator NodeRows List

variable {σ τ : Type} {W : Chain σ τ} {P : PendingBlock} {trx : Transaction} {billedUs : Nat}

/-! ## Proposals -/

namespace TrxBlockContext

def Covers (b b' : TrxBlockContext) : Prop :=
  (b.proposedSchedule.isSome = true → b'.proposedSchedule.isSome = true) ∧
  (b.proposedFinPol.isSome = true → b'.proposedFinPol.isSome = true)

theorem Covers.refl (b : TrxBlockContext) : Covers b b := ⟨id, id⟩

theorem Covers.trans {a b c : TrxBlockContext} (h : Covers a b) (h' : Covers b c) : Covers a c :=
  ⟨fun hs => h'.1 (h.1 hs), fun hs => h'.2 (h.2 hs)⟩

theorem Covers.apply_eq {b b' : TrxBlockContext} (h : Covers b b') : b.apply b' = b' := by
  obtain ⟨s, f⟩ := b
  obtain ⟨s', f'⟩ := b'
  obtain ⟨h1, h2⟩ := h
  unfold apply
  congr 1
  · cases s' with
    | some x => rfl
    | none =>
      cases s with
      | none => rfl
      | some x => cases h1 rfl
  · cases f' with
    | some x => rfl
    | none =>
      cases f with
      | none => rfl
      | some x => cases h2 rfl

end TrxBlockContext

open TrxBlockContext (Covers)

namespace TransactionContext

/-! ## Attempts and proposals made before -/

section Attempts

variable {env : ExecEnv} {s s' s₁ : ExecState σ τ}

def shift (b : TrxBlockContext) (s : ExecState σ τ) : ExecState σ τ := (s.1, b.apply s.2)

def shiftOut (b : TrxBlockContext) (r : ExecState σ τ × Result Unit) : ExecState σ τ × Result Unit := (shift b r.1, r.2)

theorem setProposedProducers_apply (producers : List Nat) (b b' : TrxBlockContext) :
    setProposedProducers P producers (b.apply b') = (setProposedProducers P producers b').map b.apply := by
  unfold setProposedProducers eosAssert
  by_cases he : producers.isEmpty = true
  · rw [if_pos he, if_pos he]
    rfl
  · rw [if_neg he, if_neg he]
    by_cases hlen : decide (producers.length ≤ maxProposers) = true
    · rw [if_pos hlen]
      rfl
    · rw [if_neg hlen]
      rfl

theorem applyEffect_shift (b : TrxBlockContext) (s : ExecState σ τ) (e : Effect σ τ) :
    applyEffect P (shift b s) e = (applyEffect P s e).map (shift b) := by
  cases e with
  | host f =>
    show (f s.1).map (fun v => (v, b.apply s.2)) = ((f s.1).map (fun v => (v, s.2))).map (shift b)
    cases f s.1 <;> rfl
  | setProposedProducers producers =>
    show (setProposedProducers P producers (b.apply s.2)).map _ = ((setProposedProducers P producers s.2).map _).map _
    rw [setProposedProducers_apply]
    cases setProposedProducers P producers s.2 <;> rfl
  | setProposedFinalizers finPol => rfl

theorem runEffects_shift (b : TrxBlockContext) : ∀ (es : List (Effect σ τ)) (s : ExecState σ τ),
    runEffects P es (shift b s) = shiftOut b (runEffects P es s)
  | [], _ => rfl
  | e :: es, s => by
    unfold runEffects
    rw [applyEffect_shift]
    cases applyEffect P s e with
    | error f => rfl
    | ok s' => exact runEffects_shift b es s'

theorem executeAction_shift (b : TrxBlockContext) (point : Option Point) (i : Nat) (s : ExecState σ τ) :
    executeAction W P env point i (shift b s) = shiftOut b (executeAction W P env point i s) := by
  have hv : (shift b s).1 = s.1 := rfl
  cases point with
  | none =>
    unfold executeAction
    rw [hv]
    exact runEffects_shift ..
  | some p =>
    unfold executeAction
    rw [hv]
    by_cases hp : p.ordinal = i
    · simp only [if_pos hp]
      rw [runEffects_shift]
      rcases runEffects P ((W.behaviour env i s.1).take p.effects) s with ⟨s', r⟩
      cases r <;> rfl
    · simp only [if_neg hp]
      exact runEffects_shift ..

theorem executeActions_shift (b : TrxBlockContext) (point : Option Point) : ∀ is s,
    executeActions W P env point is (shift b s) = shiftOut b (executeActions W P env point is s)
  | [], _ => rfl
  | i :: is, s => by
    unfold executeActions
    rw [executeAction_shift]
    rcases executeAction W P env point i s with ⟨s', r⟩
    cases r with
    | error f => rfl
    | ok u => exact executeActions_shift b point is s'

theorem afterActions_shift (W : Chain σ τ) (trx : Transaction) (b : TrxBlockContext) (r : ExecState σ τ × Result Unit) :
    afterActions W P trx (shiftOut b r) = shiftOut b (afterActions W P trx r) := by
  rcases r with ⟨s, r⟩
  cases r with
  | error f => rfl
  | ok u =>
    show (if trx.delaySec = 0 then _ else _) = shiftOut b (if trx.delaySec = 0 then _ else _)
    by_cases hd : trx.delaySec = 0
    · rw [if_pos hd, if_pos hd]
      rfl
    · rw [if_neg hd, if_neg hd]
      have hv : (shift b s).1 = s.1 := rfl
      rw [hv]
      cases scheduleTransaction W P trx s.1 <;> rfl

theorem attemptOn_shift (W : Chain σ τ) (trx : Transaction) (env : ExecEnv) (b : TrxBlockContext) (point : Option Point)
    (s : ExecState σ τ) : attemptOn W P trx env point (shift b s) = shiftOut b (attemptOn W P trx env point s) := by
  have hs : ((scheduled trx (shift b s).1, (shift b s).2) : ExecState σ τ) = shift b (scheduled trx s.1, s.2) := rfl
  have hv : (shift b s).1 = s.1 := rfl
  unfold attemptOn
  rw [hs, executeActions_shift, afterActions_shift, hv]

/-! ## Proposals are not taken back -/

theorem applyEffect_covers {e : Effect σ τ} (h : applyEffect P s e = .ok s') : Covers s.2 s'.2 := by
  cases e with
  | host f =>
    have h : (f s.1).map (fun v => (v, s.2)) = .ok s' := h
    cases hf : f s.1 with
    | error e => rw [hf] at h; cases h
    | ok v =>
      rw [hf] at h
      cases h
      exact Covers.refl _
  | setProposedProducers producers =>
    have h : (setProposedProducers P producers s.2).map (fun b => (s.1, b)) = .ok s' := h
    cases hp : setProposedProducers P producers s.2 with
    | error e => rw [hp] at h; cases h
    | ok b =>
      rw [hp] at h
      cases h
      unfold setProposedProducers at hp
      split at hp
      · cases hp
        exact Covers.refl _
      · cases rest_ok hp
        exact ⟨fun _ => rfl, id⟩
  | setProposedFinalizers finPol =>
    cases h
    exact ⟨id, fun _ => rfl⟩

theorem runEffects_covers : ∀ (es : List (Effect σ τ)) (s : ExecState σ τ), Covers s.2 (runEffects P es s).1.2
  | [], _ => Covers.refl _
  | e :: es, s => by
    unfold runEffects
    cases h : applyEffect P s e with
    | error f => exact Covers.refl _
    | ok s' => exact (applyEffect_covers h).trans (runEffects_covers es s')

theorem executeActions_covers (W : Chain σ τ) (env : ExecEnv) : ∀ (is : List Nat) (s : ExecState σ τ),
    Covers s.2 (executeActions W P env none is s).1.2
  | [], _ => Covers.refl _
  | i :: is, s => by
    have hstep : Covers s.2 (executeAction W P env none i s).1.2 := runEffects_covers ..
    unfold executeActions
    rcases h : executeAction W P env none i s with ⟨s', r⟩
    rw [h] at hstep
    cases r with
    | error f => exact hstep
    | ok u => exact hstep.trans (executeActions_covers W env is s')

theorem runEffects_append (es' : List (Effect σ τ)) : ∀ es s,
    runEffects P (es ++ es') s =
      match runEffects P es s with
      | (s', .ok ()) => runEffects P es' s'
      | r => r
  | [], _ => rfl
  | e :: es, s => by
    rw [cons_append, runEffects, runEffects]
    cases applyEffect P s e with
    | error f => rfl
    | ok s₁ => exact runEffects_append es' es s₁

/-! ## An interrupted attempt is a beginning of the whole one -/

theorem executeAction_none (i : Nat) (s : ExecState σ τ) :
    executeAction W P env none i s = runEffects P (W.behaviour env i s.1) s := rfl

theorem executeAction_ne {p : Point} {i : Nat} (hp : p.ordinal ≠ i) (s : ExecState σ τ) :
    executeAction W P env (some p) i s = executeAction W P env none i s := if_neg hp

theorem executeAction_same (env : ExecEnv) (point : Option Point) (i : Nat) (s : ExecState σ τ) :
    executeAction W P env point i s = executeAction W P env none i s ∨
      (executeAction W P env point i s).2 = .error interruptOc := by
  cases point with
  | none => exact .inl rfl
  | some p =>
    by_cases hp : p.ordinal = i
    · subst hp
      unfold executeAction
      simp only [if_true]
      rcases hr : runEffects P ((W.behaviour env p.ordinal s.1).take p.effects) s with ⟨s₁, r⟩
      cases r with
      | ok u => exact .inr rfl
      | error f =>
        -- it threw before the point
        have happ := runEffects_append (P := P) ((W.behaviour env p.ordinal s.1).drop p.effects)
          ((W.behaviour env p.ordinal s.1).take p.effects) s
        rw [take_append_drop, hr] at happ
        exact .inl happ.symm
    · exact .inl (executeAction_ne hp s)

theorem executeActions_same (env : ExecEnv) (point : Option Point) : ∀ is s,
    executeActions W P env point is s = executeActions W P env none is s ∨
      (executeActions W P env point is s).2 = .error interruptOc
  | [], _ => .inl rfl
  | i :: is, s => by
    unfold executeActions
    rcases hr : executeAction W P env point i s with ⟨s₁, r⟩
    rcases executeAction_same (W := W) (P := P) env point i s with hs | hint
    · rw [← hs, hr]
      cases r with
      | error f => exact .inl rfl
      | ok u => exact executeActions_same env point is s₁
    · rw [hr] at hint
      simp only at hint
      subst hint
      exact .inr rfl

theorem executeActions_interrupted (point : Option Point) : ∀ {is} {s s₁ s'} {f : Fault},
    executeActions W P env point is s = (s₁, .error f) → executeActions W P env none is s = (s', .ok ()) →
    Covers s₁.2 s'.2
  | [], _, _, _, _, h, _ => by cases h
  | i :: is, s, s₁, s', f, h, hall => by
    unfold executeActions at h hall
    rcases hn : executeAction W P env none i s with ⟨s2, r2⟩
    rcases hr : executeAction W P env point i s with ⟨s3, r3⟩
    rw [hn] at hall
    rw [hr] at h
    cases r2 with
    | error f' => cases hall
    | ok u =>
      have hall : executeActions W P env none is s2 = (s', .ok ()) := hall
      cases r3 with
      | error f' =>
        cases h
        have hre := executeActions_covers (P := P) W env is s2
        rw [hall] at hre
        refine Covers.trans ?_ hre
        cases point with
        | none =>
          rw [hn] at hr
          cases hr
        | some p =>
          by_cases hp : p.ordinal = i
          · subst hp
            unfold executeAction at hr
            simp only [if_true] at hr
            rw [executeAction_none, ← take_append_drop p.effects (W.behaviour env p.ordinal s.1), runEffects_append] at hn
            rcases hq : runEffects P ((W.behaviour env p.ordinal s.1).take p.effects) s with ⟨s4, r⟩
            rw [hq] at hr hn
            cases r with
            | error f' => cases hn
            | ok u =>
              cases hr
              have hn : runEffects P ((W.behaviour env p.ordinal s.1).drop p.effects) s₁ = (s2, .ok ()) := hn
              have hc := runEffects_covers (P := P) ((W.behaviour env p.ordinal s.1).drop p.effects) s₁
              rwa [hn] at hc
          · rw [executeAction_ne hp, hn] at hr
            cases hr
      | ok u' =>
        have hs : s3 = s2 := by
          rcases executeAction_same (W := W) (P := P) env point i s with hs | hint
          · rw [hr, hn] at hs
            exact congrArg Prod.fst hs
          · rw [hr] at hint
            cases hint
        subst hs
        exact executeActions_interrupted point h hall

/-! ## The second attempt -/

theorem afterActions_ok {r : ExecState σ τ × Result Unit} (h : afterActions W P trx r = (s', .ok ())) :
    ∃ s, r = (s, .ok ()) ∧ s.2 = s'.2 := by
  rcases r with ⟨s, r⟩
  cases r with
  | error f => cases h
  | ok u =>
    refine ⟨s, rfl, ?_⟩
    have h : (if trx.delaySec = 0 then (s, .ok ()) else _) = (s', (.ok () : Result Unit)) := h
    by_cases hd : trx.delaySec = 0
    · rw [if_pos hd] at h
      cases h
      rfl
    · rw [if_neg hd] at h
      split at h <;> cases h
      rfl

theorem attemptOn_same (trx : Transaction) (env : ExecEnv) (point : Option Point) (s : ExecState σ τ) :
    attemptOn W P trx env point s = attemptOn W P trx env none s ∨
      (attemptOn W P trx env point s).2 = .error interruptOc := by
  unfold attemptOn
  rcases executeActions_same (W := W) (P := P) env point (ordinals (scheduled trx s.1)) (scheduled trx s.1, s.2)
    with hs | hint
  · rw [hs]
    exact .inl rfl
  · rcases hr : executeActions W P env point (ordinals (scheduled trx s.1)) (scheduled trx s.1, s.2) with ⟨s₁, r⟩
    rw [hr] at hint
    simp only at hint
    subst hint
    exact .inr rfl

theorem attemptOn_interrupted (point : Option Point) {f : Fault}
    (h : attemptOn W P trx env point s = (s₁, .error f)) (hall : attemptOn W P trx env none s = (s', .ok ())) :
    Covers s₁.2 s'.2 := by
  unfold attemptOn at h hall
  obtain ⟨s2, hn, hl⟩ := afterActions_ok hall
  rcases hr : executeActions W P env point (ordinals (scheduled trx s.1)) (scheduled trx s.1, s.2) with ⟨s3, r3⟩
  rw [hr] at h
  cases r3 with
  | error f' =>
    cases h
    exact hl ▸ executeActions_interrupted point hr hn
  | ok u =>
    -- then the two attempts are the same
    rcases executeActions_same (W := W) (P := P) env point (ordinals (scheduled trx s.1)) (scheduled trx s.1, s.2)
      with hs | hint
    · rw [hr, hn] at hs
      rw [hn, ← hs, h] at hall
      cases hall
    · rw [hr] at hint
      cases hint

theorem attemptOn_restart (point : Option Point) {v : Visible σ τ} {s2 : ExecState σ τ}
    (h : attemptOn W P trx env point (v, .empty) = (s₁, .error interruptOc))
    (h2 : attemptOn W P trx env none (v, s₁.2) = (s2, .ok ())) : attemptOn W P trx env none (v, .empty) = (s2, .ok ()) := by
  have hsh := attemptOn_shift (P := P) W trx env s₁.2 none (v, .empty)
  have hst : shift s₁.2 ((v, .empty) : ExecState σ τ) = (v, s₁.2) := rfl
  rw [hst, h2] at hsh
  rcases hall : attemptOn W P trx env none (v, .empty) with ⟨s', r⟩
  rw [hall] at hsh
  cases r with
  | error f => cases hsh
  | ok u =>
    have hs : s2 = shift s₁.2 s' := congrArg Prod.fst hsh
    rw [hs]
    unfold shift
    rw [(attemptOn_interrupted point h hall).apply_eq]

end Attempts

/-! ## What `init_for_input_trx` leaves -/

/-- **The context when `exec` is called**: actions see the rows of before, the others have the settled usage and the
record. -/
structure Prepared (P : PendingBlock) (trx : Transaction) (rows : Rows σ) (c : TransactionContext σ τ) : Prop where
  visible : c.visible = ⟨rows.world, freshTrace P trx c.initNetUsage, [], []⟩
  undoSession : c.undoSession = if P.skipDbSessions then none else some rows
  proposals : c.trxBlkContext = .empty
  initialized : c.isInitialized = true
  nodup : c.billToAccounts.Nodup
  notRecorded : rows.node.recorded trx.id = false
  node : ∃ usage, rows.node.updateAccountUsage c.billToAccounts P.slot = .ok usage ∧
    c.node = { rows.node with
      usage, transactions := insertByExpiration (trx.expiration, trx.id) rows.node.transactions }

theorem billedAccounts_nodup (W : Chain σ τ) (trx : Transaction) (world : σ) : (billedAccounts W trx world).Nodup := by
  unfold billedAccounts
  split
  · exact nodup_singleton _
  · exact ((perm_insertionSort ..).nodup_iff).2 (nodup_dedup _)

theorem prepared_spec {rows : Rows σ} {c : TransactionContext σ τ} (h : prepared W P trx billedUs rows = .ok c) :
    Prepared P trx rows c := by
  obtain ⟨c', hi, h⟩ := bind_ok h
  replace h := rest_ok h
  cases h
  iterate 2 replace hi := rest_ok hi
  obtain ⟨c1, hc1, hi⟩ := bind_ok hi
  obtain ⟨node, hrec, hi⟩ := bind_ok hi
  cases hi
  iterate 2 replace hc1 := rest_ok hc1
  obtain ⟨usage, hu, hc1⟩ := bind_ok hc1
  obtain ⟨netLimit, -, hc1⟩ := bind_ok hc1
  obtain ⟨cpuLimit, -, hc1⟩ := bind_ok hc1
  replace hc1 := rest_ok hc1
  cases hc1
  obtain ⟨hnot, hrec⟩ := unit_ok hrec
  cases hrec
  rw [eosAssert_ok_iff] at hnot
  refine ⟨?_, rfl, rfl, rfl, billedAccounts_nodup .., ?_, usage, hu, rfl⟩
  · show (⟨rows.world, { freshTrace P trx 0 with netUsage := 0 + _ }, [], []⟩ : Visible σ τ) = _
    rw [Nat.zero_add]
    rfl
  · exact Bool.eq_false_iff.2 (fun hr => by
      have : rows.node.recorded trx.id = true := hr
      simp [recorded] at hnot this
      obtain ⟨a, ha⟩ := this
      exact hnot a _ ha rfl)

/-! ## `exec` -/

section Exec

variable {rows : Rows σ} {c c' : TransactionContext σ τ} {point : Option Point}

theorem reset_eq (hp : Prepared P trx rows c) (hu : hasUndo P = true) (v : Visible σ τ) (b : TrxBlockContext) :
    ({ c with visible := v, trxBlkContext := b } : TransactionContext σ τ).reset P trx =
      { c with node := rows.node, trxBlkContext := b } := by
  have hs : P.skipDbSessions = false := by
    unfold hasUndo at hu
    simp only [Bool.and_eq_true, Bool.not_eq_true'] at hu
    exact hu.1
  have hund : ({ c with visible := v, trxBlkContext := b } : TransactionContext σ τ).undone = rows := by
    rw [hp.undoSession, hs]
    rfl
  have hse := hp.undoSession
  have hv := hp.visible
  rw [hs] at hse
  unfold reset initializeContext
  rw [hund, hs]
  obtain ⟨vis, node, session⟩ := c
  simp only at hse hv
  rw [hse, hv]

def leaving (c : TransactionContext σ τ) (s : ExecState σ τ) : TransactionContext σ τ :=
  { c with visible := s.1, trxBlkContext := s.2 }

theorem attempt_eq (hp : Prepared P trx rows c) (point : Option Point) : c.attempt W P trx point =
    (c.leaving (attemptOn W P trx (c.env P trx) (if hasUndo P then point else none) (c.visible, .empty)).1,
      (attemptOn W P trx (c.env P trx) (if hasUndo P then point else none) (c.visible, .empty)).2) := by
  unfold attempt
  rw [hp.proposals]
  rfl

theorem exec_eq (hp : Prepared P trx rows c) (point : Option Point) : c.exec W P trx point =
    (let first := c.attempt W P trx point
     let last := if interrupted P first.2 then (first.1.reset P trx).attempt W P trx none else first
     last.2 >>= fun _ => .ok last.1) := by
  unfold exec
  rw [eosAssert_bind hp.initialized]

theorem exec_same (hp : Prepared P trx rows c)
    (hint : interrupted P (c.attempt W P trx point).2 = false) : c.exec W P trx point = c.exec W P trx none := by
  have hat : c.attempt W P trx point = c.attempt W P trx none := by
    rw [attempt_eq hp] at hint ⊢
    rw [attempt_eq hp]
    by_cases hu : hasUndo P = true
    · simp only [if_pos hu] at hint ⊢
      rcases attemptOn_same (W := W) (P := P) trx (c.env P trx) point (c.visible, .empty) with hs | herr
      · rw [hs]
      · unfold interrupted at hint
        rw [herr, hu] at hint
        cases hint
    · simp only [if_neg hu]
  rw [exec_eq hp, exec_eq hp, hat]

theorem exec_restart (hp : Prepared P trx rows c)
    (hint : interrupted P (c.attempt W P trx point).2 = true) (h : c.exec W P trx point = .ok c') :
    ∃ s : ExecState σ τ, c.exec W P trx none = .ok (c.leaving s) ∧ c' = { c.leaving s with node := rows.node } := by
  rw [exec_eq hp] at h
  simp only [if_pos hint] at h
  obtain ⟨hl, h⟩ := unit_ok h
  have hu : hasUndo P = true := (Bool.and_eq_true_iff.1 hint).1
  have herr : (c.attempt W P trx point).2 = .error interruptOc := of_decide_eq_true (Bool.and_eq_true_iff.1 hint).2
  rw [attempt_eq hp, hu] at h hl herr
  rcases hr : attemptOn W P trx (c.env P trx) point (c.visible, .empty) with ⟨s₁, r⟩
  simp only [if_true, hr] at h hl herr
  subst herr
  rw [show c.leaving s₁ = { c with visible := s₁.1, trxBlkContext := s₁.2 } from rfl, reset_eq hp hu] at h hl
  rcases hr2 : attemptOn W P trx (c.env P trx) none (c.visible, s₁.2) with ⟨s2, r2⟩
  have hs : ({ c with node := rows.node, trxBlkContext := s₁.2 } : TransactionContext σ τ).attempt W P trx none =
      ({ c.leaving s2 with node := rows.node }, r2) := by
    unfold attempt
    rw [ite_self]
    show (let r := attemptOn W P trx (c.env P trx) none (c.visible, s₁.2)
      (({ c.leaving r.1 with node := rows.node } : TransactionContext σ τ), r.2)) = _
    rw [hr2]
  rw [hs] at h hl
  simp only at hl
  subst hl
  cases h
  refine ⟨s2, ?_, rfl⟩
  rw [exec_eq hp, attempt_eq hp, ite_self, attemptOn_restart point hr hr2]
  have hnot : interrupted P (.ok ()) = false := Bool.and_false _
  simp only [hnot]
  rfl

end Exec
end TransactionContext

/-! ## Billing old and settled usage -/

namespace NodeRows

section Settled

variable {n : NodeRows} {accounts : List Nat} {slot cpuUsage netUsage : Nat} {settled : Usages} {limits : Nat → AccountLimits}

theorem updateAccountUsage_ok (hn : accounts.Nodup) (h : n.updateAccountUsage accounts slot = .ok settled) :
    (∀ a ∈ accounts, (n.usage a).net.settle slot n.net.window = .ok (settled a).net ∧
      (n.usage a).cpu.settle slot n.cpu.window = .ok (settled a).cpu) ∧ ∀ a, a ∉ accounts → settled a = n.usage a := by
  obtain ⟨hin, hout⟩ := (updateEach_ok_iff hn).1 h
  refine ⟨fun a ha => ?_, hout⟩
  obtain ⟨net, hnet, hr⟩ := bind_ok (hin a ha)
  obtain ⟨cpu, hcpu, hr⟩ := bind_ok hr
  cases hs : settled a
  rw [hs] at hr
  cases hr
  exact ⟨add_zero ▸ hnet, add_zero ▸ hcpu⟩

theorem maxBandwidth_mono {r : Resource} {weight : Nat → Int} {usage : Nat → UsageAccumulator}
    (usage' : Nat → UsageAccumulator) :
    ∀ {accounts} {limit limit' i : Int}, (∀ a ∈ accounts, (usage' a).valueEx ≤ (usage a).valueEx) →
      limit ≤ limit' → maxBandwidth r weight usage accounts limit = .ok i →
      ∃ i', maxBandwidth r weight usage' accounts limit' = .ok i' ∧ i ≤ i'
  | [], _, _, _, _, hle, h => by
    cases h
    exact ⟨_, rfl, hle⟩
  | a :: as, limit, limit', _, hu, hle, h => by
    obtain ⟨l, hl, h⟩ := bind_ok h
    obtain ⟨l', hl', hll, hs⟩ := Resource.accountLimit_mono (hu a (mem_cons_self ..)) hl
    have hmin : (if 0 ≤ l then min limit l else limit) ≤ if 0 ≤ l' then min limit' l' else limit' := by
      split <;> split <;> omega
    obtain ⟨i', hi', hii⟩ := maxBandwidth_mono usage' (fun b hb => hu b (mem_cons_of_mem _ hb)) hmin h
    exact ⟨i', bind_ok_iff.2 ⟨l', hl', hi'⟩, hii⟩

theorem addTransactionUsage_settled {n' : NodeRows}
    (ts : List (Nat × Digest)) (hn : accounts.Nodup) (hset : n.updateAccountUsage accounts slot = .ok settled)
    (h : n.addTransactionUsage limits accounts cpuUsage netUsage slot = .ok n') :
    ({ n with usage := settled, transactions := ts } : NodeRows).addTransactionUsage limits accounts cpuUsage netUsage slot =
      .ok { n' with transactions := ts } := by
  obtain ⟨hin, hout⟩ := updateAccountUsage_ok hn hset
  obtain ⟨usage, hu, h⟩ := bind_ok h
  obtain ⟨hcpu, h⟩ := unit_ok h
  obtain ⟨hnet, h⟩ := unit_ok h
  cases h
  obtain ⟨hadd, hr⟩ := (updateEach_ok_iff hn).1 hu
  refine bind_ok_iff.2 ⟨usage, (updateEach_ok_iff hn).2 ⟨fun a ha => ?_, fun a ha => ?_⟩, ?_⟩
  · obtain ⟨net, hne, h⟩ := bind_ok (hadd a ha)
    obtain ⟨cpu, hcp, h⟩ := bind_ok h
    exact bind_ok_iff.2 ⟨net, add_settled (hin a ha).1 hne, bind_ok_iff.2 ⟨cpu, add_settled (hin a ha).2 hcp, h⟩⟩
  · exact (hr a ha).trans (hout a ha).symm
  · exact unit_bind_ok_iff.2 ⟨hcpu, unit_bind_ok_iff.2 ⟨hnet, rfl⟩⟩

end Settled
end NodeRows

namespace TransactionContext
variable {due : Bool} {limit limit' : Int} {objective : Nat} {c c' : TransactionContext σ τ}

theorem validateAccountCpuUsage_ok_iff : validateAccountCpuUsage P billedUs limit objective due = .ok () ↔
      (0 < billedUs → P.skipTrxChecks = false → (billedUs : Int) ≤ limit ∧ billedUs ≤ objective) := by
  unfold validateAccountCpuUsage
  by_cases hgo : (decide (0 < billedUs) && !P.skipTrxChecks) = true
  · have ⟨hpos, hs⟩ : 0 < billedUs ∧ P.skipTrxChecks = false := by
      simpa only [Bool.and_eq_true, decide_eq_true_eq, Bool.not_eq_true'] using hgo
    rw [if_pos hgo]
    by_cases hle : limit ≤ objective
    · simp only [hle, decide_true, Bool.not_true, Bool.false_and, if_true, eosAssert_ok_iff, decide_eq_true_eq,
        Bool.false_eq_true, if_false]
      exact ⟨fun h _ _ => ⟨h, by omega⟩, fun h => (h hpos hs).1⟩
    · simp only [hle, decide_false, Bool.not_false, Bool.true_and, if_false]
      cases due with
      | true =>
        simp only [if_true, eosAssert_ok_iff, decide_eq_true_eq]
        exact ⟨fun h _ _ => ⟨by omega, h⟩, fun h => (h hpos hs).2⟩
      | false =>
        simp only [Bool.false_eq_true, if_false, eosAssert_ok_iff, decide_eq_true_eq]
        exact ⟨fun h _ _ => ⟨by omega, by omega⟩, fun h => by have := (h hpos hs).2; omega⟩
  · rw [if_neg hgo]
    refine ⟨fun _ hpos hs => absurd ?_ hgo, fun _ => rfl⟩
    rw [hs, decide_eq_true hpos]
    rfl

theorem lower_mono (hle : limit ≤ limit') (other : Nat) :
    (if limit ≤ other then limit.toNat else other) ≤ if limit' ≤ other then limit'.toNat else other := by
  split <;> split <;> omega

theorem finalize_transactions (h : c.finalize W P trx billedUs = .ok c') :
    c'.node.transactions = c.node.transactions := by
  replace h := rest_ok h
  obtain ⟨world, -, h⟩ := bind_ok h
  obtain ⟨node, hn, h⟩ := bind_ok h
  cases h
  replace hn := rest_ok hn
  iterate 2 obtain ⟨_, -, hn⟩ := bind_ok hn
  iterate 2 replace hn := rest_ok hn
  obtain ⟨usage, -, hn⟩ := bind_ok hn
  iterate 2 replace hn := rest_ok hn
  cases hn
  rfl

theorem finalize_settled {rows : Rows σ} {settled : Usages} (ts : List (Nat × Digest))
    (hn : c.billToAccounts.Nodup) (hset : rows.node.updateAccountUsage c.billToAccounts P.slot = .ok settled)
    (h : ({ c with node := rows.node } : TransactionContext σ τ).finalize W P trx billedUs = .ok c') :
    ({ c with node := { rows.node with usage := settled, transactions := ts } } : TransactionContext σ τ).finalize W P trx
      billedUs = .ok { c' with node := { c'.node with transactions := ts } } := by
  obtain ⟨hin, -⟩ := updateAccountUsage_ok hn hset
  obtain ⟨hi, h⟩ := unit_ok h
  obtain ⟨world, hw, h⟩ := bind_ok h
  obtain ⟨node, hno, h⟩ := bind_ok h
  cases h
  refine unit_bind_ok_iff.2 ⟨hi, bind_ok_iff.2 ⟨world, hw, bind_ok_iff.2 ⟨{ node with transactions := ts }, ?_, rfl⟩⟩⟩
  obtain ⟨hram, hno⟩ := unit_ok hno
  obtain ⟨net, hnet, hno⟩ := bind_ok hno
  obtain ⟨cpu, hcpu, hno⟩ := bind_ok hno
  obtain ⟨hnu, hno⟩ := unit_ok hno
  obtain ⟨hcp, hno⟩ := unit_ok hno
  obtain ⟨net', hnet', hne⟩ := maxBandwidth_mono (fun a => (settled a).net)
    (fun a ha => (settle_le (hin a ha).1).2.1) (Int.le_refl _) hnet
  obtain ⟨cpu', hcpu', hce⟩ := maxBandwidth_mono (fun a => (settled a).cpu)
    (fun a ha => (settle_le (hin a ha).2).2.1) (Int.le_refl _) hcpu
  refine unit_bind_ok_iff.2 ⟨hram, bind_ok_iff.2 ⟨net', hnet', bind_ok_iff.2 ⟨cpu', hcpu', ?_⟩⟩⟩
  refine unit_bind_ok_iff.2 ⟨?_, unit_bind_ok_iff.2 ⟨?_, ?_⟩⟩
  · unfold checkNetUsage at hnu ⊢
    rw [eosAssert_ok_iff, Bool.or_eq_true, decide_eq_true_eq] at hnu ⊢
    exact hnu.imp id fun hle => Nat.le_trans hle (lower_mono hne c.netLimit)
  · -- higher limits of the accounts fail no check
    unfold validateCpuUsageToBill at hcp ⊢
    by_cases hsk : P.skipTrxChecks = true
    · rw [if_pos hsk]
    · rw [if_neg hsk] at hcp ⊢
      obtain ⟨hmin, hcp⟩ := unit_ok hcp
      rw [hmin, ok_bind]
      rw [validateAccountCpuUsage_ok_iff] at hcp ⊢
      intro hpos hs
      obtain ⟨h1, h2⟩ := hcp hpos hs
      exact ⟨by omega, Nat.le_trans h2 (lower_mono hce _)⟩
  · exact addTransactionUsage_settled ts hn hset hno

end TransactionContext

/-! ## `push_transaction` -/

def Applied.withTransactions (u : Applied σ τ) (transactions : List (Nat × Digest)) : Applied σ τ :=
  { u with rows := { u.rows with node := { u.rows.node with transactions } } }

section Push

variable {point : Option TransactionContext.Point} {rows : Rows σ} {r : Applied σ τ}

theorem pushTransaction_same (h : restarts W P trx billedUs point rows = false) :
    pushTransaction W P trx billedUs point rows = pushTransaction W P trx billedUs none rows := by
  unfold pushTransaction
  unfold restarts at h
  cases hc : prepared W P trx billedUs rows with
  | error f => rfl
  | ok c =>
    rw [hc] at h
    rw [ok_bind, ok_bind, exec_same (prepared_spec hc) h]

theorem pushTransaction_ok (h : pushTransaction W P trx billedUs point rows = .ok r) :
    ∃ c c1 c2, prepared W P trx billedUs rows = .ok c ∧ c.exec W P trx point = .ok c1 ∧
      c1.finalize W P trx billedUs = .ok c2 ∧
      r = ⟨⟨c2.visible.world, c2.node⟩, c2.visible.executedActionReceipts, c2.visible.trace, c2.trxBlkContext⟩ := by
  obtain ⟨c, hc, h⟩ := bind_ok h
  obtain ⟨c1, hc1, h⟩ := bind_ok h
  obtain ⟨c2, hc2, h⟩ := bind_ok h
  cases h
  exact ⟨c, c1, c2, hc, hc1, hc2, rfl⟩

def recordedIn (trx : Transaction) (rows : Rows σ) : List (Nat × Digest) :=
  insertByExpiration (trx.expiration, trx.id) rows.node.transactions

theorem pushTransaction_records (hre : restarts W P trx billedUs point rows = false)
    (h : pushTransaction W P trx billedUs point rows = .ok r) : r.rows.node.transactions = recordedIn trx rows := by
  obtain ⟨c, c1, c2, hc, he, hfin, rfl⟩ := pushTransaction_ok h
  have hp := prepared_spec hc
  obtain ⟨settled, -, hn⟩ := hp.node
  unfold restarts at hre
  rw [hc] at hre
  rw [exec_eq hp] at he
  simp only [hre, Bool.false_eq_true, if_false] at he
  replace he := rest_ok he
  cases he
  refine (finalize_transactions hfin).trans ?_
  show c.node.transactions = _
  rw [hn]
  rfl

theorem pushTransaction_restarted (hre : restarts W P trx billedUs point rows = true)
    (h : pushTransaction W P trx billedUs point rows = .ok r) :
    ∃ u, pushTransaction W P trx billedUs none rows = .ok u ∧ u.rows.node.transactions = recordedIn trx rows ∧
      r = u.withTransactions rows.node.transactions := by
  obtain ⟨c, c1, c2, hc, he, hfin, rfl⟩ := pushTransaction_ok h
  have hp := prepared_spec hc
  unfold restarts at hre
  rw [hc] at hre
  obtain ⟨s, hno, rfl⟩ := exec_restart hp hre he
  obtain ⟨settled, hset, hn⟩ := hp.node
  have hk : c2.node.transactions = rows.node.transactions := finalize_transactions hfin
  have hfin' := finalize_settled (c := c.leaving s) (recordedIn trx rows) hp.nodup hset hfin
  have hl : ({ c.leaving s with node := { rows.node with usage := settled, transactions := recordedIn trx rows } } :
      TransactionContext σ τ) = c.leaving s := by
    show _ = ({ c with visible := s.1, trxBlkContext := s.2 } : TransactionContext σ τ)
    rw [hn]
    rfl
  rw [hl] at hfin'
  refine ⟨_, bind_ok_iff.2 ⟨c, hc, bind_ok_iff.2 ⟨_, hno, bind_ok_iff.2 ⟨_, hfin', rfl⟩⟩⟩, rfl, ?_⟩
  unfold Applied.withTransactions
  rw [← hk]

end Push
end TheChannel
