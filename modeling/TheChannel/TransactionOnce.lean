import TheChannel.TransactionRestart
/-!
# TransactionOnce — how often a chain executes a transaction

Along a chain blocks start at later and later slots, recorded transactions that have expired are removed, and input
transactions are pushed. Everything else leaves the recorded transactions alone. A transaction whose execution was not
restarted stays recorded until it has expired, and `record_transaction` refuses it so long.
-/
namespace TheChannel
open NodeRows List

open TransactionContext (Point)

/-- What changes the rows along a chain. `other` is what implicit and scheduled transactions, governance and the end of a
block do. -/
inductive ChainOp (σ : Type)
  | startBlock (P : PendingBlock)
  | clearExpired (removals : Nat)
  | other (world : σ) (usage : Usages) (net cpu : Resource)
  | push (trx : Transaction) (billedUs : Nat) (point : Option Point)

structure Execution where
  id : Digest
  expiration : Nat
  time : Nat -- of its block
  restarted : Bool
  deriving DecidableEq

/-- The rows, the last block that was started and the executions so far, latest first. -/
structure ChainState (σ : Type) where
  rows : Rows σ
  pending : PendingBlock
  executed : List Execution

namespace ChainState
variable {σ τ : Type} (W : Chain σ τ) (s : ChainState σ)

/-- A call of `push_transaction`; one that throws leaves the rows as they were. -/
def push (trx : Transaction) (billedUs : Nat) (point : Option Point) : ChainState σ :=
  match pushTransaction W s.pending trx billedUs point s.rows with
  | .ok r =>
    { s with
      rows := r.rows
      executed := ⟨trx.id, trx.expiration, s.pending.blockTime, restarts W s.pending trx billedUs point s.rows⟩ :: s.executed }
  | .error _ => s

def startBlock (P : PendingBlock) : ChainState σ := if s.pending.slot < P.slot then { s with pending := P } else s

def step (s : ChainState σ) : ChainOp σ → ChainState σ
  | .startBlock P => s.startBlock P
  | .clearExpired removals =>
    { s with rows := { s.rows with node := { s.rows.node with
        transactions := clearExpired s.pending.blockTime removals s.rows.node.transactions } } }
  | .other world usage net cpu => { s with rows := ⟨world, s.rows.node.transactions, usage, net, cpu⟩ }
  | .push trx billedUs point => s.push W trx billedUs point

def run (ops : List (ChainOp σ)) : ChainState σ := ops.foldl (step W) s

/-- **What was executed without a restart is recorded until it expires.** -/
def Remembered : Prop :=
  ∀ e ∈ s.executed, e.restarted = false →
    e.expiration * 1000 < s.pending.blockTime ∨ (e.expiration, e.id) ∈ s.rows.node.transactions

/-- **No two executions of a transaction before it expires**, if the earlier one was not restarted. -/
def OnceBeforeExpiry : Prop :=
  s.executed.Pairwise (fun later earlier =>
    later.id = earlier.id → earlier.restarted = false → earlier.expiration * 1000 < later.time)

end ChainState

/-! ## The recorded transactions -/

namespace NodeRows

theorem mem_insertByExpiration {t x : Nat × Digest} : ∀ {ts},
    x ∈ insertByExpiration t ts ↔ x = t ∨ x ∈ ts
  | [] => by
    unfold insertByExpiration
    rw [mem_singleton]
    exact ⟨.inl, fun h => h.resolve_right not_mem_nil⟩
  | y :: ys => by
    unfold insertByExpiration
    split
    · exact mem_cons
    · rw [mem_cons, mem_insertByExpiration, mem_cons]
      exact or_left_comm

theorem mem_clearExpired {now : Nat} {x : Nat × Digest} (hx : now ≤ x.1 * 1000) : ∀ (n : Nat) {ts},
    x ∈ ts → x ∈ clearExpired now n ts
  | 0, _, h => h
  | n + 1, [], h => absurd h not_mem_nil
  | n + 1, t :: ts, h => by
    unfold clearExpired
    by_cases ht : t.1 * 1000 < now
    · rw [if_pos ht]
      rcases mem_cons.1 h with rfl | h
      · omega
      · exact mem_clearExpired hx n h
    · rw [if_neg ht]
      exact h

theorem recorded_iff {n : NodeRows} {id : Digest} : n.recorded id = true ↔ ∃ expire, (expire, id) ∈ n.transactions := by
  unfold recorded
  rw [any_eq_true]
  constructor
  · rintro ⟨⟨expire, id'⟩, hmem, heq⟩
    cases eq_of_beq heq
    exact ⟨expire, hmem⟩
  · rintro ⟨expire, hmem⟩
    exact ⟨_, hmem, beq_self_eq_true id⟩

end NodeRows

/-! ## One call -/

section Push

variable {σ τ : Type} {W : Chain σ τ} {P : PendingBlock} {trx : Transaction} {billedUs : Nat} {point : Option Point}
  {rows : Rows σ} {r : Applied σ τ}

theorem pushTransaction_notRecorded (h : pushTransaction W P trx billedUs point rows = .ok r) :
    rows.node.recorded trx.id = false := by
  obtain ⟨c, c1, c2, hc, -⟩ := pushTransaction_ok h
  exact (TransactionContext.prepared_spec hc).notRecorded

theorem pushTransaction_transactions (h : pushTransaction W P trx billedUs point rows = .ok r) :
    r.rows.node.transactions =
      if restarts W P trx billedUs point rows then rows.node.transactions else recordedIn trx rows := by
  cases hre : restarts W P trx billedUs point rows with
  | true =>
    obtain ⟨u, -, -, rfl⟩ := pushTransaction_restarted hre h
    rfl
  | false => exact pushTransaction_records hre h

end Push

/-! ## Whole chains -/

namespace ChainState
variable {σ τ : Type} {W : Chain σ τ} {s : ChainState σ}

theorem push_cases (W : Chain σ τ) (s : ChainState σ) (trx : Transaction) (billedUs : Nat) (point : Option Point) :
    s.push W trx billedUs point = s ∨
      ∃ r, pushTransaction W s.pending trx billedUs point s.rows = .ok r ∧
        s.push W trx billedUs point = ⟨r.rows, s.pending,
          ⟨trx.id, trx.expiration, s.pending.blockTime, restarts W s.pending trx billedUs point s.rows⟩ :: s.executed⟩ := by
  unfold push
  cases pushTransaction W s.pending trx billedUs point s.rows with
  | error f => exact .inl rfl
  | ok r => exact .inr ⟨r, rfl, rfl⟩

variable (trx : Transaction) (billedUs : Nat) (point : Option Point)

theorem push_remembered (h : s.Remembered) : (s.push W trx billedUs point).Remembered := by
  rcases push_cases W s trx billedUs point with heq | ⟨r, hr, heq⟩
  · rwa [heq]
  · rw [heq]
    intro e he hre
    have hts := pushTransaction_transactions hr
    simp only
    rw [hts]
    rcases mem_cons.1 he with rfl | he
    · simp only at hre
      rw [hre]
      exact .inr (mem_insertByExpiration.2 (.inl rfl))
    · refine (h e he hre).imp_right (fun hmem => ?_)
      split
      · exact hmem
      · exact mem_insertByExpiration.2 (.inr hmem)

variable (op : ChainOp σ)

theorem step_remembered (h : s.Remembered) : (s.step W op).Remembered := by
  cases op with
  | startBlock P =>
    show (s.startBlock P).Remembered
    unfold startBlock
    split
    · rename_i hlt
      exact fun e he hre => (h e he hre).imp_left fun hexp => Nat.lt_trans hexp (by unfold PendingBlock.blockTime; dsimp only; omega)
    · exact h
  | clearExpired removals =>
    intro e he hre
    by_cases hexp : e.expiration * 1000 < s.pending.blockTime
    · exact .inl hexp
    · have hmem := (h e he hre).resolve_left hexp
      have hle : s.pending.blockTime ≤ (e.expiration, e.id).1 * 1000 := Nat.le_of_not_lt hexp
      exact .inr (mem_clearExpired hle removals hmem)
  | other world usage net cpu => exact h
  | push trx billedUs point => exact push_remembered trx billedUs point h

theorem step_once (h : s.Remembered) (ho : s.OnceBeforeExpiry) : (s.step W op).OnceBeforeExpiry := by
  cases op with
  | startBlock P =>
    show (s.startBlock P).OnceBeforeExpiry
    unfold startBlock
    split
    · exact ho
    · exact ho
  | clearExpired removals => exact ho
  | other world usage net cpu => exact ho
  | push trx billedUs point =>
    show (s.push W trx billedUs point).OnceBeforeExpiry
    rcases push_cases W s trx billedUs point with heq | ⟨r, hr, heq⟩
    · rwa [heq]
    · rw [heq]
      refine pairwise_cons.2 ⟨fun e he hid hre => ?_, ho⟩
      refine (h e he hre).resolve_right fun hmem => ?_
      have hid : trx.id = e.id := hid
      have hrec := recorded_iff.2 ⟨e.expiration, hmem⟩
      rw [← hid, pushTransaction_notRecorded hr] at hrec
      cases hrec

theorem run_once : ∀ (ops : List (ChainOp σ)) (s : ChainState σ), s.Remembered → s.OnceBeforeExpiry →
    (s.run W ops).OnceBeforeExpiry
  | [], _, _, ho => ho
  | op :: ops, s, h, ho => run_once ops (s.step W op) (step_remembered op h) (step_once op h ho)

end ChainState

/-! ## Restarts -/

section Restart

variable {σ τ : Type}

/-- **A restart changes nothing but that the transaction is not recorded.** Without one the outcome is that of an
uninterrupted run; with one a call that returns leaves the rows, receipts, trace and proposals of an uninterrupted run, the
recorded transactions as before. Along every chain a transaction whose execution was not restarted is not executed again
before it expires. -/
theorem pushTransaction_restart (W : Chain σ τ) (P : PendingBlock) (trx : Transaction) (billedUs : Nat)
    (point : Option Point) (rows : Rows σ) (ops : List (ChainOp σ)) : (restarts W P trx billedUs point rows = false →
      pushTransaction W P trx billedUs point rows = pushTransaction W P trx billedUs none rows) ∧
    (∀ r, pushTransaction W P trx billedUs point rows = .ok r →
      ∃ u, pushTransaction W P trx billedUs none rows = .ok u ∧ u.rows.node.recorded trx.id = true ∧
        r = (if restarts W P trx billedUs point rows then u.withTransactions rows.node.transactions else u) ∧
        (r.rows.node.recorded trx.id = true ↔ restarts W P trx billedUs point rows = false)) ∧
    ((⟨rows, P, []⟩ : ChainState σ).run W ops).OnceBeforeExpiry := by
  refine ⟨pushTransaction_same, fun r h => ?_, ?_⟩
  · have hrec : ∀ n : NodeRows, n.transactions = recordedIn trx rows → n.recorded trx.id = true := fun n hn =>
      recorded_iff.2 ⟨trx.expiration, hn ▸ mem_insertByExpiration.2 (.inl rfl)⟩
    cases hre : restarts W P trx billedUs point rows with
    | false =>
      have hr := hrec r.rows.node (pushTransaction_records hre h)
      exact ⟨r, pushTransaction_same hre ▸ h, hr, rfl, fun _ => rfl, fun _ => hr⟩
    | true =>
      obtain ⟨u, hu, hts, rfl⟩ := pushTransaction_restarted hre h
      refine ⟨u, hu, hrec _ hts, rfl, fun hr => ?_, fun hco => by cases hco⟩
      have hnot := pushTransaction_notRecorded h
      have hr : rows.node.recorded trx.id = true := hr
      rw [hnot] at hr
      cases hr
  · exact ChainState.run_once ops _ (fun e he => absurd he not_mem_nil) List.Pairwise.nil

end Restart

def counterChain : Chain Nat Unit where
  config _ := ⟨1000, 1000, 0, 0, 3600, 0, 0, 1⟩
  limits _ a := ⟨-1, -1, if a = 2 then 1 else -1⟩
  ramUsage _ _ := 0
  onlyBillFirstAuthorizer _ := true
  checkInput _ _ _ := .ok ()
  checkAuthorization _ _ _ := .ok ()
  updatePermissionUsage _ _ w := .ok w
  addPendingRamUsage _ _ w := .ok w
  createGenerated _ _ w := (w, 0)
  behaviour _ _ _ := List.replicate 2 (.host (fun v => .ok { v with world := v.world + 1 }))

def counterBlock : PendingBlock := ⟨0, 10, none, false, false, false⟩

def counterTrx (account : Nat) : Transaction := ⟨7, 946684900, 0, 0, 0, [], [⟨1, 0, [(account, 0)], []⟩], 8, 0⟩

def counterRows : Rows Nat :=
  ⟨0, [], fun a => ⟨.zero, if a = 2 then ⟨5, 10000000, 100, by decide⟩ else .zero⟩, ⟨10, 1000, 10, 1, 0⟩, ⟨10, 1000, 10, 1, 0⟩⟩

def counterRun (point : Option Point) : Nat × List (Digest × Bool) :=
  let s := (⟨counterRows, counterBlock, []⟩ : ChainState Nat).run counterChain
    [.push (counterTrx 1) 30 point, .push (counterTrx 1) 30 none]
  (s.rows.world, s.executed.map (fun e => (e.id, decide (e.time ≤ e.expiration * 1000))))

/-- **Interrupted in the middle of its action, a transaction is executed twice before it expires**; uninterrupted it is
executed once. And an account whose usage has decayed enough for the transaction can no longer pay for it after a
restart. -/
theorem restarted_executed_twice :
    counterRun none = (2, [(7, true)]) ∧ counterRun (some ⟨1, 1⟩) = (4, [(7, true), (7, true)]) ∧
    (pushTransaction counterChain counterBlock (counterTrx 2) 30 none counterRows).isOk = true ∧
    (pushTransaction counterChain counterBlock (counterTrx 2) 30 (some ⟨1, 1⟩) counterRows).isOk = false := by
  decide +kernel

end TheChannel
