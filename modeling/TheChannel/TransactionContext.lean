import Mathlib.Data.List.Dedup
import Mathlib.Data.List.Sort
import TheChannel.FinalityCore
import TheChannel.ResourceUsage
/-!
# TransactionContext — an input transaction of a block

`transaction_context` and `push_transaction`, for an input transaction of a block that is being applied: the billed cpu
time is that of the block's receipt, no deadline ends the execution and nobody is greylisted. Times are left out, and of
the checks that only read the database those of the transaction's form, its reference block and its accounts are one
function (`checkInput`), as is `check_authorization`.

The rows contracts read and write are of any type `σ`; the tables they have no access to (`NodeRows`) are those `init`,
`record_transaction` and `add_transaction_usage` write. What the contracts do in an action, the actions it notifies and
its inline actions is a list of effects that the visible state determines: every deterministic behaviour. It can be
interrupted between any two effects.

An undo session of the database is the rows to go back to.
-/
namespace TheChannel
open UsageAccumulator

/-! ## Transactions -/

structure Action where
  account : Nat
  name : Nat
  authorization : List (Nat × Nat) -- actor and permission
  data : List Nat
  deriving DecidableEq

structure Transaction where
  id : Digest
  expiration : Nat -- in seconds
  maxNetUsageWords : Nat
  maxCpuUsageMs : Nat
  delaySec : Nat
  contextFreeActions : List Action
  actions : List Action
  unprunableSize : Nat
  prunableSize : Nat
  deriving DecidableEq

namespace Transaction
variable (trx : Transaction)

def authorizations : List (Nat × Nat) := trx.actions.flatMap Action.authorization

def firstAuthorizer : Nat := (trx.authorizations.head?.map Prod.fst).getD 0

end Transaction

structure ChainConfig where
  maxTransactionNetUsage : Nat
  maxTransactionCpuUsage : Nat
  minTransactionCpuUsage : Nat
  netUsageLeeway : Nat
  maxTransactionLifetime : Nat
  basePerTransactionNetUsage : Nat
  contextFreeDiscountNetUsageNum : Nat
  contextFreeDiscountNetUsageDen : Nat
  deriving DecidableEq

def transactionIdNetUsage : Nat := 32

structure AccountLimits where
  ramBytes : Int
  netWeight : Int
  cpuWeight : Int
  deriving DecidableEq

structure PendingBlock where
  headBlockNum : Nat
  slot : Nat
  producerBlockId : Option Digest
  skipTrxChecks : Bool
  skipDbSessions : Bool
  deepMind : Bool
  deriving DecidableEq

def PendingBlock.blockTime (P : PendingBlock) : Nat := 946684800000 + 500 * P.slot

/-! ## Traces -/

structure ActionTrace (τ : Type) where
  act : Action
  receiver : Nat
  contextFree : Bool
  actionOrdinal : Nat
  creatorActionOrdinal : Nat
  closestUnnotifiedAncestorActionOrdinal : Nat
  output : Option τ

structure TransactionTrace (τ : Type) where
  id : Digest
  blockNum : Nat
  blockTime : Nat
  producerBlockId : Option Digest
  netUsage : Nat
  actionTraces : List (ActionTrace τ)
  accountRamDelta : Option (Nat × Int)

/-- `trx_block_context`: the proposals of a transaction, each with the number of its block. -/
structure TrxBlockContext where
  proposedSchedule : Option (Nat × List Nat)
  proposedFinPol : Option (Nat × Digest)
  deriving DecidableEq

namespace TrxBlockContext

def empty : TrxBlockContext := ⟨none, none⟩

def apply (b rhs : TrxBlockContext) : TrxBlockContext :=
  ⟨rhs.proposedSchedule.or b.proposedSchedule, rhs.proposedFinPol.or b.proposedFinPol⟩

end TrxBlockContext

/-! ## The database -/

/-- The tables contracts have no access to: the recorded transactions in the order of `by_expiration`, the usage of the
accounts and the resource limits. -/
structure NodeRows where
  transactions : List (Nat × Digest)
  usage : Usages
  net : Resource
  cpu : Resource

structure Rows (σ : Type) where
  world : σ
  node : NodeRows

namespace NodeRows
variable (n : NodeRows)

def recorded (id : Digest) : Bool := n.transactions.any (fun t => t.2 == id)

def insertByExpiration (t : Nat × Digest) : List (Nat × Digest) → List (Nat × Digest)
  | [] => [t]
  | x :: xs => if t.1 < x.1 then t :: x :: xs else x :: insertByExpiration t xs

def recordTransaction (id : Digest) (expire : Nat) : Result NodeRows :=
  eosAssert (!n.recorded id) .txDuplicate "duplicate transaction ${id}" >>= fun _ =>
  .ok { n with transactions := insertByExpiration (expire, id) n.transactions }

/-- `clear_expired_input_transactions`, which the deadline may stop after some removals. -/
def clearExpired (now : Nat) : Nat → List (Nat × Digest) → List (Nat × Digest)
  | 0, ts => ts
  | _ + 1, [] => []
  | n + 1, t :: ts => if t.1 * 1000 < now then clearExpired now n ts else t :: ts

def updateAccountUsage (accounts : List Nat) (slot : Nat) : Result Usages :=
  updateEach (fun _ u =>
    u.net.add 0 slot n.net.window >>= fun net =>
    u.cpu.add 0 slot n.cpu.window >>= fun cpu =>
    .ok ⟨net, cpu⟩) accounts n.usage

def addUsage (limits : Nat → AccountLimits) (cpuUsage netUsage slot : Nat) (a : Nat) (u : AccountUsage) :
    Result AccountUsage :=
  u.net.add netUsage slot n.net.window >>= fun net =>
  u.cpu.add cpuUsage slot n.cpu.window >>= fun cpu =>
  n.cpu.checkUsage (limits a).cpuWeight cpu .txCpuUsageExceeded
    "authorizing account '${n}' has insufficient objective cpu resources for this transaction, used in window ${cpu_used_in_window}us, allowed in window ${max_user_use_in_window}us" >>= fun _ =>
  n.net.checkUsage (limits a).netWeight net .txNetUsageExceeded
    "authorizing account '${n}' has insufficient net resources for this transaction, used in window ${net_used_in_window}, allowed in window ${max_user_use_in_window}" >>= fun _ =>
  .ok ⟨net, cpu⟩

def addTransactionUsage (limits : Nat → AccountLimits) (accounts : List Nat) (cpuUsage netUsage slot : Nat) :
    Result NodeRows :=
  updateEach (n.addUsage limits cpuUsage netUsage slot) accounts n.usage >>= fun usage =>
  eosAssert (n.cpu.pendingUsage + cpuUsage ≤ n.cpu.max) .blockResourceExhausted
    "Block has insufficient cpu resources" >>= fun _ =>
  eosAssert (n.net.pendingUsage + netUsage ≤ n.net.max) .blockResourceExhausted
    "Block has insufficient net resources" >>= fun _ =>
  .ok { n with
    usage := usage
    cpu := { n.cpu with pendingUsage := n.cpu.pendingUsage + cpuUsage }
    net := { n.net with pendingUsage := n.net.pendingUsage + netUsage } }

section Charge

variable {n} {limits : Nat → AccountLimits} {cpuUsage netUsage slot a : Nat} {u : AccountUsage} {P : Fault → Prop}

theorem failsOnly_checkUsage {r : Resource} {weight : Int} {usage : UsageAccumulator} {exc : Exc}
    {msg : String} (h : P (.thrown exc msg)) : FailsOnly P (r.checkUsage weight usage exc msg) := by
  unfold Resource.checkUsage
  split
  · exact failsOnly_eosAssert h _
  · exact failsOnly_ok ()

theorem failsOnly_addTransactionUsage {accounts : List Nat} (hn : accounts.Nodup)
    (hb : ∀ msg, P (.thrown .blockResourceExhausted msg))
    (h : ∀ a ∈ accounts, FailsOnly P (n.addUsage limits cpuUsage netUsage slot a (n.usage a))) :
    FailsOnly P (n.addTransactionUsage limits accounts cpuUsage netUsage slot) :=
  (failsOnly_updateEach hn h).bind fun _ _ => (failsOnly_eosAssert (hb _) _).bind fun _ _ =>
    (failsOnly_eosAssert (hb _) _).bind fun _ _ => failsOnly_ok _

/-- **`add_transaction_usage` throws for exceeded usage only for an account to which less was reported as available.** -/
theorem addTransactionUsage_exceeded {accounts : List Nat} {e : Fault} (hnodup : accounts.Nodup)
    (hnet : n.net.window ≤ ratePrecision) (hcpu : n.cpu.window ≤ ratePrecision)
    (h : n.addTransactionUsage limits accounts cpuUsage netUsage slot = .error e) :
    (∀ msg, e = .thrown .txNetUsageExceeded msg → ∃ a ∈ accounts,
      n.addUsage limits cpuUsage netUsage slot a (n.usage a) = .error e ∧
        ¬ n.net.Reports (limits a).netWeight (n.usage a).net netUsage) ∧
    (∀ msg, e = .thrown .txCpuUsageExceeded msg → ∃ a ∈ accounts,
      n.addUsage limits cpuUsage netUsage slot a (n.usage a) = .error e ∧
        ¬ n.cpu.Reports (limits a).cpuWeight (n.usage a).cpu cpuUsage) := by
  refine ⟨fun msg => ?_, fun msg => ?_⟩
  · refine failsOnly_addTransactionUsage hnodup (P := fun e => e = .thrown .txNetUsageExceeded msg → ∃ a ∈ accounts,
      n.addUsage limits cpuUsage netUsage slot a (n.usage a) = .error e ∧
        ¬ n.net.Reports (limits a).netWeight (n.usage a).net netUsage) (by simp) (fun a ha e he heq => ?_) e h
    refine ⟨a, ha, he, fun hr => ?_⟩
    refine (failsOnly_add (by simp) (by simp)).bind (P := (· ≠ .thrown .txNetUsageExceeded msg)) (fun net hadd => ?_) e he heq
    refine (failsOnly_add (by simp) (by simp)).bind fun cpu _ => ?_
    refine (failsOnly_checkUsage (by simp)).bind fun _ _ => ?_
    rw [Resource.checkUsage_of_reports hnet hr hadd]
    exact failsOnly_ok _
  · refine failsOnly_addTransactionUsage hnodup (P := fun e => e = .thrown .txCpuUsageExceeded msg → ∃ a ∈ accounts,
      n.addUsage limits cpuUsage netUsage slot a (n.usage a) = .error e ∧
        ¬ n.cpu.Reports (limits a).cpuWeight (n.usage a).cpu cpuUsage) (by simp) (fun a ha e he heq => ?_) e h
    refine ⟨a, ha, he, fun hr => ?_⟩
    refine (failsOnly_add (by simp) (by simp)).bind (P := (· ≠ .thrown .txCpuUsageExceeded msg)) (fun net _ => ?_) e he heq
    refine (failsOnly_add (by simp) (by simp)).bind fun cpu hadd => ?_
    rw [Resource.checkUsage_of_reports hcpu hr hadd, ok_bind]
    exact (failsOnly_checkUsage (by simp)).bind fun _ _ => failsOnly_ok _

def sampleCharge : NodeRows where
  transactions := []
  usage := fun _ => ⟨average 0 3000000, average 0 3000000⟩
  net := ⟨172800, 10, 2, 2, 0⟩
  cpu := ⟨172800, 10, 10, 2, 0⟩

def sampleLimits : Nat → AccountLimits := fun _ => ⟨-1, 1, 1⟩

theorem addTransactionUsage_exceeded_sampleCharge : ∃ e, sampleCharge.addTransactionUsage sampleLimits [5] 1 1 0 = .error e ∧
    ∀ msg, e = .thrown .txNetUsageExceeded msg → ∃ a ∈ [5],
      sampleCharge.addUsage sampleLimits 1 1 0 a (sampleCharge.usage a) = .error e ∧
        ¬ sampleCharge.net.Reports (sampleLimits a).netWeight (sampleCharge.usage a).net 1 := by
  refine ⟨.thrown .txNetUsageExceeded _, rfl, (addTransactionUsage_exceeded (by decide) ?_ ?_ rfl).1⟩
  · decide
  · decide

/-- **Nothing is available, and charging nothing throws.** -/
theorem exceeded_by_nothing : sampleCharge.net.accountLimit 1 (sampleCharge.usage 5).net = .ok 0 ∧
    ∃ msg, sampleCharge.addTransactionUsage sampleLimits [5] 0 0 0 = .error (.thrown .txNetUsageExceeded msg) :=
  ⟨by decide +kernel, _, rfl⟩

end Charge

/-- `max_bandwidth_billed_accounts_can_pay` for one resource, from the limit so far. -/
def maxBandwidth (r : Resource) (weight : Nat → Int) (usage : Nat → UsageAccumulator) : List Nat → Int → Result Int
  | [], limit => .ok limit
  | a :: as, limit =>
    r.accountLimit (weight a) (usage a) >>= fun l =>
    maxBandwidth r weight usage as (if 0 ≤ l then min limit l else limit)

def largeNumber : Int := maxInt64 / 2

def maxNetBandwidth (limits : Nat → AccountLimits) (accounts : List Nat) : Result Int :=
  maxBandwidth n.net (fun a => (limits a).netWeight) (fun a => (n.usage a).net) accounts largeNumber

def maxCpuBandwidth (limits : Nat → AccountLimits) (accounts : List Nat) : Result Int :=
  maxBandwidth n.cpu (fun a => (limits a).cpuWeight) (fun a => (n.usage a).cpu) accounts largeNumber

end NodeRows

/-! ## Executing actions -/

structure Visible (σ τ : Type) where
  world : σ
  trace : TransactionTrace τ
  executedActionReceipts : List Digest
  validateRamUsage : List Nat

structure ExecEnv where
  pending : PendingBlock
  trx : Transaction
  eagerNetLimit : Nat
  deriving DecidableEq

inductive Effect (σ τ : Type)
  | host (f : Visible σ τ → Result (Visible σ τ))
  | setProposedProducers (producers : List Nat)
  | setProposedFinalizers (finPol : Digest)

/-- **The chain around transactions**: how its rows are read, and what its contracts do. -/
structure Chain (σ τ : Type) where
  config : σ → ChainConfig
  limits : σ → Nat → AccountLimits
  ramUsage : σ → Nat → Nat
  onlyBillFirstAuthorizer : σ → Bool
  checkInput : PendingBlock → σ → Transaction → Result Unit
  checkAuthorization : PendingBlock → σ → Transaction → Result Unit
  updatePermissionUsage : PendingBlock → Nat × Nat → σ → Result σ
  addPendingRamUsage : Nat → Int → σ → Result σ
  -- the generated transaction object of a delayed transaction, and its billable size
  createGenerated : PendingBlock → Transaction → σ → σ × Nat
  -- what the action with an ordinal does
  behaviour : ExecEnv → Nat → Visible σ τ → List (Effect σ τ)

structure TransactionContext (σ τ : Type) where
  visible : Visible σ τ
  node : NodeRows
  undoSession : Option (Rows σ)
  trxBlkContext : TrxBlockContext
  billToAccounts : List Nat
  isInitialized : Bool
  initNetUsage : Nat
  netLimit : Nat
  netLimitDueToBlock : Bool
  eagerNetLimit : Nat
  objectiveDurationLimit : Nat
  cpuLimitDueToBlock : Bool -- `billing_timer_exception_code` is `block_cpu_usage_exceeded`

namespace TransactionContext
variable {σ τ : Type} (W : Chain σ τ) (P : PendingBlock) (trx : Transaction) (c : TransactionContext σ τ)

def freshTrace (netUsage : Nat) : TransactionTrace τ :=
  ⟨trx.id, P.headBlockNum + 1, P.blockTime, P.producerBlockId, netUsage, [], none⟩

def initializeContext (rows : Rows σ) : TransactionContext σ τ :=
  { c with
    visible := { c.visible with world := rows.world, trace := freshTrace P trx c.initNetUsage }
    node := rows.node
    undoSession := if P.skipDbSessions then none else some rows }

def construct (rows : Rows σ) : TransactionContext σ τ :=
  initializeContext P trx
    { visible := ⟨rows.world, freshTrace P trx 0, [], []⟩, node := rows.node, undoSession := none,
      trxBlkContext := .empty, billToAccounts := [], isInitialized := false, initNetUsage := 0, netLimit := 0,
      netLimitDueToBlock := true, eagerNetLimit := 0, objectiveDurationLimit := 0, cpuLimitDueToBlock := true } rows

def undone : Rows σ := c.undoSession.getD ⟨c.visible.world, c.node⟩

def reset : TransactionContext σ τ :=
  initializeContext P trx { c with visible := { c.visible with executedActionReceipts := [], validateRamUsage := [] } } c.undone

def hasUndo : Bool := !P.skipDbSessions && !P.deepMind

def lowered (limit : Nat × Bool) (candidate : Nat) : Nat × Bool := if candidate ≤ limit.1 then (candidate, false) else limit

def netLimitOf (cfg : ChainConfig) : Nat × Bool :=
  let limit := lowered (c.node.net.blockLimit, true) cfg.maxTransactionNetUsage
  if 0 < trx.maxNetUsageWords then lowered limit (trx.maxNetUsageWords * 8) else limit

def cpuLimitOf (cfg : ChainConfig) : Nat × Bool :=
  let limit := lowered (c.node.cpu.blockLimit, true) cfg.maxTransactionCpuUsage
  if 0 < trx.maxCpuUsageMs then lowered limit (trx.maxCpuUsageMs * 1000) else limit

def checkNetUsage (netUsage eagerNetLimit : Nat) (dueToBlock : Bool) : Result Unit :=
  eosAssert (P.skipTrxChecks || decide (netUsage ≤ eagerNetLimit))
    (if dueToBlock then .blockNetUsageExceeded else .txNetUsageExceeded)
    (if dueToBlock then "not enough space left in block: ${net_usage} > ${net_limit}"
      else "transaction net usage is too high: ${net_usage} > ${net_limit}")

def validateAccountCpuUsage (billedUs : Nat) (accountCpuLimit : Int) (objective : Nat) (dueToBlock : Bool) : Result Unit :=
  if 0 < billedUs && !P.skipTrxChecks then
    if !decide (accountCpuLimit ≤ objective) && dueToBlock then
      eosAssert (billedUs ≤ objective) .blockCpuUsageExceeded
        "billed CPU time (${billed} us) is greater than the billable CPU time left in the block (${billable} us)"
    else
      eosAssert ((billedUs : Int) ≤ if accountCpuLimit ≤ objective then accountCpuLimit else objective) .txCpuUsageExceeded
        "billed CPU time (${billed} us) is greater than the maximum billable CPU time for the transaction (${billable} us)"
  else .ok ()

def validateCpuUsageToBill (cfg : ChainConfig) (billedUs : Nat) (accountCpuLimit : Int) (objective : Nat)
    (dueToBlock checkMinimum : Bool) : Result Unit :=
  if P.skipTrxChecks then .ok ()
  else
    eosAssert (!checkMinimum || decide (cfg.minTransactionCpuUsage ≤ billedUs)) .transaction
      "cannot bill CPU time less than the minimum of ${min_billable} us" >>= fun _ =>
    validateAccountCpuUsage P billedUs accountCpuLimit objective dueToBlock

def billedAccounts (world : σ) : List Nat :=
  if W.onlyBillFirstAuthorizer world then [trx.firstAuthorizer]
  else ((trx.authorizations.map Prod.fst).dedup).insertionSort (fun a b => a ≤ b)

/-- `init`, with the accounts' limits lowering the eager one. -/
def init (billedUs initialNetUsage : Nat) : Result (TransactionContext σ τ) :=
  eosAssert (!c.isInitialized) .transaction "cannot initialize twice" >>= fun _ =>
  validateCpuUsageToBill P (W.config c.visible.world) billedUs maxInt64
    (c.cpuLimitOf trx (W.config c.visible.world)).1 (c.cpuLimitOf trx (W.config c.visible.world)).2 false >>= fun _ =>
  c.node.updateAccountUsage (billedAccounts W trx c.visible.world) P.slot >>= fun usage =>
  ({ c.node with usage } : NodeRows).maxNetBandwidth (W.limits c.visible.world)
    (billedAccounts W trx c.visible.world) >>= fun accountNetLimit =>
  ({ c.node with usage } : NodeRows).maxCpuBandwidth (W.limits c.visible.world)
    (billedAccounts W trx c.visible.world) >>= fun _ =>
  let netLimit := c.netLimitOf trx (W.config c.visible.world)
  let accountNet := (accountNetLimit + (W.config c.visible.world).netUsageLeeway).toNat
  let eager := if accountNet < netLimit.1 then (accountNet, false) else netLimit
  checkNetUsage P (c.visible.trace.netUsage + initialNetUsage) (eager.1 / 8 * 8) eager.2 >>= fun _ =>
  .ok { c with
    visible := { c.visible with
      trace := { c.visible.trace with netUsage := c.visible.trace.netUsage + initialNetUsage } }
    node := { c.node with usage }
    billToAccounts := billedAccounts W trx c.visible.world
    isInitialized := true
    initNetUsage := initialNetUsage
    netLimit := netLimit.1
    netLimitDueToBlock := eager.2
    eagerNetLimit := eager.1 / 8 * 8
    objectiveDurationLimit := (c.cpuLimitOf trx (W.config c.visible.world)).1
    cpuLimitDueToBlock := (c.cpuLimitOf trx (W.config c.visible.world)).2 }

def initialNetUsage (cfg : ChainConfig) : Nat :=
  cfg.basePerTransactionNetUsage + trx.unprunableSize +
  (if 0 < cfg.contextFreeDiscountNetUsageDen && cfg.contextFreeDiscountNetUsageNum < cfg.contextFreeDiscountNetUsageDen then
    (trx.prunableSize * cfg.contextFreeDiscountNetUsageNum + cfg.contextFreeDiscountNetUsageDen - 1) /
      cfg.contextFreeDiscountNetUsageDen
  else trx.prunableSize) +
  (if 0 < trx.delaySec then cfg.basePerTransactionNetUsage + transactionIdNetUsage else 0)

def validateExpiration (cfg : ChainConfig) : Result Unit :=
  eosAssert (P.blockTime ≤ trx.expiration * 1000) .expiredTx
    "transaction has expired, expiration is ${trx.expiration} and pending block time is ${pending_block_time}" >>= fun _ =>
  eosAssert (trx.expiration * 1000 ≤ P.blockTime + cfg.maxTransactionLifetime * 1000) .txExpTooFar
    "Transaction expiration is too far in the future relative to the reference time of ${reference_time}, expiration is ${trx.expiration} and the maximum transaction lifetime is ${max_til_exp} seconds"

def initForInputTrx (billedUs : Nat) : Result (TransactionContext σ τ) :=
  W.checkInput P c.visible.world trx >>= fun _ =>
  (if P.skipTrxChecks then .ok () else validateExpiration P trx (W.config c.visible.world)) >>= fun _ =>
  c.init W P trx billedUs (initialNetUsage trx (W.config c.visible.world)) >>= fun c' =>
  c'.node.recordTransaction trx.id trx.expiration >>= fun node =>
  .ok { c' with node }

def scheduleAction (act : Action) (contextFree : Bool) (v : Visible σ τ) : Visible σ τ :=
  { v with trace := { v.trace with
      actionTraces := v.trace.actionTraces ++ [⟨act, act.account, contextFree, v.trace.actionTraces.length + 1, 0, 0, none⟩] } }

def scheduled (v : Visible σ τ) : Visible σ τ :=
  let v := trx.contextFreeActions.foldl (fun v act => scheduleAction act true v) v
  if trx.delaySec = 0 then trx.actions.foldl (fun v act => scheduleAction act false v) v else v

abbrev ExecState (σ τ : Type) := Visible σ τ × TrxBlockContext

def maxProposers : Nat := 64 * 1024

def setProposedProducers (producers : List Nat) (b : TrxBlockContext) : Result TrxBlockContext :=
  if producers.isEmpty then .ok b
  else
    eosAssert (producers.length ≤ maxProposers) .wasmExecution
      "Producer schedule exceeds the maximum proposer count for this chain" >>= fun _ =>
    .ok { b with proposedSchedule := some (P.headBlockNum + 1, producers) }

def setProposedFinalizers (finPol : Digest) (b : TrxBlockContext) : TrxBlockContext :=
  { b with proposedFinPol := some (P.headBlockNum + 1, finPol) }

def applyEffect (s : ExecState σ τ) : Effect σ τ → Result (ExecState σ τ)
  | .host f => (f s.1).map fun v => (v, s.2)
  | .setProposedProducers producers => (setProposedProducers P producers s.2).map fun b => (s.1, b)
  | .setProposedFinalizers finPol => .ok (s.1, setProposedFinalizers P finPol s.2)

def runEffects : List (Effect σ τ) → ExecState σ τ → ExecState σ τ × Result Unit
  | [], s => (s, .ok ())
  | e :: es, s =>
    match applyEffect P s e with
    | .ok s' => runEffects es s'
    | .error f => (s, .error f)

def interruptOc : Fault :=
  .thrown .interruptOc "EOS VM OC compile complete interrupt of ${r} <= ${a}::${act} code ${h}, interrupt #${c}"

/-- Where an attempt is to be interrupted: in which action, after how many effects. -/
structure Point where
  ordinal : Nat
  effects : Nat
  deriving DecidableEq

def executeAction (env : ExecEnv) (point : Option Point) (ordinal : Nat) (s : ExecState σ τ) : ExecState σ τ × Result Unit :=
  match point with
  | none => runEffects P (W.behaviour env ordinal s.1) s
  | some p =>
    if p.ordinal = ordinal then
      match runEffects P ((W.behaviour env ordinal s.1).take p.effects) s with
      | (s', .ok ()) => (s', .error interruptOc)
      | r => r
    else runEffects P (W.behaviour env ordinal s.1) s

def executeActions (env : ExecEnv) (point : Option Point) : List Nat → ExecState σ τ → ExecState σ τ × Result Unit
  | [], s => (s, .ok ())
  | i :: is, s =>
    match executeAction W P env point i s with
    | (s', .ok ()) => executeActions env point is s'
    | r => r

/-- `schedule_transaction`. A delay of the transaction was charged at the start. -/
def scheduleTransaction (v : Visible σ τ) : Result (Visible σ τ) :=
  let (world, size) := W.createGenerated P trx v.world
  W.addPendingRamUsage trx.firstAuthorizer size world >>= fun world =>
  .ok { v with
    world
    validateRamUsage := if 0 < size then trx.firstAuthorizer :: v.validateRamUsage else v.validateRamUsage
    trace := { v.trace with accountRamDelta := some (trx.firstAuthorizer, size) } }

def afterActions : ExecState σ τ × Result Unit → ExecState σ τ × Result Unit
  | (s, .error f) => (s, .error f)
  | (s, .ok ()) =>
    if trx.delaySec = 0 then (s, .ok ())
    else
      match scheduleTransaction W P trx s.1 with
      | .ok v => ((v, s.2), .ok ())
      | .error f => (s, .error f)

def ordinals (v : Visible σ τ) : List Nat := (List.range v.trace.actionTraces.length).map (fun i => i + 1)

def attemptOn (env : ExecEnv) (point : Option Point) (s : ExecState σ τ) : ExecState σ τ × Result Unit :=
  afterActions W P trx (executeActions W P env point (ordinals (scheduled trx s.1)) (scheduled trx s.1, s.2))

def env : ExecEnv := ⟨P, trx, c.eagerNetLimit⟩

/-- One attempt of `exec`; without undo there are no interruptions. -/
def attempt (point : Option Point) : TransactionContext σ τ × Result Unit :=
  let r := attemptOn W P trx (c.env P trx) (if hasUndo P then point else none) (c.visible, c.trxBlkContext)
  ({ c with visible := r.1.1, trxBlkContext := r.1.2 }, r.2)

def interrupted (r : Result Unit) : Bool := hasUndo P && r == .error interruptOc

/-- `exec`, its first attempt interrupted at a point, if at all. -/
def exec (point : Option Point) : Result (TransactionContext σ τ) :=
  eosAssert c.isInitialized .transaction "must first initialize" >>= fun _ =>
  let first := c.attempt W P trx point
  let last := if interrupted P first.2 then (first.1.reset P trx).attempt W P trx none else first
  last.2 >>= fun _ =>
  .ok last.1

def updatePermissionUsages : List (Nat × Nat) → σ → Result σ
  | [], world => .ok world
  | auth :: auths, world => W.updatePermissionUsage P auth world >>= fun world => updatePermissionUsages auths world

def verifyRamUsage (world : σ) : List Nat → Result Unit
  | [] => .ok ()
  | a :: as =>
    eosAssert (decide ((W.limits world a).ramBytes < 0) || decide ((W.ramUsage world a : Int) ≤ (W.limits world a).ramBytes))
      .ramUsageExceeded "account ${account} has insufficient ram; needs ${needs} bytes has ${available} bytes" >>= fun _ =>
    verifyRamUsage world as

def roundUp (netUsage : Nat) : Nat := (netUsage + 7) / 8 * 8

/-- The checks and the billing of `finalize`, on the rows after the permissions' usage. -/
def finalizeOn (billedUs : Nat) (world : σ) : Result NodeRows :=
  verifyRamUsage W world c.visible.validateRamUsage >>= fun _ =>
  c.node.maxNetBandwidth (W.limits world) c.billToAccounts >>= fun accountNetLimit =>
  c.node.maxCpuBandwidth (W.limits world) c.billToAccounts >>= fun accountCpuLimit =>
  checkNetUsage P (roundUp c.visible.trace.netUsage)
    (if accountNetLimit ≤ c.netLimit then accountNetLimit.toNat else c.netLimit)
    (if accountNetLimit ≤ c.netLimit then false else c.netLimitDueToBlock) >>= fun _ =>
  validateCpuUsageToBill P (W.config world) billedUs accountCpuLimit
    (if accountCpuLimit ≤ c.objectiveDurationLimit then accountCpuLimit.toNat else c.objectiveDurationLimit)
    (if accountCpuLimit ≤ c.objectiveDurationLimit then false else c.cpuLimitDueToBlock) true >>= fun _ =>
  c.node.addTransactionUsage (W.limits world) c.billToAccounts billedUs (roundUp c.visible.trace.netUsage) P.slot

def finalize (billedUs : Nat) : Result (TransactionContext σ τ) :=
  eosAssert c.isInitialized .transaction "must first initialize" >>= fun _ =>
  updatePermissionUsages W P trx.authorizations c.visible.world >>= fun world =>
  c.finalizeOn W P billedUs world >>= fun node =>
  .ok { c with
    visible := { c.visible with world, trace := { c.visible.trace with netUsage := roundUp c.visible.trace.netUsage } }
    node }

end TransactionContext

/-! ## `push_transaction` -/

/-- What a transaction leaves: the rows after `squash`, its action receipts, its trace and its proposals. -/
structure Applied (σ τ : Type) where
  rows : Rows σ
  actionReceipts : List Digest
  trace : TransactionTrace τ
  proposals : TrxBlockContext

section Push

variable {σ τ : Type} (W : Chain σ τ) (P : PendingBlock) (trx : Transaction) (billedUs : Nat)

def prepared (rows : Rows σ) : Result (TransactionContext σ τ) :=
  (TransactionContext.construct P trx rows).initForInputTrx W P trx billedUs >>= fun c =>
  (if P.skipTrxChecks then .ok () else W.checkAuthorization P c.visible.world trx) >>= fun _ =>
  .ok c

/-- `push_transaction` of an input transaction, its first attempt interrupted at a point, if at all. -/
def pushTransaction (point : Option TransactionContext.Point) (rows : Rows σ) : Result (Applied σ τ) :=
  prepared W P trx billedUs rows >>= fun c =>
  c.exec W P trx point >>= fun c =>
  c.finalize W P trx billedUs >>= fun c =>
  .ok ⟨⟨c.visible.world, c.node⟩, c.visible.executedActionReceipts, c.visible.trace, c.trxBlkContext⟩

def restarts (point : Option TransactionContext.Point) (rows : Rows σ) : Bool :=
  match prepared W P trx billedUs rows with
  | .ok c => TransactionContext.interrupted P (c.attempt W P trx point).2
  | .error _ => false

end Push
end TheChannel
