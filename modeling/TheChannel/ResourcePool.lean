import TheChannel.StakeRefunds
/-!
# ResourcePool — plans that delegate from a funded pool

`ra.resources`: tokens sent with the memo `fund` make a pool; an account that buys a plan pays its price to `ra.fees`, and the
contract delegates the plan's weights from the pool to it; `process` undelegates what expired, and `claimrefund` collects what
`ra.system` refunds. The inline actions are those of `Bandwidth`, here with the step that sends them; the notification of a
transfer to the contract is part of the transfer.

What is available, delegated and waiting as a refund is what was funded (`run_pool`), unless the contract's own account buys a
plan: its stake is set against its own refund (`pool_shrinks`).
-/
namespace TheChannel
open Asset RowMap Staking

@[irreducible] def resourcesAccount : AccountName :=
  stringToName ['r', 'a', '.', 'r', 'e', 's', 'o', 'u', 'r', 'c', 'e', 's']

structure ResourcePlan where
  cpuWeight : Asset
  netWeight : Asset
  durationSec : Nat
  price : Asset
  label : String
  deriving DecidableEq

structure Subscription where
  planId : Nat
  expires : UInt32
  cpuWeight : Asset
  netWeight : Asset
  deriving DecidableEq

structure PoolState where
  available : Asset
  delegated : Asset
  nextPlanId : Nat
  deriving DecidableEq

structure ResourcePool where
  plans : RowMap Nat ResourcePlan
  subs : RowMap AccountName Subscription
  state : PoolState
  staking : Staking

inductive PoolAction
  | addplan (cpuWeight netWeight : Asset) (durationSec : Nat) (price : Asset) (label : String)
  | rmplan (planId : Nat)
  | fund (from_ : AccountName) (quantity : Asset)
  | buyplan (account : AccountName) (planId : Nat)
  | process (max : Nat)
  | claimrefund
  deriving DecidableEq

namespace ResourcePool
variable (core : Symbol) (env : StakeEnv) (s : ResourcePool) {s' : ResourcePool} {funded : Int} {from_ account : AccountName}
  {quantity price : Asset} {memo : String} {planId : Nat}

def getState : PoolState where
  available := if s.state.available.symbol = core then s.state.available else ⟨0, core⟩
  delegated := if s.state.delegated.symbol = core then s.state.delegated else ⟨0, core⟩
  nextPlanId := if s.state.nextPlanId = 0 then 1 else s.state.nextPlanId

def requireAdmin : Result Unit :=
  check (env.hasAuth resourcesAccount || env.hasAuth systemAccountName) "missing authority of ra.resources or ra"

def addplan (cpuWeight netWeight : Asset) (durationSec : Nat) (price : Asset) (label : String) : Result ResourcePool :=
  requireAdmin env >>= fun _ =>
  check (cpuWeight.symbol == core && netWeight.symbol == core && price.symbol == core)
    "weights and price must be core token" >>= fun _ =>
  check (decide (0 ≤ cpuWeight.amount ∧ 0 ≤ netWeight.amount)) "weights must be non-negative" >>= fun _ =>
  check (decide (0 < toInt64 (cpuWeight.amount + netWeight.amount))) "plan must delegate a positive amount" >>= fun _ =>
  check (decide (0 < price.amount)) "price must be positive" >>= fun _ =>
  check (decide (0 < durationSec)) "duration must be positive" >>= fun _ =>
  check (decide (label.utf8ByteSize ≤ 64)) "label has more than 64 bytes" >>= fun _ =>
  let st := s.getState core
  check (s.plans.lookup st.nextPlanId).isNone
    "could not insert object, most likely a uniqueness constraint was violated" >>= fun _ =>
  .ok { s with
    plans := s.plans.insert st.nextPlanId ⟨cpuWeight, netWeight, durationSec, price, label⟩
    state := { st with nextPlanId := (st.nextPlanId + 1) % 2 ^ 64 } }

def rmplan (planId : Nat) : Result ResourcePool :=
  requireAdmin env >>= fun _ =>
  check (s.plans.lookup planId).isSome "plan does not exist" >>= fun _ =>
  .ok { s with plans := s.plans.erase planId }

def onTransfer (from_ to_ : AccountName) (quantity : Asset) (memo : String) : Result ResourcePool :=
  if to_ ≠ resourcesAccount ∨ from_ = resourcesAccount then .ok s
  else if quantity.symbol ≠ core then .ok s
  else
    check (decide (0 < quantity.amount)) "quantity must be positive" >>= fun _ =>
    let st := s.getState core
    if memo = "fund" then
      st.available.add quantity >>= fun available => .ok { s with state := { st with available := available } }
    else if memo = "unstake" then
      check (from_ == stakeAccount) "unstake memo is only accepted from ra.stake" >>= fun _ =>
      st.available.add quantity >>= fun available => .ok { s with state := { st with available := available } }
    else .error (.thrown .eosioAssertMessage "ra.resources only accepts transfers with memo 'fund'")

def fund (from_ : AccountName) (quantity : Asset) : Result ResourcePool :=
  s.staking.token.transfer env.toActionEnv from_ resourcesAccount quantity "fund" >>= fun token =>
  onTransfer core { s with staking := { s.staking with token := token } } from_ resourcesAccount quantity "fund"

def inlineEnv : StakeEnv := { env with hasAuth := fun account => account == resourcesAccount }

def expiresAt (durationSec : Nat) : UInt32 := UInt32.ofNat ((env.time + durationSec * 1000000) / 1000000)

def buyplan (account : AccountName) (planId : Nat) : Result ResourcePool :=
  env.requireAuth account >>= fun _ =>
  check (env.isAccount account) "account does not exist" >>= fun _ =>
  match s.plans.lookup planId with
  | none => .error (.thrown .eosioAssertMessage "plan does not exist")
  | some plan =>
    check (s.subs.lookup account).isNone "account already has an active plan; wait for expiry" >>= fun _ =>
    plan.cpuWeight.add plan.netWeight >>= fun stake =>
    let st := s.getState core
    check (st.available.symbol == stake.symbol) "comparison of assets with different symbols is not allowed" >>= fun _ =>
    check (decide (stake.amount ≤ st.available.amount)) "resource pool has insufficient unstaked tokens" >>= fun _ =>
    st.available.sub stake >>= fun available =>
    st.delegated.add stake >>= fun delegated =>
    -- the inline actions
    s.staking.pay env account feesAccount plan.price "resource plan fee" >>= fun staking =>
    staking.delegatebw core (inlineEnv env) resourcesAccount account plan.netWeight plan.cpuWeight false >>= fun staking =>
    .ok { s with
      subs := s.subs.insert account ⟨planId, expiresAt env plan.durationSec, plan.cpuWeight, plan.netWeight⟩
      state := { st with available := available, delegated := delegated }
      staking := staking }

def earliest : Option (Sigma fun _ : AccountName => Subscription) :=
  s.subs.entries.argmin (fun e => e.2.expires.toNat * 2 ^ 64 + e.1)

/-- The loop of `process`, each round with the undelegation it sends. -/
def expireSubs : Nat → ResourcePool → Result ResourcePool
  | 0, s => .ok s
  | n + 1, s =>
    match s.earliest with
    | none => .ok s
    | some e =>
      if env.now < e.2.expires then .ok s
      else
        e.2.cpuWeight.add e.2.netWeight >>= fun stake =>
        (s.getState core).delegated.sub stake >>= fun delegated =>
        s.staking.undelegatebw core (inlineEnv env) resourcesAccount e.1 e.2.netWeight e.2.cpuWeight >>= fun staking =>
        expireSubs n { s with
          subs := s.subs.erase e.1
          state := { s.getState core with delegated := delegated }
          staking := staking }

def process (max : Nat) : Result ResourcePool :=
  check (decide (0 < max ∧ max ≤ 100)) "max must be in 1..100" >>= fun _ =>
  expireSubs core env max s

def refundOf (owner : AccountName) : Asset :=
  match s.staking.refunds.lookup owner with
  | some r => ⟨r.netAmount.amount + r.cpuAmount.amount, r.netAmount.symbol⟩
  | none => ⟨0, core⟩

def claimrefund : Result ResourcePool :=
  s.staking.refund (inlineEnv env) resourcesAccount >>= fun staking =>
  onTransfer core { s with staking := staking } stakeAccount resourcesAccount (s.refundOf core resourcesAccount) "unstake"

def apply : PoolAction → Result ResourcePool
  | .addplan cpuWeight netWeight durationSec price label => s.addplan core env cpuWeight netWeight durationSec price label
  | .rmplan planId => s.rmplan env planId
  | .fund from_ quantity => s.fund core env from_ quantity
  | .buyplan account planId => s.buyplan core env account planId
  | .process max => s.process core env max
  | .claimrefund => s.claimrefund core env

def funds : PoolAction → Int
  | .fund _ quantity => if quantity.symbol = core then quantity.amount else 0
  | _ => 0

def step (r : ResourcePool × Int) (a : StakeEnv × PoolAction) : ResourcePool × Int :=
  match r.1.apply core a.1 a.2 with
  | .ok s => (s, r.2 + funds core a.2)
  | .error _ => r

def run (actions : List (StakeEnv × PoolAction)) : ResourcePool × Int := actions.foldl (step core) (s, 0)

/-- A pool that was just set up, over any state of `ra.system` and of the token. -/
def start (staking : Staking) : ResourcePool := ⟨∅, ∅, ⟨⟨0, core⟩, ⟨0, core⟩, 1⟩, staking⟩

/-! ## The pool equation -/

def Subscription.stake (sub : Subscription) : Int := sub.cpuWeight.amount + sub.netWeight.amount

structure Balanced (s : ResourcePool) (funded : Int) : Prop where
  availableSymbol : s.state.available.symbol = core
  delegatedSymbol : s.state.delegated.symbol = core
  plans : ∀ id (p : ResourcePlan), s.plans.lookup id = some p →
    p.cpuWeight.symbol = core ∧ p.netWeight.symbol = core ∧ p.price.symbol = core ∧ 0 ≤ p.cpuWeight.amount ∧
      0 ≤ p.netWeight.amount
  refunds : Staking.RefundsFit core s.staking
  pool : s.state.available.amount + s.state.delegated.amount + s.staking.refunding resourcesAccount = funded
  subs : s.state.delegated.amount = total (fun _ sub => Subscription.stake sub) s.subs
  nonneg : 0 ≤ s.state.available.amount
  covered : s.state.available.amount ≤ s.staking.token.balance resourcesAccount core.code

variable {core env s}

theorem Balanced.getState_eq (h : Balanced core s funded) :
    (s.getState core).available = s.state.available ∧ (s.getState core).delegated = s.state.delegated := by
  unfold getState
  simp [h.availableSymbol, h.delegatedSymbol]

theorem account_ne : resourcesAccount ≠ stakeAccount ∧ resourcesAccount ≠ feesAccount := by decide +kernel

theorem onTransfer_adds (hf : from_ ≠ resourcesAccount)
    (h : s.onTransfer core from_ resourcesAccount quantity memo = .ok s') : (quantity.symbol ≠ core ∧ s' = s) ∨
      (quantity.symbol = core ∧ ∃ available, (s.getState core).available.add quantity = .ok available ∧
        s' = { s with state := { s.getState core with available := available } }) := by
  unfold onTransfer at h
  rw [if_neg (by simp [hf])] at h
  by_cases hsym : quantity.symbol = core
  · refine .inr ⟨hsym, ?_⟩
    rw [if_neg (by simp [hsym])] at h
    replace h := rest_ok h
    split at h
    · obtain ⟨available, hav, h⟩ := bind_ok h
      cases h
      exact ⟨available, hav, rfl⟩
    · split at h
      · replace h := rest_ok h
        obtain ⟨available, hav, h⟩ := bind_ok h
        cases h
        exact ⟨available, hav, rfl⟩
      · cases h
  · rw [if_pos hsym] at h
    cases h
    exact .inl ⟨hsym, rfl⟩

theorem Balanced.fund (h : Balanced core s funded) (hok : s.fund core env from_ quantity = .ok s') :
    Balanced core s' (funded + if quantity.symbol = core then quantity.amount else 0) := by
  obtain ⟨token, htok, hok⟩ := bind_ok hok
  obtain ⟨hne, hpos, -⟩ := Token.transfer_ok htok
  have hs := h.getState_eq
  have hcv := h.covered
  have hp := h.pool
  rcases onTransfer_adds hne hok with ⟨hsym, rfl⟩ | ⟨hsym, available, hav, rfl⟩
  · rw [if_neg hsym, Int.add_zero]
    refine ⟨h.availableSymbol, h.delegatedSymbol, h.plans, h.refunds, hp, h.subs, h.nonneg, ?_⟩
    by_cases hco : core.code = quantity.symbol.code
    · have hbal := Token.transfer_balance htok resourcesAccount
      rw [if_pos rfl, if_neg hne.symm, ← hco] at hbal
      dsimp only
      omega
    · exact hcv.trans_eq (Token.transfer_balance_ne htok resourcesAccount hco).symm
  · rw [if_pos hsym]
    have hadd : (s.getState core).available.add quantity = .ok available := hav
    rw [hs.1] at hadd
    obtain ⟨-, -, rfl⟩ := add_ok_iff.1 hadd
    have hbal := Token.transfer_balance htok resourcesAccount
    rw [if_pos rfl, if_neg hne.symm, hsym] at hbal
    have hn := h.nonneg
    refine ⟨h.availableSymbol, ?_, h.plans, h.refunds, ?_, ?_, ?_, ?_⟩
    · exact (congrArg symbol hs.2).trans h.delegatedSymbol
    · change s.state.available.amount + quantity.amount + (s.getState core).delegated.amount +
        s.staking.refunding resourcesAccount = _
      rw [hs.2]
      omega
    · exact (congrArg amount hs.2).trans h.subs
    · dsimp only
      omega
    · dsimp only
      omega

theorem Balanced.claimrefund (h : Balanced core s funded) (hok : s.claimrefund core env = .ok s') : Balanced core s' funded := by
  obtain ⟨staking, href, hok⟩ := bind_ok hok
  obtain ⟨F, hpos, hz, -, hbal, -, -⟩ := refund_amounts h.refunds href
  have hs := h.getState_eq
  -- the row that is paid
  have hrow : (s.refundOf core resourcesAccount) = ⟨s.staking.refunding resourcesAccount, core⟩ := by
    unfold refundOf refunding
    cases hl : s.staking.refunds.lookup resourcesAccount with
    | none => rfl
    | some r =>
      have hfit := h.refunds resourcesAccount r hl
      rw [weigh_some, ← hfit.netSymbol]
      rfl
  rw [hrow] at hok
  have hbal := hbal resourcesAccount
  rw [if_pos rfl, if_neg account_ne.1] at hbal
  have hp := h.pool
  have hn := h.nonneg
  have hco := h.covered
  rcases onTransfer_adds account_ne.1.symm hok with ⟨hsym, -⟩ | ⟨-, available, hav, rfl⟩
  · exact absurd rfl hsym
  · have hadd : (s.getState core).available.add ⟨s.staking.refunding resourcesAccount, core⟩ = .ok available := hav
    rw [hs.1] at hadd
    obtain ⟨-, -, rfl⟩ := add_ok_iff.1 hadd
    refine ⟨h.availableSymbol, ?_, h.plans, F, ?_, ?_, ?_, ?_⟩
    · exact (congrArg symbol hs.2).trans h.delegatedSymbol
    · change s.state.available.amount + s.staking.refunding resourcesAccount + (s.getState core).delegated.amount +
        staking.refunding resourcesAccount = _
      rw [hs.2, hz]
      omega
    · exact (congrArg amount hs.2).trans h.subs
    · dsimp only
      omega
    · dsimp only
      omega

theorem Balanced.buyplan (h : Balanced core s funded) (hacc : account ≠ resourcesAccount)
    (hok : s.buyplan core env account planId = .ok s') : Balanced core s' funded := by
  iterate 2 replace hok := rest_ok hok
  split at hok
  · cases hok
  rename_i plan hp
  obtain ⟨hf, hok⟩ := check_ok hok
  obtain ⟨stake, hst, hok⟩ := bind_ok hok
  replace hok := rest_ok hok
  obtain ⟨he, hok⟩ := check_ok hok
  obtain ⟨available, hav, hok⟩ := bind_ok hok
  obtain ⟨delegated, hd, hok⟩ := bind_ok hok
  obtain ⟨staking1, hpay, hok⟩ := bind_ok hok
  obtain ⟨staking2, hdel, hok⟩ := bind_ok hok
  cases hok
  obtain ⟨hcpu, hnet, hpr, hcp, hn⟩ := h.plans planId plan hp
  have hse := h.getState_eq
  rw [hse.1] at he hav
  rw [hse.2] at hd
  obtain ⟨-, -, rfl⟩ := add_ok_iff.1 hst
  obtain ⟨-, -, rfl⟩ := sub_ok_iff.1 hav
  obtain ⟨-, -, rfl⟩ := add_ok_iff.1 hd
  rw [decide_eq_true_eq] at he
  obtain ⟨hst1, hpay⟩ := pay_ok hpay
  have href1 : staking1.refunds = s.staking.refunds := by rw [hst1]
  have hbal1 := Token.transfer_balance hpay resourcesAccount
  rw [if_neg account_ne.2, if_neg hacc.symm, hpr] at hbal1
  have F1 : Staking.RefundsFit core staking1 := by
    unfold Staking.RefundsFit
    rw [href1]
    exact h.refunds
  obtain ⟨left, ⟨-, F2, hsum, hbal, -⟩, -, hall⟩ :=
    changebw_amounts F1 account_ne.1 hnet hcpu (delegatebw_ok hdel).2.2.2.2
  have hl := hall (.inr hacc.symm) (by omega)
  have hsum := hsum resourcesAccount
  have hbal := hbal resourcesAccount
  rw [if_neg account_ne.1, if_pos rfl] at hbal
  simp only [Bool.false_eq_true, if_false, if_true] at hsum
  have href : staking1.refunding resourcesAccount = s.staking.refunding resourcesAccount := by
    unfold refunding
    rw [href1]
  have hpo := h.pool
  have hco := h.covered
  have hs := h.subs
  refine ⟨h.availableSymbol, h.delegatedSymbol, h.plans, F2, ?_, ?_, ?_, ?_⟩
  · dsimp only
    omega
  · rw [Option.isNone_iff_eq_none] at hf
    rw [total_insert, hf, weigh_none, hs]
    simp only [Subscription.stake]
    omega
  · dsimp only at he ⊢
    omega
  · dsimp only at he ⊢
    omega

theorem earliest_lookup {e : Sigma fun _ : AccountName => Subscription} (h : s.earliest = some e) :
    s.subs.lookup e.1 = some e.2 :=
  mem_entries_iff.1 (List.argmin_mem (Option.mem_def.2 h))

theorem Balanced.expireSubs : ∀ {n : Nat} {s}, Balanced core s funded → expireSubs core env n s = .ok s' →
    Balanced core s' funded
  | 0, s, h, hok => by
    cases hok
    exact h
  | n + 1, s, h, hok => by
    unfold ResourcePool.expireSubs at hok
    cases he : s.earliest with
    | none =>
      rw [he] at hok
      cases hok
      exact h
    | some e =>
      rw [he] at hok
      dsimp only at hok
      split at hok
      · cases hok
        exact h
      obtain ⟨stake, hst, hok⟩ := bind_ok hok
      obtain ⟨delegated, hdel, hok⟩ := bind_ok hok
      obtain ⟨staking, hund, hok⟩ := bind_ok hok
      refine Balanced.expireSubs ?_ hok
      have hse := h.getState_eq
      rw [hse.2] at hdel
      obtain ⟨-, -, rfl⟩ := add_ok_iff.1 hst
      obtain ⟨-, -, rfl⟩ := sub_ok_iff.1 hdel
      obtain ⟨hnet, hcpu, hn, hcp, hpos, hch⟩ := undelegatebw_ok hund
      obtain ⟨left, ⟨-, F, hsum, hbal, -⟩, hz, -⟩ :=
        changebw_amounts h.refunds account_ne.1 (by exact hnet) (by exact hcpu) hch
      dsimp only at hz hsum
      have hl := hz (by omega) (by omega) (by omega)
      have hsum := hsum resourcesAccount
      have hbal := hbal resourcesAccount
      rw [if_neg account_ne.1, if_pos rfl] at hbal
      simp only [Bool.false_eq_true, if_false, if_true] at hsum
      have hp := h.pool
      have hco := h.covered
      have hs := h.subs
      refine ⟨?_, h.delegatedSymbol, h.plans, F, ?_, ?_, ?_, ?_⟩
      · exact (congrArg symbol hse.1).trans h.availableSymbol
      · dsimp only
        rw [hse.1]
        omega
      · dsimp only
        rw [total_erase, earliest_lookup he, weigh_some, hs]
        simp only [Subscription.stake]
      · dsimp only
        rw [hse.1]
        exact h.nonneg
      · dsimp only
        rw [hse.1]
        omega

theorem Balanced.addplan (h : Balanced core s funded) {cpuWeight netWeight : Asset} {durationSec : Nat}
    {label : String} (hok : s.addplan core env cpuWeight netWeight durationSec price label = .ok s') : Balanced core s' funded := by
  replace hok := rest_ok hok
  obtain ⟨hsym, hok⟩ := check_ok hok
  obtain ⟨hpos, hok⟩ := check_ok hok
  iterate 5 replace hok := rest_ok hok
  cases hok
  obtain ⟨hav, hdel⟩ := h.getState_eq
  simp only [Bool.and_eq_true, beq_iff_eq] at hsym
  rw [decide_eq_true_eq] at hpos
  refine ⟨?_, ?_, ?_, h.refunds, ?_, ?_, ?_, ?_⟩
  · exact (congrArg symbol hav).trans h.availableSymbol
  · exact (congrArg symbol hdel).trans h.delegatedSymbol
  · intro id p hp
    rcases lookup_insert_some hp with ⟨-, rfl⟩ | ⟨-, hp⟩
    · exact ⟨hsym.1.1, hsym.1.2, hsym.2, hpos.1, hpos.2⟩
    · exact h.plans id p hp
  · dsimp only
    rw [hav, hdel]
    exact h.pool
  · dsimp only
    rw [hdel]
    exact h.subs
  · dsimp only
    rw [hav]
    exact h.nonneg
  · dsimp only
    rw [hav]
    exact h.covered

theorem Balanced.rmplan (h : Balanced core s funded) (hok : s.rmplan env planId = .ok s') :
    Balanced core s' funded := by
  iterate 2 replace hok := rest_ok hok
  cases hok
  refine ⟨h.availableSymbol, h.delegatedSymbol, ?_, h.refunds, h.pool, h.subs, h.nonneg, h.covered⟩
  intro id p hp
  exact h.plans id p (lookup_erase_some hp).2

def PoolAction.foreign : PoolAction → Bool
  | .buyplan account _ => account != resourcesAccount
  | _ => true

theorem Balanced.apply (h : Balanced core s funded) {action : PoolAction} (hf : PoolAction.foreign action)
    (hok : s.apply core env action = .ok s') : Balanced core s' (funded + funds core action) := by
  cases action with
  | fund from_ quantity => exact h.fund hok
  | addplan cpuWeight netWeight durationSec price label =>
    simp only [funds, Int.add_zero]
    exact h.addplan hok
  | rmplan planId =>
    simp only [funds, Int.add_zero]
    exact h.rmplan hok
  | buyplan account planId =>
    simp only [funds, Int.add_zero]
    exact h.buyplan (bne_iff_ne.1 hf) hok
  | process max =>
    simp only [funds, Int.add_zero]
    replace hok := rest_ok hok
    exact h.expireSubs hok
  | claimrefund =>
    simp only [funds, Int.add_zero]
    exact h.claimrefund hok

theorem Balanced.step {r : ResourcePool × Int} (h : Balanced core r.1 r.2) {a : StakeEnv × PoolAction}
    (hf : PoolAction.foreign a.2) : Balanced core (ResourcePool.step core r a).1 (ResourcePool.step core r a).2 := by
  unfold ResourcePool.step
  cases hok : r.1.apply core a.1 a.2 with
  | ok s => exact h.apply hf hok
  | error e => exact h

theorem Balanced.foldl (actions : List (StakeEnv × PoolAction)) : ∀ {r}, Balanced core r.1 r.2 →
    (∀ a ∈ actions, PoolAction.foreign a.2) →
    Balanced core (actions.foldl (ResourcePool.step core) r).1 (actions.foldl (ResourcePool.step core) r).2 := by
  induction actions with
  | nil => exact fun h _ => h
  | cons a actions ih =>
    intro r h hf
    exact ih (h.step (hf a List.mem_cons_self)) fun b hb => hf b (List.mem_cons_of_mem _ hb)

/-- **The pool is conserved.** Over every sequence of actions in which the contract's own account buys no plan: what is
available, what is delegated and what the contract waits for as a refund add up to what was funded; what is delegated is the sum
of the weights of the subscriptions; and what is available is between 0 and the contract's balance. -/
theorem run_pool (staking : Staking) (hrefunds : Staking.RefundsFit core staking)
    (hnone : staking.refunding resourcesAccount = 0) (hledger : staking.token.Ledger)
    {actions : List (StakeEnv × PoolAction)} (hforeign : ∀ a ∈ actions, PoolAction.foreign a.2) :
    let r := run core (start core staking) actions
    r.1.state.available.amount + r.1.state.delegated.amount + r.1.staking.refunding resourcesAccount = r.2 ∧
    r.1.state.delegated.amount = total (fun _ sub => Subscription.stake sub) r.1.subs ∧
    0 ≤ r.1.state.available.amount ∧
    r.1.state.available.amount ≤ r.1.staking.token.balance resourcesAccount core.code := by
  intro r
  have h0 : Balanced core (start core staking) 0 := by
    refine ⟨rfl, rfl, fun id p h => (by cases h), hrefunds, ?_, rfl, le_rfl, hledger.sound.balance_nonneg _ _⟩
    change 0 + 0 + staking.refunding resourcesAccount = 0
    rw [hnone]
    rfl
  have h := Balanced.foldl actions (r := (start core staking, 0)) h0 hforeign
  exact ⟨h.pool, h.subs, h.nonneg, h.covered⟩

/-! Four tokens, a plan of two that lasts a second, and three days to wait for a refund. -/

def sampleCore : Symbol := ⟨16722, 4⟩

def sampleOwner : AccountName := stringToName ['o', 'w', 'n', 'e', 'r']

def sampleEnv (seconds : Nat) : StakeEnv :=
  ⟨⟨fun _ => true, fun _ => true⟩, seconds * 1000000, true, fun _ => .ok (), fun _ => .ok ()⟩

def sampleStaking : Staking where
  delband := ∅
  userres := ∅
  refunds := ∅
  voters := ∅
  powerupState := none
  orders := ∅
  token := Token.run (stringToName ['r', 'a', '.', 't', 'o', 'k', 'e', 'n'])
    ([.create sampleOwner ⟨1000000, sampleCore⟩, .issue sampleOwner ⟨1000000, sampleCore⟩ ""].map
      (fun a => ((sampleEnv 0).toActionEnv, a)))

def sampleExpired : List (StakeEnv × PoolAction) :=
  [(sampleEnv 1000, .fund sampleOwner ⟨40000, sampleCore⟩),
    (sampleEnv 1000, .addplan ⟨10000, sampleCore⟩ ⟨10000, sampleCore⟩ 1 ⟨100, sampleCore⟩ "plan"),
    (sampleEnv 1000, .buyplan sampleOwner 1),
    (sampleEnv 1001, .process 10)]

theorem run_pool_sampleExpired : let r := run sampleCore (start sampleCore sampleStaking) sampleExpired
    r.2 = 40000 ∧ r.1.staking.refunding resourcesAccount = 20000 ∧
    r.1.state.available.amount + r.1.state.delegated.amount + r.1.staking.refunding resourcesAccount = r.2 :=
  ⟨by decide +kernel, by decide +kernel,
    (run_pool sampleStaking (fun _ _ h => by cases h) (by decide +kernel) (Token.Ledger.run _ _) (by decide +kernel)).1⟩

/-- **The contract's own account buys the plan while a refund waits**: `changebw` takes the stake out of the refund, and the pool
has counted it once as available and again as refund. -/
theorem pool_shrinks :
    let r := run sampleCore (start sampleCore sampleStaking) (sampleExpired ++ [(sampleEnv 1002, .buyplan resourcesAccount 1)])
    r.1.state.available.amount = 0 ∧ r.1.state.delegated.amount = 20000 ∧
    r.1.staking.refunding resourcesAccount = 0 ∧ r.2 = 40000 := by
  decide +kernel

end ResourcePool
end TheChannel
