import TheChannel.Contract
import TheChannel.MoreKeys
/-!
# Multisig — proposals, approvals and their delay

`ra.msig`: a transaction is proposed, the requested accounts approve or unapprove it, an account may invalidate all approvals
it gave, and the transaction is executed once the approvals authorise it and its delay is over. `earliest_exec_time` says when
that is; an absent extension is that of a proposal from before there was one, and `old_approvals` are approvals without a time.
Times are microseconds, `expiration` and `delay_sec` seconds.

`approve` and `unapprove` keep `earliest_exec_time`, `invalidate` does not look at it. So a proposal is executed only after it
was authorised for the whole delay if no account invalidates an approval that counts while the time is set
(`exec_authorised_throughout`); otherwise it may be executed as soon as it is authorised again (`exec_after_invalidation`).
-/
namespace TheChannel
open AList List

/-- A proposed transaction; its actions are not looked into. -/
structure MsigTransaction where
  expiration : Nat
  delaySec : Nat
  contextFreeActions : List Nat
  actions : List Nat
  deriving DecidableEq

def microseconds : Nat := 1000000

/-- What the contract asks of the host: `required` are the calls of the checker that `check_authorization` makes for the actions
of a transaction, `none` where an action declares an irrelevant authority. Permissions are fixed. -/
structure MsigHost where
  sha256 : MsigTransaction → Nat
  graph : PermissionGraph
  maxAuthorityDepth : Nat
  maxTransactionDelay : Nat
  required : MsigTransaction → Option (List AuthorityChecker.CheckCall)

namespace MsigHost
variable (host : MsigHost) (trx : MsigTransaction)

def checker (approvals : List PermissionLevel) : AuthorityChecker :=
  ⟨host.graph, host.maxAuthorityDepth, [], approvals,
    if host.maxTransactionDelay ≤ trx.delaySec then 2 ^ 63 - 1 else trx.delaySec * microseconds⟩

/-- `check_transaction_authorization` without keys. -/
def authorized (approvals : List PermissionLevel) : Bool :=
  (host.required trx).any fun calls => ((host.checker trx approvals).answers [] calls).all id

/-- No chain of nested permissions below a required one passes the depth limit. -/
def Shallow : Prop :=
  ∀ calls ∈ host.required trx, ∀ c ∈ calls, (host.checker trx []).Shallow c.target

variable {host trx}

theorem authorized_mono (hsh : host.Shallow trx) {l l' : List PermissionLevel} (hsub : ∀ p ∈ l, p ∈ l')
    (h : host.authorized trx l = true) : host.authorized trx l' = true := by
  obtain ⟨calls, hcalls, ha⟩ := (Option.any_eq_true ..).1 h
  have hext : AuthorityChecker.Extends (host.checker trx l) (host.checker trx l') := ⟨rfl, rfl, Subset.refl _, hsub, Nat.le_refl _⟩
  exact (Option.any_eq_true ..).2 ⟨calls, hcalls, hext.answers_all (hsh calls hcalls) ha⟩

end MsigHost

structure MsigProposal where
  transaction : MsigTransaction
  earliestExecTime : Option (Option Nat)
  deriving DecidableEq

structure MsigApproval where
  level : PermissionLevel
  time : Nat
  deriving DecidableEq

structure MsigApprovals where
  requestedApprovals : List MsigApproval
  providedApprovals : List MsigApproval
  deriving DecidableEq

structure OldMsigApprovals where
  requestedApprovals : List PermissionLevel
  providedApprovals : List PermissionLevel
  deriving DecidableEq

structure Multisig where
  proposals : RowMap (AccountName × AccountName) MsigProposal
  approvals : RowMap (AccountName × AccountName) MsigApprovals
  oldApprovals : RowMap (AccountName × AccountName) OldMsigApprovals
  invalidations : RowMap AccountName Nat

inductive MsigAction
  | propose (proposer proposalName : AccountName) (requested : List PermissionLevel) (trx : MsigTransaction)
  | approve (proposer proposalName : AccountName) (level : PermissionLevel) (proposalHash : Option Nat)
  | unapprove (proposer proposalName : AccountName) (level : PermissionLevel)
  | cancel (proposer proposalName canceler : AccountName)
  | exec (proposer proposalName executer : AccountName)
  | invalidate (account : AccountName)
  deriving DecidableEq

structure MsigCall where
  time : Nat
  hasAuth : AccountName → Bool
  hasPermission : PermissionLevel → Bool
  action : MsigAction

def requireThat (c : Bool) : Result Unit := eosAssert c .missingAuth "missing authority of ${account}"

namespace Multisig
variable (host : MsigHost) (s : Multisig) (c : MsigCall) (key : AccountName × AccountName) {s' s₁ : Multisig}
  {k : AccountName × AccountName} {α : Type} {prop : MsigProposal} {level : PermissionLevel} {account : AccountName}

/-- `get_approvals_and_adjust_table`, the approvals: those that were not invalidated. -/
def getApprovals : Result (List PermissionLevel) :=
  match s.approvals.lookup key with
  | some info =>
    .ok ((info.providedApprovals.filter fun a => match s.invalidations.lookup a.level.actor with
      | none => true
      | some lastInvalidationTime => decide (lastInvalidationTime < a.time)).map MsigApproval.level)
  | none =>
    match s.oldApprovals.lookup key with
    | some info => .ok (info.providedApprovals.filter fun l => (s.invalidations.lookup l.actor).isNone)
    | none => .error (.thrown .eosioAssertMessage "proposal not found")

def getProposal : Result MsigProposal :=
  match s.proposals.lookup key with
  | some prop => .ok prop
  | none => .error (.thrown .eosioAssertMessage "proposal not found")

def propose (requested : List PermissionLevel) (trx : MsigTransaction) : Result Multisig :=
  requireThat (c.hasAuth key.1) >>= fun _ =>
  check (decide (c.time / microseconds ≤ trx.expiration)) "transaction expired" >>= fun _ =>
  check trx.contextFreeActions.isEmpty "not allowed to `propose` a transaction with context-free actions" >>= fun _ =>
  check (s.proposals.lookup key).isNone "proposal with the same name exists" >>= fun _ =>
  check (host.authorized trx requested) "transaction authorization failed" >>= fun _ =>
  check (s.approvals.lookup key).isNone "could not insert object, most likely a uniqueness constraint was violated" >>= fun _ =>
  .ok { s with
    proposals := s.proposals.insert key ⟨trx, some none⟩
    approvals := s.approvals.insert key ⟨requested.map (⟨·, 0⟩), []⟩ }

/-- The first part of `approve`: the approval moves from the requested to the provided ones. -/
def provide (level : PermissionLevel) : Result Multisig :=
  match s.approvals.lookup key with
  | some info =>
    check (info.requestedApprovals.any (·.level == level)) "approval is not on the list of requested approvals" >>= fun _ =>
    let info := ⟨info.requestedApprovals.eraseP (·.level == level), info.providedApprovals ++ [⟨level, c.time⟩]⟩
    .ok { s with approvals := s.approvals.insert key info }
  | none =>
    match s.oldApprovals.lookup key with
    | some info =>
      check (info.requestedApprovals.contains level) "approval is not on the list of requested approvals" >>= fun _ =>
      let info := ⟨info.requestedApprovals.erase level, info.providedApprovals ++ [level]⟩
      .ok { s with oldApprovals := s.oldApprovals.insert key info }
    | none => .error (.thrown .eosioAssertMessage "proposal not found")

def withdraw (level : PermissionLevel) : Result Multisig :=
  match s.approvals.lookup key with
  | some info =>
    check (info.providedApprovals.any (·.level == level)) "no approval previously granted" >>= fun _ =>
    let info := ⟨info.requestedApprovals ++ [⟨level, c.time⟩], info.providedApprovals.eraseP (·.level == level)⟩
    .ok { s with approvals := s.approvals.insert key info }
  | none =>
    match s.oldApprovals.lookup key with
    | some info =>
      check (info.providedApprovals.contains level) "no approval previously granted" >>= fun _ =>
      let info := ⟨info.requestedApprovals ++ [level], info.providedApprovals.erase level⟩
      .ok { s with oldApprovals := s.oldApprovals.insert key info }
    | none => .error (.thrown .eosioAssertMessage "proposal not found")

def noDelay (prop : MsigProposal) : Result Unit :=
  check (prop.transaction.delaySec == 0)
    "old proposals are not allowed to have non-zero `delay_sec`; cancel and retry"

def execTime (time : Nat) (prop : MsigProposal) : Nat := time + prop.transaction.delaySec * microseconds

/-- The second part of `approve`: an authorised transaction may be executed after its delay. -/
def startDelay (prop : MsigProposal) : Result Multisig :=
  match prop.earliestExecTime with
  | some none =>
    s.getApprovals key >>= fun approvals =>
    if host.authorized prop.transaction approvals then
      .ok { s with proposals := s.proposals.insert key { prop with earliestExecTime := some (some (execTime c.time prop)) } }
    else .ok s
  | some (some _) => .ok s
  | none => noDelay prop >>= fun _ => .ok s

def stopDelay (prop : MsigProposal) : Result Multisig :=
  match prop.earliestExecTime with
  | some (some _) =>
    s.getApprovals key >>= fun approvals =>
    if host.authorized prop.transaction approvals then .ok s
    else .ok { s with proposals := s.proposals.insert key { prop with earliestExecTime := some none } }
  | some none => .ok s
  | none => noDelay prop >>= fun _ => .ok s

def approve (level : PermissionLevel) (proposalHash : Option Nat) : Result Multisig :=
  requireThat (c.hasPermission level) >>= fun _ =>
  s.getProposal key >>= fun prop =>
  check (proposalHash.all (· == host.sha256 prop.transaction)) "hash mismatch" >>= fun _ =>
  s.provide c key level >>= fun s =>
  s.startDelay host c key prop

def unapprove (level : PermissionLevel) : Result Multisig :=
  requireThat (c.hasPermission level) >>= fun _ =>
  s.withdraw c key level >>= fun s =>
  s.getProposal key >>= fun prop =>
  s.stopDelay host key prop

def eraseApprovals : Result Multisig :=
  match s.approvals.lookup key with
  | some _ => .ok { s with approvals := s.approvals.erase key }
  | none =>
    check (s.oldApprovals.lookup key).isSome "proposal not found" >>= fun _ =>
    .ok { s with oldApprovals := s.oldApprovals.erase key }

def cancel (canceler : AccountName) : Result Multisig :=
  requireThat (c.hasAuth canceler) >>= fun _ =>
  s.getProposal key >>= fun prop =>
  check (canceler == key.1 || decide (prop.transaction.expiration < c.time / microseconds))
    "cannot cancel until expiration" >>= fun _ =>
  { s with proposals := s.proposals.erase key }.eraseApprovals key

def exec (executer : AccountName) : Result Multisig :=
  requireThat (c.hasAuth executer) >>= fun _ =>
  s.getProposal key >>= fun prop =>
  check (decide (c.time / microseconds ≤ prop.transaction.expiration)) "transaction expired" >>= fun _ =>
  check prop.transaction.contextFreeActions.isEmpty "not allowed to `exec` a transaction with context-free actions" >>= fun _ =>
  s.getApprovals key >>= fun approvals =>
  check (host.authorized prop.transaction approvals) "transaction authorization failed" >>= fun _ =>
  (match prop.earliestExecTime with
    | some (some time) => check (decide (time ≤ c.time)) "too early to execute"
    | _ => noDelay prop) >>= fun _ =>
  { s with proposals := s.proposals.erase key }.eraseApprovals key

def invalidate (account : AccountName) : Result Multisig :=
  requireThat (c.hasAuth account) >>= fun _ =>
  .ok { s with invalidations := s.invalidations.insert account c.time }

def apply : Result Multisig :=
  match c.action with
  | .propose proposer name requested trx => s.propose host c (proposer, name) requested trx
  | .approve proposer name level hash => s.approve host c (proposer, name) level hash
  | .unapprove proposer name level => s.unapprove host c (proposer, name) level
  | .cancel proposer name canceler => s.cancel c (proposer, name) canceler
  | .exec proposer name executer => s.exec host c (proposer, name) executer
  | .invalidate account => s.invalidate c account

def step : Multisig :=
  match s.apply host c with
  | .ok s' => s'
  | .error _ => s

def run (calls : List MsigCall) : Multisig := calls.foldl (step host) s

def stateAt (calls : List MsigCall) (time : Nat) : Multisig := s.run host (calls.takeWhile fun c => decide (c.time ≤ time))

def Authorised (trx : MsigTransaction) : Prop :=
  ∃ approvals, s.getApprovals key = .ok approvals ∧ host.authorized trx approvals = true

instance (trx : MsigTransaction) : Decidable (s.Authorised host key trx) :=
  decidable_of_iff ((s.getApprovals key).toOption.any (host.authorized trx) = true) <| by
    unfold Authorised
    cases s.getApprovals key <;> simp [Except.toOption]

def Undisturbed : Prop :=
  ∀ (account : AccountName) (prop : MsigProposal) (time : Nat) (approvals : List PermissionLevel),
    c.action = .invalidate account → s.proposals.lookup key = some prop → prop.earliestExecTime = some (some time) →
    s.getApprovals key = .ok approvals → ∀ l ∈ approvals, l.actor ≠ account

/-! ## What an action leaves -/

variable {host s c key}

theorem requireThat_bind_ok_iff {b : Bool} {f : Unit → Result α} {a : α} :
    (requireThat b >>= f) = .ok a ↔ b = true ∧ f () = .ok a := by
  unfold requireThat
  rw [unit_bind_ok_iff, eosAssert_ok_iff]

theorem getProposal_ok_iff : s.getProposal key = .ok prop ↔ s.proposals.lookup key = some prop := by
  unfold getProposal
  split <;> simp_all

def SameAt (s s' : Multisig) (key : AccountName × AccountName) : Prop :=
  s'.proposals.lookup key = s.proposals.lookup key ∧ s'.getApprovals key = s.getApprovals key

theorem SameAt.of_tables (hp : s'.proposals.lookup key = s.proposals.lookup key)
    (happ : s'.approvals.lookup key = s.approvals.lookup key)
    (hold : s'.oldApprovals.lookup key = s.oldApprovals.lookup key) (hinv : s'.invalidations = s.invalidations) :
    SameAt s s' key :=
  ⟨hp, by unfold getApprovals; rw [happ, hold, hinv]⟩

theorem SameAt.trans (h : SameAt s s₁ key) (h' : SameAt s₁ s' key) : SameAt s s' key :=
  ⟨h'.1.trans h.1, h'.2.trans h.2⟩

theorem provide_ok (h : s.provide c k level = .ok s') :
    s'.proposals = s.proposals ∧ (∀ key, key ≠ k → SameAt s s' key) ∧
    ∀ approvals, s.getApprovals k = .ok approvals → ∃ approvals', s'.getApprovals k = .ok approvals' ∧
      ∀ p ∈ approvals, p ∈ approvals' := by
  unfold provide at h
  cases hi : s.approvals.lookup k with
  | some info =>
    simp only [hi] at h
    replace h := rest_ok h
    cases h
    refine ⟨rfl, fun key hkey => SameAt.of_tables rfl (lookup_insert_ne hkey) rfl rfl, ?_⟩
    intro approvals happ
    simp only [getApprovals, hi, Except.ok.injEq] at happ
    simp only [getApprovals, lookup_insert, filter_append, map_append]
    refine ⟨_, rfl, fun p hp => ?_⟩
    rw [← happ] at hp
    exact mem_append_left _ hp
  | none =>
    simp only [hi] at h
    cases hold : s.oldApprovals.lookup k with
    | none =>
      rw [hold] at h
      cases h
    | some info =>
      simp only [hold] at h
      replace h := rest_ok h
      cases h
      refine ⟨rfl, fun key hkey => SameAt.of_tables rfl rfl (lookup_insert_ne hkey) rfl, ?_⟩
      intro approvals happ
      simp only [getApprovals, hi, hold, Except.ok.injEq] at happ
      simp only [getApprovals, hi, lookup_insert, filter_append]
      refine ⟨_, rfl, fun p hp => ?_⟩
      rw [← happ] at hp
      exact mem_append_left _ hp

theorem withdraw_ok (h : s.withdraw c k level = .ok s') :
    s'.proposals = s.proposals ∧ ∀ key, key ≠ k → SameAt s s' key := by
  unfold withdraw at h
  cases hi : s.approvals.lookup k with
  | some info =>
    simp only [hi] at h
    replace h := rest_ok h
    cases h
    exact ⟨rfl, fun key hkey => SameAt.of_tables rfl (lookup_insert_ne hkey) rfl rfl⟩
  | none =>
    simp only [hi] at h
    cases hold : s.oldApprovals.lookup k with
    | none =>
      rw [hold] at h
      cases h
    | some info =>
      simp only [hold] at h
      replace h := rest_ok h
      cases h
      exact ⟨rfl, fun key hkey => SameAt.of_tables rfl rfl (lookup_insert_ne hkey) rfl⟩

theorem noDelay_bind_ok {f : Unit → Result α} {a : α} (h : (noDelay prop >>= f) = .ok a) :
    prop.transaction.delaySec = 0 ∧ f () = .ok a := by
  unfold noDelay at h
  rw [check_bind_ok_iff, beq_iff_eq] at h
  exact h

def Held (host : MsigHost) (s : Multisig) (time : Nat) (key : AccountName × AccountName) (s' : Multisig) : Prop :=
  ∀ (prop : MsigProposal) (e : Nat), s'.proposals.lookup key = some prop → prop.earliestExecTime = some (some e) →
    host.Shallow prop.transaction → (s'.Authorised host key prop.transaction ∧ e = execTime time prop) ∨
    (s.proposals.lookup key = some prop ∧ (s.Authorised host key prop.transaction → s'.Authorised host key prop.transaction))

theorem SameAt.held (h : SameAt s s' key) (time : Nat) : s.Held host time key s' := by
  intro prop e hp _ _
  refine .inr ⟨h.1.symm.trans hp, ?_⟩
  rintro ⟨approvals, happ, ha⟩
  exact ⟨approvals, h.2.trans happ, ha⟩

theorem Held.of_unset (h : ∀ prop ∈ s'.proposals.lookup k, ∀ e : Nat, prop.earliestExecTime ≠ some (some e))
    (hot : key ≠ k → SameAt s s' key) (time : Nat) : s.Held host time key s' := by
  by_cases hkey : key = k
  · subst hkey
    exact fun prop e hp ht _ => absurd ht (h prop hp e)
  · exact (hot hkey).held _

theorem approve_held {hash : Option Nat} (h : s.approve host c k level hash = .ok s') : s.Held host c.time key s' := by
  obtain ⟨-, h⟩ := requireThat_bind_ok_iff.1 h
  obtain ⟨prop0, hp0, h⟩ := bind_ok h
  replace h := rest_ok h
  obtain ⟨s₁, hpre, h⟩ := bind_ok h
  obtain ⟨hpr, hot, hm⟩ := provide_ok hpre
  rw [getProposal_ok_iff] at hp0
  unfold startDelay at h
  split at h
  · rename_i hu
    obtain ⟨approvals, happ, h⟩ := bind_ok h
    split at h
    · -- the transaction is authorised from now on
      rename_i ha
      cases h
      by_cases hkey : key = k
      · subst hkey
        intro prop e hp ht _
        simp only [lookup_insert, Option.some.injEq] at hp
        subst hp
        refine .inl ⟨⟨approvals, happ, ha⟩, ?_⟩
        simp only [Option.some.injEq] at ht
        exact ht.symm
      · refine SameAt.held ?_ _
        exact (hot key hkey).trans (SameAt.of_tables (lookup_insert_ne hkey) rfl rfl rfl)
    · cases h
      exact .of_unset (by simp [hpr, hp0, hu]) (hot key) _
  · -- the time is set, and one more approval counts
    cases h
    by_cases hkey : key = k
    · subst hkey
      intro prop e hp ht hsh
      refine .inr ⟨by rw [← hpr, hp], ?_⟩
      rintro ⟨approvals, happ, ha⟩
      obtain ⟨approvals', happ', hsub⟩ := hm approvals happ
      exact ⟨approvals', happ', MsigHost.authorized_mono hsh hsub ha⟩
    · exact (hot key hkey).held _
  · rename_i hold
    obtain ⟨-, h⟩ := noDelay_bind_ok h
    cases h
    exact .of_unset (by simp [hpr, hp0, hold]) (hot key) _

theorem unapprove_held (h : s.unapprove host c k level = .ok s') : s.Held host c.time key s' := by
  obtain ⟨-, h⟩ := requireThat_bind_ok_iff.1 h
  obtain ⟨s₁, hw, h⟩ := bind_ok h
  obtain ⟨prop0, hp0, h⟩ := bind_ok h
  obtain ⟨hpr, hot⟩ := withdraw_ok hw
  rw [getProposal_ok_iff] at hp0
  unfold stopDelay at h
  split at h
  · obtain ⟨approvals, happ, h⟩ := bind_ok h
    split at h
    · -- still authorised without the approval
      rename_i ha
      cases h
      by_cases hkey : key = k
      · subst hkey
        intro prop e hp _ _
        rw [hp0, Option.some.injEq] at hp
        subst hp
        exact .inr ⟨by rw [← hpr, hp0], fun _ => ⟨approvals, happ, ha⟩⟩
      · exact (hot key hkey).held _
    · cases h
      refine .of_unset (k := k) (by simp) (fun hkey => ?_) _
      exact (hot key hkey).trans (SameAt.of_tables (lookup_insert_ne hkey) rfl rfl rfl)
  · rename_i hu
    cases h
    exact .of_unset (by simp [hp0, hu]) (hot key) _
  · rename_i hold
    obtain ⟨-, h⟩ := noDelay_bind_ok h
    cases h
    exact .of_unset (by simp [hp0, hold]) (hot key) _

theorem eraseApprovals_held (h : { s with proposals := s.proposals.erase k }.eraseApprovals k = .ok s') (time : Nat) :
    s.Held host time key s' := by
  obtain ⟨hn, hot⟩ : s'.proposals.lookup k = none ∧ ∀ key, key ≠ k → SameAt s s' key := by
    unfold eraseApprovals at h
    split at h
    · cases h
      exact ⟨lookup_erase _ _, fun key hkey =>
        SameAt.of_tables (lookup_erase_ne hkey) (lookup_erase_ne hkey) rfl rfl⟩
    · replace h := rest_ok h
      cases h
      exact ⟨lookup_erase _ _, fun key hkey =>
        SameAt.of_tables (lookup_erase_ne hkey) rfl (lookup_erase_ne hkey) rfl⟩
  exact .of_unset (by simp [hn]) (hot key) _

theorem exec_ok {executer : AccountName} (h : s.exec host c k executer = .ok s') :
    ∃ prop, s.proposals.lookup k = some prop ∧
      { s with proposals := s.proposals.erase k }.eraseApprovals k = .ok s' ∧
      s.Authorised host k prop.transaction ∧
      (0 < prop.transaction.delaySec → ∃ time, prop.earliestExecTime = some (some time) ∧ time ≤ c.time) := by
  obtain ⟨-, h⟩ := requireThat_bind_ok_iff.1 h
  obtain ⟨prop, hp, h⟩ := bind_ok h
  iterate 2 replace h := rest_ok h
  obtain ⟨approvals, happ, h⟩ := bind_ok h
  obtain ⟨ha, h⟩ := check_ok h
  refine ⟨prop, getProposal_ok_iff.1 hp, ?_⟩
  split at h
  · rename_i time ht
    rw [check_bind_ok_iff, decide_eq_true_eq] at h
    exact ⟨h.2, ⟨approvals, happ, ha⟩, fun _ => ⟨time, ht, h.1⟩⟩
  · obtain ⟨hz, h⟩ := noDelay_bind_ok h
    exact ⟨h, ⟨approvals, happ, ha⟩, fun hpos => absurd hz (Nat.ne_of_gt hpos)⟩

theorem getApprovals_invalidate (s : Multisig) (key : AccountName × AccountName) {time : Nat}
    {approvals : List PermissionLevel} (happ : s.getApprovals key = .ok approvals) (hot : ∀ l ∈ approvals, l.actor ≠ account) :
    ∃ approvals', { s with invalidations := s.invalidations.insert account time }.getApprovals key = .ok approvals' ∧
      ∀ p ∈ approvals, p ∈ approvals' := by
  unfold getApprovals at happ ⊢
  cases hi : s.approvals.lookup key with
  | some info =>
    simp only [hi, Except.ok.injEq] at happ ⊢
    refine ⟨_, rfl, fun p hp => ?_⟩
    have hp' := hot p hp
    rw [← happ] at hp
    obtain ⟨a, ha, rfl⟩ := mem_map.1 hp
    obtain ⟨hmem, hco⟩ := mem_filter.1 ha
    refine mem_map.2 ⟨a, mem_filter.2 ⟨hmem, ?_⟩, rfl⟩
    rw [lookup_insert_ne hp']
    exact hco
  | none =>
    simp only [hi] at happ ⊢
    cases hold : s.oldApprovals.lookup key with
    | none =>
      rw [hold] at happ
      cases happ
    | some info =>
      simp only [hold, Except.ok.injEq] at happ ⊢
      refine ⟨_, rfl, fun p hp => ?_⟩
      have hp' := hot p hp
      rw [← happ] at hp
      obtain ⟨hmem, hco⟩ := mem_filter.1 hp
      refine mem_filter.2 ⟨hmem, ?_⟩
      rw [lookup_insert_ne hp']
      exact hco

theorem step_held (host : MsigHost) (s : Multisig) (hund : s.Undisturbed c key) : s.Held host c.time key (s.step host c) := by
  unfold step
  cases h : s.apply host c with
  | error e => exact SameAt.held ⟨rfl, rfl⟩ _
  | ok s' =>
    unfold apply at h
    generalize hact : c.action = action at h
    cases action with
    | propose proposer name requested trx =>
      obtain ⟨-, h⟩ := requireThat_bind_ok_iff.1 h
      iterate 5 replace h := rest_ok h
      cases h
      refine .of_unset (k := (proposer, name)) (by simp) (fun hkey => ?_) _
      exact SameAt.of_tables (lookup_insert_ne hkey) (lookup_insert_ne hkey) rfl rfl
    | approve proposer name level hash =>
      exact approve_held h
    | unapprove proposer name level =>
      exact unapprove_held h
    | cancel proposer name canceler =>
      obtain ⟨-, h⟩ := requireThat_bind_ok_iff.1 h
      obtain ⟨prop, -, h⟩ := bind_ok h
      exact eraseApprovals_held (rest_ok h) _
    | exec proposer name executer =>
      obtain ⟨prop, -, hera, -, -⟩ := exec_ok h
      exact eraseApprovals_held hera _
    | invalidate account =>
      obtain ⟨-, h⟩ := requireThat_bind_ok_iff.1 h
      cases h
      intro prop e hp ht hsh
      refine .inr ⟨hp, ?_⟩
      rintro ⟨approvals, happ, ha⟩
      obtain ⟨approvals', happ', hsub⟩ :=
        getApprovals_invalidate s key happ (hund account prop e approvals hact hp ht happ)
      exact ⟨approvals', happ', MsigHost.authorized_mono hsh hsub ha⟩

/-! ## Runs -/

theorem run_append (host : MsigHost) (s : Multisig) (calls : List MsigCall) (c : MsigCall) :
    s.run host (calls ++ [c]) = (s.run host calls).step host c := by
  simp [run]

section Run

variable {calls : List MsigCall}

theorem stateAt_before (host : MsigHost) (s : Multisig) {time : Nat} (ht : time < c.time) :
    s.stateAt host (calls ++ [c]) time = s.stateAt host calls time := by
  unfold stateAt
  rw [takeWhile_append]
  split
  · rename_i hall
    have hl : [c].takeWhile (fun c => decide (c.time ≤ time)) = [] := by
      simp only [takeWhile_cons]
      rw [if_neg (by simpa using ht)]
    have hcalls := takeWhile_prefix (l := calls) (fun c : MsigCall => decide (c.time ≤ time))
    rw [hl, append_nil, hcalls.eq_of_length hall]
  · rfl

variable (hsorted : (calls ++ [c]).Pairwise (fun a b => a.time ≤ b.time))

include hsorted

theorem stateAt_after (host : MsigHost) (s : Multisig) {time : Nat} (ht : c.time ≤ time) :
    s.stateAt host calls time = s.run host calls ∧ s.stateAt host (calls ++ [c]) time = s.run host (calls ++ [c]) := by
  have hall : ∀ a ∈ calls ++ [c], decide (a.time ≤ time) = true := by
    intro a ha
    rw [pairwise_append] at hsorted
    rcases mem_append.1 ha with ha | ha
    · have := hsorted.2.2 a ha c (by simp)
      simp only [decide_eq_true_eq]
      omega
    · rw [mem_singleton] at ha
      simpa [ha] using ht
  unfold stateAt
  rw [takeWhile_eq_self_iff.2 (fun a ha => hall a (mem_append_left _ ha)), takeWhile_eq_self_iff.2 hall]
  exact ⟨rfl, rfl⟩

end Run

def Delayed (host : MsigHost) (s : Multisig) (calls : List MsigCall) (key : AccountName × AccountName) : Prop :=
  ∀ (prop : MsigProposal) (e : Nat), (s.run host calls).proposals.lookup key = some prop →
    prop.earliestExecTime = some (some e) → host.Shallow prop.transaction → ∀ time, e ≤ execTime time prop →
    (s.stateAt host calls time).Authorised host key prop.transaction

theorem run_delayed (host : MsigHost) (s : Multisig) (hn : s.proposals = ∅) (calls : List MsigCall) :
    calls.Pairwise (fun a b => a.time ≤ b.time) →
    (∀ before c after, calls = before ++ c :: after →
      (s.run host before).Undisturbed c key) → s.Delayed host calls key := by
  induction calls using List.reverseRecOn with
  | nil =>
    intro _ _ prop e hp
    change s.proposals.lookup key = some prop at hp
    rw [hn] at hp
    cases hp
  | append_singleton calls c ih =>
    intro hsorted hund prop e hp ht hsh time hl
    have hdel := ih (pairwise_append.1 hsorted).1
      (fun before d after h => hund before d (after ++ [c]) (by rw [h]; simp))
    rw [run_append] at hp
    have hh := step_held host (s.run host calls) (hund calls c [] rfl) prop e hp ht hsh
    by_cases hb : time < c.time
    · rw [stateAt_before host s hb]
      rcases hh with ⟨-, rfl⟩ | ⟨hold, -⟩
      · unfold execTime at hl
        omega
      · exact hdel prop e hold ht hsh time hl
    · obtain ⟨hat, hat'⟩ := stateAt_after hsorted host s (Nat.le_of_not_lt hb)
      rw [hat', run_append]
      rcases hh with ⟨ha, -⟩ | ⟨hold, hk⟩
      · exact ha
      · exact hk (hat ▸ hdel prop e hold ht hsh time hl)

/-- **A proposal with a delay is executed only after it was authorised for the whole delay**, if no action invalidates an
approval that counts for it while its time is set and no chain of nested permissions passes the depth limit: at every moment of the delay before an execution that succeeds, the approvals
that were not invalidated authorise the transaction. -/
theorem exec_authorised_throughout (host : MsigHost) (s : Multisig) (hnone : s.proposals = ∅) {calls : List MsigCall}
    {c : MsigCall} {proposer name executer : AccountName} {s' : Multisig} {prop : MsigProposal}
    (hsorted : (calls ++ [c]).Pairwise (fun a b => a.time ≤ b.time))
    (hund : ∀ (before : List MsigCall) (d : MsigCall) (after : List MsigCall), calls = before ++ d :: after →
      (s.run host before).Undisturbed d (proposer, name))
    (hexec : (s.run host calls).exec host c (proposer, name) executer = .ok s')
    (hprop : (s.run host calls).proposals.lookup (proposer, name) = some prop) (hshallow : host.Shallow prop.transaction)
    (hdelay : 0 < prop.transaction.delaySec) :
    ∀ time, c.time ≤ time + prop.transaction.delaySec * microseconds → time ≤ c.time →
      (s.stateAt host calls time).Authorised host (proposer, name) prop.transaction := by
  intro time hs _
  obtain ⟨prop', hp', -, -, ht⟩ := exec_ok hexec
  cases hprop.symm.trans hp'
  obtain ⟨e, he, hle⟩ := ht hdelay
  refine run_delayed host s hnone calls (pairwise_append.1 hsorted).1 hund prop e hprop he hshallow time ?_
  exact hle.trans hs

theorem exists_ok_of_isSome {r : Result α} (h : r.toOption.isSome = true) : ∃ a, r = .ok a := by
  cases r with
  | ok a => exact ⟨a, rfl⟩
  | error e => cases h

/-- Every transaction needs the permission of account 4, which two of the accounts 1, 2 and 3 give. -/
def sampleHost : MsigHost where
  sha256 _ := 0
  graph :=
    { authority := fun p => if p = ⟨4, 1⟩ then some ⟨2, [], [⟨⟨1, 1⟩, 1⟩, ⟨⟨2, 1⟩, 1⟩, ⟨⟨3, 1⟩, 1⟩], []⟩ else none
      valid := fun p auth h => by split_ifs at h; cases h; decide
      named := fun p auth h => by split_ifs at h; subst_vars; decide }
  maxAuthorityDepth := 6
  maxTransactionDelay := 45 * 24 * 3600
  required _ := some [⟨.permission ⟨4, 1⟩, none⟩]

theorem shallow_sampleHost (trx : MsigTransaction) : sampleHost.Shallow trx := by
  intro calls hcalls c hc
  cases hcalls
  cases mem_singleton.1 hc
  exact PermissionGraph.Within.chainsWithin (by simp [PermissionGraph.Within, MsigHost.checker, sampleHost])

def sampleState : Multisig := ⟨∅, ∅, ∅, ∅⟩

def sampleCall (seconds : Nat) (action : MsigAction) : MsigCall :=
  ⟨seconds * microseconds, fun _ => true, fun _ => true, action⟩

def sampleApproved : List MsigCall :=
  [sampleCall 0 (.propose 7 7 [⟨1, 1⟩, ⟨2, 1⟩, ⟨3, 1⟩] ⟨1000, 10, [], []⟩), sampleCall 0 (.approve 7 7 ⟨1, 1⟩ none),
    sampleCall 0 (.approve 7 7 ⟨2, 1⟩ none)]

theorem exec_authorised_throughout_sampleApproved :
    (sampleState.stateAt sampleHost sampleApproved (5 * microseconds)).Authorised sampleHost (7, 7) ⟨1000, 10, [], []⟩ := by
  have hund : ∀ (before : List MsigCall) (d : MsigCall) (after : List MsigCall), sampleApproved = before ++ d :: after →
      (sampleState.run sampleHost before).Undisturbed d (7, 7) := by
    intro before d after hs account prop time approvals hact
    have hmem : d ∈ sampleApproved := hs ▸ mem_append_right _ mem_cons_self
    simp only [sampleApproved, mem_cons, not_mem_nil, or_false] at hmem
    rcases hmem with rfl | rfl | rfl <;> cases hact
  have he : ((sampleState.run sampleHost sampleApproved).exec sampleHost (sampleCall 10 (.exec 7 7 8)) (7, 7) 8).toOption.isSome
      = true := by decide +kernel
  obtain ⟨s', he⟩ := exists_ok_of_isSome he
  have hp : (sampleState.run sampleHost sampleApproved).proposals.lookup (7, 7) =
      some ⟨⟨1000, 10, [], []⟩, some (some (10 * microseconds))⟩ := by decide +kernel
  have hsorted : (sampleApproved ++ [sampleCall 10 (.exec 7 7 8)]).Pairwise (fun a b => a.time ≤ b.time) := by decide +kernel
  exact exec_authorised_throughout sampleHost sampleState rfl hsorted hund he hp (shallow_sampleHost _) (by decide) (5 * microseconds)
    (Nat.le_add_left _ _) (by decide +kernel)

/-- **An invalidation does not stop the delay.** Account 1 invalidates its approval after a second, account 3 approves a
second before the end; the execution after ten seconds succeeds, though for most of them one approval alone counted. -/
theorem exec_after_invalidation :
    let calls := sampleApproved ++ [sampleCall 1 (.invalidate 1), sampleCall 9 (.approve 7 7 ⟨3, 1⟩ none)]
    (∃ s', (sampleState.run sampleHost calls).exec sampleHost (sampleCall 10 (.exec 7 7 8)) (7, 7) 8 = .ok s') ∧
    ¬ (sampleState.stateAt sampleHost calls (5 * microseconds)).Authorised sampleHost (7, 7) ⟨1000, 10, [], []⟩ := by
  intro calls
  exact ⟨exists_ok_of_isSome (by decide +kernel), by decide +kernel⟩

end Multisig
end TheChannel
