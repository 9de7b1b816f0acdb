import TheChannel.LibRows
import TheChannel.Name
import TheChannel.ResourceUsage
/-!
# ResourceLimits — limits of accounts and their totals

`initialize_account`, `set_account_limits` and `process_account_limit_updates` of the resource limits manager. A limit that
is set stays pending until the end of the block. The totals are those of the limits in force, a limit below 0 is none. A
call that throws is undone with its block.
-/
namespace TheChannel
open RowMap

structure ResourceLimitsObject where
  ramBytes : Int
  netWeight : Int
  cpuWeight : Int
  deriving DecidableEq

/-- The limits by `by_owner`, pending or not and the account, and the totals of the state object. -/
structure LimitTables where
  limits : RowMap (Bool × AccountName) ResourceLimitsObject
  totalRamBytes : Nat
  totalNetWeight : Nat
  totalCpuWeight : Nat

def updateStateAndValue (total : Nat) (value pendingValue : Int) : Result Nat :=
  eosAssert (decide (value ≤ 0) || decide (value.toNat ≤ total)) .rateLimitingStateInconsistent
    "underflow when reverting old value to ${which}" >>= fun _ =>
  eosAssert (decide (pendingValue ≤ 0) || decide (pendingValue.toNat ≤ maxUint64 - (total - value.toNat)))
    .rateLimitingStateInconsistent "overflow when applying new value to ${which}" >>= fun _ =>
  .ok (total - value.toNat + pendingValue.toNat)

namespace LimitTables
variable (s : LimitTables) {e : Fault} {value pending : Int}

def init : LimitTables := ⟨∅, 0, 0, 0⟩

def initializeAccount (account : AccountName) : Result LimitTables :=
  match s.limits.lookup (false, account) with
  | some _ => .error (.thrown .logicError "could not insert object, most likely a uniqueness constraint was violated")
  | none => .ok { s with limits := s.limits.insert (false, account) ⟨-1, -1, -1⟩ }

/-- `find_or_create_pending_limits`: the limits that are in the pending row then. -/
def findOrCreatePendingLimits (account : AccountName) : Result ResourceLimitsObject :=
  match s.limits.lookup (true, account) with
  | some pending => .ok pending
  | none =>
    match s.limits.lookup (false, account) with
    | some limits => .ok limits
    | none => .error (.thrown .outOfRange "unknown key")

/-- `set_account_limits`, with whether it lowered the limit of the RAM. -/
def setAccountLimits (account : AccountName) (ramBytes netWeight cpuWeight : Int) : Result (LimitTables × Bool) :=
  s.findOrCreatePendingLimits account >>= fun limits =>
  .ok ({ s with limits := s.limits.insert (true, account) ⟨ramBytes, netWeight, cpuWeight⟩ },
    decide (0 ≤ ramBytes) && (decide (limits.ramBytes < 0) || decide (ramBytes < limits.ramBytes)))

def firstPending : Option AccountName := ((s.limits.entries.filter (fun e => e.1.1)).map (fun e => e.1.2)).min?

def applied (owner : AccountName) (pending : ResourceLimitsObject) : RowMap (Bool × AccountName) ResourceLimitsObject :=
  s.limits.insert (false, owner) pending

def update (owner : AccountName) (pending : ResourceLimitsObject) : Result LimitTables :=
  match s.limits.lookup (false, owner) with
  | none => .error (.thrown .outOfRange "unknown key")
  | some actual =>
    updateStateAndValue s.totalRamBytes actual.ramBytes pending.ramBytes >>= fun totalRamBytes =>
    updateStateAndValue s.totalCpuWeight actual.cpuWeight pending.cpuWeight >>= fun totalCpuWeight =>
    updateStateAndValue s.totalNetWeight actual.netWeight pending.netWeight >>= fun totalNetWeight =>
    .ok ⟨(s.applied owner pending).erase (true, owner), totalRamBytes, totalNetWeight, totalCpuWeight⟩

def updates : Nat → LimitTables → Result LimitTables
  | 0, s => .ok s
  | n + 1, s =>
    match s.firstPending with
    | none => .ok s
    | some owner =>
      match s.limits.lookup (true, owner) with
      | none => .ok s
      | some pending => s.update owner pending >>= updates n

/-- `process_account_limit_updates`; every run of the loop removes a row. -/
def processAccountLimitUpdates : Result LimitTables := updates s.limits.entries.length s

inductive Call
  | initializeAccount (account : AccountName)
  | setAccountLimits (account : AccountName) (ramBytes netWeight cpuWeight : Int)
  | processAccountLimitUpdates

def apply : Call → Result LimitTables
  | .initializeAccount account => s.initializeAccount account
  | .setAccountLimits account ramBytes netWeight cpuWeight => (s.setAccountLimits account ramBytes netWeight cpuWeight).map (·.1)
  | .processAccountLimitUpdates => s.processAccountLimitUpdates

def step (s : LimitTables) (c : Call) : LimitTables :=
  match s.apply c with
  | .ok s' => s'
  | .error _ => s

def run (calls : List Call) : LimitTables := calls.foldl step init

/-! ## The totals -/

def sumOf (field : ResourceLimitsObject → Int) (limits : RowMap (Bool × AccountName) ResourceLimitsObject) : Int :=
  total (fun k r => if k.1 then 0 else max (field r) 0) limits

/-- **The totals are those of the limits in force**, and every pending row has such a row. -/
structure Totals (s : LimitTables) : Prop where
  ram : s.totalRamBytes = sumOf (·.ramBytes) s.limits
  net : s.totalNetWeight = sumOf (·.netWeight) s.limits
  cpu : s.totalCpuWeight = sumOf (·.cpuWeight) s.limits
  actual : ∀ owner, s.limits.lookup (true, owner) ≠ none → s.limits.lookup (false, owner) ≠ none

variable {s} {s' : LimitTables} {field : ResourceLimitsObject → Int} {limits : RowMap (Bool × AccountName) ResourceLimitsObject}
  {owner account : AccountName} {p r : ResourceLimitsObject} {total total' : Nat} (field : ResourceLimitsObject → Int)

theorem sumOf_insert_pending (limits : RowMap (Bool × AccountName) ResourceLimitsObject)
    (owner : AccountName) (p : ResourceLimitsObject) : sumOf field (limits.insert (true, owner) p) = sumOf field limits := by
  unfold sumOf
  rw [total_insert]
  cases limits.lookup (true, owner) <;> simp

theorem sumOf_erase_pending (limits : RowMap (Bool × AccountName) ResourceLimitsObject)
    (owner : AccountName) : sumOf field (limits.erase (true, owner)) = sumOf field limits := by
  unfold sumOf
  rw [total_erase]
  cases limits.lookup (true, owner) <;> simp

theorem sumOf_insert (h : limits.lookup (false, owner) = some r) (p : ResourceLimitsObject) :
    sumOf field (limits.insert (false, owner) p) = sumOf field limits - max (field r) 0 + max (field p) 0 := by
  unfold sumOf
  rw [total_insert, h]
  rfl

theorem le_sumOf (h : limits.lookup (false, owner) = some r) : max (field r) 0 ≤ sumOf field limits := by
  have := weigh_le_total (t := limits) (w := fun k r => if k.1 then 0 else max (field r) 0)
    (fun k r _ => by split <;> simp) (false, owner)
  rw [h] at this
  exact this

theorem updateStateAndValue_ok (hle : max value 0 ≤ total) (h : updateStateAndValue total value pending = .ok total') :
    (total' : Int) = total - max value 0 + max pending 0 := by
  iterate 2 replace h := rest_ok h
  cases h
  omega

def overflowFault : Fault := .thrown .rateLimitingStateInconsistent "overflow when applying new value to ${which}"

theorem updateStateAndValue_error (hle : max value 0 ≤ total) (h : updateStateAndValue total value pending = .error e) :
    e = overflowFault ∧ (maxUint64 : Int) < total - max value 0 + max pending 0 := by
  unfold updateStateAndValue at h
  rw [eosAssert_bind (by simp; omega)] at h
  by_cases hfit : (decide (pending ≤ 0) || decide (pending.toNat ≤ maxUint64 - (total - value.toNat))) = true
  · rw [eosAssert_bind hfit] at h
    cases h
  · unfold eosAssert at h
    rw [if_neg hfit] at h
    cases h
    refine ⟨rfl, ?_⟩
    simp only [Bool.or_eq_true, decide_eq_true_eq, not_or, not_le] at hfit
    omega

/-! ## The calls keep the totals -/

theorem Totals.init : Totals init := ⟨rfl, rfl, rfl, fun _ h => absurd rfl h⟩

theorem Totals.initializeAccount (T : Totals s) (h : s.initializeAccount account = .ok s') : Totals s' := by
  unfold LimitTables.initializeAccount at h
  cases hrow : s.limits.lookup (false, account) with
  | some r =>
    rw [hrow] at h
    cases h
  | none =>
    rw [hrow] at h
    cases h
    have hsum : ∀ field : ResourceLimitsObject → Int, field ⟨-1, -1, -1⟩ = -1 →
        sumOf field (s.limits.insert (false, account) ⟨-1, -1, -1⟩) = sumOf field s.limits := by
      intro field hf
      unfold sumOf
      rw [total_insert, hrow]
      simp [hf]
    refine ⟨T.ram.trans (hsum _ rfl).symm, T.net.trans (hsum _ rfl).symm, T.cpu.trans (hsum _ rfl).symm, fun owner hp => ?_⟩
    rw [AList.lookup_insert_ne (by simp)] at hp
    rw [lookup_insert_ite]
    split
    · exact Option.some_ne_none _
    · exact T.actual owner hp

theorem Totals.setAccountLimits {ramBytes netWeight cpuWeight : Int} {decreased : Bool} (T : Totals s)
    (h : s.setAccountLimits account ramBytes netWeight cpuWeight = .ok (s', decreased)) : Totals s' := by
  obtain ⟨limits, hf, h⟩ := bind_ok h
  cases h
  refine ⟨T.ram.trans (sumOf_insert_pending ..).symm, T.net.trans (sumOf_insert_pending ..).symm,
    T.cpu.trans (sumOf_insert_pending ..).symm, fun owner hp => ?_⟩
  rw [AList.lookup_insert_ne (by simp)]
  rw [lookup_insert_ite] at hp
  split at hp
  · rename_i heq
    cases heq
    -- a pending row was there, or was made from the row in force
    by_cases hrow : s.limits.lookup (true, account) = none
    · intro hn
      unfold findOrCreatePendingLimits at hf
      rw [hrow, hn] at hf
      cases hf
    · exact T.actual account hrow
  · exact T.actual owner hp

theorem Totals.le (T : Totals s) (h : s.limits.lookup (false, owner) = some r) :
    max r.ramBytes 0 ≤ s.totalRamBytes ∧ max r.cpuWeight 0 ≤ s.totalCpuWeight ∧ max r.netWeight 0 ≤ s.totalNetWeight := by
  rw [T.ram, T.cpu, T.net]
  exact ⟨le_sumOf (·.ramBytes) h, le_sumOf (·.cpuWeight) h, le_sumOf (·.netWeight) h⟩

theorem Totals.update (T : Totals s) (h : s.update owner p = .ok s') : Totals s' := by
  unfold LimitTables.update at h
  split at h
  · cases h
  rename_i r hrow
  obtain ⟨hram, hcpu, hnet⟩ := T.le hrow
  obtain ⟨totalRam, hram', h⟩ := bind_ok h
  obtain ⟨totalCpu, hcpu', h⟩ := bind_ok h
  obtain ⟨totalNet, hnet', h⟩ := bind_ok h
  cases h
  refine ⟨?_, ?_, ?_, fun owner' hp => ?_⟩
  · rw [updateStateAndValue_ok hram hram', T.ram, applied, sumOf_erase_pending, sumOf_insert _ hrow]
  · rw [updateStateAndValue_ok hnet hnet', T.net, applied, sumOf_erase_pending, sumOf_insert _ hrow]
  · rw [updateStateAndValue_ok hcpu hcpu', T.cpu, applied, sumOf_erase_pending, sumOf_insert _ hrow]
  · rw [applied, lookup_erase_ite, lookup_insert_ite] at hp ⊢
    simp only [Prod.mk.injEq, Bool.true_eq_false, Bool.false_eq_true, false_and, true_and, if_false] at hp ⊢
    split at hp
    · exact absurd rfl hp
    · rename_i hne
      rw [if_neg hne]
      exact T.actual owner' hp

def Exceeds (s : LimitTables) (owner : AccountName) (p : ResourceLimitsObject) : Prop :=
  maxUint64 < sumOf (·.ramBytes) (s.applied owner p) ∨ maxUint64 < sumOf (·.cpuWeight) (s.applied owner p) ∨
    maxUint64 < sumOf (·.netWeight) (s.applied owner p)

theorem Totals.update_error (T : Totals s) (hp : s.limits.lookup (true, owner) = some p) (h : s.update owner p = .error e) :
    e = overflowFault ∧ s.Exceeds owner p := by
  unfold LimitTables.update at h
  cases hrow : s.limits.lookup (false, owner) with
  | none => exact absurd hrow (T.actual owner (by rw [hp]; exact Option.some_ne_none _))
  | some r =>
    rw [hrow] at h
    obtain ⟨hram, hcpu, hnet⟩ := T.le hrow
    unfold Exceeds applied
    rw [sumOf_insert _ hrow, sumOf_insert _ hrow, sumOf_insert _ hrow, ← T.ram, ← T.cpu, ← T.net]
    refine FailsOnly.bind (P := fun e => e = overflowFault ∧ _) (fun e he => ?_) (fun totalRam _ => ?_) e h
    · obtain ⟨he, hlt⟩ := updateStateAndValue_error hram he
      exact ⟨he, .inl hlt⟩
    refine FailsOnly.bind (fun e he => ?_) fun totalCpu _ => ?_
    · obtain ⟨he, hlt⟩ := updateStateAndValue_error hcpu he
      exact ⟨he, .inr (.inl hlt)⟩
    refine FailsOnly.bind (fun e he => ?_) fun totalNet _ => failsOnly_ok _
    obtain ⟨he, hlt⟩ := updateStateAndValue_error hnet he
    exact ⟨he, .inr (.inr hlt)⟩

theorem firstPending_some (h : s.firstPending = some owner) : ∃ p, s.limits.lookup (true, owner) = some p := by
  obtain ⟨e, he, heq⟩ := List.mem_map.1 (List.min?_mem h)
  obtain ⟨hmem, hp⟩ := List.mem_filter.1 he
  refine ⟨e.2, ?_⟩
  rw [← heq, ← hp]
  exact mem_entries_iff.1 hmem

theorem updates_succ (n : Nat) (s : LimitTables) : (s.firstPending = none ∧ updates (n + 1) s = .ok s) ∨
      ∃ owner p, s.firstPending = some owner ∧ s.limits.lookup (true, owner) = some p ∧
        updates (n + 1) s = (s.update owner p >>= updates n) := by
  cases hf : s.firstPending with
  | none => exact .inl ⟨rfl, by simp only [updates, hf]⟩
  | some owner =>
    obtain ⟨p, hp⟩ := firstPending_some hf
    exact .inr ⟨owner, p, rfl, hp, by simp only [updates, hf, hp]⟩

theorem Totals.updates : ∀ (n : Nat) {s}, Totals s → LimitTables.updates n s = .ok s' → Totals s'
  | 0, s, T, h => by
    cases h
    exact T
  | n + 1, s, T, h => by
    rcases updates_succ n s with ⟨-, heq⟩ | ⟨owner, p, -, -, heq⟩
    · rw [heq] at h
      cases h
      exact T
    · rw [heq] at h
      obtain ⟨s1, h1, h⟩ := bind_ok h
      exact Totals.updates n (T.update h1) h

theorem Totals.updates_error : ∀ (n : Nat) {s}, Totals s → LimitTables.updates n s = .error e →
    e = overflowFault ∧ ∃ m s1 owner p, LimitTables.updates m s = .ok s1 ∧ s1.firstPending = some owner ∧
      s1.limits.lookup (true, owner) = some p ∧ s1.Exceeds owner p
  | 0, s, T, h => by cases h
  | n + 1, s, T, h => by
    rcases updates_succ n s with ⟨-, heq⟩ | ⟨owner, p, hf, hp, heq⟩
    · rw [heq] at h
      cases h
    · rw [heq] at h
      cases h1 : s.update owner p with
      | error e' =>
        rw [h1] at h
        cases h
        obtain ⟨he, hex⟩ := T.update_error hp h1
        exact ⟨he, 0, s, owner, p, rfl, hf, hp, hex⟩
      | ok s1 =>
        rw [h1, ok_bind] at h
        obtain ⟨he, m, s2, owner', p', hm, hr⟩ := Totals.updates_error n (T.update h1) h
        refine ⟨he, m + 1, s2, owner', p', ?_, hr⟩
        simp only [LimitTables.updates, hf, hp, h1, ok_bind, hm]

def pendingRows (s : LimitTables) : Nat := count (fun k _ => k.1) s.limits

theorem pendingRows_update (hp : s.limits.lookup (true, owner) = some p) (h : s.update owner p = .ok s') :
    s.pendingRows = s'.pendingRows + 1 := by
  unfold LimitTables.update at h
  split at h
  · cases h
  rename_i r hrow
  obtain ⟨totalRam, -, h⟩ := bind_ok h
  obtain ⟨totalCpu, -, h⟩ := bind_ok h
  obtain ⟨totalNet, -, h⟩ := bind_ok h
  cases h
  have hp' : (s.applied owner p).lookup (true, owner) = some p := (AList.lookup_insert_ne (by simp)).trans hp
  have hera := count_erase (fun k _ => k.1) hp'
  have hs : count (fun k _ => k.1) (s.applied owner p) = s.pendingRows := by
    have hnew := count_eq_total (fun k (_ : ResourceLimitsObject) => k.1) (s.applied owner p)
    have hold := count_eq_total (fun k (_ : ResourceLimitsObject) => k.1) s.limits
    rw [applied, total_insert, hrow, weigh_some] at hnew
    unfold pendingRows applied
    omega
  rw [← hs, hera]
  rfl

theorem firstPending_updates : ∀ (n : Nat) {s}, s.pendingRows ≤ n → updates n s = .ok s' → s'.firstPending = none
  | 0, s, hn, h => by
    cases h
    cases hf : s'.firstPending with
    | none => rfl
    | some owner =>
      obtain ⟨p, hp⟩ := firstPending_some hf
      have := count_pos (p := fun k (_ : ResourceLimitsObject) => k.1) hp rfl
      unfold pendingRows at hn
      omega
  | n + 1, s, hn, h => by
    rcases updates_succ n s with ⟨hf, heq⟩ | ⟨owner, p, -, hp, heq⟩
    · rw [heq] at h
      cases h
      exact hf
    · rw [heq] at h
      obtain ⟨s1, h1, h⟩ := bind_ok h
      have := pendingRows_update hp h1
      exact firstPending_updates n (by omega) h

theorem Totals.apply {c : Call} (T : Totals s) (h : s.apply c = .ok s') : Totals s' := by
  cases c with
  | initializeAccount account => exact T.initializeAccount h
  | setAccountLimits account ramBytes netWeight cpuWeight =>
    obtain ⟨r, hr, rfl⟩ := map_ok_iff.1 h
    exact T.setAccountLimits hr
  | processAccountLimitUpdates => exact T.updates _ h

theorem Totals.run (calls : List Call) : Totals (run calls) := by
  refine List.foldlRecOn calls LimitTables.step Totals.init fun s T c _ => ?_
  unfold LimitTables.step
  cases h : s.apply c with
  | ok s' => exact T.apply h
  | error e => exact T

/-- **In every reachable state the totals are the sums of the positive limits in force.** The updates leave no pending row,
or stop at an overflow, with a sum above the type after the updates so far and the next one. -/
theorem run_totals (calls : List Call) : (run calls).totalRamBytes = sumOf (·.ramBytes) (run calls).limits ∧
    (run calls).totalNetWeight = sumOf (·.netWeight) (run calls).limits ∧
    (run calls).totalCpuWeight = sumOf (·.cpuWeight) (run calls).limits ∧
    (∀ s', (run calls).processAccountLimitUpdates = .ok s' → s'.firstPending = none) ∧
    (∀ e, (run calls).processAccountLimitUpdates = .error e → e = overflowFault ∧
      ∃ m s₁ owner p, updates m (run calls) = .ok s₁ ∧ s₁.firstPending = some owner ∧
        s₁.limits.lookup (true, owner) = some p ∧ s₁.Exceeds owner p) := by
  have T := Totals.run calls
  refine ⟨T.ram, T.net, T.cpu, fun s' h => ?_, fun e h => T.updates_error _ h⟩
  exact firstPending_updates _ List.countP_le_length h

def sampleLimits : List Call :=
  [.initializeAccount 1, .initializeAccount 2, .initializeAccount 3, .setAccountLimits 2 (2 ^ 63 - 1) 0 0,
    .setAccountLimits 3 (2 ^ 63 - 1) 0 0, .processAccountLimitUpdates, .setAccountLimits 1 2 0 0, .setAccountLimits 3 0 0 0]

/-- **An overflow though all sums fit**: the limit of account 1 is raised before that of account 3 is lowered. -/
theorem overflow_between_fitting_sums : (run sampleLimits).processAccountLimitUpdates = .error overflowFault ∧
    ∀ field ∈ [ResourceLimitsObject.ramBytes, ResourceLimitsObject.netWeight, ResourceLimitsObject.cpuWeight],
      sumOf field (run sampleLimits).limits ≤ maxUint64 ∧
      sumOf field (((run sampleLimits).limits.insert (false, 1) ⟨2, 0, 0⟩).insert (false, 3) ⟨0, 0, 0⟩) ≤ maxUint64 := by
  refine ⟨rfl, ?_⟩
  simp only [List.forall_mem_cons]
  decide

end LimitTables
end TheChannel
