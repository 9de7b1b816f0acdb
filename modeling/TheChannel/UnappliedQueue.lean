import Mathlib
import TheChannel.Fault
/-!
# UnappliedQueue — transactions that wait for a block

`unapplied_transaction_queue`: transactions of forked and aborted blocks and incoming ones, each id once, with a count of
the incoming ones and of the bytes. The limit on the bytes is checked for an incoming transaction when it is queued and
counted already. The callbacks see the queue but do not change it.
-/
namespace TheChannel
open List

structure TransactionMetadata where
  id : Nat
  expiration : Nat
  unprunableSize : Nat
  prunableSize : Nat
  objectSize : Nat -- `sizeof( *trx )`
  deriving DecidableEq

inductive TrxType
  | unknown
  | forked
  | aborted
  | incomingApi
  | incomingP2p
  deriving DecidableEq

structure UnappliedTransaction where
  trxMeta : TransactionMetadata
  trxType : TrxType
  deriving DecidableEq

def TransactionMetadata.calcSize (m : TransactionMetadata) : Nat :=
  ((m.unprunableSize + m.prunableSize) * 2 + m.objectSize) % 2 ^ 64

namespace UnappliedTransaction
variable (x : UnappliedTransaction)

def isIncoming : Bool := x.trxType == .incomingP2p || x.trxType == .incomingApi

def calcSize : Nat := x.trxMeta.calcSize

end UnappliedTransaction

structure UnappliedQueue where
  queue : List UnappliedTransaction
  maxTransactionQueueSize : Nat
  sizeInBytes : Nat
  incomingCount : Nat
  deriving DecidableEq

open UnappliedTransaction

namespace UnappliedQueue
variable (s : UnappliedQueue)

def init (maxTransactionQueueSize : Nat) : UnappliedQueue := ⟨[], maxTransactionQueueSize, 0, 0⟩

/-- `added`, for a transaction that is in the queue already. A throw leaves what was done before. -/
def added (x : UnappliedTransaction) : UnappliedQueue × Result Unit :=
  if x.isIncoming then
    let s := { s with incomingCount := (s.incomingCount + 1) % 2 ^ 64 }
    if (s.sizeInBytes + x.calcSize) % 2 ^ 64 < s.maxTransactionQueueSize then
      ({ s with sizeInBytes := (s.sizeInBytes + x.calcSize) % 2 ^ 64 }, .ok ())
    else (s, .error (.thrown .txResourceExhaustion
      "Transaction ${id}, size ${s} bytes would exceed configured incoming-transaction-queue-size-mb ${qs}, current queue size ${cs} bytes"))
  else ({ s with sizeInBytes := (s.sizeInBytes + x.calcSize) % 2 ^ 64 }, .ok ())

def find (id : Nat) : Option UnappliedTransaction := s.queue.find? (fun x => x.trxMeta.id == id)

def insert (x : UnappliedTransaction) : UnappliedQueue × Result Unit :=
  match s.find x.trxMeta.id with
  | some _ => (s, .ok ())
  | none => added { s with queue := s.queue ++ [x] } x

def addForked (trx : TransactionMetadata) : UnappliedQueue := (s.insert ⟨trx, .forked⟩).1

def addAborted (abortedTrxs : List TransactionMetadata) : UnappliedQueue :=
  abortedTrxs.foldl (fun s trx => (s.insert ⟨trx, .aborted⟩).1) s

/-- `add_incoming`; for an id that is queued it calls `next` at most. -/
def addIncoming (trx : TransactionMetadata) (apiTrx : Bool) : UnappliedQueue × Result Unit :=
  s.insert ⟨trx, if apiTrx then .incomingApi else .incomingP2p⟩

def removed (x : UnappliedTransaction) : UnappliedQueue :=
  { s with
    incomingCount := if x.isIncoming then (s.incomingCount + 2 ^ 64 - 1) % 2 ^ 64 else s.incomingCount
    sizeInBytes := (s.sizeInBytes + 2 ^ 64 - x.calcSize) % 2 ^ 64 }

def erase (x : UnappliedTransaction) : UnappliedQueue := { s.removed x with queue := s.queue.erase x }

/-- The loop of `clear_expired`, where `yield` returns true in the round after so many. -/
def clearExpired (pendingBlockTime : Nat) : Nat → UnappliedQueue → UnappliedQueue
  | 0, s => s
  | rounds + 1, s =>
    match s.queue.argmin (fun x => x.trxMeta.expiration) with
    | none => s
    | some x => if pendingBlockTime < x.trxMeta.expiration then s else clearExpired pendingBlockTime rounds (s.erase x)

def clearAppliedTrx (id : Nat) : UnappliedQueue :=
  match s.find id with
  | some x => s.erase x
  | none => s

def clearApplied (ids : List Nat) : UnappliedQueue := ids.foldl clearAppliedTrx s

def clear : UnappliedQueue := { s with queue := [] }

inductive Op
  | clear
  | clearExpired (pendingBlockTime rounds : Nat)
  | clearApplied (ids : List Nat)
  | addForked (trx : TransactionMetadata)
  | addAborted (abortedTrxs : List TransactionMetadata)
  | addIncoming (trx : TransactionMetadata) (apiTrx : Bool)
  | erase (x : UnappliedTransaction)
  | setMaxTransactionQueueSize (v : Nat)

/-- The queue after an operation, whether it threw or not. An iterator that is erased is one of the queue. -/
def step (s : UnappliedQueue) : Op → UnappliedQueue
  | .clear => s.clear
  | .clearExpired pendingBlockTime rounds => clearExpired pendingBlockTime rounds s
  | .clearApplied ids => s.clearApplied ids
  | .addForked trx => s.addForked trx
  | .addAborted abortedTrxs => s.addAborted abortedTrxs
  | .addIncoming trx apiTrx => (s.addIncoming trx apiTrx).1
  | .erase x => if x ∈ s.queue then s.erase x else s
  | .setMaxTransactionQueueSize v => { s with maxTransactionQueueSize := v }

def run (ops : List Op) (s : UnappliedQueue) : UnappliedQueue := ops.foldl step s

/-! ## The counters -/

/-- **The counters are those of the queue**, in their 64 bits. -/
structure Counted (s : UnappliedQueue) : Prop where
  size : s.sizeInBytes = (s.queue.map calcSize).sum % 2 ^ 64
  incoming : s.incomingCount = s.queue.countP isIncoming % 2 ^ 64

/-- **What keeps the counters**: the queue is not cleared while it has transactions, and an incoming one is queued already or
within the limit. -/
def Harmless (s : UnappliedQueue) : Op → Prop
  | .clear => s.queue = []
  | .addIncoming trx _ => (s.find trx.id).isSome = true ∨ (s.sizeInBytes + trx.calcSize) % 2 ^ 64 < s.maxTransactionQueueSize
  | _ => True

def HarmlessRun : List Op → UnappliedQueue → Prop
  | [], _ => True
  | op :: ops, s => s.Harmless op ∧ HarmlessRun ops (s.step op)

variable {s} {x : UnappliedTransaction}

theorem calcSize_lt (x : UnappliedTransaction) : x.calcSize < 2 ^ 64 := Nat.mod_lt _ (by decide)

section

variable (h : s.Counted)

include h

theorem Counted.erase (hx : x ∈ s.queue) : (s.erase x).Counted := by
  have hsum := sum_map_erase calcSize hx
  have hco : s.queue.countP isIncoming =
      (s.queue.erase x).countP isIncoming + if x.isIncoming then 1 else 0 := by
    rw [(perm_cons_erase hx).countP_eq, countP_cons]
  have hlt := calcSize_lt x
  obtain ⟨hs, hi⟩ := h
  refine ⟨?_, ?_⟩
  · show (s.sizeInBytes + 2 ^ 64 - x.calcSize) % 2 ^ 64 = _
    rw [hs, ← hsum]
    show _ = ((s.queue.erase x).map calcSize).sum % 2 ^ 64
    omega
  · show (if x.isIncoming then (s.incomingCount + 2 ^ 64 - 1) % 2 ^ 64 else s.incomingCount) = _
    rw [hi, hco]
    show _ = (s.queue.erase x).countP isIncoming % 2 ^ 64
    split <;> omega

theorem Counted.insert (hok : x.isIncoming = true → (s.find x.trxMeta.id).isSome = true ∨
    (s.sizeInBytes + x.calcSize) % 2 ^ 64 < s.maxTransactionQueueSize) : (s.insert x).1.Counted := by
  unfold UnappliedQueue.insert
  cases hf : s.find x.trxMeta.id with
  | some y => exact h
  | none =>
    simp only [hf, Option.isSome_none, Bool.false_eq_true, false_or] at hok ⊢
    obtain ⟨hs, hi⟩ := h
    have hsum : ((s.queue ++ [x]).map calcSize).sum =
        (s.queue.map calcSize).sum + x.calcSize := by
      rw [map_append, sum_append, map_singleton, sum_singleton]
    have hco : (s.queue ++ [x]).countP isIncoming =
        s.queue.countP isIncoming + if x.isIncoming then 1 else 0 := by
      rw [countP_append, countP_singleton]
    unfold added
    by_cases hx : x.isIncoming = true
    · rw [if_pos hx] at hco
      simp only [if_pos hx, if_pos (hok hx)]
      exact ⟨by dsimp only; omega, by dsimp only; omega⟩
    · rw [if_neg hx] at hco ⊢
      exact ⟨by dsimp only; omega, by dsimp only; omega⟩

theorem Counted.clearExpired {pendingBlockTime rounds : Nat} :
    (clearExpired pendingBlockTime rounds s).Counted := by
  induction rounds generalizing s with
  | zero => exact h
  | succ rounds ih =>
    unfold UnappliedQueue.clearExpired
    split
    · exact h
    · rename_i x hx
      split
      · exact h
      · exact ih (h.erase (argmin_mem hx))

theorem Counted.clearApplied {ids : List Nat} : (s.clearApplied ids).Counted := by
  induction ids generalizing s with
  | nil => exact h
  | cons id ids ih =>
    refine ih (s := s.clearAppliedTrx id) ?_
    unfold clearAppliedTrx
    split
    · rename_i x hx
      exact h.erase (mem_of_find?_eq_some hx)
    · exact h

theorem Counted.addAborted {abortedTrxs : List TransactionMetadata} : (s.addAborted abortedTrxs).Counted := by
  induction abortedTrxs generalizing s with
  | nil => exact h
  | cons trx trxs ih => exact ih (h.insert (fun hx => by cases hx))

theorem Counted.step {op : Op} (hop : s.Harmless op) : (s.step op).Counted := by
  cases op with
  | clear =>
    have he : s.queue = [] := hop
    unfold UnappliedQueue.step UnappliedQueue.clear
    exact ⟨by rw [h.size, he], by rw [h.incoming, he]⟩
  | clearExpired => exact h.clearExpired
  | clearApplied => exact h.clearApplied
  | addForked => exact h.insert fun hx => by cases hx
  | addAborted => exact h.addAborted
  | addIncoming => exact h.insert fun _ => hop
  | erase x =>
    show (if x ∈ s.queue then s.erase x else s).Counted
    split
    · exact h.erase (by assumption)
    · exact h
  | setMaxTransactionQueueSize => exact ⟨h.size, h.incoming⟩

end

/-- **The counters are exact on every run that clears only an empty queue and in which no incoming transaction is
refused.** -/
theorem run_counted (maxTransactionQueueSize : Nat) (ops : List Op) (hops : HarmlessRun ops (init maxTransactionQueueSize)) :
    (run ops (init maxTransactionQueueSize)).Counted := by
  have hall : ∀ {ops s}, HarmlessRun ops s → s.Counted → (run ops s).Counted := by
    intro ops
    induction ops with
    | nil => exact fun _ h => h
    | cons op ops ih => exact fun hops h => ih hops.2 (h.step hops.1)
  exact hall hops ⟨rfl, rfl⟩

def sampleTrx : TransactionMetadata := ⟨7, 50, 10, 10, 60⟩

def sampleTraffic : List Op :=
  [.addIncoming sampleTrx true, .addIncoming { sampleTrx with id := 8, expiration := 90 } false,
    .addAborted [sampleTrx, { sampleTrx with id := 9 }], .addIncoming { sampleTrx with id := 9 } true, .clearExpired 60 1,
    .addForked { sampleTrx with id := 10 }, .clearApplied [10]]

theorem run_counted_sampleTraffic : (run sampleTraffic (init 1000)).Counted ∧
    (run sampleTraffic (init 1000)).queue.map (·.trxMeta.id) = [8, 9] :=
  ⟨run_counted 1000 sampleTraffic
    ⟨.inr (by decide), .inr (by decide), trivial, .inl (by decide), trivial, trivial, trivial, trivial⟩, by decide⟩

/-- **A refused transaction stays**: `add_incoming` throws, but the transaction is queued and counted as incoming. When it
expires its bytes are subtracted all the same. Clearing the queue leaves both counters. -/
theorem refused_incoming_stays : ((init 100).addIncoming sampleTrx true).2 ≠ .ok () ∧
    ((init 100).addIncoming sampleTrx true).1 = ⟨[⟨sampleTrx, .incomingApi⟩], 100, 0, 1⟩ ∧
    run [.addIncoming sampleTrx true, .clearExpired 60 5] (init 100) = ⟨[], 100, 2 ^ 64 - 100, 0⟩ ∧
    run [.addIncoming sampleTrx true, .clear] (init 1000) = ⟨[], 1000, 100, 1⟩ := by decide

end UnappliedQueue
end TheChannel
