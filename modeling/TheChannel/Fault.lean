import Mathlib.Algebra.Group.Nat.Defs
import Mathlib.Data.List.Basic
/-!
# Fault — asserts, exceptions and the outcome of a call

A call either returns or stops. It stops at an `assert(...)` whose expression is false, at an `EOS_ASSERT` that throws
one of the exception classes of `exceptions.hpp` with its text, or at an expression the language does not define. All
are outcomes of the model, so that "no assert fails" and "does not throw" are statements about a call. The texts are
the source's templates, parameters unexpanded.
-/
namespace TheChannel

inductive Exc
  | invalidQc
  | invalidQcClaim
  | blockValidate
  | blockTooOld
  | unlinkableBlock
  | wrongProducer
  | producerDoubleConfirm
  | producerSchedule
  | invalidBlockHeaderExtension
  | illFormedProtocolFeatureActivation
  | chain
  | forkDatabase
  | forkDbBlockNotFound
  | fcAssert
  | rawUnpack
  | iosFailure
  | logicError
  | transaction
  | txDuplicate
  | expiredTx
  | txExpTooFar
  | duplicateSnapshotRequest
  | invalidSnapshotRequest
  | snapshotRequestNotFound
  | txResourceExhaustion
  | txNetUsageExceeded
  | blockNetUsageExceeded
  | txCpuUsageExceeded
  | blockCpuUsageExceeded
  | blockResourceExhausted
  | ramUsageExceeded
  | resourceLimit
  | rateLimitingStateInconsistent
  | interruptOc
  | wasmExecution
  | unaccessibleApi
  | missingAuth
  | subjectiveBlockProduction
  | invalidTablePayer
  | tableAccessViolation
  | invalidTableIterator
  | tableNotInCache
  | tableOperationNotPermitted
  | outOfRange
  | actionValidate
  | accountNameExists
  | accountQuery
  | permissionQuery
  | invalidPermission
  | unactivatedKeyType
  | setExactCode
  | invalidContractVmType
  | invalidContractVmVersion
  | keyBlacklist
  | eosioAssertMessage
  deriving DecidableEq

def Exc.isChainException : Exc → Bool
  | .fcAssert => false
  | .rawUnpack => false
  | .iosFailure => false
  | .logicError => false
  | .outOfRange => false
  | _ => true

/-- Why a call stopped: a false `assert` or an undefined expression, by its text, or a thrown exception, by its class and
text. -/
inductive Fault
  | assertion (expr : String)
  | thrown (exc : Exc) (msg : String)
  | undefined (expr : String)
  deriving DecidableEq

abbrev Result := Except Fault

def assertThat (expr : String) (c : Bool) : Result Unit :=
  if c then .ok () else .error (.assertion expr)

def eosAssert (c : Bool) (exc : Exc) (msg : String) : Result Unit :=
  if c then .ok () else .error (.thrown exc msg)

@[simp] theorem assertThat_ok_iff (expr : String) (c : Bool) (u : Unit) : assertThat expr c = .ok u ↔ c = true := by
  unfold assertThat; cases c <;> simp

@[simp] theorem eosAssert_ok_iff (c : Bool) (exc : Exc) (msg : String) (u : Unit) :
    eosAssert c exc msg = .ok u ↔ c = true := by
  unfold eosAssert; cases c <;> simp

variable {α β : Type} {b : β} {f : Unit → Result β} {x : Result Unit}

/-- **A call that returned went through each of its steps.** -/
theorem bind_ok_iff {x : Result α} {f : α → Result β} : (x >>= f) = .ok b ↔ ∃ a, x = .ok a ∧ f a = .ok b := by
  cases x with
  | error e => simp [bind, Except.bind]
  | ok a => simp [bind, Except.bind]

theorem unit_bind_ok_iff : (x >>= f) = .ok b ↔ x = .ok () ∧ f () = .ok b := by
  rw [bind_ok_iff]
  exact ⟨fun ⟨_, hx, hf⟩ => ⟨hx, hf⟩, fun ⟨hx, hf⟩ => ⟨(), hx, hf⟩⟩

theorem bind_ok {x : Result α} {f : α → Result β} (h : (x >>= f) = .ok b) : ∃ a, x = .ok a ∧ f a = .ok b := bind_ok_iff.1 h

theorem unit_ok (h : (x >>= f) = .ok b) : x = .ok () ∧ f () = .ok b := unit_bind_ok_iff.1 h

theorem rest_ok (h : (x >>= f) = .ok b) : f () = .ok b := (unit_ok h).2

theorem map_ok_iff {x : Result α} {f : α → β} : x.map f = .ok b ↔ ∃ a, x = .ok a ∧ f a = b := by
  cases x <;> simp [Except.map]

theorem assertThat_bind {expr : String} {c : Bool} (h : c = true) (f : Unit → Result α) :
    (assertThat expr c >>= f) = f () := by
  subst h; rfl

theorem eosAssert_bind {c : Bool} {exc : Exc} {msg : String} (h : c = true) (f : Unit → Result α) :
    (eosAssert c exc msg >>= f) = f () := by
  subst h; rfl

@[simp] theorem ok_bind (a : α) (f : α → Result β) : ((.ok a : Result α) >>= f) = f a := rfl

def FailsOnly {α : Type} (P : Fault → Prop) (r : Result α) : Prop := ∀ e, r = .error e → P e

section FailsOnly

variable {α β : Type} {P : Fault → Prop}

theorem failsOnly_ok (a : α) : FailsOnly P (.ok a) := fun e he => by cases he

theorem failsOnly_error {e : Fault} (h : P e) : FailsOnly P (.error e : Result α) := fun e' he => by cases he; exact h

theorem failsOnly_eosAssert {exc : Exc} {msg : String} (h : P (.thrown exc msg)) (c : Bool) :
    FailsOnly P (eosAssert c exc msg) := by
  cases c with
  | true => exact failsOnly_ok ()
  | false => exact failsOnly_error h

theorem FailsOnly.bind {r : Result α} {f : α → Result β} (hr : FailsOnly P r) (hf : ∀ a, r = .ok a → FailsOnly P (f a)) :
    FailsOnly P (r >>= f) := by
  cases h : r with
  | ok a => exact hf a h
  | error e => exact failsOnly_error (hr e h)

end FailsOnly

/-! ## Packing -/

/-- **A codec that round trips**: it writes a value as symbols and reads one off the front of a stream, whatever follows it. -/
structure Codec (τ α : Type) where
  pack : α → List τ
  unpack : List τ → Option (α × List τ)
  roundTrip : ∀ a rest, unpack (pack a ++ rest) = some (a, rest)

end TheChannel
