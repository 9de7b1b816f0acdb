import TheChannel.FinalityCore
import TheChannel.LibForest
/-!
# ForkDb — the fork database

`fork_database_impl` of `fork_database.cpp`: a root, the blocks above it indexed by id, and the id of the pending Savanna
last irreversible block. The class is a template over the legacy and the Savanna block state; `BlockStateType` is what it
reads of either. The public members lock a mutex and call these functions, so a sequence of calls is a list of them
(`run`).

A call that throws leaves behind what it did before, so a call returns the new database next to its outcome. The loops
that go up a branch (`i = index.find((*i)->previous())`) and down the forks (`remove_queue`) are the walks of a forest.
-/
namespace TheChannel

/-- What only the Savanna block state has (`if constexpr`). -/
structure SavannaPart (β : Type) where
  extractQcClaim : β → QcClaim
  core : β → FinalityCore

/-- **A block state type, as the fork database reads it.** A block's number is in its id and is one above its parent's. -/
structure BlockStateType (β : Type) where
  id : β → BlockId
  previous : β → BlockId
  timestamp : β → Nat
  activatedProtocolFeatures : β → List Digest
  newProtocolFeatures : β → Option (List Digest) -- of the header extension
  better : β → β → Bool -- the order of `by_best_branch`
  savanna : Option (SavannaPart β)
  numbered : ∀ b, numFromId (id b) = numFromId (previous b) + 1

/-- `fork_db_add_t`; no call returns `failure`. -/
inductive ForkDbAdd
  | failure
  | duplicate
  | added
  | appendedToHead
  | forkSwitch
  deriving DecidableEq

structure ForkDb (β : Type) where
  root : Option β
  pendingSavannaLibId : BlockId
  index : List β

namespace BlockStateType
variable {β : Type} (T : BlockStateType β)

def blockNum (b : β) : Nat := numFromId (T.id b)

def forest : Forest BlockId β where
  key := T.id
  parent := T.previous
  rank := numFromId
  rank_key := T.numbered

end BlockStateType

namespace ForkDb
variable {β : Type} (T : BlockStateType β) (db : ForkDb β)

def init : ForkDb β := ⟨none, BlockId.zero, []⟩

def getBlockImpl (id : BlockId) (includeRoot : Bool) : Option β :=
  if includeRoot && db.root.any (fun r => T.id r == id) then db.root else T.forest.find db.index id

def best : List β → Option β
  | [] => none
  | b :: bs =>
    match best bs with
    | none => some b
    | some c => some (if T.better b c then b else c)

def headImpl (includeRoot : Bool) : Option β :=
  if db.index.isEmpty then (if includeRoot then db.root else none) else best T db.index

def searchOnBranchImpl (h : BlockId) (blockNum : Nat) (includeRoot : Bool) : Option β :=
  match db.root with
  | none => none
  | some r =>
    if includeRoot && T.blockNum r == blockNum then some r
    else if blockNum ≤ T.blockNum r then none
    else (T.forest.path db.index h).find? (fun b => T.blockNum b == blockNum)

def setPendingSavannaLibIdImpl (id : BlockId) : ForkDb β × Bool :=
  if numFromId db.pendingSavannaLibId < numFromId id then ({ db with pendingSavannaLibId := id }, true) else (db, false)

def attempt {α γ : Type} (r : Result α) (f : α → ForkDb β × Result γ) : ForkDb β × Result γ :=
  match r with
  | .error e => (db, .error e)
  | .ok a => f a

/-! ## `add_impl` -/

/-- `EOS_RETHROW_EXCEPTIONS`: an exception that is not a `chain_exception` becomes one of the given class. -/
def rethrow (exc : Exc) (msg : String) : Result Unit → Result Unit
  | .error (.thrown e m) => .error (if e.isChainException then .thrown e m else .thrown exc msg)
  | r => r

def advancePendingLib (n : β) : Result (ForkDb β) :=
  match T.savanna with
  | none => .ok db
  | some s =>
    let qcClaim := s.extractQcClaim n
    -- it is not possible to claim a future block, skip if pending is already a higher height
    if qcClaim.isStrongQc && decide (numFromId db.pendingSavannaLibId < qcClaim.blockNum) then
      match db.searchOnBranchImpl T (T.previous n) qcClaim.blockNum false with
      | none => .ok db
      | some claimed =>
        ((s.core claimed).getBlockReference (s.core claimed).latestQcClaim.blockNum).map
          (fun ref => (db.setPendingSavannaLibIdImpl ref.blockId).1)
    else .ok db

abbrev Validator := Nat → List Digest → List Digest → Result Unit

def checkLink (n : β) (validate : Bool) (validator : Validator) : Result Unit :=
  match db.getBlockImpl T (T.previous n) true with
  | none => .error (.thrown .unlinkableBlock "fork_db unlinkable block ${id} previous ${p}")
  | some prevBh =>
    match validate, T.newProtocolFeatures n with
    | true, some newProtocolFeatures =>
      rethrow .forkDatabase "serialized fork database is incompatible with configured protocol features"
        (validator (T.timestamp n) (T.activatedProtocolFeatures prevBh) newProtocolFeatures)
    | _, _ => .ok ()

def isHead (n : β) : Bool := (db.headImpl T false).any (fun h => T.id h == T.id n)

def added (db' : ForkDb β) (n : β) : ForkDbAdd :=
  if db'.isHead T n && (db.headImpl T true).any (fun prevHead => T.id prevHead == T.previous n) then .appendedToHead
  else if db'.isHead T n then .forkSwitch
  else .added

def insert (n : β) (ignoreDuplicate : Bool) : ForkDb β × Result ForkDbAdd :=
  match T.forest.find db.index (T.id n) with
  | some _ =>
    (db, if ignoreDuplicate then .ok .duplicate else .error (.thrown .forkDatabase "duplicate block added: ${id}"))
  | none => ({ db with index := n :: db.index }, .ok (db.added T { db with index := n :: db.index } n))

def addImpl (n : Option β) (ignoreDuplicate validate : Bool) (validator : Validator) : ForkDb β × Result ForkDbAdd :=
  db.attempt (eosAssert db.root.isSome .forkDatabase "root not yet set") fun _ =>
  match n with
  | none => (db, .error (.thrown .forkDatabase "attempt to add null block state"))
  | some n =>
    db.attempt (db.advancePendingLib T n) fun db =>
    db.attempt (db.checkLink T n validate validator) fun _ =>
    db.insert T n ignoreDuplicate

/-! ## Removing blocks and moving the root -/

def removeImpl (id : BlockId) : ForkDb β := { db with index := T.forest.prune db.index id }

/-- `remove_impl( block_num_type )`. -/
def removeFromImpl (blockNum : Nat) : ForkDb β := { db with index := db.index.filter (fun b => T.blockNum b < blockNum) }

/-- `set_valid` concerns the block alone. -/
def resetRootImpl (rootBsp : Option β) : ForkDb β × Result Unit :=
  db.attempt (assertThat "root_bsp" rootBsp.isSome) fun _ => (⟨rootBsp, BlockId.zero, []⟩, .ok ())

def blocksToRemove (newRoot : β) : List BlockId :=
  T.previous newRoot :: (T.forest.path db.index (T.previous newRoot)).map T.previous

def advanceRootImpl (isValid : β → Bool) (id : BlockId) : ForkDb β × Result Unit :=
  match db.root with
  | none => (db, .error (.thrown .forkDatabase "root not yet set"))
  | some root =>
    match db.getBlockImpl T id false with
    | none => (db, .error (.thrown .forkDatabase
        "cannot advance root to a block that does not exist in the fork database"))
    | some newRoot =>
      db.attempt (eosAssert (isValid newRoot) .forkDatabase
        "cannot advance root to a block that has not yet been validated") fun _ =>
      -- the loop's assert can fail only where the walk ends
      db.attempt (eosAssert ((db.blocksToRemove T newRoot).getLast? == some (T.id root)) .forkDatabase
        "invariant violation: orphaned branch was present in forked database") fun _ =>
      let index := T.forest.erase db.index id
      ({ db with root := some newRoot, index := (db.blocksToRemove T newRoot).foldl T.forest.prune index }, .ok ())

/-! ## Sequences of calls -/

/-- The calls that change the database. `fork_database_t::add` is `add_impl` with `validate` false, `open_impl` calls it
with `validate` true; `is_valid` is a flag of the block states, as it is during the call. -/
inductive Op (β : Type)
  | resetRoot (rootBsp : Option β)
  | add (n : Option β) (ignoreDuplicate validate : Bool) (validator : Validator)
  | remove (id : BlockId)
  | removeFrom (blockNum : Nat)
  | advanceRoot (isValid : β → Bool) (id : BlockId)
  | setPendingSavannaLibId (id : BlockId)

def step : Op β → ForkDb β
  | .resetRoot rootBsp => (db.resetRootImpl rootBsp).1
  | .add n ignoreDuplicate validate validator => (db.addImpl T n ignoreDuplicate validate validator).1
  | .remove id => db.removeImpl T id
  | .removeFrom blockNum => db.removeFromImpl T blockNum
  | .advanceRoot isValid id => (db.advanceRootImpl T isValid id).1
  | .setPendingSavannaLibId id => (db.setPendingSavannaLibIdImpl id).1

def run (ops : List (Op β)) : ForkDb β := ops.foldl (step T) init

end ForkDb
end TheChannel
