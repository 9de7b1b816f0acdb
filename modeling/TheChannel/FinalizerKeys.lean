import TheChannel.Contract
import TheChannel.LibSearch
/-!
# FinalizerKeys — finalizer keys of block producers

`regfinkey`, `actfinkey`, `delfinkey`, `switchtosvnn` and the part of `onblock` that elects producers and proposes their
finalizers, with the host function `set_finalizers` that checks a proposed policy. Keys are the 96 bytes of a BLS public
key; decoding, hashing and the proof of possession are the fields of `Bls`. `Finalizers.run` keeps the rows that were
registered, deleted or not.

The producers that an election sees in the order of their votes are given with it (`Ranking`). Numbers of keys and key ids
are unbounded.
-/
namespace TheChannel

/-- The cryptography the contract and the host call. A key with a proof of possession is a point of the curve. -/
structure Bls where
  decodeKey : List Char → Option (Vector UInt8 96)
  decodeSignature : List Char → Option (List UInt8)
  popVerify : Vector UInt8 96 → List UInt8 → Bool
  sha256 : List UInt8 → Nat
  validPoint : List UInt8 → Bool
  popVerify_valid : ∀ key pop, popVerify key pop = true → validPoint key.toList = true

structure FinalizerKeyInfo where
  finalizerName : AccountName
  finalizerKey : List Char
  finalizerKeyBinary : List UInt8
  deriving DecidableEq

/-- A row of `finalizers`. `finalizer_key_count` is a `uint32_t`: it is exact while an account has fewer than 2^32 keys. -/
structure FinalizerInfo where
  activeKeyId : Nat
  activeKeyBinary : List UInt8
  finalizerKeyCount : Nat
  deriving DecidableEq

structure AbiFinalizerAuthority where
  description : List Char
  weight : Nat
  publicKey : List UInt8
  deriving DecidableEq

structure AbiFinalizerPolicy where
  threshold : Nat
  finalizers : List AbiFinalizerAuthority

structure FinalizerAuthInfo where
  keyId : Nat
  finAuthority : AbiFinalizerAuthority
  deriving DecidableEq

def FinalizerAuthInfo.of (finalizerName : AccountName) (finalizer : FinalizerInfo) : FinalizerAuthInfo :=
  ⟨finalizer.activeKeyId, nameToString finalizerName, 1, finalizer.activeKeyBinary⟩

/-! ## The host function -/

def maxFinalizers : Nat := 64 * 1024
def maxFinalizerDescriptionSize : Nat := 256

/-- The loop of `set_finalizers` over the finalizers, with the keys seen and the sum of the weights so far. -/
def checkFinalizers (bls : Bls) : List (List UInt8) → Nat → List AbiFinalizerAuthority → Result Nat
  | _, weightSum, [] => .ok weightSum
  | unique, weightSum, f :: l =>
    eosAssert (decide (f.description.length ≤ maxFinalizerDescriptionSize)) .wasmExecution
      "Finalizer description greater than ${s}" >>= fun _ =>
    eosAssert (decide (f.weight ≤ 2 ^ 64 - 1 - weightSum)) .wasmExecution
      "sum of weights causes uint64_t overflow" >>= fun _ =>
    eosAssert (f.publicKey.length == 96) .wasmExecution "Invalid bls public key length" >>= fun _ =>
    eosAssert (bls.validPoint f.publicKey) .fcAssert "Invalid bls public key ${k}" >>= fun _ =>
    eosAssert (!unique.contains f.publicKey) .wasmExecution "Duplicate public key: ${pk}" >>= fun _ =>
    checkFinalizers bls (f.publicKey :: unique) (weightSum + f.weight) l

def setFinalizers (bls : Bls) (policy : AbiFinalizerPolicy) : Result Unit :=
  eosAssert (decide (policy.finalizers.length ≤ maxFinalizers)) .wasmExecution
    "Finalizer policy exceeds the maximum finalizer count for this chain" >>= fun _ =>
  eosAssert (decide (0 < policy.finalizers.length)) .wasmExecution "Finalizers cannot be empty" >>= fun _ =>
  checkFinalizers bls [] 0 policy.finalizers >>= fun weightSum =>
  eosAssert (decide (policy.threshold ≤ weightSum ∧ weightSum / 2 < policy.threshold)) .wasmExecution
    ("Finalizer policy threshold (${t}) must be greater than half of the sum of the weights (${w}), " ++
      "and less than or equal to the sum of the weights")

/-! ## The contract -/

/-- A producer in the index `prototalvote`: has it votes, and is it active? -/
structure RankedProducer where
  owner : AccountName
  votes : Bool
  active : Bool

structure Ranking where
  producers : List RankedProducer
  nodup : (producers.map (·.owner)).Nodup

/-- The tables `finkeys`, `finalizers`, `finkeyidgen` and `lastpropfins`, and the size of the last schedule. -/
structure Finalizers where
  finalizerKeys : RowMap Nat FinalizerKeyInfo
  finalizers : RowMap AccountName FinalizerInfo
  finKeyIdGenerator : Option Nat
  lastProposedFinalizers : List FinalizerAuthInfo
  lastProducerScheduleSize : Nat

structure FinalizerEnv extends ActionEnv where
  isProducer : AccountName → Bool

def toBinary (bls : Bls) (finalizerKey : List Char) : Result (Vector UInt8 96) :=
  check (finalizerKey.take 7 == ['P', 'U', 'B', '_', 'B', 'L', 'S']) "finalizer key does not start with PUB_BLS: " >>= fun _ =>
  match bls.decodeKey finalizerKey with
  | some key => .ok key
  | none => .error (.thrown .eosioAssertMessage "decode_bls_public_key_to_g1")

namespace Finalizers
variable (bls : Bls) (env : FinalizerEnv) (s : Finalizers)

def init : Finalizers := ⟨∅, ∅, none, [], 0⟩

def isSavannaConsensus : Bool := !s.lastProposedFinalizers.isEmpty

def getFinalizer (finalizerName : AccountName) : Result FinalizerInfo :=
  match s.finalizers.lookup finalizerName with
  | none => .error (.thrown .eosioAssertMessage "finalizer has not registered any finalizer keys")
  | some f =>
    check (decide (0 < f.finalizerKeyCount)) "must have at least one registered finalizer keys" >>= fun _ =>
    .ok f

def findByFinKey (hash : Nat) : Option (Nat × FinalizerKeyInfo) :=
  (s.finalizerKeys.entries.find? (fun e => bls.sha256 e.2.finalizerKeyBinary == hash)).map (fun e => (e.1, e.2))

/-- `operator==` of the entries: the description and the weight are not compared. -/
def sameEntries (l l' : List FinalizerAuthInfo) : Bool :=
  l.map (fun e => (e.keyId, e.finAuthority.publicKey)) == l'.map (fun e => (e.keyId, e.finAuthority.publicKey))

def policyOf (l : List FinalizerAuthInfo) : AbiFinalizerPolicy := ⟨l.length * 2 / 3 + 1, l.map (·.finAuthority)⟩

def sortByKeyId (l : List FinalizerAuthInfo) : List FinalizerAuthInfo := l.insertionSort (fun a b => a.keyId ≤ b.keyId)

def setProposedFinalizers (proposed : List FinalizerAuthInfo) : Result Finalizers :=
  if sameEntries (sortByKeyId proposed) s.lastProposedFinalizers then .ok s
  else
    setFinalizers bls (policyOf (sortByKeyId proposed)) >>= fun _ =>
    .ok { s with lastProposedFinalizers := sortByKeyId proposed }

def nextFinalizerKeyId : Nat :=
  match s.finKeyIdGenerator with
  | none => 0
  | some id => id + 1

/-- The loop of `switchtosvnn`: the first so many producers that have a finalizer. -/
def collectFinalizers (limit : Nat) : List FinalizerAuthInfo → List RankedProducer → List FinalizerAuthInfo
  | acc, [] => acc
  | acc, p :: l =>
    if acc.length < limit ∧ p.votes = true ∧ p.active = true then
      match s.finalizers.lookup p.owner with
      | none => collectFinalizers limit acc l
      | some f =>
        if f.activeKeyBinary.isEmpty then collectFinalizers limit acc l
        else collectFinalizers limit (acc ++ [.of p.owner f]) l
    else acc

def switchtosvnn (ranking : Ranking) : Result Finalizers :=
  env.requireAuth systemAccountName >>= fun _ =>
  check (!s.isSavannaConsensus) "switchtosvnn can be run only once" >>= fun _ =>
  check ((s.collectFinalizers s.lastProducerScheduleSize [] ranking.producers).length == s.lastProducerScheduleSize)
    "not enough top producers have registered finalizer keys" >>= fun _ =>
  s.setProposedFinalizers bls (s.collectFinalizers s.lastProducerScheduleSize [] ranking.producers) >>= fun s =>
  check s.isSavannaConsensus "switching to Savanna failed" >>= fun _ =>
  .ok s

/-- The loop of `update_elected_producers`: the producers of the schedule, and their finalizers after the switch. -/
def topProducers : List AccountName × List FinalizerAuthInfo → List RankedProducer → List AccountName × List FinalizerAuthInfo
  | acc, [] => acc
  | acc, p :: l =>
    if acc.1.length < 21 ∧ p.votes = true ∧ p.active = true then
      if s.isSavannaConsensus then
        match s.finalizers.lookup p.owner with
        | none => topProducers acc l
        | some f =>
          if f.activeKeyBinary.isEmpty then topProducers acc l
          else topProducers (acc.1 ++ [p.owner], acc.2 ++ [.of p.owner f]) l
      else topProducers (acc.1 ++ [p.owner], acc.2) l
    else acc

/-- `update_elected_producers`; `accepted` is whether the host took the schedule. -/
def updateElectedProducers (ranking : Ranking) (accepted : Bool) : Result Finalizers :=
  let top := s.topProducers ([], []) ranking.producers
  if top.1.length = 0 ∨ top.1.length < s.lastProducerScheduleSize then .ok s
  else
    let s' := if accepted then { s with lastProducerScheduleSize := top.1.length } else s
    if s.isSavannaConsensus then s'.setProposedFinalizers bls top.2
    else .ok s'

def regfinkey (finalizerName : AccountName) (finalizerKey proofOfPossession : List Char) :
    Result (Finalizers × List (Nat × FinalizerKeyInfo)) :=
  env.requireAuth finalizerName >>= fun _ =>
  check (env.isProducer finalizerName) "finalizer is not a registered producer" >>= fun _ =>
  check (proofOfPossession.take 7 == ['S', 'I', 'G', '_', 'B', 'L', 'S'])
    "proof of possession signature does not start with SIG_BLS: " >>= fun _ =>
  toBinary bls finalizerKey >>= fun finKeyG1 =>
  match bls.decodeSignature proofOfPossession with
  | none => .error (.thrown .eosioAssertMessage "decode_bls_signature_to_g2")
  | some popG2 =>
    check (s.findByFinKey bls (bls.sha256 finKeyG1.toList)).isNone "duplicate finalizer key: " >>= fun _ =>
    check (bls.popVerify finKeyG1 popG2) "proof of possession check failed" >>= fun _ =>
    let id := s.nextFinalizerKeyId
    let row : FinalizerKeyInfo := ⟨finalizerName, finalizerKey, finKeyG1.toList⟩
    let finalizer : FinalizerInfo :=
      match s.finalizers.lookup finalizerName with
      | none => ⟨id, finKeyG1.toList, 1⟩
      | some f => { f with finalizerKeyCount := f.finalizerKeyCount + 1 }
    .ok ({ s with
      finalizerKeys := s.finalizerKeys.insert id row
      finalizers := s.finalizers.insert finalizerName finalizer
      finKeyIdGenerator := some id }, [(id, row)])

/-- The proposal of `actfinkey`: the entry with the key that was active gets the key `id`. -/
def replaceKey (activeKeyId id : Nat) (key : List UInt8) : Option (List FinalizerAuthInfo) :=
  let i := lowerBound (fun e : FinalizerAuthInfo => decide (e.keyId < activeKeyId)) s.lastProposedFinalizers
  match s.lastProposedFinalizers[i]? with
  | none => none
  | some e =>
    if e.keyId = activeKeyId then
      some (s.lastProposedFinalizers.set i ⟨id, { e.finAuthority with publicKey := key }⟩)
    else none

def actfinkey (finalizerName : AccountName) (finalizerKey : List Char) : Result Finalizers :=
  env.requireAuth finalizerName >>= fun _ =>
  s.getFinalizer finalizerName >>= fun finalizer =>
  toBinary bls finalizerKey >>= fun finKeyG1 =>
  match s.findByFinKey bls (bls.sha256 finKeyG1.toList) with
  | none => .error (.thrown .eosioAssertMessage "finalizer key was not registered: ")
  | some (id, row) =>
    check (row.finalizerName == finalizerName) "finalizer key was not registered by the finalizer: " >>= fun _ =>
    check (id != finalizer.activeKeyId) "finalizer key was already active: " >>= fun _ =>
    let finalizer' := { finalizer with activeKeyId := id, activeKeyBinary := row.finalizerKeyBinary }
    let s' := { s with finalizers := s.finalizers.insert finalizerName finalizer' }
    match s.replaceKey finalizer.activeKeyId id row.finalizerKeyBinary with
    | none => .ok s'
    | some proposed => s'.setProposedFinalizers bls proposed

def delfinkey (finalizerName : AccountName) (finalizerKey : List Char) : Result Finalizers :=
  env.requireAuth finalizerName >>= fun _ =>
  s.getFinalizer finalizerName >>= fun finalizer =>
  toBinary bls finalizerKey >>= fun finKeyG1 =>
  match s.findByFinKey bls (bls.sha256 finKeyG1.toList) with
  | none => .error (.thrown .eosioAssertMessage "finalizer key was not registered: ")
  | some (id, row) =>
    check (row.finalizerName == finalizerName) "finalizer key was not registered by the finalizer " >>= fun _ =>
    check (id != finalizer.activeKeyId || finalizer.finalizerKeyCount == 1)
      "cannot delete an active key unless it is the last registered finalizer key" >>= fun _ =>
    .ok { s with
      finalizerKeys := s.finalizerKeys.erase id
      finalizers :=
        if finalizer.finalizerKeyCount = 1 then s.finalizers.erase finalizerName
        else s.finalizers.insert finalizerName { finalizer with finalizerKeyCount := finalizer.finalizerKeyCount - 1 } }

inductive Action
  | regfinkey (finalizerName : AccountName) (finalizerKey proofOfPossession : List Char)
  | actfinkey (finalizerName : AccountName) (finalizerKey : List Char)
  | delfinkey (finalizerName : AccountName) (finalizerKey : List Char)
  | switchtosvnn (ranking : Ranking)
  | updateElectedProducers (ranking : Ranking) (accepted : Bool)

def apply : Action → Result (Finalizers × List (Nat × FinalizerKeyInfo))
  | .regfinkey name key pop => s.regfinkey bls env name key pop
  | .actfinkey name key => (s.actfinkey bls env name key).map (·, [])
  | .delfinkey name key => (s.delfinkey bls env name key).map (·, [])
  | .switchtosvnn ranking => (s.switchtosvnn bls env ranking).map (·, [])
  | .updateElectedProducers ranking accepted => (s.updateElectedProducers bls ranking accepted).map (·, [])

def step (bls : Bls) (r : Finalizers × List (Nat × FinalizerKeyInfo)) (a : FinalizerEnv × Action) :
    Finalizers × List (Nat × FinalizerKeyInfo) :=
  match r.1.apply bls a.1 a.2 with
  | .ok r' => (r'.1, r.2 ++ r'.2)
  | .error _ => r

def run (actions : List (FinalizerEnv × Action)) : Finalizers × List (Nat × FinalizerKeyInfo) :=
  actions.foldl (step bls) (init, [])

end Finalizers
end TheChannel
