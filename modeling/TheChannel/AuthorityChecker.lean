import Mathlib
/-!
# AuthorityChecker — whether keys satisfy an authority

`authority_checker`: the weights of the keys, waits and permissions of an authority are tallied from the highest to the
lowest, up to the threshold. A permission counts if it was provided or if its authority is satisfied, which is found out
by the same tally one level deeper, up to a depth limit. The outcome for each permission is kept in a cache for the rest
of the call; a permission that is being evaluated does not count.

The callback that finds authorities is a graph: a pointer, or none where it returns `nullptr` or throws
`permission_query_exception`. The empty permission name is not the name of a permission (`updateauth` refuses it); in
the provided permissions it stands for all permissions of the actor.
-/
namespace TheChannel

/-! ## Authorities -/

structure PermissionLevel where
  actor : Nat
  permission : Nat
  deriving DecidableEq

def PermissionLevel.lt (p q : PermissionLevel) : Bool :=
  decide (p.actor < q.actor) || (p.actor == q.actor && decide (p.permission < q.permission))

instance neZeroWeight : NeZero (2 ^ 16) := ⟨Nat.ne_of_gt (Nat.two_pow_pos 16)⟩

structure PermissionLevelWeight where
  permission : PermissionLevel
  weight : Fin (2 ^ 16)
  deriving DecidableEq

structure KeyWeight where
  key : Nat
  weight : Fin (2 ^ 16)
  deriving DecidableEq

structure WaitWeight where
  waitSec : Nat
  weight : Fin (2 ^ 16)
  deriving DecidableEq

structure Authority where
  threshold : Nat
  keys : List KeyWeight
  accounts : List PermissionLevelWeight
  waits : List WaitWeight
  deriving DecidableEq

def ascends {α : Type} (lt : α → α → Bool) : List α → Bool
  | x :: y :: l => lt x y && ascends lt (y :: l)
  | _ => true

def sum32 (weights : List (Fin (2 ^ 16))) : Nat := weights.foldl (fun total w => (total + w) % 2 ^ 32) 0

namespace Authority

def weights (auth : Authority) : List (Fin (2 ^ 16)) :=
  auth.keys.map KeyWeight.weight ++ auth.accounts.map PermissionLevelWeight.weight ++ auth.waits.map WaitWeight.weight

def validate (auth : Authority) : Bool :=
  if 2 ^ 16 < auth.keys.length + auth.accounts.length + auth.waits.length then false
  else if auth.threshold == 0 then false
  else
    ascends (fun a b => decide (a.key < b.key)) auth.keys &&
    ascends (fun a b => a.permission.lt b.permission) auth.accounts &&
    !auth.waits.head?.any (fun w => w.waitSec == 0) &&
    ascends (fun a b => decide (a.waitSec < b.waitSec)) auth.waits &&
    decide (auth.threshold ≤ sum32 auth.weights)

end Authority

/-- **The permissions with their authorities**, which pass `validate`. -/
structure PermissionGraph where
  authority : PermissionLevel → Option Authority
  valid : ∀ p auth, authority p = some auth → auth.validate = true
  named : ∀ p auth, authority p = some auth → p.permission ≠ 0

/-! ## The order of a tally -/

inductive MetaPermission
  | account (a : PermissionLevelWeight)
  | key (k : KeyWeight)
  | wait (w : WaitWeight)
  deriving DecidableEq

namespace MetaPermission

def weight : MetaPermission → Fin (2 ^ 16)
  | .account a => a.weight
  | .key k => k.weight
  | .wait w => w.weight

def priority : MetaPermission → Nat
  | .account _ => 1
  | .key _ => 2
  | .wait _ => 3

def greater (m m' : MetaPermission) : Bool :=
  decide (m'.weight < m.weight) || (m.weight == m'.weight && decide (m'.priority < m.priority))

/-- `flat_multimap::emplace`: after the entries with the same key. -/
def emplace (m : MetaPermission) : List MetaPermission → List MetaPermission
  | [] => [m]
  | x :: xs => if m.greater x then m :: x :: xs else x :: emplace m xs

end MetaPermission

def Authority.unsorted (auth : Authority) : List MetaPermission :=
  auth.accounts.map MetaPermission.account ++ auth.keys.map MetaPermission.key ++ auth.waits.map MetaPermission.wait

def Authority.metaPermissions (auth : Authority) : List MetaPermission :=
  auth.unsorted.foldl (fun ms m => m.emplace ms) []

/-! ## The checker -/

inductive CacheStatus
  | beingEvaluated
  | unsatisfied
  | satisfied
  deriving DecidableEq

/-- What a call changes: its cache and the marks of used keys. -/
structure CheckerState where
  cache : PermissionLevel → Option CacheStatus
  usedKeys : List Bool

structure AuthorityChecker where
  graph : PermissionGraph
  recursionDepthLimit : Nat
  providedKeys : List Nat
  providedPermissions : List PermissionLevel
  providedDelay : Nat -- in microseconds

namespace AuthorityChecker
variable (C : AuthorityChecker)

def permissionStatusInCache (cache : PermissionLevel → Option CacheStatus) (level : PermissionLevel) : Option CacheStatus :=
  (cache level).or (cache ⟨level.actor, 0⟩)

def cached (s : CheckerState) (p : PermissionLevel) (status : CacheStatus) : CheckerState :=
  { s with cache := Function.update s.cache p (some status) }

/-- The visit of a permission: whether it counts. `evaluate` is the check of its authority one level deeper, if the depth
limit allows one. -/
def visitPermission (evaluate : Option (Authority → CheckerState → Bool × CheckerState)) (p : PermissionLevel)
    (s : CheckerState) : Bool × CheckerState :=
  match permissionStatusInCache s.cache p, evaluate, C.graph.authority p with
  | some status, _, _ => (status == .satisfied, s)
  | none, some evaluate, some auth =>
    let r := evaluate auth (cached s p .beingEvaluated)
    (r.1, cached r.2 p (if r.1 then .satisfied else .unsatisfied))
  | none, _, _ => (false, s)

def visit (visitPermission : PermissionLevel → CheckerState → Bool × CheckerState) :
    MetaPermission → CheckerState → Bool × CheckerState
  | .account a, s => visitPermission a.permission s
  | .key k, s =>
    match C.providedKeys.idxOf? k.key with
    | some i => (true, { s with usedKeys := s.usedKeys.set i true })
    | none => (false, s)
  | .wait w, s => (decide (w.waitSec * 1000000 ≤ C.providedDelay), s)

def tally (visit : MetaPermission → CheckerState → Bool × CheckerState) (threshold : Nat) :
    List MetaPermission → Nat → CheckerState → Bool × CheckerState
  | [], _, s => (false, s)
  | m :: ms, total, s =>
    let r := visit m s
    let total := if r.1 then (total + m.weight) % 2 ^ 32 else total
    if threshold ≤ total then (true, r.2) else tally visit threshold ms total r.2

def checkAuthority (visitPermission : PermissionLevel → CheckerState → Bool × CheckerState) (auth : Authority)
    (s : CheckerState) : Bool × CheckerState :=
  let r := tally (C.visit visitPermission) auth.threshold auth.metaPermissions 0 s
  if r.1 then r else (false, { r.2 with usedKeys := s.usedKeys })

/-- `satisfied` of an authority, with the number of levels the depth limit leaves. -/
def satisfiedAt : Nat → Authority → CheckerState → Bool × CheckerState
  | 0 => C.checkAuthority (C.visitPermission none)
  | n + 1 => C.checkAuthority (C.visitPermission (some (satisfiedAt n)))

def visitAt : Nat → PermissionLevel → CheckerState → Bool × CheckerState
  | 0 => C.visitPermission none
  | n + 1 => C.visitPermission (some (C.satisfiedAt n))

def initializePermissionCache : PermissionLevel → Option CacheStatus :=
  fun p => if p ∈ C.providedPermissions then some .satisfied else none

/-- `satisfied( permission )`: the answer and the marks of used keys. -/
def satisfiedPermission (usedKeys : List Bool) (p : PermissionLevel) : Bool × List Bool :=
  let r := C.visitAt C.recursionDepthLimit p ⟨C.initializePermissionCache, usedKeys⟩
  (r.1, r.2.usedKeys)

def satisfiedAuthority (usedKeys : List Bool) (auth : Authority) : Bool × List Bool :=
  let r := C.satisfiedAt C.recursionDepthLimit auth ⟨C.initializePermissionCache, usedKeys⟩
  (r.1, r.2.usedKeys)

end AuthorityChecker
end TheChannel
