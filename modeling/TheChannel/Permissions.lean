import TheChannel.AuthorityChecker
import TheChannel.Fault
import TheChannel.LibTable
import TheChannel.Name
/-!
# Permissions — the permissions of accounts, and the actions that change them

The tables of accounts, permissions and permission links, `authorization_manager`'s functions on them, and the native
actions `newaccount`, `updateauth`, `deleteauth`, `linkauth` and `unlinkauth`. A permission names its parent by its id; an
object that is no permission of an account reserves the id 0, which stands for no parent. An action that throws is undone
(`step`). The RAM an action bills, times, usage objects and logging are left out.
-/
namespace TheChannel

/-! ## Names -/

def startsWithRa (value : Nat) : Bool := ['r', 'a', '.'].isPrefixOf (nameToString value)

def producersAccountName : Nat := stringToName ['r', 'a', '.', 'p', 'r', 'o', 'd', 's']
def majorityProducersPermissionName : Nat := stringToName ['p', 'r', 'o', 'd', '.', 'm', 'a', 'j', 'o', 'r']
def minorityProducersPermissionName : Nat := stringToName ['p', 'r', 'o', 'd', '.', 'm', 'i', 'n', 'o', 'r']
def activeName : Nat := stringToName ['a', 'c', 't', 'i', 'v', 'e']
def ownerName : Nat := stringToName ['o', 'w', 'n', 'e', 'r']
def eosioAnyName : Nat := stringToName ['r', 'a', '.', 'a', 'n', 'y']
def eosioCodeName : Nat := stringToName ['r', 'a', '.', 'c', 'o', 'd', 'e']

/-! ## The tables -/

structure PermissionObject where
  id : Nat
  parent : Nat
  owner : Nat
  name : Nat
  auth : Authority
  deriving DecidableEq

def permissionRows : RowType PermissionObject (Nat × Nat) := ⟨PermissionObject.id, fun p => (p.owner, p.name)⟩

def setAuth (auth : Authority) : RowChange permissionRows := ⟨fun p => { p with auth := auth }, fun _ => rfl, fun _ => rfl⟩

structure PermissionLinkObject where
  id : Nat
  account : Nat
  code : Nat
  messageType : Nat
  requiredPermission : Nat
  deriving DecidableEq

def linkRows : RowType PermissionLinkObject (Nat × Nat × Nat) :=
  ⟨PermissionLinkObject.id, fun l => (l.account, l.code, l.messageType)⟩

def setRequirement (requirement : Nat) : RowChange linkRows :=
  ⟨fun l => { l with requiredPermission := requirement }, fun _ => rfl, fun _ => rfl⟩

structure PermissionDb where
  accounts : List Nat
  permissions : Table permissionRows
  links : Table linkRows

structure KeyTypes where
  which : Nat → Nat
  numSupportedKeyTypes : Nat

structure AuthEnv where
  readOnly : Bool
  authorization : List Nat
  privileged : Nat → Bool
  keyTypes : KeyTypes
  keyBlacklist : List Nat -- empty where it is not enforced
  maxTransactionDelay : Nat
  onlyLinkToExistingPermission : Bool

/-- `undo_index::emplace` throws if a row with the key is there. -/
def inserted {τ : Type} : Option τ → Result τ
  | some t => .ok t
  | none => .error (.thrown .logicError "could not insert object, most likely a uniqueness constraint was violated")

namespace PermissionDb
variable (s : PermissionDb)

/-! ## `authorization_manager` -/

def findPermission (level : PermissionLevel) : Result (Option PermissionObject) :=
  eosAssert (level.actor != 0 && level.permission != 0) .invalidPermission "Invalid permission" >>= fun _ =>
  .ok (s.permissions.findKey (level.actor, level.permission))

def getPermission (level : PermissionLevel) : Result PermissionObject :=
  s.findPermission level >>= fun found =>
  match found with
  | some p => .ok p
  | none => .error (.thrown .permissionQuery "Failed to retrieve permission: ${level}")

def checkKeyTypes (keyTypes : KeyTypes) (auth : Authority) (msg : String) : Result Unit :=
  eosAssert (auth.keys.all (fun k => decide (keyTypes.which k.key < keyTypes.numSupportedKeyTypes))) .unactivatedKeyType msg

def createPermission (keyTypes : KeyTypes) (account name parent : Nat) (auth : Authority) : Result (PermissionDb × Nat) :=
  checkKeyTypes keyTypes auth "Unactivated key type used when creating permission" >>= fun _ =>
  inserted (s.permissions.emplace (fun id => ⟨id, parent, account, name, auth⟩) (fun _ => rfl)) >>= fun permissions =>
  .ok ({ s with permissions := permissions }, s.permissions.nextId)

def modifyPermission (keyTypes : KeyTypes) (permission : PermissionObject) (auth : Authority) : Result PermissionDb :=
  checkKeyTypes keyTypes auth "Unactivated key type used when modifying permission" >>= fun _ =>
  .ok { s with permissions := s.permissions.modify permission.id (setAuth auth) }

def removePermission (permission : PermissionObject) : Result PermissionDb :=
  eosAssert (!s.permissions.rows.any (fun p => p.parent == permission.id)) .actionValidate
    "Cannot remove a permission which has children. Remove the children first." >>= fun _ =>
  .ok { s with permissions := s.permissions.erase permission.id }

/-! ## The database at genesis -/

def reservedPermission : PermissionObject := ⟨0, 0, 0, 0, ⟨0, [], [], []⟩⟩

def createOwnerAndActive (keyTypes : KeyTypes) (name : Nat) (owner active : Authority) : Result PermissionDb :=
  s.createPermission keyTypes name ownerName 0 owner >>= fun r =>
  r.1.createPermission keyTypes name activeName r.2 active >>= fun r => .ok r.1

def createNativeAccount (keyTypes : KeyTypes) (name : Nat) (owner active : Authority) : Result PermissionDb :=
  inserted (if s.accounts.contains name then none else some (name :: s.accounts)) >>= fun accounts =>
  createOwnerAndActive { s with accounts := accounts } keyTypes name owner active

/-- `initialize_database`: the native accounts, with the producers' permissions under their active permission. -/
def initializeDatabase (which : Nat → Nat) (initialKey : Nat) : Result PermissionDb :=
  let keyTypes : KeyTypes := ⟨which, 2⟩
  let systemAuth : Authority := ⟨1, [⟨initialKey, 1⟩], [], []⟩
  let emptyAuthority : Authority := ⟨1, [], [], []⟩
  let activeProducersAuthority : Authority := ⟨1, [], [⟨⟨systemAccountName, activeName⟩, 1⟩], []⟩
  inserted (Table.empty.emplace (fun id => { reservedPermission with id := id }) (fun _ => rfl)) >>= fun permissions =>
  createNativeAccount ⟨[], permissions, Table.empty⟩ keyTypes systemAccountName systemAuth systemAuth >>= fun s =>
  s.createNativeAccount keyTypes nullAccountName emptyAuthority emptyAuthority >>= fun s =>
  s.createNativeAccount keyTypes producersAccountName emptyAuthority activeProducersAuthority >>= fun s =>
  s.getPermission ⟨producersAccountName, activeName⟩ >>= fun activePermission =>
  s.createPermission keyTypes producersAccountName majorityProducersPermissionName activePermission.id
    activeProducersAuthority >>= fun r =>
  r.1.createPermission keyTypes producersAccountName minorityProducersPermissionName r.2 activeProducersAuthority >>= fun r =>
  .ok r.1

/-! ## The native actions -/

def getAccount (account : Nat) : Result Unit :=
  eosAssert (s.accounts.contains account) .outOfRange "unknown key"

def requireAuthorization (env : AuthEnv) (account : Nat) : Result Unit :=
  eosAssert (env.authorization.contains account) .missingAuth "missing authority of ${account}"

def validatePermissionLevel (level : PermissionLevel) : Result Unit :=
  eosAssert (s.accounts.contains level.actor) .actionValidate "account '${account}' does not exist" >>= fun _ =>
  if level.permission == ownerName || level.permission == activeName || level.permission == eosioCodeName then .ok ()
  else
    match s.getPermission level with
    | .ok _ => .ok ()
    | .error (.thrown .permissionQuery _) =>
      .error (.thrown .actionValidate "permission '${perm}' does not exist")
    | .error e => .error e

def validateAuthorityPrecondition (env : AuthEnv) (auth : Authority) : Result Unit :=
  auth.accounts.forM (fun a => s.validatePermissionLevel a.permission) >>= fun _ =>
  eosAssert (auth.keys.all (fun k => !env.keyBlacklist.contains k.key)) .keyBlacklist
    "public key '${key}' is on the key blacklist"

def applyNewaccount (env : AuthEnv) (creator name : Nat) (owner active : Authority) : Result PermissionDb :=
  eosAssert (!env.readOnly) .actionValidate "newaccount not allowed in read-only transaction" >>= fun _ =>
  requireAuthorization env creator >>= fun _ =>
  eosAssert owner.validate .actionValidate "Invalid owner authority" >>= fun _ =>
  eosAssert active.validate .actionValidate "Invalid active authority" >>= fun _ =>
  eosAssert (name != 0) .actionValidate "account name cannot be empty" >>= fun _ =>
  eosAssert (decide ((nameToString name).length ≤ 12)) .actionValidate "account names can only be 12 chars long" >>= fun _ =>
  s.getAccount creator >>= fun _ =>
  eosAssert (env.privileged creator || !startsWithRa name) .actionValidate
    "only privileged accounts can have names that start with 'ra.'" >>= fun _ =>
  eosAssert (!s.accounts.contains name) .accountNameExists
    "Cannot create account named ${name}, as that name is already taken" >>= fun _ =>
  -- the authorities can name the account that is being created
  let s := { s with accounts := name :: s.accounts }
  s.validateAuthorityPrecondition env owner >>= fun _ =>
  s.validateAuthorityPrecondition env active >>= fun _ =>
  s.createOwnerAndActive env.keyTypes name owner active

/-- The id of the parent an `updateauth` names; 0 for the owner permission. -/
def parentId (account permission parent : Nat) : Result Nat :=
  if permission != ownerName then (s.getPermission ⟨account, parent⟩).map PermissionObject.id else .ok 0

def applyUpdateauth (env : AuthEnv) (account permission parent : Nat) (auth : Authority) : Result PermissionDb :=
  eosAssert (!env.readOnly) .actionValidate "updateauth not allowed in read-only transaction" >>= fun _ =>
  requireAuthorization env account >>= fun _ =>
  eosAssert (permission != 0) .actionValidate "Cannot create authority with empty name" >>= fun _ =>
  eosAssert (!startsWithRa permission) .actionValidate "Permission names that start with 'ra.' are reserved" >>= fun _ =>
  eosAssert (permission != parent) .actionValidate "Cannot set an authority as its own parent" >>= fun _ =>
  s.getAccount account >>= fun _ =>
  eosAssert auth.validate .actionValidate "Invalid authority: ${auth}" >>= fun _ =>
  eosAssert (permission != activeName || parent == ownerName) .actionValidate
    "Cannot change active authority's parent from owner" >>= fun _ =>
  (if permission == ownerName then eosAssert (parent == 0) .actionValidate "Cannot change owner authority's parent"
    else eosAssert (parent != 0) .actionValidate "Only owner permission can have empty parent") >>= fun _ =>
  eosAssert (auth.waits.getLast?.all (fun w => decide (w.waitSec ≤ env.maxTransactionDelay))) .actionValidate
    "Cannot set delay longer than max_transacton_delay, which is ${max_delay} seconds" >>= fun _ =>
  s.validateAuthorityPrecondition env auth >>= fun _ =>
  s.findPermission ⟨account, permission⟩ >>= fun found =>
  s.parentId account permission parent >>= fun parentId =>
  match found with
  | some p =>
    eosAssert (parentId == p.parent) .actionValidate "Changing parent authority is not currently supported" >>= fun _ =>
    s.modifyPermission env.keyTypes p auth
  | none => s.createPermission env.keyTypes account permission parentId auth >>= fun r => .ok r.1

def applyDeleteauth (env : AuthEnv) (account permission : Nat) : Result PermissionDb :=
  eosAssert (!env.readOnly) .actionValidate "deleteauth not allowed in read-only transaction" >>= fun _ =>
  requireAuthorization env account >>= fun _ =>
  eosAssert (permission != activeName) .actionValidate "Cannot delete active authority" >>= fun _ =>
  eosAssert (permission != ownerName) .actionValidate "Cannot delete owner authority" >>= fun _ =>
  eosAssert (!s.links.rows.any (fun l => l.account == account && l.requiredPermission == permission)) .actionValidate
    "Cannot delete a linked authority. Unlink the authority first. This authority is linked to ${code}::${type}." >>= fun _ =>
  s.getPermission ⟨account, permission⟩ >>= fun p => s.removePermission p

def checkRequirement (env : AuthEnv) (account requirement : Nat) : Result Unit :=
  if requirement != eosioAnyName then
    let permission :=
      if env.onlyLinkToExistingPermission then s.permissions.findKey (account, requirement)
      else s.permissions.rows.find? (fun p => p.name == requirement)
    eosAssert permission.isSome .permissionQuery "Failed to retrieve permission: ${permission}"
  else .ok ()

def applyLinkauth (env : AuthEnv) (account code type requirement : Nat) : Result PermissionDb :=
  eosAssert (!env.readOnly) .actionValidate "linkauth not allowed in read-only transaction" >>= fun _ =>
  eosAssert (requirement != 0) .actionValidate "Required permission cannot be empty" >>= fun _ =>
  requireAuthorization env account >>= fun _ =>
  eosAssert (s.accounts.contains account) .accountQuery "Failed to retrieve account: ${account}" >>= fun _ =>
  eosAssert (s.accounts.contains code) .accountQuery "Failed to retrieve code for account: ${account}" >>= fun _ =>
  s.checkRequirement env account requirement >>= fun _ =>
  match s.links.findKey (account, code, type) with
  | some link =>
    eosAssert (link.requiredPermission != requirement) .actionValidate
      "Attempting to update required authority, but new requirement is same as old" >>= fun _ =>
    .ok { s with links := s.links.modify link.id (setRequirement requirement) }
  | none =>
    inserted (s.links.emplace (fun id => ⟨id, account, code, type, requirement⟩) (fun _ => rfl)) >>= fun links =>
    .ok { s with links := links }

def applyUnlinkauth (env : AuthEnv) (account code type : Nat) : Result PermissionDb :=
  eosAssert (!env.readOnly) .actionValidate "unlinkauth not allowed in read-only transaction" >>= fun _ =>
  requireAuthorization env account >>= fun _ =>
  match s.links.findKey (account, code, type) with
  | some link => .ok { s with links := s.links.erase link.id }
  | none => .error (.thrown .actionValidate "Attempting to unlink authority, but no link found")

/-! ## Sequences of actions -/

inductive AuthAction
  | newaccount (creator name : Nat) (owner active : Authority)
  | updateauth (account permission parent : Nat) (auth : Authority)
  | deleteauth (account permission : Nat)
  | linkauth (account code type requirement : Nat)
  | unlinkauth (account code type : Nat)

def apply (env : AuthEnv) : AuthAction → Result PermissionDb
  | .newaccount creator name owner active => s.applyNewaccount env creator name owner active
  | .updateauth account permission parent auth => s.applyUpdateauth env account permission parent auth
  | .deleteauth account permission => s.applyDeleteauth env account permission
  | .linkauth account code type requirement => s.applyLinkauth env account code type requirement
  | .unlinkauth account code type => s.applyUnlinkauth env account code type

def step (s : PermissionDb) (a : AuthEnv × AuthAction) : PermissionDb :=
  match s.apply a.1 a.2 with
  | .ok s' => s'
  | .error _ => s

def run (actions : List (AuthEnv × AuthAction)) : PermissionDb := actions.foldl step s

/-! ## `permission_object::satisfies` -/

def satisfiesLoop (id : Nat) : Nat → PermissionObject → Option (Result Bool)
  | 0, _ => none
  | n + 1, parent =>
    if id == parent.parent then some (.ok true)
    else if parent.parent == 0 then some (.ok false)
    else
      match s.permissions.findId parent.parent with
      | some next => satisfiesLoop id n next
      | none => some (.error (.undefined "*permission_index.find(parent->parent)"))

def satisfies (rounds : Nat) (p other : PermissionObject) : Option (Result Bool) :=
  if p.owner != other.owner then some (.ok false)
  else if p.id == other.id || p.id == other.parent then some (.ok true)
  else
    match s.permissions.findId other.parent with
    | some parent => s.satisfiesLoop p.id rounds parent
    | none => some (.error (.undefined "*permission_index.find(other.parent)"))

end PermissionDb
end TheChannel
