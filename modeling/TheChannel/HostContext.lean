import TheChannel.LibHeap
import TheChannel.ResourceUsage
/-!
# HostContext — the functions on contract tables

`host_context`: how contracts create, change and remove rows of their tables, in actions (`apply_context`) and in the sync
calls they make (`sync_call_context`). Both run the same functions and differ in `update_db_usage`.

Rows are objects at addresses. A context hands out iterators for them, one cache for each kind of row, and a row that a
sync call removes is taken out of the caches of all contexts on the call path. Of the functions that only look for a row,
those that follow the order of an index (bounds, next, previous, secondary keys) are one (`visit`), which can end at any
row. A function that throws ends its transaction. Context free actions have no access to tables.
-/
namespace TheChannel

/-! ## Tables and rows -/

inductive IndexKind
  | idx64
  | idx128
  | idx256
  | idxDouble
  | idxLongDouble
  deriving DecidableEq

/-- The types of rows: `key_value_object` and those of the secondary indices. -/
inductive RowKind
  | keyValue
  | index (i : IndexKind)
  deriving DecidableEq

def overheadPerRowPerIndex : Nat := 32

/-- `billable_size_v`, from the size: a multiple of `billable_alignment`. -/
def aligned (size : Nat) : Nat := (size + 16 - 1) / 16 * 16

def tableIdSize : Nat := aligned (44 + overheadPerRowPerIndex * 2)

def RowKind.billableSize : RowKind → Nat
  | .keyValue => aligned (32 + 8 + 4 + overheadPerRowPerIndex * 2)
  | .index .idx64 => aligned (24 + 8 + overheadPerRowPerIndex * 3)
  | .index .idx128 => aligned (24 + 16 + overheadPerRowPerIndex * 3)
  | .index .idx256 => aligned (24 + 32 + overheadPerRowPerIndex * 3)
  | .index .idxDouble => aligned (24 + 8 + overheadPerRowPerIndex * 3)
  | .index .idxLongDouble => aligned (24 + 16 + overheadPerRowPerIndex * 3)

structure TableIdObject where
  id : Nat
  code : Nat
  scope : Nat
  table : Nat
  payer : Nat
  count : Nat
  deriving DecidableEq

/-- A row; `value` is the value of a `key_value_object` or the secondary key. -/
structure Row where
  kind : RowKind
  tId : Nat
  primaryKey : Nat
  payer : Nat
  value : List Nat
  deriving DecidableEq

def Row.billable (r : Row) : Nat :=
  match r.kind with
  | .keyValue => r.value.length + RowKind.keyValue.billableSize
  | .index i => (RowKind.index i).billableSize

/-- The tables with their rows, the RAM usage of the accounts and the accounts whose usage the transaction raised. -/
structure HostState where
  tables : Heap TableIdObject
  rows : Heap Row
  nextTableId : Nat
  ramUsage : Nat → Option Nat
  validateRamUsage : List Nat

namespace HostState
variable (s : HostState)

def derefTable (p : Nat) : Result TableIdObject :=
  match s.tables.get p with
  | some t => .ok t
  | none => .error (.undefined "table_id_object&")

def derefRow (kind : RowKind) (p : Nat) : Result Row :=
  match (s.rows.get p).filter (fun r => r.kind = kind) with
  | some r => .ok r
  | none => .error (.undefined "const T&")

def findTable (code scope table : Nat) : Option Nat :=
  (s.tables.find? (fun t => t.code == code && t.scope == scope && t.table == table)).map Prod.fst

def findRow (kind : RowKind) (tId primaryKey : Nat) : Option Nat :=
  (s.rows.find? (fun r => r.kind == kind && r.tId == tId && r.primaryKey == primaryKey)).map Prod.fst

def createRow (r : Row) (hint : Nat) : Result HostState :=
  eosAssert (s.findRow r.kind r.tId r.primaryKey).isNone .logicError
    "could not insert object, most likely a uniqueness constraint was violated" >>= fun _ =>
  .ok { s with rows := s.rows.create hint r }

def addPendingRamUsage (account : Nat) (ramDelta : Int) : Result HostState :=
  if ramDelta = 0 then .ok s
  else
    match s.ramUsage account with
    | none => .error (.thrown .outOfRange "unknown key")
    | some usage =>
      eosAssert (decide (ramDelta ≤ 0) || decide (ramDelta ≤ (maxUint64 - usage : Nat))) .transaction
        "Ram usage delta would overflow UINT64_MAX" >>= fun _ =>
      eosAssert (decide (0 ≤ ramDelta) || decide (-ramDelta ≤ usage)) .transaction
        "Ram usage delta would underflow UINT64_MAX" >>= fun _ =>
      .ok { s with ramUsage := Function.update s.ramUsage account (some (usage + ramDelta).toNat) }

def addRamUsage (account : Nat) (ramDelta : Int) : Result HostState :=
  s.addPendingRamUsage account ramDelta >>= fun s' =>
  .ok { s' with validateRamUsage := if 0 < ramDelta then account :: s'.validateRamUsage else s'.validateRamUsage }

end HostState

/-! ## Iterators -/

/-- `iterator_cache`. Tables and rows are given by their addresses. -/
structure IteratorCache where
  tableCache : List (Nat × Nat × Int)
  endIteratorToTable : List Nat
  iteratorToObject : List (Option Nat)
  objectToIterator : List (Nat × Nat)
  deriving DecidableEq

namespace IteratorCache
variable (c : IteratorCache)

def empty : IteratorCache := ⟨[], [], [], []⟩

def indexToEndIterator (indx : Nat) : Int := -(indx + 2)

def cacheTable (id p : Nat) : IteratorCache × Int :=
  match c.tableCache.lookup id with
  | some (_, ei) => (c, ei)
  | none =>
    let ei := indexToEndIterator c.endIteratorToTable.length
    ({ c with tableCache := (id, p, ei) :: c.tableCache, endIteratorToTable := c.endIteratorToTable ++ [p] }, ei)

def getTable (id : Nat) : Result Nat :=
  match c.tableCache.lookup id with
  | some (p, _) => .ok p
  | none => .error (.thrown .tableNotInCache "an invariant was broken, table should be in cache")

def get (iterator : Int) : Result Nat :=
  eosAssert (iterator != -1) .invalidTableIterator "invalid iterator" >>= fun _ =>
  eosAssert (0 ≤ iterator) .tableOperationNotPermitted "dereference of end iterator" >>= fun _ =>
  eosAssert (iterator.toNat < c.iteratorToObject.length) .invalidTableIterator "iterator out of range" >>= fun _ =>
  match c.iteratorToObject[iterator.toNat]?.join with
  | some p => .ok p
  | none => .error (.thrown .tableOperationNotPermitted "dereference of deleted object")

def remove (iterator : Int) : Result (IteratorCache × Option Nat) :=
  eosAssert (iterator != -1) .invalidTableIterator "invalid iterator" >>= fun _ =>
  eosAssert (0 ≤ iterator) .tableOperationNotPermitted "cannot call remove on end iterators" >>= fun _ =>
  eosAssert (iterator.toNat < c.iteratorToObject.length) .invalidTableIterator "iterator out of range" >>= fun _ =>
  match c.iteratorToObject[iterator.toNat]?.join with
  | none => .ok (c, none)
  | some p =>
    .ok ({ c with
      iteratorToObject := c.iteratorToObject.set iterator.toNat none
      objectToIterator := c.objectToIterator.filter (fun e => e.1 ≠ p) }, some p)

def add (p : Nat) : IteratorCache × Int :=
  match c.objectToIterator.lookup p with
  | some i => (c, i)
  | none =>
    ({ c with
      iteratorToObject := c.iteratorToObject ++ [some p]
      objectToIterator := (p, c.iteratorToObject.length) :: c.objectToIterator }, c.iteratorToObject.length)

def invalidate (p : Nat) : Result IteratorCache :=
  match c.objectToIterator.lookup p with
  | none => .ok c
  | some i =>
    eosAssert (i < c.iteratorToObject.length) .invalidTableIterator "iterator out of range" >>= fun _ =>
    .ok { c with
      iteratorToObject := c.iteratorToObject.set i none
      objectToIterator := c.objectToIterator.filter (fun e => e.1 ≠ p) }

end IteratorCache

/-! ## Contexts -/

/-- What `apply_context::update_db_usage` reads of the action and of the controller. -/
structure ActionInfo where
  account : Nat
  authorization : List Nat -- the actors
  ramRestrictions : Bool
  ramBillingInNotifyAllowed : Bool
  deriving DecidableEq

/-- `host_context`: an `apply_context` has an action, a `sync_call_context` has none. -/
structure HostContext where
  receiver : Nat
  privileged : Bool
  readOnly : Bool
  action : Option ActionInfo
  caches : RowKind → IteratorCache

/-- What a function leaves and returns; `erased` is the row a cache was told to remove. -/
structure HostOut where
  context : HostContext
  state : HostState
  iterator : Int
  erased : Option Nat

namespace HostContext
variable (c : HostContext)

def isSyncCall : Bool := c.action.isNone

def withCache (kind : RowKind) (cache : IteratorCache) : HostContext :=
  { c with caches := Function.update c.caches kind cache }

def requireAuthorization (act : ActionInfo) (account : Nat) : Result Unit :=
  eosAssert (act.authorization.contains account) .missingAuth "missing authority of ${account}"

def applyUpdateDbUsage (act : ActionInfo) (payer : Nat) (delta : Int) (s : HostState) : Result HostState :=
  (if decide (0 < delta) && !(c.privileged || payer == c.receiver || act.ramRestrictions) then
    eosAssert (act.ramBillingInNotifyAllowed || c.receiver == act.account) .subjectiveBlockProduction
      "Cannot charge RAM to other accounts during notify." >>= fun _ =>
    requireAuthorization act payer
  else .ok ()) >>= fun _ =>
  s.addRamUsage payer delta

/-- `update_db_usage`; the one of `sync_call_context` has an empty body. -/
def updateDbUsage (payer : Nat) (delta : Int) (s : HostState) : Result HostState :=
  match c.action with
  | some act => c.applyUpdateDbUsage act payer delta s
  | none => .ok s

def findOrCreateTable (code scope table payer hint : Nat) (s : HostState) : Result (Nat × HostState) :=
  match s.findTable code scope table with
  | some p => .ok (p, s)
  | none =>
    c.updateDbUsage payer tableIdSize s >>= fun s =>
    .ok (s.tables.place hint,
      { s with
        tables := s.tables.create hint ⟨s.nextTableId, code, scope, table, payer, 0⟩
        nextTableId := s.nextTableId + 1 })

def removeTable (p : Nat) (s : HostState) : Result HostState :=
  s.derefTable p >>= fun tid =>
  c.updateDbUsage tid.payer (-tableIdSize) s >>= fun s =>
  .ok { s with tables := s.tables.remove p }

/-- What `db_store_i64` and `generic_index::store` do once the table is there. -/
def storeRow (kind : RowKind) (p payer id : Nat) (value : List Nat) (hint : Nat) (s : HostState) : Result HostOut :=
  s.derefTable p >>= fun tab =>
  s.createRow ⟨kind, tab.id, id, payer, value⟩ hint >>= fun s' =>
  c.updateDbUsage payer (Row.billable ⟨kind, tab.id, id, payer, value⟩)
    { s' with tables := s'.tables.set p { tab with count := tab.count + 1 } } >>= fun s'' =>
  let cached := ((c.caches kind).cacheTable tab.id p).1.add (s.rows.place hint)
  .ok ⟨c.withCache kind cached.1, s'', cached.2, none⟩

def dbStoreI64 (scope table payer id : Nat) (buffer : List Nat) (tableHint hint : Nat) (s : HostState) : Result HostOut :=
  c.findOrCreateTable c.receiver scope table payer tableHint s >>= fun tab =>
  eosAssert (payer != 0) .invalidTablePayer "must specify a valid account to pay for new record" >>= fun _ =>
  c.storeRow .keyValue tab.1 payer id buffer hint tab.2

def store (i : IndexKind) (scope table payer id : Nat) (value : List Nat) (tableHint hint : Nat) (s : HostState) :
    Result HostOut :=
  eosAssert (payer != 0) .invalidTablePayer "must specify a valid account to pay for new record" >>= fun _ =>
  c.findOrCreateTable c.receiver scope table payer tableHint s >>= fun tab =>
  c.storeRow (.index i) tab.1 payer id value hint tab.2

def access (kind : RowKind) (iterator : Int) (s : HostState) : Result ((Nat × Row) × Nat × TableIdObject) :=
  (c.caches kind).get iterator >>= fun p =>
  s.derefRow kind p >>= fun obj =>
  (c.caches kind).getTable obj.tId >>= fun q =>
  s.derefTable q >>= fun tab =>
  eosAssert (tab.code == c.receiver) .tableAccessViolation "db access violation" >>= fun _ =>
  .ok ((p, obj), q, tab)

def payerOr (payer : Nat) (obj : Row) : Nat := if payer = 0 then obj.payer else payer

def modified (p : Nat) (obj : Row) (payer : Nat) (value : List Nat) (s : HostState) : HostOut :=
  ⟨c, { s with rows := s.rows.set p { obj with value, payer } }, 0, none⟩

def dbUpdateI64 (iterator : Int) (payer : Nat) (buffer : List Nat) (s : HostState) : Result HostOut :=
  c.access .keyValue iterator s >>= fun acc =>
  let obj := acc.1.2
  let oldSize : Int := obj.value.length + RowKind.keyValue.billableSize
  let newSize : Int := buffer.length + RowKind.keyValue.billableSize
  let payer := payerOr payer obj
  (if obj.payer ≠ payer then
    -- refund the existing payer, charge the new payer
    c.updateDbUsage obj.payer (-oldSize) s >>= fun s =>
    c.updateDbUsage payer newSize s
  else if oldSize ≠ newSize then
    -- charge/refund the existing payer the difference
    c.updateDbUsage obj.payer (newSize - oldSize) s
  else .ok s) >>= fun s =>
  .ok (c.modified acc.1.1 obj payer buffer s)

def update (i : IndexKind) (iterator : Int) (payer : Nat) (secondary : List Nat) (s : HostState) : Result HostOut :=
  c.access (.index i) iterator s >>= fun acc =>
  let obj := acc.1.2
  let billingSize : Int := (RowKind.index i).billableSize
  let payer := payerOr payer obj
  (if obj.payer ≠ payer then
    c.updateDbUsage obj.payer (-billingSize) s >>= fun s =>
    c.updateDbUsage payer billingSize s
  else .ok s) >>= fun s =>
  .ok (c.modified acc.1.1 obj payer secondary s)

def releaseTable (q : Nat) (tab : TableIdObject) (s : HostState) : Result HostState :=
  let s := { s with tables := s.tables.set q { tab with count := tab.count - 1 } }
  if tab.count - 1 = 0 then c.removeTable q s else .ok s

def removeRow (kind : RowKind) (iterator : Int) (s : HostState) : Result HostOut :=
  c.access kind iterator s >>= fun acc =>
  c.updateDbUsage acc.1.2.payer (-acc.1.2.billable) s >>= fun s =>
  c.releaseTable acc.2.1 acc.2.2 { s with rows := s.rows.remove acc.1.1 } >>= fun s =>
  (c.caches kind).remove iterator >>= fun cache =>
  .ok ⟨c.withCache kind cache.1, s, 0, cache.2⟩

def dbRemoveI64 : Int → HostState → Result HostOut := c.removeRow .keyValue

def remove (i : IndexKind) : Int → HostState → Result HostOut := c.removeRow (.index i)

def endOf (kind : RowKind) (code scope table : Nat) (s : HostState) : Result HostOut :=
  match s.findTable code scope table with
  | none => .ok ⟨c, s, -1, none⟩
  | some p =>
    s.derefTable p >>= fun tab =>
    let cached := (c.caches kind).cacheTable tab.id p
    .ok ⟨c.withCache kind cached.1, s, cached.2, none⟩

def found (kind : RowKind) (p : Nat) (s : HostState) : HostOut :=
  let cached := (c.caches kind).add p
  ⟨c.withCache kind cached.1, s, cached.2, none⟩

def find (kind : RowKind) (code scope table id : Nat) (s : HostState) : Result HostOut :=
  match s.findTable code scope table with
  | none => .ok ⟨c, s, -1, none⟩
  | some p =>
    s.derefTable p >>= fun tab =>
    let cached := (c.caches kind).cacheTable tab.id p
    match s.findRow kind tab.id id with
    | none => .ok ⟨c.withCache kind cached.1, s, cached.2, none⟩
    | some q => .ok ((c.withCache kind cached.1).found kind q s)

def visit (kind : RowKind) (p : Nat) (s : HostState) : Result HostOut :=
  match (s.rows.get p).filter (fun r => r.kind = kind) with
  | some _ => .ok (c.found kind p s)
  | none => .ok ⟨c, s, -1, none⟩

def invalidateIteratorCaches (p : Nat) : Result HostContext :=
  (c.caches .keyValue).invalidate p >>= fun keyval =>
  (c.caches (.index .idx64)).invalidate p >>= fun idx64 =>
  (c.caches (.index .idx128)).invalidate p >>= fun idx128 =>
  (c.caches (.index .idx256)).invalidate p >>= fun idx256 =>
  (c.caches (.index .idxDouble)).invalidate p >>= fun idxDouble =>
  (c.caches (.index .idxLongDouble)).invalidate p >>= fun idxLongDouble =>
  .ok { c with caches := fun
    | .keyValue => keyval
    | .index .idx64 => idx64
    | .index .idx128 => idx128
    | .index .idx256 => idx256
    | .index .idxDouble => idxDouble
    | .index .idxLongDouble => idxLongDouble }

/-- `broadcast_erasure` of a sync call whose callers are given, the nearest first. -/
def broadcastErasure (p : Nat) : List HostContext → Result (List HostContext)
  | [] => .ok []
  | c :: cs =>
    c.invalidateIteratorCaches p >>= fun c' =>
    (if c.isSyncCall then broadcastErasure p cs else .ok cs) >>= fun cs' =>
    .ok (c' :: cs')

end HostContext

/-! ## Whole executions -/

inductive HostCall
  | dbStoreI64 (scope table payer id : Nat) (buffer : List Nat) (tableHint hint : Nat)
  | dbUpdateI64 (iterator : Int) (payer : Nat) (buffer : List Nat)
  | dbRemoveI64 (iterator : Int)
  | store (i : IndexKind) (scope table payer id : Nat) (value : List Nat) (tableHint hint : Nat)
  | update (i : IndexKind) (iterator : Int) (payer : Nat) (secondary : List Nat)
  | remove (i : IndexKind) (iterator : Int)
  | endOf (kind : RowKind) (code scope table : Nat)
  | find (kind : RowKind) (code scope table id : Nat)
  | visit (kind : RowKind) (p : Nat)
  deriving DecidableEq

def HostContext.readOnlyCheck (c : HostContext) : Result Unit :=
  eosAssert (!c.readOnly) .unaccessibleApi "this API is not allowed in read only action/call"

def HostContext.call (c : HostContext) (s : HostState) : HostCall → Result HostOut
  | .dbStoreI64 scope table payer id buffer tableHint hint =>
    c.readOnlyCheck >>= fun _ => c.dbStoreI64 scope table payer id buffer tableHint hint s
  | .dbUpdateI64 iterator payer buffer => c.readOnlyCheck >>= fun _ => c.dbUpdateI64 iterator payer buffer s
  | .dbRemoveI64 iterator => c.readOnlyCheck >>= fun _ => c.dbRemoveI64 iterator s
  | .store i scope table payer id value tableHint hint =>
    c.readOnlyCheck >>= fun _ => c.store i scope table payer id value tableHint hint s
  | .update i iterator payer secondary => c.readOnlyCheck >>= fun _ => c.update i iterator payer secondary s
  | .remove i iterator => c.readOnlyCheck >>= fun _ => c.remove i iterator s
  | .endOf kind code scope table => c.endOf kind code scope table s
  | .find kind code scope table id => c.find kind code scope table id s
  | .visit kind p => c.visit kind p s

/-- What happens while transactions are executed: an action begins, goes on at a notified receiver, makes a sync call or
ends one, or the running contract calls a function. -/
inductive HostOp
  | action (receiver : Nat) (privileged readOnly : Bool) (info : ActionInfo)
  | notify (receiver : Nat) (privileged : Bool)
  | call (receiver : Nat) (privileged forceReadOnly : Bool)
  | ret
  | host (f : HostCall)
  deriving DecidableEq

/-- The contexts of the call path, the running one first, and the database. -/
structure HostMachine where
  stack : List HostContext
  state : HostState

namespace HostMachine
variable (m : HostMachine)

def newContext (receiver : Nat) (privileged readOnly : Bool) (action : Option ActionInfo) : HostContext :=
  ⟨receiver, privileged, readOnly, action, fun _ => .empty⟩

def hostCall (f : HostCall) : List HostContext → Result HostMachine
  | [] => .error (.assertion "host_context")
  | c :: cs =>
    c.call m.state f >>= fun out =>
    (match out.erased, c.isSyncCall with
      | some p, true => HostContext.broadcastErasure p cs
      | _, _ => .ok cs) >>= fun cs =>
    .ok ⟨out.context :: cs, out.state⟩

def contexts : HostOp → List HostContext → Result (List HostContext)
  | .action receiver privileged readOnly info, _ => .ok [newContext receiver privileged readOnly (some info)]
  | .notify receiver privileged, [c] => .ok [{ c with receiver, privileged }]
  | .call receiver privileged forceReadOnly, c :: cs =>
    .ok (newContext receiver privileged (c.readOnly || forceReadOnly) none :: c :: cs)
  | .ret, _ :: c :: cs => .ok (c :: cs)
  | _, _ => .error (.assertion "host_context")

def step : HostOp → Result HostMachine
  | .host f => m.hostCall f m.stack
  | op => contexts op m.stack >>= fun stack => .ok { m with stack }

def run : List HostOp → HostMachine → Result HostMachine
  | [], m => .ok m
  | op :: ops, m => m.step op >>= fun m => run ops m

end HostMachine
end TheChannel
