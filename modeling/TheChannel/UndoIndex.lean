import TheChannel.Fault
import TheChannel.LibFlatMap
import TheChannel.LibOrderedIndex
/-!
# UndoIndex — a table with indices and an undo stack

`undo_index.hpp` of chainbase. A value is an id with the rest of it; the ids are given out in order and user code does not
change them, so an operation on a value cannot. The first index holds the nodes by id, each secondary one the ids of the
nodes in the order of its comparator. A pointer to a node is its id: a node is in the table or in `removed_values`, never
two with one id. A pointer into `old_values` is the address of an element, and addresses are not used again.

A call that throws leaves behind what it did before, so `emplace` and `modify` return the index next to their outcome.
-/
namespace TheChannel

/-- The comparators of the secondary indices, `ordered_unique` each. -/
structure TableType (V : Type) where
  less : List (Nat × V → Nat × V → Bool)
  weak : ∀ l ∈ less, StrictWeak l

namespace UndoIndex

/-- A node, without its id and hooks. `mtime` is the revision at which it was last modified or created. -/
structure Node (V : Type) where
  val : V
  mtime : Nat
  deriving DecidableEq

/-- An element of `old_values`: a backup of the node `current`. -/
structure OldNode (V : Type) where
  addr : Nat
  current : Nat
  val : V
  mtime : Nat
  deriving DecidableEq

end UndoIndex

structure UndoState where
  oldValuesEnd : Option Nat
  removedValuesEnd : Option Nat
  oldNextId : Nat
  ctime : Nat
  deriving DecidableEq

/-- `undo_index`. The undo stack has its back first, `fresh` is the next address. -/
structure UndoIndex (V : Type) where
  rows : List (Nat × UndoIndex.Node V)
  indices : List (List Nat)
  undoStack : List UndoState
  oldValues : List (UndoIndex.OldNode V)
  removedValues : List (Nat × UndoIndex.Node V)
  nextId : Nat
  revision : Nat
  monotonicRevision : Nat
  fresh : Nat
  deriving DecidableEq

namespace UndoIndex
variable {V : Type}

/-! ## The indices -/

def valueOf (rows : List (Nat × Node V)) (p : Nat) : Option (Nat × V) := (rows.lookup p).map (fun n => (p, n.val))

def compare (less : Nat × V → Nat × V → Bool) (rows : List (Nat × Node V)) (a b : Nat) : Bool :=
  StrictWeak.optLt less (valueOf rows a) (valueOf rows b)

def setNode (p : Nat) (n : Node V) (rows : List (Nat × Node V)) : List (Nat × Node V) :=
  rows.map (fun r => if r.1 = p then (p, n) else r)

/-- `insert_impl<1>`: when a later index has an equivalent element, the guards erase the node from those before it. -/
def insertIndices (rows : List (Nat × Node V)) (p : Nat) :
    List (Nat × V → Nat × V → Bool) → List (List Nat) → List (List Nat) × Bool
  | less :: ls, ix :: ixs =>
    match insertUnique (compare less rows) p ix with
    | none => (ix :: ixs, false)
    | some ix' =>
      match insertIndices rows p ls ixs with
      | (ixs', true) => (ix' :: ixs', true)
      | (ixs', false) => (ix'.erase p :: ixs', false)
  | [], ixs => (ixs, true)
  | _ :: _, [] => ([], true)

/-- `post_modify<true, 1>`, which stops at the first index that has an equivalent element. -/
def postModifyUnique (rows : List (Nat × Node V)) (p : Nat) :
    List (Nat × V → Nat × V → Bool) → List (List Nat) → List (List Nat) × Bool
  | less :: ls, ix :: ixs =>
    match repositionUnique (compare less rows) p ix with
    | (ix', true) =>
      let (ixs', success) := postModifyUnique rows p ls ixs
      (ix' :: ixs', success)
    | (ix', false) => (ix' :: ixs, false)
  | _, ixs => (ixs, true)

def postModify (rows : List (Nat × Node V)) (p : Nat) :
    List (Nat × V → Nat × V → Bool) → List (List Nat) → List (List Nat)
  | less :: ls, ix :: ixs => reposition (compare less rows) p ix :: postModify rows p ls ixs
  | _, ixs => ixs

def eraseIndices (p : Nat) (ixs : List (List Nat)) : List (List Nat) := ixs.map (fun ix => ix.erase p)

/-! ## Pointers into the lists -/

section Pointers

variable {α : Type} (key : α → Nat)

def before (last : Option Nat) (l : List α) : List α :=
  match last with
  | some a => l.takeWhile fun x => key x ≠ a
  | none => l

def onward (last : Option Nat) (l : List α) : List α :=
  match last with
  | some a => l.dropWhile fun x => key x ≠ a
  | none => []

def disposeAfter (last : Option Nat) (l : List α) : List α :=
  match last with
  | some a => l.takeWhile (fun x => key x ≠ a) ++ (l.dropWhile (fun x => key x ≠ a)).take 1
  | none => l

end Pointers

variable (S : TableType V) (s : UndoIndex V)

def init : UndoIndex V := ⟨[], S.less.map (fun _ => []), [], [], [], 0, 0, 0, 0⟩

/-! ## Rows -/

def find (id : Nat) : Option V := (s.rows.lookup id).map Node.val

def createTime : Nat := if s.undoStack.isEmpty then 0 else s.monotonicRevision

def emplace (constructor : Nat → V) : UndoIndex V × Result Unit :=
  -- the id is the highest, so the node goes to the end
  let rows := s.rows ++ [(s.nextId, ⟨constructor s.nextId, s.createTime⟩)]
  match insertIndices rows s.nextId S.less s.indices with
  | (indices, true) => ({ s with rows, indices, nextId := s.nextId + 1 }, .ok ())
  | (indices, false) => ({ s with indices }, .error (.thrown .logicError
      "could not insert object, most likely a uniqueness constraint was violated"))

def remove (p : Nat) : UndoIndex V :=
  match s.rows.lookup p with
  | none => s
  | some n =>
    let s' := { s with rows := s.rows.filter (fun r => r.1 ≠ p), indices := eraseIndices p s.indices }
    -- `on_remove`
    match s.undoStack with
    | [] => s'
    | info :: _ => if info.oldNextId ≤ p then s' else { s' with removedValues := (p, n) :: s.removedValues }

def backsUp (n : Node V) : Bool :=
  match s.undoStack with
  | [] => false
  | info :: _ => decide (n.mtime < info.ctime)

def onModify (p : Nat) (n : Node V) : UndoIndex V :=
  if s.backsUp n then
    { s with
      rows := setNode p ⟨n.val, s.monotonicRevision⟩ s.rows
      oldValues := ⟨s.fresh, p, n.val, n.mtime⟩ :: s.oldValues
      fresh := s.fresh + 1 }
  else s

def modifyTime (n : Node V) : Nat := if s.backsUp n then s.monotonicRevision else n.mtime

def modify (p : Nat) (modifier : Nat × V → V) : UndoIndex V × Result Unit :=
  match s.rows.lookup p with
  | none => (s, .error (.undefined "obj"))
  | some n =>
    let s' := s.onModify p n
    let rows := setNode p ⟨modifier (p, n.val), s.modifyTime n⟩ s'.rows
    let (indices, success) := postModifyUnique rows p S.less s'.indices
    let fault : Fault := .thrown .logicError "could not modify object, most likely a uniqueness constraint was violated"
    if success then ({ s' with rows, indices }, .ok ())
    else if s.backsUp n then
      -- the value comes back from the backup, the modification time does not
      let rows := setNode p ⟨n.val, s.modifyTime n⟩ rows
      let (indices, success) := postModifyUnique rows p S.less indices
      ({ s' with rows, indices, oldValues := s.oldValues },
        if success then .error fault else .error (.assertion "success"))
    else (({ s' with rows, indices } : UndoIndex V).remove p, .error fault)

/-! ## Sessions -/

def addSession : UndoIndex V :=
  { s with
    undoStack :=
      ⟨s.oldValues.head?.map OldNode.addr, s.removedValues.head?.map Prod.fst, s.nextId, s.monotonicRevision + 1⟩ :: s.undoStack
    monotonicRevision := s.monotonicRevision + 1
    revision := s.revision + 1 }

def setRevision (revision : Nat) : UndoIndex V × Result Unit :=
  if !s.undoStack.isEmpty then
    (s, .error (.thrown .logicError "cannot set revision while there is an existing undo stack"))
  else if revision < s.revision then (s, .error (.thrown .logicError "revision cannot decrease"))
  else ({ s with revision }, .ok ())

/-! `undo` -/

def eraseNew (info : UndoState) : UndoIndex V :=
  { s with
    rows := s.rows.takeWhile (fun r => r.1 < info.oldNextId)
    indices := (s.rows.dropWhile (fun r => r.1 < info.oldNextId)).foldl (fun ixs r => eraseIndices r.1 ixs) s.indices }

def replaceOld (info : UndoState) (s : UndoIndex V) (o : OldNode V) : UndoIndex V :=
  -- skip restoring values that overwrite an earlier modify in the same session
  if o.mtime < info.ctime then
    if (s.rows.lookup o.current).isSome then
      let rows := setNode o.current ⟨o.val, o.mtime⟩ s.rows
      { s with rows, indices := postModify rows o.current S.less s.indices }
    -- the item was removed: it will be inserted with the removed values
    else { s with removedValues := setNode o.current ⟨o.val, o.mtime⟩ s.removedValues }
  else s

/-- Insert one removed node, `insert_impl`. A node that meets an equivalent one would be lost. -/
def insertRemoved (info : UndoState) (s : UndoIndex V) (r : Nat × Node V) : UndoIndex V :=
  if r.1 < info.oldNextId then
    if (s.rows.lookup r.1).isSome then s
    else
      let rows := assign r.1 r.2 s.rows
      match insertIndices rows r.1 S.less s.indices with
      | (indices, true) => { s with rows, indices }
      | (indices, false) => { s with indices }
  else s

def undo : UndoIndex V :=
  match s.undoStack with
  | [] => s
  | info :: stack =>
    let s' := (before OldNode.addr info.oldValuesEnd s.oldValues).foldl (replaceOld S info) (s.eraseNew info)
    let s'' := (before Prod.fst info.removedValuesEnd s'.removedValues).foldl (insertRemoved S info) s'
    { s'' with
      oldValues := onward OldNode.addr info.oldValuesEnd s''.oldValues
      removedValues := onward Prod.fst info.removedValuesEnd s''.removedValues
      nextId := info.oldNextId
      undoStack := stack
      revision := s.revision - 1 }

/-! `squash` and `commit` -/

/-- The loop of `compress_impl` over the backups of the last session: those that stay, and the removed nodes, to which a
backup may have moved. -/
def compressOld (rows : List (Nat × Node V)) (sessionStart : Nat) :
    List (OldNode V) → List (Nat × Node V) → List (OldNode V) × List (Nat × Node V)
  | [], removed => ([], removed)
  | o :: os, removed =>
    if sessionStart ≤ o.mtime then compressOld rows sessionStart os removed
    else if (rows.lookup o.current).isNone then
      compressOld rows sessionStart os (setNode o.current ⟨o.val, o.mtime⟩ removed)
    else
      let (os', removed') := compressOld rows sessionStart os removed
      (o :: os', removed')

/-- `compress_impl`, for the session `session` and the last one. -/
def compressImpl (session last : UndoState) : UndoIndex V :=
  let (olds, removed) :=
    compressOld s.rows session.ctime (before OldNode.addr last.oldValuesEnd s.oldValues) s.removedValues
  { s with
    oldValues := olds ++ onward OldNode.addr last.oldValuesEnd s.oldValues
    removedValues := (before Prod.fst last.removedValuesEnd removed).filter (fun r => r.1 < session.oldNextId) ++
      onward Prod.fst last.removedValuesEnd removed }

def disposeUndo : UndoIndex V := { s with oldValues := [], removedValues := [] }

def squashFast : UndoIndex V :=
  match s.undoStack with
  | [] => s
  | [_] => { s.disposeUndo with undoStack := [], revision := s.revision - 1 }
  | _ :: stack => { s with undoStack := stack, revision := s.revision - 1 }

def squash : UndoIndex V :=
  match s.undoStack with
  | last :: session :: _ => (s.compressImpl session last).squashFast
  | _ => s.squashFast

def commit (revision : Nat) : UndoIndex V :=
  let revision := min revision s.revision
  if revision = s.revision then { s.disposeUndo with undoStack := [] }
  else if s.revision - revision < s.undoStack.length then
    -- the oldest session that stays
    match s.undoStack[s.revision - revision - 1]? with
    | some iter =>
      { s with
        oldValues := disposeAfter OldNode.addr iter.oldValuesEnd s.oldValues
        removedValues := disposeAfter Prod.fst iter.removedValuesEnd s.removedValues
        undoStack := s.undoStack.take (s.revision - revision) }
    | none => s
  else s

/-! ## Sequences of calls -/

inductive Op (V : Type)
  | emplace (constructor : Nat → V)
  | modify (p : Nat) (modifier : Nat × V → V)
  | remove (p : Nat)
  | startUndoSession
  | undo
  | squash
  | commit (revision : Nat)
  | setRevision (revision : Nat)

/-- The index after a call, if the call is successful; `remove` wants a row. -/
def step : Op V → Option (UndoIndex V)
  | .emplace constructor => if (s.emplace S constructor).2 = .ok () then some (s.emplace S constructor).1 else none
  | .modify p modifier => if (s.modify S p modifier).2 = .ok () then some (s.modify S p modifier).1 else none
  | .remove p => if (s.rows.lookup p).isSome then some (s.remove p) else none
  | .startUndoSession => some s.addSession
  | .undo => some (s.undo S)
  | .squash => some s.squash
  | .commit revision => some (s.commit revision)
  | .setRevision revision => if (s.setRevision revision).2 = .ok () then some (s.setRevision revision).1 else none

def run : List (Op V) → UndoIndex V → Option (UndoIndex V)
  | [], s => some s
  | op :: ops, s => (s.step S op).bind (run ops)

end UndoIndex
end TheChannel
