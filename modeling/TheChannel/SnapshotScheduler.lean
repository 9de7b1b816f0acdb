import Mathlib
import TheChannel.Fault
/-!
# SnapshotScheduler — requests for snapshots at given blocks

`snapshot_scheduler`: the live requests, the file that lists them and is read back when a process starts, and the
snapshots that wait for their block to become irreversible. Ids come from a counter of the process. Ids are unique in the
container, and so are spacing, start and end together; an insertion that would break this does nothing and says nothing.
In irreversible mode the block start may erase the request its loop is at (`onStartBlock`).
-/
namespace TheChannel
open List

structure SnapshotInformation where
  headBlockId : Nat
  headBlockNum : UInt32
  deriving DecidableEq

structure SnapshotRequestInformation where
  blockSpacing : UInt32 := 0
  startBlockNum : UInt32 := 0
  endBlockNum : UInt32 := 0xffffffff
  snapshotDescription : String := ""
  deriving DecidableEq

namespace SnapshotRequestInformation
variable (req : SnapshotRequestInformation)

def value : UInt32 × UInt32 × UInt32 := (req.blockSpacing, req.startBlockNum, req.endBlockNum)

/-- `recurring_snapshot || onetime_snapshot`, at the start of block `height`. -/
def due (height : UInt32) : Bool :=
  (req.blockSpacing ≠ 0 ∧ req.startBlockNum + 1 ≤ height ∧
    (height - req.startBlockNum - 1) % req.blockSpacing = 0) ∨
  (req.blockSpacing = 0 ∧ height = req.startBlockNum + 1)

def markedForDeletion (libHeight : UInt32) : Bool :=
  (req.blockSpacing = 0 ∧ req.startBlockNum ≤ libHeight) ∨ req.endBlockNum ≤ libHeight

def Asks (h : UInt32) : Prop :=
  req.startBlockNum ≤ h ∧ h ≤ req.endBlockNum ∧ req.blockSpacing.toNat ∣ h.toNat - req.startBlockNum.toNat

theorem due_iff {h : UInt32} (hh : h ≠ 0xffffffff) (hs : req.startBlockNum ≠ 0xffffffff) (he : h ≤ req.endBlockNum) :
    req.due (h + 1) = true ↔ req.Asks h := by
  have hsub : h + 1 - req.startBlockNum - 1 = h - req.startBlockNum := by grind
  have hle : req.startBlockNum + 1 ≤ h + 1 ↔ req.startBlockNum ≤ h := by
    have hh : h.toNat ≠ 4294967295 := fun he => hh (UInt32.toNat_inj.1 he)
    have hs : req.startBlockNum.toNat ≠ 4294967295 := fun he => hs (UInt32.toNat_inj.1 he)
    have := h.toNat_lt
    have := req.startBlockNum.toNat_lt
    simp only [UInt32.le_iff_toNat_le, UInt32.toNat_add, UInt32.toNat_one]
    omega
  have heq : h + 1 = req.startBlockNum + 1 ↔ h = req.startBlockNum := by grind
  simp only [due, Asks, hsub, hle, heq, he, true_and, decide_eq_true_eq]
  by_cases hb : req.blockSpacing = 0
  · simp [hb, UInt32.le_iff_toNat_le, ← UInt32.toNat_inj]
    omega
  · simp only [hb, ne_eq, not_false_eq_true, true_and, false_and, or_false, and_congr_right_iff]
    intro hle
    rw [← UInt32.toNat_inj, UInt32.toNat_mod, UInt32.toNat_sub_of_le _ _ hle, Nat.dvd_iff_mod_eq_zero]
    rfl

end SnapshotRequestInformation

/-- This is also what the file has of a request. -/
structure SnapshotScheduleResult extends SnapshotRequestInformation where
  snapshotRequestId : UInt32
  deriving DecidableEq

structure SnapshotScheduleInformation extends SnapshotScheduleResult where
  pendingSnapshots : List SnapshotInformation := []
  deriving DecidableEq

/-- `_snapshot_requests`, in the order of `as_vector`. -/
structure SnapshotRequests where
  rows : List SnapshotScheduleInformation
  ids : (rows.map (·.snapshotRequestId)).Nodup
  values : (rows.map (·.value)).Nodup

namespace SnapshotRequests
variable (t : SnapshotRequests)

def empty : SnapshotRequests := ⟨[], by simp, by simp⟩

def insert (r : SnapshotScheduleInformation) : SnapshotRequests :=
  if h : ∃ q ∈ t.rows, q.snapshotRequestId = r.snapshotRequestId ∨ q.value = r.value then t
  else
    { rows := t.rows ++ [r]
      ids := by simpa [nodup_append] using ⟨t.ids, fun q hq he => h ⟨q, hq, .inl he⟩⟩
      values := by simpa [nodup_append] using ⟨t.values, fun q hq he => h ⟨q, hq, .inr he⟩⟩ }

def erase (id : UInt32) : SnapshotRequests where
  rows := t.rows.filter (·.snapshotRequestId ≠ id)
  ids := t.ids.sublist (filter_sublist.map _)
  values := t.values.sublist (filter_sublist.map _)

def modify (id : UInt32) (f : List SnapshotInformation → List SnapshotInformation) : SnapshotRequests where
  rows := t.rows.map fun r =>
    if r.snapshotRequestId = id then { r with pendingSnapshots := f r.pendingSnapshots } else r
  ids := by simpa [Function.comp_def, apply_ite] using t.ids
  values := by simpa [Function.comp_def, apply_ite] using t.values

end SnapshotRequests

/-- An entry of `_pending_snapshot_index`, with the request that its `next` was made for. -/
structure PendingSnapshot where
  info : SnapshotInformation
  srid : UInt32
  deriving DecidableEq

structure SnapshotChain where
  head : SnapshotInformation
  irreversibleMode : Bool := false
  finalExists : Bool := false -- `fs::is_regular_file(snapshot_path)`
  written : Bool := true -- the file was written and renamed
  deriving DecidableEq

structure HashOrder where
  order : List SnapshotScheduleInformation → List SnapshotScheduleInformation
  perm : ∀ rows, (order rows).Perm rows

structure SnapshotScheduler where
  requests : SnapshotRequests := .empty
  pending : List PendingSnapshot := []
  snapshotId : UInt32 := 0
  inflightSid : UInt32 := 0
  db : Option (List SnapshotScheduleResult) := none -- `snapshot-schedule.json`

namespace SnapshotScheduler
variable (o : HashOrder) (s : SnapshotScheduler)

def live : List SnapshotScheduleResult := s.requests.rows.map (·.toSnapshotScheduleResult)

def xSerialize : SnapshotScheduler := { s with db := some s.live }

def checkRequest (sri : SnapshotRequestInformation) : Result Unit := do
  eosAssert (∀ q ∈ s.requests.rows, q.value ≠ sri.value) .duplicateSnapshotRequest "Duplicate snapshot request"
  eosAssert (sri.startBlockNum ≤ sri.endBlockNum) .invalidSnapshotRequest
    "End block number should be greater or equal to start block number"
  eosAssert (sri.startBlockNum + sri.blockSpacing ≤ sri.endBlockNum) .invalidSnapshotRequest
    "Block spacing exceeds defined by start and end range"

/-- An error goes to `next`; the result is returned in any case. -/
def scheduleSnapshot (sri : SnapshotRequestInformation) : SnapshotScheduler × Result Unit × SnapshotScheduleResult :=
  let reported := s.checkRequest sri
  let s := match reported with
    | .ok () => { s with requests := s.requests.insert ⟨⟨sri, s.snapshotId⟩, []⟩, snapshotId := s.snapshotId + 1 }.xSerialize
    | .error _ => s
  (s, reported, ⟨sri, s.snapshotId - 1⟩)

def unscheduleSnapshot (sri : UInt32) : SnapshotScheduler × Result SnapshotScheduleResult :=
  match s.requests.rows.find? (·.snapshotRequestId = sri) with
  | none => (s, .error (.thrown .snapshotRequestNotFound "Snapshot request not found"))
  | some r => ({ s with requests := s.requests.erase sri }.xSerialize, .ok r.toSnapshotScheduleResult)

def unscheduleAll (s : SnapshotScheduler) : List UInt32 → SnapshotScheduler × Result Unit
  | [] => (s, .ok ())
  | i :: is =>
    match s.unscheduleSnapshot i with
    | (s, .ok _) => unscheduleAll s is
    | (s, .error e) => (s, .error e)

def unscheduleSnapshotRequests (libHeight : UInt32) : SnapshotScheduler × Result Unit :=
  s.unscheduleAll (((o.order s.requests.rows).filter (·.markedForDeletion libHeight)).map (·.snapshotRequestId))

/-- A row of the file; `end_block_num` 0 is an old form of "forever". -/
def reloaded (ssi : SnapshotScheduleResult) : SnapshotScheduleInformation :=
  ⟨{ ssi with endBlockNum := if ssi.endBlockNum = 0 then 0xffffffff else ssi.endBlockNum }, []⟩

def setDbPath : SnapshotScheduler :=
  match s.db with
  | none => s
  | some sr => { s with requests := (sr.map reloaded).foldl SnapshotRequests.insert .empty }

def finalized (srid num : UInt32) : SnapshotScheduler :=
  { s with requests := s.requests.modify srid (·.filter (num < ·.headBlockNum)) }

/-- The flag says whether a snapshot was created. In irreversible mode it is final at once. -/
def createSnapshot (c : SnapshotChain) (srid : UInt32) : SnapshotScheduler × Bool :=
  if c.finalExists then (s, false)
  else if c.irreversibleMode then
    if c.written then ((unscheduleSnapshotRequests o (s.finalized srid c.head.headBlockNum) c.head.headBlockNum).1, true)
    else (s, false)
  else if ∃ p ∈ s.pending, p.info.headBlockId = c.head.headBlockId then (s, false)
  else if c.written then
    ({ s with
        pending := s.pending ++ [⟨c.head, srid⟩]
        requests := s.requests.modify s.inflightSid (· ++ [c.head]) }, true)
  else (s, false)

def executeSnapshot (c : SnapshotChain) (srid : UInt32) : SnapshotScheduler × Bool :=
  createSnapshot o { s with inflightSid := srid } c srid

/-- One round of `on_start_block`; the result has the request that was executed and whether this created a snapshot. -/
def executeDue (height : UInt32) (c : SnapshotChain) (acc : SnapshotScheduler × Option (SnapshotScheduleInformation × Bool))
    (req : SnapshotScheduleInformation) : SnapshotScheduler × Option (SnapshotScheduleInformation × Bool) :=
  -- one snapshot per height
  if req.due height ∧ acc.2 = none then
    let e := executeSnapshot o acc.1 c req.snapshotRequestId
    (e.1, some (req, e.2))
  else acc

def executeRequests (height : UInt32) (c : SnapshotChain) : SnapshotScheduler × Option (SnapshotScheduleInformation × Bool) :=
  (o.order s.requests.rows).foldl (executeDue o height c) (s, none)

/-- The loop goes on from the request that was executed: undefined if it was erased. -/
def onStartBlock (height : UInt32) (c : SnapshotChain) :
    Result (SnapshotScheduler × Option (SnapshotScheduleInformation × Bool)) :=
  let res := executeRequests o s height c
  if ∀ e ∈ res.2, e.1.snapshotRequestId ∈ res.1.live.map (·.snapshotRequestId) then .ok res
  else .error (.undefined "++ of an iterator to an erased snapshot request")

/-- `pending_snapshot::finalize` succeeds; `renamed` says for which ids the file could be renamed. -/
def finalizes (lib : SnapshotInformation) (renamed : Nat → Bool) (p : PendingSnapshot) : Bool :=
  (lib.headBlockId = p.info.headBlockId ∨ p.info.headBlockNum < lib.headBlockNum) ∧ renamed p.info.headBlockId

/-- Each finalized snapshot only removes from lists of pending ones, so their order does not matter. -/
def onIrreversibleBlock (lib : SnapshotInformation) (renamed : Nat → Bool) : SnapshotScheduler × Result Unit :=
  let done := s.pending.filter (·.info.headBlockNum ≤ lib.headBlockNum)
  let s := (done.filter (finalizes lib renamed)).foldl (fun s p => s.finalized p.srid p.info.headBlockNum) s
  unscheduleSnapshotRequests o
    { s with pending := s.pending.filter (lib.headBlockNum < ·.info.headBlockNum) } lib.headBlockNum

inductive Event
  | schedule (sri : SnapshotRequestInformation)
  | unschedule (sri : UInt32)
  | irreversible (lib : SnapshotInformation) (renamed : Nat → Bool)
  | startBlock (c : SnapshotChain)
  | restart

/-- `block_start` is emitted with the number after the head's. A new process has the file only. -/
def step : Event → SnapshotScheduler
  | .schedule sri => (s.scheduleSnapshot sri).1
  | .unschedule sri => (s.unscheduleSnapshot sri).1
  | .irreversible lib renamed => (onIrreversibleBlock o s lib renamed).1
  | .startBlock c => ((onStartBlock o s (c.head.headBlockNum + 1) c).toOption.map Prod.fst).getD s
  | .restart => setDbPath { db := s.db }

def Along (P : SnapshotScheduler → Event → Prop) : SnapshotScheduler → List Event → Prop
  | _, [] => True
  | s, e :: es => P s e ∧ Along P (step o s e) es

/-- A new request has an id of its own and an end, and a block start is not one in irreversible mode. -/
def Fresh (e : Event) : Prop :=
  (∀ sri, e = .schedule sri → s.checkRequest sri = .ok () →
    s.snapshotId ∉ s.live.map (·.snapshotRequestId) ∧ sri.endBlockNum ≠ 0) ∧
  ∀ c, e = .startBlock c → c.irreversibleMode = false

/-- The file lists the live requests; no file stands for no requests. -/
def Saved : Prop := s.db.getD [] = s.live

/-- What an event has to do: a reported success adds the request under the returned id, ids stay unique, and the file
has the live requests. -/
structure Registers (e : Event) : Prop where
  defined : ∀ c, e = .startBlock c → (onStartBlock o s (c.head.headBlockNum + 1) c).isOk = true
  added : ∀ sri, e = .schedule sri → (s.scheduleSnapshot sri).2.1 = .ok () →
    (s.scheduleSnapshot sri).2.2.toSnapshotRequestInformation = sri ∧
      (step o s e).live = s.live ++ [(s.scheduleSnapshot sri).2.2]
  ids : ((step o s e).live.map (·.snapshotRequestId)).Nodup
  saved : (step o s e).Saved

structure Inv : Prop where
  saved : s.Saved
  ends : ∀ r ∈ s.live, r.endBlockNum ≠ 0

/-- The condition at a block start: the read mode is not irreversible, no request that is due is past its end, one request at
most asks for the head, and no sum wraps. -/
structure Calm (c : SnapshotChain) : Prop where
  mode : c.irreversibleMode = false
  head : c.head.headBlockNum ≠ 0xffffffff
  starts : ∀ r ∈ s.requests.rows, r.due (c.head.headBlockNum + 1) = true → r.startBlockNum ≠ 0xffffffff
  ends : ∀ r ∈ s.requests.rows, r.due (c.head.headBlockNum + 1) = true → c.head.headBlockNum ≤ r.endBlockNum
  one : ∀ r ∈ s.requests.rows, ∀ q ∈ s.requests.rows,
    r.Asks c.head.headBlockNum → q.Asks c.head.headBlockNum → r = q

/-- What a block start has to do: it returns, a snapshot is for a live request that asks for the head, and if it is created, all that
ask for the head have it pending. -/
def Executes (c : SnapshotChain) : Prop :=
  (onStartBlock o s (c.head.headBlockNum + 1) c).isOk = true ∧
  ∀ r created s', onStartBlock o s (c.head.headBlockNum + 1) c = .ok (s', some (r, created)) →
    r ∈ s.requests.rows ∧ r.Asks c.head.headBlockNum ∧
      (created = true → ∀ q ∈ s'.requests.rows, q.Asks c.head.headBlockNum → c.head ∈ q.pendingSnapshots)

variable {o} {s}

theorem live_ids : (s.live.map (·.snapshotRequestId)).Nodup := by
  simpa [live, Function.comp_def] using s.requests.ids

theorem live_values : (s.live.map (·.value)).Nodup := by
  simpa [live, Function.comp_def] using s.requests.values

theorem live_modify (id : UInt32) (f : List SnapshotInformation → List SnapshotInformation) :
    (s.requests.modify id f).rows.map (·.toSnapshotScheduleResult) = s.live := by
  simp [SnapshotRequests.modify, live, Function.comp_def, apply_ite]

theorem Inv.of_eq {s' : SnapshotScheduler} (h : s.Inv) (hd : s'.db = s.db) (hl : s'.live = s.live) : s'.Inv where
  saved := by rw [Saved, hd, hl]; exact h.saved
  ends := by rw [hl]; exact h.ends

theorem Inv.finalized (h : s.Inv) (srid num : UInt32) : (s.finalized srid num).Inv :=
  h.of_eq rfl (live_modify srid _)

theorem Inv.unscheduleSnapshot (h : s.Inv) (sri : UInt32) : (s.unscheduleSnapshot sri).1.Inv := by
  unfold SnapshotScheduler.unscheduleSnapshot
  split
  · exact h
  · refine ⟨rfl, fun r hr => h.ends r ?_⟩
    simp only [live, xSerialize, SnapshotRequests.erase, mem_map, mem_filter] at hr ⊢
    obtain ⟨q, hq, rfl⟩ := hr
    exact ⟨q, hq.1, rfl⟩

theorem Inv.unscheduleAll (is : List UInt32) (h : s.Inv) : (s.unscheduleAll is).1.Inv := by
  induction is generalizing s with
  | nil => exact h
  | cons i is ih =>
    have hi := h.unscheduleSnapshot i
    unfold SnapshotScheduler.unscheduleAll
    split <;> simp_all

theorem Inv.createSnapshot (h : s.Inv) (c : SnapshotChain) (srid : UInt32) : (createSnapshot o s c srid).1.Inv := by
  unfold SnapshotScheduler.createSnapshot
  split_ifs
  · exact h
  · exact (h.finalized _ _).unscheduleAll _
  · exact h
  · exact h
  · exact h.of_eq rfl (live_modify _ _)
  · exact h

theorem Inv.executeRequests (h : s.Inv) (height : UInt32) (c : SnapshotChain) : (executeRequests o s height c).1.Inv := by
  refine List.foldlRecOn (motive := fun acc : SnapshotScheduler × _ => acc.1.Inv) _ _ h fun acc ha req _ => ?_
  unfold executeDue
  split
  · exact Inv.createSnapshot (s := { acc.1 with inflightSid := req.snapshotRequestId }) (ha.of_eq rfl rfl) c _
  · exact ha

theorem Inv.onStartBlock (h : s.Inv) (height : UInt32) (c : SnapshotChain) :
    (((onStartBlock o s height c).toOption.map Prod.fst).getD s).Inv := by
  unfold SnapshotScheduler.onStartBlock
  dsimp only
  split
  · exact h.executeRequests height c
  · exact h

theorem Inv.onIrreversibleBlock (h : s.Inv) (lib : SnapshotInformation) (renamed : Nat → Bool) :
    (onIrreversibleBlock o s lib renamed).1.Inv := by
  refine Inv.unscheduleAll _ (Inv.of_eq (s := List.foldl _ s _) ?_ rfl rfl)
  exact List.foldlRecOn _ _ h fun s hs p _ => hs.finalized _ _

theorem foldl_insert_rows (sr : List SnapshotScheduleInformation) (t : SnapshotRequests)
    (hid : ((t.rows ++ sr).map (·.snapshotRequestId)).Nodup) (hv : ((t.rows ++ sr).map (·.value)).Nodup) :
    (sr.foldl SnapshotRequests.insert t).rows = t.rows ++ sr := by
  induction sr generalizing t with
  | nil => simp
  | cons r sr ih =>
    have ht : (t.insert r).rows = t.rows ++ [r] := by
      have hc : ¬ ∃ q ∈ t.rows, q.snapshotRequestId = r.snapshotRequestId ∨ q.value = r.value := by
        rintro ⟨q, hq, he | he⟩
        · simp only [map_append, nodup_append] at hid
          exact hid.2.2 _ (mem_map_of_mem hq) _ (by simp) he
        · simp only [map_append, nodup_append] at hv
          exact hv.2.2 _ (mem_map_of_mem hq) _ (by simp) he
      simp [SnapshotRequests.insert, hc]
    rw [foldl_cons, ih _ (by simpa [ht] using hid) (by simpa [ht] using hv), ht]
    simp

theorem Inv.restart (h : s.Inv) : (setDbPath { db := s.db }).Inv := by
  refine h.of_eq ?_ ?_
  · unfold setDbPath
    split <;> rfl
  have hs : s.db.getD [] = s.live := h.saved
  unfold setDbPath
  cases hd : s.db with
  | none =>
    rw [hd] at hs
    exact hs
  | some sr =>
    rw [hd, Option.getD_some] at hs
    subst hs
    have he : s.live.map reloaded = s.live.map (⟨·, []⟩) :=
      map_congr_left fun r hr => by rw [reloaded, if_neg (h.ends r hr)]
    have hr := foldl_insert_rows (s.live.map (⟨·, []⟩)) .empty
      (by simpa [SnapshotRequests.empty, Function.comp_def] using live_ids)
      (by simpa [SnapshotRequests.empty, Function.comp_def] using live_values)
    change List.map _ ((s.live.map reloaded).foldl SnapshotRequests.insert .empty).rows = s.live
    rw [he, hr]
    simp [SnapshotRequests.empty, Function.comp_def]

theorem scheduleSnapshot_live {sri : SnapshotRequestInformation} (hc : s.checkRequest sri = .ok ())
    (hid : s.snapshotId ∉ s.live.map (·.snapshotRequestId)) :
    (s.scheduleSnapshot sri).1.live = s.live ++ [⟨sri, s.snapshotId⟩] ∧
      (s.scheduleSnapshot sri).2.2 = ⟨sri, s.snapshotId⟩ := by
  have hv : ∀ q ∈ s.requests.rows, q.value ≠ sri.value := by
    simpa using (unit_ok hc).1
  have hn : ¬ ∃ q ∈ s.requests.rows, q.snapshotRequestId = s.snapshotId ∨ q.value = sri.value := by
    rintro ⟨q, hq, he | he⟩
    · exact hid (mem_map.2 ⟨_, mem_map_of_mem hq, he⟩)
    · exact hv q hq he
  simp [scheduleSnapshot, hc, live, xSerialize, SnapshotRequests.insert, hn]

theorem foldl_execute (height : UInt32) (c : SnapshotChain) (rows : List SnapshotScheduleInformation)
    (acc : SnapshotScheduler × Option (SnapshotScheduleInformation × Bool)) :
    let res := rows.foldl (executeDue o height c) acc
    (acc.2 ≠ none → res = acc) ∧ (acc.2 = none → ∀ r created s', res = (s', some (r, created)) →
      r ∈ rows ∧ r.due height ∧ executeSnapshot o acc.1 c r.snapshotRequestId = (s', created)) := by
  induction rows generalizing acc with
  | nil =>
    cases acc
    simp +contextual
  | cons q rows ih =>
    by_cases hq : q.due height = true ∧ acc.2 = none
    · simp only [foldl_cons, executeDue, hq, and_self, if_true]
      rw [(ih _).1 (by simp)]
      grind
    · simp only [foldl_cons, executeDue, hq, if_false]
      grind

theorem onStartBlock_ok {c : SnapshotChain} (hm : c.irreversibleMode = false) (height : UInt32) :
    onStartBlock o s height c = .ok (executeRequests o s height c) := by
  refine if_pos fun e he => ?_
  obtain ⟨hr, -, hex⟩ := (foldl_execute height c (o.order s.requests.rows) (s, none)).2 rfl e.1 e.2
    (executeRequests o s height c).1 (by rw [← executeRequests, ← Option.mem_def.1 he])
  -- no request is erased but in irreversible mode
  have hl : (executeSnapshot o s c e.1.snapshotRequestId).1.live = s.live := by
    unfold executeSnapshot createSnapshot
    simp only [hm, Bool.false_eq_true, if_false]
    split_ifs
    · rfl
    · rfl
    · exact live_modify _ _
    · rfl
  rw [hex] at hl
  rw [hl]
  exact mem_map.2 ⟨_, mem_map_of_mem ((o.perm _).mem_iff.1 hr), rfl⟩

theorem Inv.step (h : s.Inv) {e : Event} (hf : Fresh s e) : Registers o s e ∧ (step o s e).Inv := by
  have hi : (SnapshotScheduler.step o s e).Inv := by
    cases e with
    | schedule sri =>
      cases hc : s.checkRequest sri with
      | error x => simpa [SnapshotScheduler.step, scheduleSnapshot, hc] using h
      | ok u =>
        obtain ⟨hid, he⟩ := hf.1 sri rfl hc
        refine ⟨by simp [SnapshotScheduler.step, scheduleSnapshot, hc, Saved, xSerialize, live], ?_⟩
        rw [SnapshotScheduler.step, (scheduleSnapshot_live hc hid).1]
        simpa [or_imp, forall_and, he] using h.ends
    | unschedule sri => exact h.unscheduleSnapshot sri
    | irreversible lib renamed => exact h.onIrreversibleBlock lib renamed
    | startBlock c => exact h.onStartBlock _ c
    | restart => exact h.restart
  refine ⟨⟨fun c he => by rw [onStartBlock_ok (hf.2 c he)]; rfl, ?_, live_ids, hi.saved⟩, hi⟩
  rintro sri rfl hc
  obtain ⟨hl, hr⟩ := scheduleSnapshot_live hc (hf.1 sri rfl hc).1
  rw [hr]
  exact ⟨rfl, hl⟩

/-- **Every event of a run keeps the registry.** -/
theorem run_registers (o : HashOrder) (es : List Event) (hf : Along o Fresh {} es) : Along o (Registers o) {} es := by
  have hrun : ∀ (es : List Event) (s : SnapshotScheduler), s.Inv → Along o Fresh s es → Along o (Registers o) s es := by
    intro es
    induction es with
    | nil => exact fun _ _ _ => trivial
    | cons e es ih => exact fun s h hf => ⟨(h.step hf.1).1, ih _ (h.step hf.1).2 hf.2⟩
  exact hrun es {} ⟨rfl, by simp [live, SnapshotRequests.empty]⟩ hf

def sampleOrder : HashOrder := ⟨id, fun _ => .refl _⟩

theorem run_registers_sample : Along sampleOrder (Registers sampleOrder) {} [.schedule { startBlockNum := 5 },
    .schedule { blockSpacing := 2, startBlockNum := 6 }, .startBlock { head := ⟨77, 5⟩ }, .unschedule 0, .restart] := by
  refine run_registers _ _ ⟨⟨?_, nofun⟩, ⟨?_, nofun⟩, ⟨nofun, ?_⟩, ⟨nofun, nofun⟩, ⟨nofun, nofun⟩, trivial⟩
  · rintro _ ⟨⟩ _
    decide
  · rintro _ ⟨⟩ _
    decide
  · rintro _ ⟨⟩
    rfl

/-- After a restart the counter is at 0 again: with request 0 still live, the next one is reported and saved nowhere. -/
theorem request_lost_after_restart :
    let s := step sampleOrder (step sampleOrder {} (.schedule { startBlockNum := 5 })) .restart
    (s.scheduleSnapshot { startBlockNum := 9 }).2 = (.ok (), ⟨{ startBlockNum := 9 }, 0⟩) ∧
      (s.scheduleSnapshot { startBlockNum := 9 }).1.live = [⟨{ startBlockNum := 5 }, 0⟩] := by
  decide

theorem executeSnapshot_created {c : SnapshotChain} {srid : UInt32} {s' : SnapshotScheduler}
    (hm : c.irreversibleMode = false) (h : executeSnapshot o s c srid = (s', true)) :
    s'.requests = s.requests.modify srid (· ++ [c.head]) := by
  unfold executeSnapshot createSnapshot at h
  split_ifs at h <;> grind

theorem Calm.executes {c : SnapshotChain} (hc : s.Calm c) : Executes o s c := by
  rw [Executes, onStartBlock_ok hc.mode]
  refine ⟨rfl, fun r created s' hr => ?_⟩
  obtain ⟨hm, hd, he⟩ := (foldl_execute (c.head.headBlockNum + 1) c _ (s, none)).2 rfl r created s' (Except.ok.inj hr)
  rw [(o.perm _).mem_iff] at hm
  have ha := (r.due_iff hc.head (hc.starts r hm hd) (hc.ends r hm hd)).1 hd
  refine ⟨hm, ha, ?_⟩
  rintro rfl q hq hqa
  rw [executeSnapshot_created hc.mode he] at hq
  obtain ⟨q', hq', rfl⟩ := mem_map.1 hq
  have hq'a : q'.Asks c.head.headBlockNum := by
    split_ifs at hqa <;> exact hqa
  simp [hc.one q' hq' r hm hq'a ha]

/-- **Every block start of a run executes what is asked for**, with any events between. -/
theorem run_executes (o : HashOrder) (es : List Event) (s : SnapshotScheduler)
    (hc : Along o (fun s e => ∀ c, e = .startBlock c → s.Calm c) s es) :
    Along o (fun s e => ∀ c, e = .startBlock c → Executes o s c) s es := by
  induction es generalizing s with
  | nil => trivial
  | cons e es ih => exact ⟨fun c he => (hc.1 c he).executes, ih _ hc.2⟩

theorem run_executes_sample : Along sampleOrder (fun s e => ∀ c, e = .startBlock c → Executes sampleOrder s c) {}
    [.schedule { startBlockNum := 5 }, .startBlock { head := ⟨77, 5⟩ }] := by
  refine run_executes _ _ _ ⟨nofun, ?_, trivial⟩
  rintro _ ⟨⟩
  refine ⟨rfl, by decide, by decide, by decide, ?_⟩
  intro r hr q hq _ _
  rw [mem_singleton.1 hr, mem_singleton.1 hq]

/-- A request for 1 and 3 is executed at 5, if 3 is not irreversible yet; and of two requests for block 5 one has the
snapshot pending. -/
theorem executed_past_end :
    let late := step sampleOrder {} (.schedule { blockSpacing := 2, startBlockNum := 1, endBlockNum := 3 })
    let two := step sampleOrder (step sampleOrder {} (.schedule { startBlockNum := 5 })) (.schedule
      { blockSpacing := 2, startBlockNum := 3 })
    let c : SnapshotChain := { head := ⟨77, 5⟩ }
    (onStartBlock sampleOrder late 6 c).toOption.bind Prod.snd = some (⟨⟨{ blockSpacing := 2, startBlockNum := 1, endBlockNum := 3 }, 0⟩, []⟩, true) ∧
      (onStartBlock sampleOrder two 6 c).toOption.map (·.1.requests.rows) =
        some [⟨⟨{ startBlockNum := 5 }, 0⟩, [c.head]⟩, ⟨⟨{ blockSpacing := 2, startBlockNum := 3 }, 1⟩, []⟩] := by
  decide

end SnapshotScheduler
end TheChannel
