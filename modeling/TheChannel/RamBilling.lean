import TheChannel.HostContext
/-!
# RamBilling — recorded RAM usage and the rows that are paid for

What an account pays for is the sum of the billable sizes of its rows and tables. Each function that an action calls
changes the recorded usage of every account by the change of that sum. In a sync call nothing is recorded.
-/
namespace TheChannel
open HostState HostContext List

namespace HostState
variable (s : HostState) (a : Nat) {s' : HostState} {account p : Nat}

def usage : Int := ((s.ramUsage a).getD 0 : Nat)

def paid (payer : Nat) (amount : Int) : Int := if payer = a then amount else 0

def sizes (rows : Heap Row) (tables : Heap TableIdObject) : Int :=
  rows.total (fun r => paid a r.payer r.billable) + tables.total (fun t => paid a t.payer tableIdSize)

def billable : Int := sizes a s.rows s.tables

variable {s a}

theorem addRamUsage_usage {delta : Int} (h : s.addRamUsage account delta = .ok s') :
    s'.usage a = s.usage a + paid a account delta ∧ s'.tables = s.tables ∧ s'.rows = s.rows := by
  obtain ⟨s₁, hs1, h⟩ := bind_ok h
  cases h
  change s₁.usage a = _ ∧ _
  unfold addPendingRamUsage at hs1
  by_cases hz : delta = 0
  · rw [if_pos hz] at hs1
    cases hs1
    refine ⟨?_, rfl, rfl⟩
    unfold paid
    rw [hz, ite_self, Int.add_zero]
  · rw [if_neg hz] at hs1
    split at hs1
    · cases hs1
    rename_i u hu
    replace hs1 := rest_ok hs1
    obtain ⟨hund, hs1⟩ := unit_ok hs1
    cases hs1
    refine ⟨?_, rfl, rfl⟩
    simp only [eosAssert_ok_iff, Bool.or_eq_true, decide_eq_true_eq] at hund
    unfold usage paid
    by_cases ha : account = a
    · subst ha
      simp only [Function.update_self, hu, Option.getD_some, if_true]
      omega
    · simp only [Function.update_of_ne (Ne.symm ha), if_neg ha, Int.add_zero]

/-! ## Changes of what is paid for -/

section Sizes

variable {rows : Heap Row} {tables : Heap TableIdObject} {x : TableIdObject}

theorem sizes_createRow (hint : Nat) (r : Row) :
    sizes a (rows.create hint r) tables = sizes a rows tables + paid a r.payer r.billable := by
  unfold sizes
  rw [Heap.total_create]
  omega

variable {p : Nat}

theorem sizes_setCount (n : Nat) (hp : tables.get p = some x) :
    sizes a rows (tables.set p { x with count := n }) = sizes a rows tables := by
  unfold sizes
  rw [Heap.total_set _ _ hp, Int.sub_add_cancel]

end Sizes

theorem derefTable_ok {t : TableIdObject} (h : s.derefTable p = .ok t) : s.tables.get p = some t := by
  unfold derefTable at h
  split at h
  case h_2 => cases h
  rename_i x hg
  cases h
  exact hg

theorem derefRow_ok {kind : RowKind} {r : Row} (h : s.derefRow kind p = .ok r) :
    s.rows.get p = some r ∧ r.kind = kind := by
  unfold derefRow at h
  split at h
  case h_2 => cases h
  rename_i x hg
  cases h
  obtain ⟨hget, hk⟩ := Option.filter_eq_some_iff.1 hg
  exact ⟨hget, of_decide_eq_true hk⟩

theorem paid_neg (payer : Nat) (amount : Int) : paid a payer (-amount) = -paid a payer amount := by
  unfold paid
  split <;> omega

theorem paid_sub (payer : Nat) (x y : Int) : paid a payer (x - y) = paid a payer x - paid a payer y := by
  unfold paid
  split <;> omega

end HostState

open HostState (paid)

namespace HostContext
variable {c : HostContext} {s s' s₁ : HostState} {a payer code scope table hint p id : Nat} {kind : RowKind} {out : HostOut}
  {value : List Nat} {iterator : Int} {i : IndexKind} {f : HostCall}

def recorded (c : HostContext) (amount : Int) : Int := if c.isSyncCall then 0 else amount

theorem updateDbUsage_usage {delta : Int} (h : c.updateDbUsage payer delta s = .ok s') :
    (∀ a, s'.usage a = s.usage a + c.recorded (paid a payer delta)) ∧ s'.tables = s.tables ∧ s'.rows = s.rows := by
  unfold updateDbUsage at h
  unfold recorded isSyncCall
  cases hact : c.action with
  | none =>
    rw [hact] at h
    cases h
    exact ⟨fun a => (Int.add_zero _).symm, rfl, rfl⟩
  | some act =>
    rw [hact] at h
    replace h := rest_ok h
    exact ⟨fun a => (addRamUsage_usage h).1, (addRamUsage_usage (a := 0) h).2⟩

theorem recorded_add (c : HostContext) (x y : Int) : c.recorded (x + y) = c.recorded x + c.recorded y := by
  unfold recorded
  split <;> omega

/-- **Every account's recorded usage changes as what it pays for**, in an action; in a sync call it does not change. -/
def Billed (c : HostContext) (s s' : HostState) : Prop :=
  ∀ a, s'.usage a = s.usage a + c.recorded (s'.billable a - s.billable a)

theorem Billed.refl (c : HostContext) (s : HostState) : c.Billed s s := by
  intro a
  unfold recorded
  rw [Int.sub_self, ite_self, Int.add_zero]

theorem Billed.trans {s2 s3 : HostState} (h : c.Billed s₁ s2) (h' : c.Billed s2 s3) : c.Billed s₁ s3 := by
  intro a
  rw [h' a, h a, Int.add_assoc, ← recorded_add]
  congr 2
  omega

variable (amount : Nat → Int)

theorem Billed.of_amount (hu : ∀ a, s'.usage a = s.usage a + c.recorded (amount a))
    (hb : ∀ a, s'.billable a = s.billable a + amount a) : c.Billed s s' := by
  intro a
  rw [hu a, hb a, add_sub_cancel_left]

/-! ## Tables -/

theorem findOrCreateTable_billed {r : Nat × HostState}
    (h : c.findOrCreateTable code scope table payer hint s = .ok r) : c.Billed s r.2 := by
  unfold findOrCreateTable at h
  cases hf : s.findTable code scope table with
  | some p =>
    rw [hf] at h
    cases h
    exact Billed.refl c s
  | none =>
    rw [hf] at h
    obtain ⟨s₁, hs1, h⟩ := bind_ok h
    cases h
    obtain ⟨hu, ht, hr⟩ := updateDbUsage_usage hs1
    refine Billed.of_amount _ hu fun a => ?_
    show sizes a s₁.rows (s₁.tables.create hint _) = sizes a s.rows s.tables + _
    unfold sizes
    rw [Heap.total_create, ht, hr]
    dsimp only
    omega

theorem removeTable_billed (h : c.removeTable p s = .ok s') : c.Billed s s' := by
  obtain ⟨t, ht, h⟩ := bind_ok h
  obtain ⟨s₁, hs1, h⟩ := bind_ok h
  cases h
  obtain ⟨hu, htab, hrow⟩ := updateDbUsage_usage hs1
  refine Billed.of_amount _ hu fun a => ?_
  show sizes a s₁.rows (s₁.tables.remove p) = sizes a s.rows s.tables + _
  unfold sizes
  rw [htab, hrow, Heap.total_remove _ (derefTable_ok ht), paid_neg]
  omega

theorem releaseTable_billed {q : Nat} {tab : TableIdObject} (hq : s.tables.get q = some tab)
    (h : c.releaseTable q tab s = .ok s') : c.Billed s s' := by
  have hco : c.Billed s { s with tables := s.tables.set q { tab with count := tab.count - 1 } } := by
    intro a
    have hs : billable { s with tables := s.tables.set q { tab with count := tab.count - 1 } } a =
        s.billable a := sizes_setCount _ hq
    rw [hs, Int.sub_self]
    unfold recorded
    rw [ite_self, Int.add_zero]
    rfl
  unfold releaseTable at h
  by_cases hz : tab.count - 1 = 0
  · rw [if_pos hz] at h
    exact hco.trans (removeTable_billed h)
  · rw [if_neg hz] at h
    cases h
    exact hco

/-! ## Rows -/

/-- **A context stays what it is**: only its caches change. -/
def Keeps (c c' : HostContext) : Prop := c'.readOnly = c.readOnly ∧ c'.action = c.action

theorem storeRow_ok (h : c.storeRow kind p payer id value hint s = .ok out) : c.Billed s out.state ∧ c.Keeps out.context := by
  obtain ⟨t, ht, h⟩ := bind_ok h
  obtain ⟨s₁, hs1, h⟩ := bind_ok h
  obtain ⟨s2, hs2, h⟩ := bind_ok h
  replace hs1 := rest_ok hs1
  cases h
  cases hs1
  obtain ⟨hu, htab, hrow⟩ := updateDbUsage_usage hs2
  refine ⟨Billed.of_amount (fun a => paid a payer (Row.billable ⟨kind, t.id, id, payer, value⟩)) hu fun a => ?_, rfl, rfl⟩
  show sizes a s2.rows s2.tables = sizes a s.rows s.tables + _
  rw [htab, hrow]
  show sizes a (s.rows.create hint _) (s.tables.set p _) = _
  rw [sizes_setCount _ (derefTable_ok ht), sizes_createRow]

theorem access_ok {acc : (Nat × Row) × Nat × TableIdObject} (h : c.access kind iterator s = .ok acc) :
    s.rows.get acc.1.1 = some acc.1.2 ∧ acc.1.2.kind = kind ∧ s.tables.get acc.2.1 = some acc.2.2 := by
  obtain ⟨p, -, h⟩ := bind_ok h
  obtain ⟨obj, hobj, h⟩ := bind_ok h
  obtain ⟨q, -, h⟩ := bind_ok h
  obtain ⟨tab, htab, h⟩ := bind_ok h
  replace h := rest_ok h
  cases h
  obtain ⟨hget, hk⟩ := derefRow_ok hobj
  exact ⟨hget, hk, derefTable_ok htab⟩

theorem removeRow_ok (h : c.removeRow kind iterator s = .ok out) : c.Billed s out.state ∧ c.Keeps out.context := by
  obtain ⟨acc, hacc, h⟩ := bind_ok h
  obtain ⟨s₁, hs1, h⟩ := bind_ok h
  obtain ⟨s2, hs2, h⟩ := bind_ok h
  obtain ⟨cache, -, h⟩ := bind_ok h
  cases h
  obtain ⟨hrow, -, htab⟩ := access_ok hacc
  obtain ⟨hu, ht, hr⟩ := updateDbUsage_usage hs1
  have hrem : c.Billed s { s₁ with rows := s₁.rows.remove acc.1.1 } := by
    refine Billed.of_amount _ hu fun a => ?_
    show sizes a (s₁.rows.remove acc.1.1) s₁.tables = sizes a s.rows s.tables + _
    unfold sizes
    rw [ht, hr, Heap.total_remove _ hrow, paid_neg]
    omega
  have htab1 : s₁.tables.get acc.2.1 = some acc.2.2 := ht ▸ htab
  exact ⟨hrem.trans (releaseTable_billed htab1 hs2), rfl, rfl⟩

theorem modified_billed {obj : Row} (hp : s.rows.get p = some obj) (ht : s₁.tables = s.tables) (hr : s₁.rows = s.rows)
    (hu : ∀ a, s₁.usage a = s.usage a + c.recorded (amount a)) (hb : ∀ a, amount a =
      paid a payer (Row.billable { obj with value, payer }) - paid a obj.payer obj.billable) :
    c.Billed s (c.modified p obj payer value s₁).state := by
  refine Billed.of_amount amount hu fun a => ?_
  show sizes a (s₁.rows.set p { obj with value, payer }) s₁.tables = sizes a s.rows s.tables + _
  unfold sizes
  rw [ht, hr, Heap.total_set _ _ hp, hb]
  dsimp only
  omega

theorem updateDbUsage_twice {x y : Nat} {d e : Int} (h : c.updateDbUsage x d s = .ok s₁)
    (h' : c.updateDbUsage y e s₁ = .ok s') :
    (∀ a, s'.usage a = s.usage a + c.recorded (paid a x d + paid a y e)) ∧ s'.tables = s.tables ∧ s'.rows = s.rows := by
  obtain ⟨hu, ht, hr⟩ := updateDbUsage_usage h
  obtain ⟨hu', ht', hr'⟩ := updateDbUsage_usage h'
  exact ⟨fun a => by rw [hu', hu, recorded_add, Int.add_assoc], ht'.trans ht, hr'.trans hr⟩

theorem billable_keyValue {r : Row} (h : r.kind = .keyValue) :
    r.billable = r.value.length + RowKind.keyValue.billableSize := by
  unfold Row.billable
  rw [h]

theorem billable_index {r : Row} (h : r.kind = .index i) : r.billable = (RowKind.index i).billableSize := by
  unfold Row.billable
  rw [h]

theorem dbUpdateI64_ok {buffer : List Nat}
    (h : c.dbUpdateI64 iterator payer buffer s = .ok out) : c.Billed s out.state ∧ c.Keeps out.context := by
  obtain ⟨acc, hacc, h⟩ := bind_ok h
  obtain ⟨s₁, hs1, h⟩ := bind_ok h
  cases h
  refine ⟨?_, rfl, rfl⟩
  obtain ⟨hrow, hk, -⟩ := access_ok hacc
  have hold := billable_keyValue hk
  have hnew := billable_keyValue (r := { acc.1.2 with value := buffer, payer := payerOr payer acc.1.2 }) hk
  by_cases hpay : acc.1.2.payer ≠ payerOr payer acc.1.2
  · rw [if_pos hpay] at hs1
    obtain ⟨s2, hs2, hs1⟩ := bind_ok hs1
    obtain ⟨hu, ht, hr⟩ := updateDbUsage_twice hs2 hs1
    refine modified_billed _ hrow ht hr hu fun a => ?_
    rw [hold, hnew, paid_neg]
    push_cast
    omega
  · rw [if_neg hpay] at hs1
    have hs : acc.1.2.payer = payerOr payer acc.1.2 := not_not.1 hpay
    have hd : ∀ a, paid a (payerOr payer acc.1.2) (Row.billable { acc.1.2 with value := buffer, payer := payerOr payer acc.1.2 })
        - paid a acc.1.2.payer acc.1.2.billable = paid a acc.1.2.payer
          (((buffer.length : Int) + RowKind.keyValue.billableSize) - (acc.1.2.value.length + RowKind.keyValue.billableSize)) := by
      intro a
      rw [hold, hnew, ← hs, paid_sub]
      push_cast
      rfl
    by_cases hsi : ((acc.1.2.value.length : Int) + RowKind.keyValue.billableSize) ≠
        buffer.length + RowKind.keyValue.billableSize
    · rw [if_pos hsi] at hs1
      obtain ⟨hu, ht, hr⟩ := updateDbUsage_usage hs1
      exact modified_billed _ hrow ht hr hu fun a => (hd a).symm
    · rw [if_neg hsi] at hs1
      cases hs1
      refine modified_billed (fun _ => 0) hrow rfl rfl (fun a => ?_) fun a => ?_
      · unfold recorded
        rw [ite_self, Int.add_zero]
      · rw [hd a, ← not_not.1 hsi, Int.sub_self]
        unfold paid
        rw [ite_self]

theorem update_ok {secondary : List Nat}
    (h : c.update i iterator payer secondary s = .ok out) : c.Billed s out.state ∧ c.Keeps out.context := by
  obtain ⟨acc, hacc, h⟩ := bind_ok h
  obtain ⟨s₁, hs1, h⟩ := bind_ok h
  cases h
  refine ⟨?_, rfl, rfl⟩
  obtain ⟨hrow, hk, -⟩ := access_ok hacc
  have hold := billable_index hk
  have hnew := billable_index (r := { acc.1.2 with value := secondary, payer := payerOr payer acc.1.2 }) hk
  by_cases hpay : acc.1.2.payer ≠ payerOr payer acc.1.2
  · rw [if_pos hpay] at hs1
    obtain ⟨s2, hs2, hs1⟩ := bind_ok hs1
    obtain ⟨hu, ht, hr⟩ := updateDbUsage_twice hs2 hs1
    refine modified_billed _ hrow ht hr hu fun a => ?_
    rw [hold, hnew, paid_neg]
    omega
  · rw [if_neg hpay] at hs1
    cases hs1
    refine modified_billed (fun _ => 0) hrow rfl rfl (fun a => ?_) fun a => ?_
    · unfold recorded
      rw [ite_self, Int.add_zero]
    · rw [hold, hnew, ← not_not.1 hpay, Int.sub_self]

/-! ## Calls -/

/-! Reading changes the caches only. -/

theorem find_ok (h : c.find kind code scope table id s = .ok out) : out.state = s ∧ c.Keeps out.context := by
  unfold find at h
  cases hf : s.findTable code scope table with
  | none => rw [hf] at h; cases h; exact ⟨rfl, rfl, rfl⟩
  | some p =>
    rw [hf] at h
    obtain ⟨tab, -, h⟩ := bind_ok h
    simp only at h
    split at h <;> cases h <;> exact ⟨rfl, rfl, rfl⟩

theorem endOf_ok (h : c.endOf kind code scope table s = .ok out) : out.state = s ∧ c.Keeps out.context := by
  unfold endOf at h
  cases hf : s.findTable code scope table with
  | none => rw [hf] at h; cases h; exact ⟨rfl, rfl, rfl⟩
  | some p =>
    rw [hf] at h
    obtain ⟨tab, -, h⟩ := bind_ok h
    cases h
    exact ⟨rfl, rfl, rfl⟩

theorem visit_ok (h : c.visit kind p s = .ok out) : out.state = s ∧ c.Keeps out.context := by
  unfold visit at h
  split at h <;> cases h <;> exact ⟨rfl, rfl, rfl⟩

theorem call_ok (h : c.call s f = .ok out) :
    (c.Billed s out.state ∧ c.Keeps out.context) ∧ (c.readOnly = true → out.state = s) := by
  have hw : ∀ {r : Result HostOut}, (c.readOnlyCheck >>= fun _ => r) = .ok out →
      r = .ok out ∧ (c.readOnly = true → out.state = s) := by
    intro r hr
    obtain ⟨hch, hr⟩ := unit_ok hr
    refine ⟨hr, fun hro => ?_⟩
    unfold readOnlyCheck at hch
    rw [hro, eosAssert_ok_iff] at hch
    cases hch
  have hre : out.state = s ∧ c.Keeps out.context →
      (c.Billed s out.state ∧ c.Keeps out.context) ∧ (c.readOnly = true → out.state = s) := fun ⟨heq, hk⟩ =>
    ⟨⟨heq ▸ Billed.refl c s, hk⟩, fun _ => heq⟩
  cases f with
  | dbStoreI64 scope table payer id buffer tableHint hint =>
    obtain ⟨h, hro⟩ := hw h
    obtain ⟨tab, htab, h⟩ := bind_ok h
    replace h := rest_ok h
    exact ⟨(storeRow_ok h).imp_left (findOrCreateTable_billed htab).trans, hro⟩
  | dbUpdateI64 iterator payer buffer =>
    obtain ⟨h, hro⟩ := hw h
    exact ⟨dbUpdateI64_ok h, hro⟩
  | dbRemoveI64 iterator =>
    obtain ⟨h, hro⟩ := hw h
    exact ⟨removeRow_ok h, hro⟩
  | store i scope table payer id value tableHint hint =>
    obtain ⟨h, hro⟩ := hw h
    replace h := rest_ok h
    obtain ⟨tab, htab, h⟩ := bind_ok h
    exact ⟨(storeRow_ok h).imp_left (findOrCreateTable_billed htab).trans, hro⟩
  | update i iterator payer secondary =>
    obtain ⟨h, hro⟩ := hw h
    exact ⟨update_ok h, hro⟩
  | remove i iterator =>
    obtain ⟨h, hro⟩ := hw h
    exact ⟨removeRow_ok h, hro⟩
  | endOf kind code scope table => exact hre (endOf_ok h)
  | find kind code scope table id => exact hre (find_ok h)
  | visit kind p => exact hre (visit_ok h)

/-! ## Contexts -/

theorem invalidateIteratorCaches_keeps {c' : HostContext} (h : c.invalidateIteratorCaches p = .ok c') : c.Keeps c' := by
  iterate 6 obtain ⟨_, -, h⟩ := bind_ok h
  cases h
  exact ⟨rfl, rfl⟩

theorem broadcastErasure_keeps {p : Nat} : ∀ {cs cs'}, broadcastErasure p cs = .ok cs' →
    List.Forall₂ Keeps cs cs'
  | [], _, h => by
    cases h
    exact .nil
  | c :: cs, _, h => by
    obtain ⟨c', hc', h⟩ := bind_ok h
    obtain ⟨cs', hcs', h⟩ := bind_ok h
    cases h
    refine .cons (invalidateIteratorCaches_keeps hc') ?_
    by_cases hs : c.isSyncCall = true
    · rw [if_pos hs] at hcs'
      exact broadcastErasure_keeps hcs'
    · rw [if_neg hs] at hcs'
      cases hcs'
      exact List.forall₂_same.2 fun _ _ => ⟨rfl, rfl⟩

end HostContext

/-! ## Runs -/

namespace HostMachine
variable {m m' : HostMachine} {a : Nat} {op : HostOp}

def inSyncCall (m : HostMachine) : Bool := m.stack.head?.any isSyncCall

/-- **What changed in sync calls**: the sum of the changes of what an account pays for, over the steps made in them. -/
def syncCallChange (a : Nat) : List HostOp → HostMachine → Int
  | [], _ => 0
  | op :: ops, m =>
    match m.step op with
    | .error _ => 0
    | .ok m' =>
      (if m.inSyncCall then m'.state.billable a - m.state.billable a else 0) + syncCallChange a ops m'

theorem step_cases (h : m.step op = .ok m') :
    (∃ f c cs cs' out, op = .host f ∧ m.stack = c :: cs ∧ c.call m.state f = .ok out ∧ m' = ⟨out.context :: cs', out.state⟩ ∧
      List.Forall₂ HostContext.Keeps cs cs') ∨
    (m'.state = m.state ∧ contexts op m.stack = .ok m'.stack) := by
  cases op with
  | host f =>
    left
    have h : m.hostCall f m.stack = .ok m' := h
    cases hs : m.stack with
    | nil => rw [hs] at h; cases h
    | cons c cs =>
      rw [hs] at h
      obtain ⟨out, hout, h⟩ := bind_ok h
      obtain ⟨cs', hcs', h⟩ := bind_ok h
      cases h
      refine ⟨f, c, cs, cs', out, rfl, rfl, hout, rfl, ?_⟩
      split at hcs'
      · exact broadcastErasure_keeps hcs'
      · cases hcs'
        exact List.forall₂_same.2 fun _ _ => ⟨rfl, rfl⟩
  | action receiver privileged readOnly info =>
    cases h
    exact .inr ⟨rfl, rfl⟩
  | notify receiver privileged =>
    obtain ⟨stack, hst, h⟩ := bind_ok h
    cases h
    exact .inr ⟨rfl, hst⟩
  | call receiver privileged forceReadOnly =>
    obtain ⟨stack, hst, h⟩ := bind_ok h
    cases h
    exact .inr ⟨rfl, hst⟩
  | ret =>
    obtain ⟨stack, hst, h⟩ := bind_ok h
    cases h
    exact .inr ⟨rfl, hst⟩

theorem step_usage (h : m.step op = .ok m') :
    m'.state.usage a - m.state.usage a = m'.state.billable a - m.state.billable a -
      (if m.inSyncCall then m'.state.billable a - m.state.billable a else 0) := by
  rcases step_cases h with ⟨f, c, cs, cs', out, -, hs, hout, rfl, -⟩ | ⟨hst, -⟩
  · have hb := (call_ok hout).1.1 a
    have hin : m.inSyncCall = c.isSyncCall := by
      unfold inSyncCall
      rw [hs]
      rfl
    rw [hin]
    show out.state.usage a - _ = out.state.billable a - _ - (if c.isSyncCall then out.state.billable a - _ else 0)
    rw [hb]
    unfold recorded
    split <;> omega
  · rw [hst, Int.sub_self, Int.sub_self, ite_self]
    rfl

theorem run_usage : ∀ {ops} {m m'}, run ops m = .ok m' →
    m'.state.usage a - m.state.usage a =
      m'.state.billable a - m.state.billable a - syncCallChange a ops m
  | [], m, m', h => by
    cases h
    unfold syncCallChange
    omega
  | op :: ops, m, m', h => by
    obtain ⟨m1, hm1, h⟩ := bind_ok h
    have hstep := step_usage (a := a) hm1
    have hr := run_usage h
    unfold syncCallChange
    rw [hm1]
    simp only
    omega

/-! ## Read only calls -/

def ReadOnlyCalls (ops : List HostOp) : Prop :=
  ∀ receiver privileged forceReadOnly, HostOp.call receiver privileged forceReadOnly ∈ ops → forceReadOnly = true

def ReadOnlyPath (stack : List HostContext) : Prop := ∀ c ∈ stack, c.isSyncCall = true → c.readOnly = true

theorem ReadOnlyPath.keeps {cs cs' : List HostContext} (h : ReadOnlyPath cs) (hk : List.Forall₂ HostContext.Keeps cs cs') :
    ReadOnlyPath cs' := by
  induction hk with
  | nil => exact h
  | @cons c c' cs cs' hc hcs ih =>
    intro x hx hs
    rcases mem_cons.1 hx with rfl | hx
    · rw [hc.1]
      unfold isSyncCall at hs
      rw [hc.2] at hs
      exact h c (mem_cons_self ..) hs
    · exact ih (fun y hy => h y (mem_cons_of_mem _ hy)) x hx hs

theorem step_readOnlyPath (hop : ReadOnlyCalls [op]) (hp : ReadOnlyPath m.stack)
    (h : m.step op = .ok m') : ReadOnlyPath m'.stack := by
  rcases step_cases h with ⟨f, c, cs, cs', out, -, hs, hout, rfl, hcs⟩ | ⟨-, hco⟩
  · exact ReadOnlyPath.keeps (hs ▸ hp) (.cons (call_ok hout).1.2 hcs)
  · generalize m.stack = stack, m'.stack = stack' at hp hco ⊢
    unfold contexts at hco
    split at hco
    · cases hco
      intro c hc hs
      cases mem_singleton.1 hc
      cases hs
    · cases hco
      rename_i c
      intro c' hc' hs
      cases mem_singleton.1 hc'
      exact hp c (mem_cons_self ..) hs
    · cases hco
      intro c' hc' hs
      rcases mem_cons.1 hc' with rfl | hc'
      · have hf := hop _ _ _ (mem_singleton.2 rfl)
        show (_ || _) = true
        rw [hf, Bool.or_true]
      · exact hp c' hc' hs
    · cases hco
      exact fun c' hc' => hp c' (mem_cons_of_mem _ hc')
    · cases hco

theorem step_readOnly (hp : ReadOnlyPath m.stack) (hin : m.inSyncCall = true) (h : m.step op = .ok m') :
    m'.state = m.state := by
  rcases step_cases h with ⟨f, c, cs, cs', out, -, hs, hout, rfl, -⟩ | ⟨hst, -⟩
  · unfold inSyncCall at hin
    rw [hs] at hin hp
    exact (call_ok hout).2 (hp c (mem_cons_self ..) hin)
  · exact hst

theorem syncCallChange_readOnly (a : Nat) : ∀ {ops} {m}, ReadOnlyCalls ops →
    ReadOnlyPath m.stack → syncCallChange a ops m = 0
  | [], _, _, _ => rfl
  | op :: ops, m, hos, hp => by
    unfold syncCallChange
    cases hm : m.step op with
    | error f => rfl
    | ok m' =>
      have hop : ReadOnlyCalls [op] := fun r p f hmem => hos r p f (by
        rw [mem_singleton.1 hmem]
        exact mem_cons_self ..)
      have hr := syncCallChange_readOnly a (fun r p f hmem => hos r p f (mem_cons_of_mem _ hmem))
        (step_readOnlyPath hop hp hm)
      simp only
      rw [hr, Int.add_zero]
      by_cases hin : m.inSyncCall = true
      · rw [if_pos hin, step_readOnly hp hin hm, Int.sub_self]
      · exact if_neg hin

/-- **Recorded RAM usage changes by the change of what is paid for, less what changed in sync calls.** So it is exact for
an account just if what changed for it in sync calls cancels out, and for all if the sync calls are read only. -/
theorem run_ramUsage {ops : List HostOp} (h : run ops m = .ok m') :
    (∀ a, m'.state.usage a - m.state.usage a = m'.state.billable a - m.state.billable a - syncCallChange a ops m) ∧
    (∀ a, m'.state.usage a - m.state.usage a = m'.state.billable a - m.state.billable a ↔ syncCallChange a ops m = 0) ∧
    (ReadOnlyCalls ops → ReadOnlyPath m.stack →
      ∀ a, m'.state.usage a - m.state.usage a = m'.state.billable a - m.state.billable a) := by
  have hall : ∀ a, m'.state.usage a - m.state.usage a =
      m'.state.billable a - m.state.billable a - syncCallChange a ops m := fun a => run_usage h
  refine ⟨hall, fun a => ?_, fun hos hp a => ?_⟩
  · have := hall a
    omega
  · rw [hall a, syncCallChange_readOnly a hos hp, Int.sub_zero]

def sampleMachine : HostMachine :=
  ⟨[], ⟨.empty, .empty, 0, fun a => if a = 1 ∨ a = 2 then some 1000 else none, []⟩⟩

def sampleActionOps : List HostOp :=
  [.action 1 false false ⟨1, [1, 2], true, true⟩, .host (.dbStoreI64 5 6 1 7 [1, 2, 3] 0 0),
   .call 1 false true, .host (.find .keyValue 1 5 6 7), .ret, .host (.store .idx64 5 6 1 7 [9] 0 1),
   .call 1 false false, .host (.dbStoreI64 5 6 1 8 [1] 0 0), .host (.dbRemoveI64 0), .ret,
   .host (.dbUpdateI64 0 2 [1, 2, 3, 4])]

theorem run_ramUsage_sample : ∃ m', run sampleActionOps sampleMachine = .ok m' ∧ m'.state.usage 1 ≠ 1000 ∧
    m'.state.usage 1 - sampleMachine.state.usage 1 = m'.state.billable 1 - sampleMachine.state.billable 1 := by
  obtain ⟨m', hm'⟩ : ∃ m', run sampleActionOps sampleMachine = .ok m' := ⟨_, rfl⟩
  refine ⟨m', hm', ?_, ((run_ramUsage hm').2.1 1).2 (by decide +kernel)⟩
  cases hm'
  decide +kernel

def sampleUsage (ops : List HostOp) : Option (Int × Int) :=
  (run ops sampleMachine).toOption.map (fun m => (m.state.usage 1, m.state.billable 1))

/-- **A sync call stores a row for free**, and the action that removes it is paid for it. -/
theorem syncCall_store_not_billed : sampleUsage [.action 1 false false ⟨1, [1], true, true⟩, .call 1 false false,
      .host (.dbStoreI64 5 6 1 7 [1, 2, 3] 0 0), .ret] = some (1000, 227) ∧
    sampleUsage [.action 1 false false ⟨1, [1], true, true⟩, .call 1 false false,
      .host (.dbStoreI64 5 6 1 7 [1, 2, 3] 0 0), .ret, .host (.find .keyValue 1 5 6 7), .host (.dbRemoveI64 0)] =
        some (773, 0) := by
  decide +kernel

end HostMachine
end TheChannel
