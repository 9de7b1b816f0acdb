import TheChannel.Fault
import TheChannel.LibRows
/-!
# SetCode — contracts and the accounts that share them

`apply_eosio_setcode`: equal codes share one `code_object`, which counts the accounts that run it. `sha256` is taken to be
without collisions: a hash is written as the code it is of, and the zero hash as no code. `ramUsage` is what the action has
charged with `add_ram_usage`. An action that throws changes nothing.
-/
namespace TheChannel
open RowMap Option

abbrev CodeKey := List UInt8 × Nat × Nat

structure AccountMetadata where
  codeSequence : Nat
  codeHash : List UInt8
  vmType : Nat
  vmVersion : Nat
  lastCodeUpdate : Nat

def AccountMetadata.key (a : AccountMetadata) : CodeKey := (a.codeHash, a.vmType, a.vmVersion)

def AccountMetadata.refersTo (key : CodeKey) (a : AccountMetadata) : Bool := a.codeHash != [] && a.key == key

structure CodeObject where
  code : List UInt8
  codeRefCount : Nat
  firstBlockUsed : Nat
  syncCallSupported : Bool

structure SetCode where
  account : Nat
  vmType : Nat
  vmVersion : Nat
  code : List UInt8

structure SetCodeEnv where
  isReadOnly : Bool
  hasAuth : Nat → Bool
  validate : List UInt8 → Result Bool -- whether sync calls are supported
  headBlockNum : Nat
  pendingBlockTime : Nat

structure CodeDb where
  accounts : RowMap Nat AccountMetadata
  codes : RowMap CodeKey CodeObject
  ramUsage : Nat → Int

namespace CodeDb

def setcodeRamBytesMultiplier : Int := 10

def release (codes : RowMap CodeKey CodeObject) (key : CodeKey) (old : CodeObject) : RowMap CodeKey CodeObject :=
  if old.codeRefCount = 1 then codes.erase key else codes.insert key { old with codeRefCount := old.codeRefCount - 1 }

def take (codes : RowMap CodeKey CodeObject) (key : CodeKey) (new : CodeObject) : RowMap CodeKey CodeObject :=
  match codes.lookup key with
  | some o => codes.insert key { o with codeRefCount := o.codeRefCount + 1 }
  | none => codes.insert key new

/-- The part of the action for an account that has code: its old size and the codes without this use. -/
def releaseOld (codes : RowMap CodeKey CodeObject) (account : AccountMetadata) (code : List UInt8) :
    Result (Int × RowMap CodeKey CodeObject) :=
  if account.codeHash = [] then .ok (0, codes)
  else
    match codes.lookup account.key with
    | none => .error (.thrown .outOfRange "unknown key")
    | some old =>
      eosAssert (account.codeHash != code) .setExactCode "contract is already running this version of code" >>= fun _ =>
      .ok (old.code.length * setcodeRamBytesMultiplier, release codes account.key old)

def applySetcode (s : CodeDb) (env : SetCodeEnv) (act : SetCode) : Result CodeDb :=
  eosAssert (!env.isReadOnly) .actionValidate "setcode not allowed in read-only transaction" >>= fun _ =>
  eosAssert (env.hasAuth act.account) .missingAuth "missing authority of ${account}" >>= fun _ =>
  eosAssert (act.vmType == 0) .invalidContractVmType "code should be 0" >>= fun _ =>
  eosAssert (act.vmVersion == 0) .invalidContractVmVersion "version should be 0" >>= fun _ =>
  (if act.code = [] then .ok false else env.validate act.code) >>= fun syncCallSupported =>
  match s.accounts.lookup act.account with
  | none => .error (.thrown .outOfRange "unknown key")
  | some account =>
    eosAssert (act.code != [] || account.codeHash != []) .setExactCode "contract is already cleared" >>= fun _ =>
    releaseOld s.codes account act.code >>= fun old =>
    .ok {
      accounts := s.accounts.insert act.account
        ⟨account.codeSequence + 1, act.code, act.vmType, act.vmVersion, env.pendingBlockTime⟩
      codes := if act.code = [] then old.2
        else take old.2 (act.code, act.vmType, act.vmVersion) ⟨act.code, 1, env.headBlockNum + 1, syncCallSupported⟩
      ramUsage := Function.update s.ramUsage act.account
        (s.ramUsage act.account + (act.code.length * setcodeRamBytesMultiplier - old.1)) }

inductive Op
  | newaccount (name : Nat)
  | setcode (env : SetCodeEnv) (act : SetCode)

def step (s : CodeDb) : Op → CodeDb
  | .newaccount name =>
    if (s.accounts.lookup name).isSome then s else { s with accounts := s.accounts.insert name ⟨0, [], 0, 0, 0⟩ }
  | .setcode env act =>
    match s.applySetcode env act with
    | .ok s' => s'
    | .error _ => s

def run (ops : List Op) : CodeDb := ops.foldl step ⟨∅, ∅, fun _ => 0⟩

/-! ## References -/

def references (s : CodeDb) (key : CodeKey) : Nat := count (fun _ a => a.refersTo key) s.accounts

def refCount (codes : RowMap CodeKey CodeObject) (key : CodeKey) : Nat :=
  ((codes.lookup key).map CodeObject.codeRefCount).getD 0

def uses (hash : List UInt8) (key k : CodeKey) : Nat := if hash = [] then 0 else if k = key then 1 else 0

def Rows (codes : RowMap CodeKey CodeObject) : Prop :=
  ∀ key row, codes.lookup key = some row → row.code = key.1 ∧ 0 < row.codeRefCount

structure Inv (s : CodeDb) : Prop where
  refs : ∀ key, refCount s.codes key = s.references key
  rows : Rows s.codes
  ram : ∀ name, s.ramUsage name =
    ((s.accounts.lookup name).map (fun a => (a.codeHash.length : Int) * setcodeRamBytesMultiplier)).getD 0

variable {s s' : CodeDb} {codes codes' : RowMap CodeKey CodeObject} {key k : CodeKey} {old new : CodeObject}

theorem refCount_insert (row : CodeObject) : refCount (codes.insert key row) k =
    if k = key then row.codeRefCount else refCount codes k := by
  unfold refCount
  rw [lookup_insert_ite]
  split <;> rfl

theorem Rows.insert (h : Rows codes) {row : CodeObject} (hco : row.code = key.1) (hpos : 0 < row.codeRefCount) :
    Rows (codes.insert key row) := by
  intro k r hr
  rcases lookup_insert_some hr with ⟨rfl, rfl⟩ | ⟨-, hr⟩
  · exact ⟨hco, hpos⟩
  · exact h k r hr

theorem refCount_erase : refCount (codes.erase key) k = if k = key then 0 else refCount codes k := by
  unfold refCount
  rw [lookup_erase_ite]
  split <;> rfl

theorem Rows.erase (h : Rows codes) : Rows (codes.erase key) := by
  intro k r hr
  exact h k r (lookup_erase_some hr).2

theorem refCount_some (h : codes.lookup key = some old) : refCount codes key = old.codeRefCount := by
  unfold refCount
  rw [h]
  rfl

theorem release_ok (h : Rows codes) (hold : codes.lookup key = some old) : Rows (release codes key old) ∧
    ∀ k, refCount (release codes key old) k + (if k = key then 1 else 0) = refCount codes k := by
  obtain ⟨hco, hpos⟩ := h key old hold
  have hkey := refCount_some hold
  unfold release
  by_cases hone : old.codeRefCount = 1
  · rw [if_pos hone]
    refine ⟨h.erase, fun k => ?_⟩
    rw [refCount_erase]
    by_cases hk : k = key
    · rw [if_pos hk, if_pos hk, hk, hkey, hone]
    · rw [if_neg hk, if_neg hk, Nat.add_zero]
  · rw [if_neg hone]
    refine ⟨h.insert hco (Nat.sub_pos_of_lt (by omega)), fun k => ?_⟩
    rw [refCount_insert]
    by_cases hk : k = key
    · rw [if_pos hk, if_pos hk, hk, hkey]
      exact Nat.sub_add_cancel hpos
    · rw [if_neg hk, if_neg hk, Nat.add_zero]

theorem references_insert {name : Nat} {a : AccountMetadata} (h : s.accounts.lookup name = some a) (a' : AccountMetadata) :
    count (fun _ a => a.refersTo k) (s.accounts.insert name a') + (if a.refersTo k = true then 1 else 0) =
      s.references k + if a'.refersTo k = true then 1 else 0 := by
  have hnew := count_eq_total (fun _ a => AccountMetadata.refersTo k a) (s.accounts.insert name a')
  have hold := count_eq_total (fun _ a => AccountMetadata.refersTo k a) s.accounts
  rw [total_insert, h, weigh_some] at hnew
  unfold references
  split <;> split <;> simp_all <;> omega

theorem refersTo_eq (a : AccountMetadata) (k : CodeKey) : (if a.refersTo k = true then 1 else 0) = uses a.codeHash a.key k := by
  unfold AccountMetadata.refersTo uses
  by_cases hco : a.codeHash = []
  · simp [hco]
  · rw [if_neg hco, bne_iff_ne.2 hco, Bool.true_and]
    exact if_congr (beq_iff_eq.trans eq_comm) rfl rfl

theorem takeNew_ok (code : List UInt8) (key : CodeKey) (new : CodeObject) (h : Rows codes) (hco : new.code = key.1) (hone : new.codeRefCount = 1) :
    Rows (if code = [] then codes else take codes key new) ∧
      ∀ k, refCount (if code = [] then codes else take codes key new) k = refCount codes k + uses code key k := by
  unfold uses
  by_cases he : code = []
  · simp only [if_pos he]
    exact ⟨h, fun k => rfl⟩
  · simp only [if_neg he]
    have hins : ∀ row : CodeObject, row.codeRefCount = refCount codes key + 1 → ∀ k,
        refCount (codes.insert key row) k = refCount codes k + if k = key then 1 else 0 := by
      intro row hrow k
      rw [refCount_insert]
      by_cases hk : k = key
      · rw [if_pos hk, if_pos hk, hk, hrow]
      · rw [if_neg hk, if_neg hk, Nat.add_zero]
    unfold take
    cases hrow : codes.lookup key with
    | none =>
      have hz : refCount codes key = 0 := by
        unfold refCount
        rw [hrow]
        rfl
      exact ⟨h.insert hco (by omega), hins new (by omega)⟩
    | some o =>
      exact ⟨h.insert (h key o hrow).1 (Nat.succ_pos _), hins _ (congrArg (· + 1) (refCount_some hrow).symm)⟩

theorem releaseOld_ok {account : AccountMetadata} {code : List UInt8} {r : Int × RowMap CodeKey CodeObject} (h : Rows codes)
    (hr : releaseOld codes account code = .ok r) :
    r.1 = account.codeHash.length * setcodeRamBytesMultiplier ∧ Rows r.2 ∧
      ∀ k, refCount r.2 k + uses account.codeHash account.key k = refCount codes k := by
  unfold releaseOld at hr
  unfold uses
  by_cases hco : account.codeHash = []
  · rw [if_pos hco] at hr
    cases hr
    refine ⟨by rw [hco]; rfl, h, fun k => ?_⟩
    rw [if_pos hco, Nat.add_zero]
  · rw [if_neg hco] at hr
    split at hr
    · cases hr
    rename_i old hold
    replace hr := rest_ok hr
    cases hr
    obtain ⟨hro, hre⟩ := release_ok h hold
    refine ⟨by rw [(h _ _ hold).1]; rfl, hro, fun k => ?_⟩
    rw [if_neg hco]
    exact hre k

theorem Inv.applySetcode {env : SetCodeEnv} {act : SetCode} (I : Inv s) (h : s.applySetcode env act = .ok s') : Inv s' := by
  iterate 4 replace h := rest_ok h
  obtain ⟨sync, -, h⟩ := bind_ok h
  split at h
  · cases h
  rename_i account hacc
  replace h := rest_ok h
  obtain ⟨r, hr, h⟩ := bind_ok h
  cases h
  obtain ⟨hs, hro, hre⟩ := releaseOld_ok I.rows hr
  obtain ⟨hro', hr'⟩ := takeNew_ok act.code (act.code, act.vmType, act.vmVersion)
    ⟨act.code, 1, env.headBlockNum + 1, sync⟩ hro rfl rfl
  refine ⟨fun k => ?_, hro', fun name => ?_⟩
  · have hco := references_insert (k := k) hacc
      ⟨account.codeSequence + 1, act.code, act.vmType, act.vmVersion, env.pendingBlockTime⟩
    have hb := I.refs k
    have hrel := hre k
    have hadd := hr' k
    rw [refersTo_eq, refersTo_eq] at hco
    refine hadd.trans ?_
    unfold references
    dsimp only [AccountMetadata.key] at hco hrel ⊢
    omega
  · dsimp only
    rw [lookup_insert_ite, Function.update_apply]
    by_cases hn : name = act.account
    · rw [if_pos hn, if_pos hn, I.ram, hacc, hs]
      simp
    · rw [if_neg hn, if_neg hn]
      exact I.ram name

theorem Inv.newaccount {name : Nat} (I : Inv s) (h : s.accounts.lookup name = none) :
    Inv { s with accounts := s.accounts.insert name ⟨0, [], 0, 0, 0⟩ } := by
  refine ⟨fun k => ?_, I.rows, fun n => ?_⟩
  · refine (I.refs k).trans ?_
    unfold references
    dsimp only
    rw [count_insert_new _ _ h, refersTo_eq]
    rfl
  · dsimp only
    rw [lookup_insert_ite, I.ram]
    by_cases hn : n = name
    · rw [if_pos hn, hn, h]
      rfl
    · rw [if_neg hn]

theorem Inv.step (I : Inv s) (op : Op) : Inv (s.step op) := by
  cases op with
  | newaccount name =>
    unfold CodeDb.step
    dsimp only
    split
    · exact I
    · rename_i h
      exact I.newaccount (not_isSome_iff_eq_none.1 h)
  | setcode env act =>
    unfold CodeDb.step
    dsimp only
    split
    · rename_i h
      exact I.applySetcode h
    · exact I

/-- **Each code counts its accounts and is there while it has any, and each account has paid for its code**, after every run of
`newaccount` and `setcode`. -/
theorem run_references (ops : List Op) :
    (∀ key row, (run ops).codes.lookup key = some row → row.codeRefCount = (run ops).references key) ∧
      (∀ key, ((run ops).codes.lookup key).isSome = true ↔ 0 < (run ops).references key) ∧
      ∀ name account, (run ops).accounts.lookup name = some account →
        (run ops).ramUsage name = (((run ops).codes.lookup account.key).map (fun row =>
          (row.code.length : Int) * setcodeRamBytesMultiplier)).getD 0 := by
  have I : Inv (run ops) := List.foldlRecOn ops CodeDb.step ⟨fun _ => rfl, fun _ _ h => (by cases h), fun _ => rfl⟩
    (fun s hs op _ => hs.step op)
  have hr : ∀ key row, (run ops).codes.lookup key = some row → row.codeRefCount = (run ops).references key := by
    intro key row hrow
    rw [← I.refs, refCount_some hrow]
  have hso : ∀ key, ((run ops).codes.lookup key).isSome = true ↔ 0 < (run ops).references key := by
    intro key
    rw [← I.refs]
    unfold refCount
    cases hrow : (run ops).codes.lookup key with
    | none => simp
    | some row => simpa using (I.rows key row hrow).2
  refine ⟨hr, hso, fun name account hacc => ?_⟩
  rw [I.ram, hacc, map_some, getD_some]
  cases hrow : (run ops).codes.lookup account.key with
  | some row =>
    rw [map_some, getD_some, (I.rows _ _ hrow).1]
    rfl
  | none =>
    have hn : account.codeHash = [] := by
      by_contra hco
      have hpos : 0 < (run ops).references account.key :=
        count_pos hacc (by simp [AccountMetadata.refersTo, hco])
      have := (hso account.key).2 hpos
      rw [hrow] at this
      cases this
    rw [hn]
    rfl

end CodeDb
end TheChannel
