import TheChannel.UndoIndexRun
/-!
# UndoIndexRefine — the undo index refines a stack of snapshots

`SnapshotStack` is what the index is for: a table, and the tables to go back to. `undo` takes the innermost of them back,
`squash` and `commit` only forget some. `Refines` says that an index stands for such a stack; every successful call keeps
it (`step_refines`), so it holds after every run (`run_eq_snapshots`).
-/
namespace TheChannel
open Option

/-- **A table and the tables at the starts of the open sessions**, the innermost first. -/
structure SnapshotStack (V : Type) where
  table : Snapshot V
  saved : List (Snapshot V)
  revision : Nat

namespace SnapshotStack
variable {V : Type}

def init : SnapshotStack V := ⟨⟨fun _ => none, 0⟩, [], 0⟩

def set (t : Snapshot V) (p : Nat) (v : Option V) : Nat → Option V := fun q => if q = p then v else t.rows q

def step (m : SnapshotStack V) : UndoIndex.Op V → SnapshotStack V
  | .emplace constructor => { m with
      table := ⟨set m.table m.table.nextId (some (constructor m.table.nextId)), m.table.nextId + 1⟩ }
  | .modify p modifier => { m with
      table := ⟨set m.table p ((m.table.rows p).map (fun v => modifier (p, v))), m.table.nextId⟩ }
  | .remove p => { m with table := ⟨set m.table p none, m.table.nextId⟩ }
  | .startUndoSession => { m with saved := m.table :: m.saved, revision := m.revision + 1 }
  | .undo =>
    match m.saved with
    | [] => m
    | t :: saved => ⟨t, saved, m.revision - 1⟩
  | .squash =>
    match m.saved with
    | [] => m
    | _ :: saved => { m with saved, revision := m.revision - 1 }
  -- the sessions after `revision` stay open
  | .commit revision => { m with saved := m.saved.take (m.revision - revision) }
  | .setRevision revision => { m with revision }

def run (ops : List (UndoIndex.Op V)) : SnapshotStack V := ops.foldl step init

end SnapshotStack

namespace UndoIndex
variable {V : Type} {S : TableType V} {less : Nat × V → Nat × V → Bool} {ix : List Nat} {t : Snapshot V} {s : UndoIndex V}
  {m : SnapshotStack V}

/-! ## The indices of a table -/

/-- **The index of a table for a comparator**: its ids, ascending. -/
structure IndexOf (t : Snapshot V) (less : Nat × V → Nat × V → Bool) (ix : List Nat) : Prop where
  mem : ∀ {a}, a ∈ ix ↔ (t.rows a).isSome = true
  sorted : ix.Pairwise (fun a b => ∃ x y, t.rows a = some x ∧ t.rows b = some y ∧ less (a, x) (b, y) = true)

theorem IndexOf.nodup (hw : StrictWeak less) (h : IndexOf t less ix) : ix.Nodup :=
  h.sorted.imp (fun ⟨x, y, hx, hy, hlt⟩ heq => by
    subst heq
    rw [hx] at hy
    cases hy
    rw [hw.irrefl] at hlt
    cases hlt)

theorem IndexOf.unique (hw : StrictWeak less) {ix' : List Nat}
    (h : IndexOf t less ix) (h' : IndexOf t less ix') : ix = ix' := by
  have hp : ix.Perm ix' := (List.perm_ext_iff_of_nodup (h.nodup hw) (h'.nodup hw)).2 fun a => h.mem.trans h'.mem.symm
  refine hp.eq_of_pairwise (fun a b _ _ hab hba => ?_) h.sorted h'.sorted
  obtain ⟨x, y, hx, hy, hlt⟩ := hab
  obtain ⟨y', x', hy', hx', hlt'⟩ := hba
  rw [hy] at hy'
  rw [hx] at hx'
  cases hy'
  cases hx'
  rw [hw.asymm hlt] at hlt'
  cases hlt'

theorem StrictIndex.indexOf (h : StrictIndex less s.rows ix) : IndexOf s.view less ix := by
  have hmem : ∀ {a}, a ∈ ix ↔ (s.rows.lookup a).isSome = true := fun {a} =>
    h.perm.mem_iff.trans lookup_isSome_iff_mem.symm
  refine ⟨fun {a} => hmem.trans (by rw [show s.view.rows a = (s.rows.lookup a).map Node.val from rfl, isSome_map]),
    h.sorted.imp_of_mem (fun {a b} ha hb hab => ?_)⟩
  obtain ⟨x, hx⟩ := isSome_iff_exists.1 (hmem.1 ha)
  obtain ⟨y, hy⟩ := isSome_iff_exists.1 (hmem.1 hb)
  rw [compare_eq hx hy] at hab
  exact ⟨x.val, y.val, congrArg (Option.map Node.val) hx, congrArg (Option.map Node.val) hy, hab⟩

theorem indicesOf_unique : ∀ {ls : List (Nat × V → Nat × V → Bool)} {ixs ixs'},
    (∀ l ∈ ls, StrictWeak l) → List.Forall₂ (IndexOf t) ls ixs → List.Forall₂ (IndexOf t) ls ixs' → ixs = ixs'
  | [], _, _, _, .nil, .nil => rfl
  | less :: _, _, _, hw, .cons h hs, .cons h' hs' => by
    rw [h.unique (hw less (List.mem_cons_self ..)) h', indicesOf_unique (fun l hl => hw l (List.mem_cons_of_mem _ hl)) hs hs']

theorem StrictIndices.indexOf_iff (h : StrictIndices S s.rows s.indices) (ixs : List (List Nat)) :
    List.Forall₂ (IndexOf s.view) S.less ixs ↔ ixs = s.indices := by
  have hall : List.Forall₂ (IndexOf s.view) S.less s.indices := forall₂_imp (fun _ _ _ hi => hi.indexOf) h
  constructor
  · exact fun hix => indicesOf_unique S.weak hix hall
  · rintro rfl
    exact hall

/-! ## Refinement -/

/-- **An index stands for a stack of snapshots.** -/
structure Refines (S : TableType V) (s : UndoIndex V) (m : SnapshotStack V) : Prop where
  inv : Inv S s m.saved
  view : s.view = m.table
  revision : s.revision = m.revision

variable {s s' : UndoIndex V}

theorem init_refines (S : TableType V) : Refines S (init S) SnapshotStack.init := ⟨init_inv S, rfl, rfl⟩

theorem view_set {p next : Nat} {n : Option (Node V)} (ht : s'.table = s.table.set p n) (hn : s'.nextId = next) :
    s'.view = ⟨SnapshotStack.set s.view p (n.map Node.val), next⟩ := by
  have hr : s'.find = SnapshotStack.set s.view p (n.map Node.val) := by
    funext q
    have hq : s'.rows.lookup q = s.table.set p n q := congrFun ht q
    show (s'.rows.lookup q).map Node.val = _
    rw [hq]
    unfold SnapshotStack.set
    by_cases hqp : q = p
    · rw [if_pos hqp, hqp, Table.set_self]
    · rw [if_neg hqp, Table.set_ne _ _ hqp]
      rfl
  unfold UndoIndex.view
  rw [hr, hn]
  rfl

theorem step_refines (h : Refines S s m) {op : Op V} (hstep : s.step S op = some s') : Refines S s' (m.step op) := by
  obtain ⟨table, saved, rev⟩ := m
  obtain ⟨inv, rfl, rfl⟩ := h
  cases op with
  | emplace constructor =>
    obtain ⟨hok, heq⟩ := ite_none_right_eq_some.1 hstep
    cases heq
    obtain ⟨h1, h2, h3, h4⟩ := emplace_inv inv hok
    exact ⟨h1, view_set h2 h3, h4⟩
  | modify p modifier =>
    obtain ⟨hok, heq⟩ := ite_none_right_eq_some.1 hstep
    cases heq
    obtain ⟨n, hp, h1, h2, h3, h4⟩ := modify_inv inv hok
    refine ⟨h1, ?_, h4⟩
    have hrow : s.view.rows p = some n.val := congrArg (Option.map Node.val) hp
    rw [view_set h2 h3]
    show _ = (⟨SnapshotStack.set s.view p ((s.view.rows p).map (fun v => modifier (p, v))), s.nextId⟩ : Snapshot V)
    rw [hrow]
    rfl
  | remove p =>
    obtain ⟨hok, heq⟩ := ite_none_right_eq_some.1 hstep
    cases heq
    obtain ⟨n, hp⟩ := isSome_iff_exists.1 hok
    obtain ⟨h1, h2, h3, h4⟩ := remove_inv inv hp
    exact ⟨h1, view_set h2 h3, h4⟩
  | startUndoSession =>
    cases hstep
    exact ⟨addSession_inv inv, rfl, rfl⟩
  | undo =>
    cases hstep
    cases saved with
    | nil =>
      rw [undo_empty inv]
      exact ⟨inv, rfl, rfl⟩
    | cons snap saved =>
      obtain ⟨h1, h2, h3⟩ := undo_inv inv
      exact ⟨h1, h2, h3⟩
  | squash =>
    cases hstep
    obtain ⟨h1, h2, h3⟩ := squash_inv inv
    cases saved with
    | nil => exact ⟨h1, h2, h3⟩
    | cons snap saved => exact ⟨h1, h2, h3⟩
  | commit r =>
    cases hstep
    obtain ⟨h1, h2, h3⟩ := commit_inv inv r
    have hsub : s.revision - min r s.revision = s.revision - r := by omega
    rw [hsub] at h1
    exact ⟨h1, h2, h3⟩
  | setRevision r =>
    obtain ⟨hok, heq⟩ := ite_none_right_eq_some.1 hstep
    cases heq
    obtain ⟨heq, h1⟩ := setRevision_inv inv hok
    rw [heq]
    exact ⟨h1, rfl, rfl⟩

theorem run_refines : ∀ {ops} {s s'} {m}, Refines S s m →
    run S ops s = some s' → Refines S s' (ops.foldl SnapshotStack.step m)
  | [], _, _, _, h, hrun => by
    cases hrun
    exact h
  | op :: ops, s, _, _, h, hrun => by
    obtain ⟨s1, hstep, hrun⟩ := bind_eq_some_iff.1 hrun
    have hn := run_refines (step_refines h hstep) hrun
    exact hn

/-- **The undo index refines a stack of table snapshots.** After every sequence of successful calls the rows and the next
id are those of the abstract table, the rows are ordered by id, every secondary index is the one index of that table for its
comparator, and there are as many sessions as snapshots. -/
theorem run_eq_snapshots (S : TableType V) (ops : List (Op V)) (s : UndoIndex V) (h : run S ops (init S) = some s) :
    (∀ id, s.find id = (SnapshotStack.run ops).table.rows id) ∧
    s.nextId = (SnapshotStack.run ops).table.nextId ∧
    Ascending s.rows ∧
    (∀ ixs, List.Forall₂ (IndexOf (SnapshotStack.run ops).table) S.less ixs ↔ ixs = s.indices) ∧
    s.undoStack.length = (SnapshotStack.run ops).saved.length ∧
    s.revision = (SnapshotStack.run ops).revision := by
  obtain ⟨inv, view, revision⟩ := run_refines (init_refines S) h
  refine ⟨fun id => congrFun (congrArg Snapshot.rows view) id, congrArg Snapshot.nextId view, inv.ascending, ?_,
    inv.levels.length_eq.symm, revision⟩
  intro ixs
  have hv : (SnapshotStack.run ops).table = s.view := view.symm
  rw [hv]
  exact inv.indices.indexOf_iff ixs

def sampleType : TableType Nat where
  less := [fun a b => a.2 < b.2]
  weak := fun l hl => by
    rw [List.mem_singleton] at hl
    subst hl
    exact ⟨by simp, fun {a b c} => by simp only [decide_eq_true_eq]; omega,
      fun {a c} hac b => by simp only [decide_eq_true_eq] at hac ⊢; omega⟩

/-- Two nested sessions: a row is modified in the outer one, then removed and the other modified in the inner; after the
squash, `undo` brings both back. -/
def sampleOps : List (Op Nat) :=
  [.emplace (fun _ => 5), .emplace (fun _ => 3), .startUndoSession, .modify 0 (fun _ => 1), .startUndoSession,
    .modify 1 (fun _ => 9), .remove 0, .emplace (fun _ => 4), .squash, .undo]

theorem run_eq_snapshots_sampleOps :
    ∃ s, run sampleType sampleOps (init sampleType) = some s ∧ s.indices = [[1, 0]] ∧ s.nextId = 2 ∧
      s.find 0 = (SnapshotStack.run sampleOps).table.rows 0 ∧ s.find 0 = some 5 := by
  have hso : (run sampleType sampleOps (init sampleType)).isSome = true := by decide
  obtain ⟨s, hs⟩ := isSome_iff_exists.1 hso
  refine ⟨s, hs, ?_, ?_, (run_eq_snapshots sampleType sampleOps s hs).1 0, ?_⟩
  · have : (run sampleType sampleOps (init sampleType)).map UndoIndex.indices = some [[1, 0]] := by decide
    rw [hs] at this
    exact Option.some.inj this
  · exact (run_eq_snapshots sampleType sampleOps s hs).2.1
  · exact (run_eq_snapshots sampleType sampleOps s hs).1 0

end UndoIndex
end TheChannel
