import Mathlib.Data.List.Nodup
/-!
# LibTable — rows with ids handed out in order and a unique key

A row gets the next id when it is emplaced, which fails if a row with its key is there. A row is modified without
changing its id or key, or erased; ids are not used again. The table carries that ids and keys are distinct, so a lookup
by either finds the row there is.
-/
namespace TheChannel
open List

structure RowType (α κ : Type) where
  id : α → Nat
  key : α → κ

structure RowChange {α κ : Type} (R : RowType α κ) where
  apply : α → α
  id_eq : ∀ x, R.id (apply x) = R.id x
  key_eq : ∀ x, R.key (apply x) = R.key x

structure Table {α κ : Type} (R : RowType α κ) where
  rows : List α
  nextId : Nat
  ids : (rows.map R.id).Nodup
  keys : (rows.map R.key).Nodup
  fresh : ∀ x ∈ rows, R.id x < nextId

namespace Table
variable {α κ β : Type} {R : RowType α κ} (T : Table R) {c : RowChange R} {g : α → β} {x y : α} {i : Nat}

def empty : Table R := ⟨[], 0, nodup_nil, nodup_nil, fun _ h => absurd h not_mem_nil⟩

def findId (i : Nat) : Option α := T.rows.find? (fun x => R.id x == i)

def findKey [DecidableEq κ] (k : κ) : Option α := T.rows.find? (fun x => R.key x == k)

def emplace [DecidableEq κ] (make : Nat → α) (hid : ∀ n, R.id (make n) = n) : Option (Table R) :=
  if h : R.key (make T.nextId) ∈ T.rows.map R.key then none
  else some
    { rows := make T.nextId :: T.rows
      nextId := T.nextId + 1
      ids := by
        refine nodup_cons.2 ⟨fun hmem => ?_, T.ids⟩
        obtain ⟨x, hx, hxid⟩ := mem_map.1 hmem
        have := T.fresh x hx
        rw [hid] at hxid
        omega
      keys := nodup_cons.2 ⟨h, T.keys⟩
      fresh := by
        intro x hx
        rcases mem_cons.1 hx with rfl | hx
        · rw [hid]
          exact Nat.lt_succ_self _
        · exact Nat.lt_succ_of_lt (T.fresh x hx) }

theorem keeps (hg : ∀ x, g (c.apply x) = g x) (i : Nat) (x : α) : g (if R.id x = i then c.apply x else x) = g x := by
  split
  · exact hg x
  · rfl

theorem map_keeps (hg : ∀ x, g (c.apply x) = g x) (i : Nat) (l : List α) :
    (l.map (fun x => if R.id x = i then c.apply x else x)).map g = l.map g := by
  rw [map_map]
  exact map_congr_left fun x _ => keeps hg i x

def modify (i : Nat) (c : RowChange R) : Table R where
  rows := T.rows.map (fun x => if R.id x = i then c.apply x else x)
  nextId := T.nextId
  ids := (map_keeps c.id_eq i T.rows).symm ▸ T.ids
  keys := (map_keeps c.key_eq i T.rows).symm ▸ T.keys
  fresh := by
    intro x hx
    obtain ⟨y, hy, rfl⟩ := mem_map.1 hx
    rw [keeps c.id_eq]
    exact T.fresh y hy

def erase (i : Nat) : Table R where
  rows := T.rows.filter (fun x => R.id x ≠ i)
  nextId := T.nextId
  ids := T.ids.sublist (filter_sublist.map _)
  keys := T.keys.sublist (filter_sublist.map _)
  fresh := fun x hx => T.fresh x (mem_of_mem_filter hx)

variable {T}

theorem eq_of_id (hx : x ∈ T.rows) (hy : y ∈ T.rows) (h : R.id x = R.id y) : x = y := inj_on_of_nodup_map T.ids hx hy h

theorem eq_of_key (hx : x ∈ T.rows) (hy : y ∈ T.rows) (h : R.key x = R.key y) : x = y :=
  inj_on_of_nodup_map T.keys hx hy h

theorem findId_eq_some : T.findId i = some x ↔ x ∈ T.rows ∧ R.id x = i := by
  refine ⟨fun h => ⟨mem_of_find?_eq_some h, by simpa using find?_some h⟩, fun ⟨hx, hi⟩ => ?_⟩
  cases hf : T.findId i with
  | none => exact absurd hi (by simpa using find?_eq_none.1 hf x hx)
  | some y =>
    have hy : R.id y = i := by simpa using find?_some hf
    rw [eq_of_id (mem_of_find?_eq_some hf) hx (hy.trans hi.symm)]

section Keys

variable [DecidableEq κ]

theorem findKey_some {k : κ} (h : T.findKey k = some x) : x ∈ T.rows ∧ R.key x = k :=
  ⟨mem_of_find?_eq_some h, by simpa using find?_some h⟩

theorem emplace_some {make : Nat → α} {hid : ∀ n, R.id (make n) = n} {T' : Table R} (h : T.emplace make hid = some T') :
    T'.rows = make T.nextId :: T.rows := by
  unfold emplace at h
  split at h
  · cases h
  · cases h
    rfl

end Keys

theorem mem_modify (h : y ∈ (T.modify i c).rows) : y ∈ T.rows ∨ ∃ x ∈ T.rows, R.id x = i ∧ c.apply x = y := by
  obtain ⟨x, hx, rfl⟩ := mem_map.1 h
  split
  · exact .inr ⟨x, hx, by assumption, rfl⟩
  · exact .inl hx

theorem mem_erase : x ∈ (T.erase i).rows ↔ x ∈ T.rows ∧ R.id x ≠ i := by
  simp [erase]

end Table
end TheChannel
