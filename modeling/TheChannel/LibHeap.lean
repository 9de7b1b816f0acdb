import TheChannel.LibFlatMap
/-!
# LibHeap — objects at addresses, and sums over them

An object is created at an address that is free, changed in place and removed. Addresses of removed objects can be used
again. `total` is the sum of a weight over the objects; each operation changes it by the weights it is about.
-/
namespace TheChannel
open List

structure Heap (α : Type) where
  cells : List (Nat × α)
  nodup : (cells.map Prod.fst).Nodup

namespace Heap
variable {α : Type} (h : Heap α) {p : Nat} {y : α}

def empty : Heap α := ⟨[], nodup_nil⟩

def get (p : Nat) : Option α := h.cells.lookup p

def place (hint : Nat) : Nat := if hint ∈ h.cells.map Prod.fst then (h.cells.map Prod.fst).sum + 1 else hint

theorem place_free (hint : Nat) : h.place hint ∉ h.cells.map Prod.fst := by
  unfold place
  split
  · intro hmem
    have := single_le_sum (fun _ _ => Nat.zero_le _) _ hmem
    omega
  · assumption

def create (hint : Nat) (x : α) : Heap α := ⟨(h.place hint, x) :: h.cells, nodup_cons.2 ⟨h.place_free hint, h.nodup⟩⟩

def set (p : Nat) (x : α) : Heap α :=
  ⟨h.cells.map (fun c => if c.1 = p then (p, x) else c), by
    have hkeys : (h.cells.map (fun c => if c.1 = p then (p, x) else c)).map Prod.fst = h.cells.map Prod.fst := by
      rw [map_map]
      refine map_congr_left fun c _ => ?_
      show (if c.1 = p then (p, x) else c).1 = c.1
      split
      · exact (by assumption : c.1 = p).symm
      · rfl
    rw [hkeys]
    exact h.nodup⟩

def remove (p : Nat) : Heap α :=
  ⟨h.cells.filter (fun c => c.1 ≠ p), h.nodup.sublist ((filter_sublist).map _)⟩

def find? (P : α → Bool) : Option (Nat × α) := h.cells.find? (fun c => P c.2)

def total (w : α → Int) : Int := (h.cells.map (fun c => w c.2)).sum

variable {h}

/-! ## Sums -/

variable (w : α → Int)

theorem total_create (hint : Nat) (x : α) : (h.create hint x).total w = h.total w + w x := by
  unfold total create
  rw [map_cons, sum_cons]
  exact Int.add_comm ..

theorem cells_split (hy : h.get p = some y) : ∃ l r, h.cells = l ++ (p, y) :: r ∧ ∀ c ∈ l ++ r, c.1 ≠ p := by
  obtain ⟨l, r, hc, -⟩ := lookup_eq_some_iff.1 hy
  have hn := h.nodup
  rw [hc, map_append, map_cons, nodup_middle, nodup_cons, ← map_append] at hn
  exact ⟨l, r, hc, fun c hm heq => hn.1 (mem_map.2 ⟨c, hm, heq⟩)⟩

theorem total_set (x : α) (hy : h.get p = some y) :
    (h.set p x).total w = h.total w - w y + w x := by
  obtain ⟨l, r, hc, hne⟩ := cells_split hy
  have hkeep : ∀ m ⊆ l ++ r, m.map (fun c => if c.1 = p then (p, x) else c) = m := fun m hm =>
    (map_congr_left fun c h => if_neg (hne c (hm h))).trans (map_id _)
  simp only [total, set, hc, map_append, map_cons, hkeep l (subset_append_left ..), hkeep r (subset_append_right ..),
    sum_append, sum_cons, if_true]
  omega

theorem total_remove (hy : h.get p = some y) : (h.remove p).total w = h.total w - w y := by
  obtain ⟨l, r, hc, hne⟩ := cells_split hy
  have hrest : (h.remove p).cells = l ++ r := by
    simp only [remove, hc]
    rw [filter_append, filter_cons, if_neg (by simp), ← filter_append]
    exact filter_eq_self.2 fun c hm => decide_eq_true (hne c hm)
  simp only [total, hrest, hc, map_append, map_cons, sum_append, sum_cons]
  omega

end Heap
end TheChannel
