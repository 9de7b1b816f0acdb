import Mathlib.Data.List.Nodup
import Mathlib.Data.List.Perm.Subperm
import Mathlib.Data.Set.Basic
import Mathlib.Logic.Relation
/-!
# LibForest — a forest kept as a list of nodes with their parents' keys

Nodes name themselves and their parent by keys, and a key's rank is one above its parent's, so walking up ends. `path`
walks up from a key, `subtree` collects a key and everything below it in a queue, `prune` erases that. `Rooted` says
that every node's parent is in the list or one of the roots; then every node is below a root (`Rooted.descends`). Pruning
the keys above a node, with the node itself erased, leaves what is below it (`mem_prunes`).

`IsTree` is a tree given by a parent relation: no node is above the root, a node has at most one parent, which is a node again,
and going up from a node reaches the root. It is enough that every other node has a parent and that some rank falls on the way
up (`IsTree.of_rank`).
-/
namespace TheChannel
open List

structure Forest (K V : Type) where
  key : V → K
  parent : V → K
  rank : K → Nat
  rank_key : ∀ v, rank (key v) = rank (parent v) + 1

namespace Forest
variable {K V : Type} (F : Forest K V) {l l' : List V} {k k₀ r : K} {v w : V}

/-- A node below a key, with the nodes between them in the list. -/
inductive Descends (l : List V) (k : K) : V → Prop
  | child {v : V} (mem : v ∈ l) (parent : F.parent v = k) : Descends l k v
  | next {v w : V} (mem : v ∈ l) (parent : F.parent v = F.key w) (above : Descends l k w) : Descends l k v

/-- **Every node hangs on the list or on a root.** -/
structure Rooted (l : List V) (rs : List K) : Prop where
  distinct : (l.map F.key).Nodup
  linked : ∀ v ∈ l, F.parent v ∈ rs ∨ ∃ w ∈ l, F.key w = F.parent v

section Order

variable {F} {l l' : List V} {k : K} {v w : V}

theorem eq_of_key (h : (l.map F.key).Nodup) (hv : v ∈ l) (hw : w ∈ l) (hk : F.key v = F.key w) : v = w :=
  inj_on_of_nodup_map h hv hw hk

namespace Descends

theorem mem (h : F.Descends l k v) : v ∈ l := by
  cases h with
  | child mem _ => exact mem
  | next mem _ _ => exact mem

theorem rank_lt (h : F.Descends l k v) : F.rank k < F.rank (F.key v) := by
  induction h with
  | child _ parent => rw [F.rank_key, parent]; omega
  | next _ parent _ ih => rw [F.rank_key, parent]; omega

theorem mono (hl : ∀ v ∈ l, v ∈ l') (h : F.Descends l k v) : F.Descends l' k v := by
  induction h with
  | child mem parent => exact .child (hl _ mem) parent
  | next mem parent _ ih => exact .next (hl _ mem) parent ih

theorem trans (h : F.Descends l k w) (h' : F.Descends l (F.key w) v) : F.Descends l k v := by
  induction h' with
  | child mem parent => exact .next mem parent h
  | next mem parent _ ih => exact .next mem parent ih

theorem iff_path : F.Descends l (F.key w) v ↔
    ∃ p, p.head? = some v ∧ (∀ x ∈ p, x ∈ l) ∧ (p ++ [w]).IsChain (fun x y => F.parent x = F.key y) := by
  refine ⟨fun h => ?_, ?_⟩
  · induction h with
    | @child v mem parent => exact ⟨[v], rfl, by simpa using mem, by simpa using parent⟩
    | @next v u mem parent _ ih =>
      obtain ⟨p, hh, hm, hc⟩ := ih
      obtain ⟨q, rfl⟩ := head?_eq_some_iff.1 hh
      exact ⟨v :: u :: q, rfl, forall_mem_cons.2 ⟨mem, hm⟩, isChain_cons_cons.2 ⟨parent, hc⟩⟩
  · rintro ⟨p, hh, hm, hc⟩
    obtain ⟨q, rfl⟩ := head?_eq_some_iff.1 hh
    clear hh
    induction q generalizing v with
    | nil => exact .child (hm v (by simp)) (by simpa using hc)
    | cons u q ih =>
      obtain ⟨hp, hc⟩ := isChain_cons_cons.1 hc
      exact .next (hm v (by simp)) hp (ih (fun x hx => hm x (mem_cons_of_mem _ hx)) hc)

end Descends

namespace Rooted
variable {rs rs' : List K}

theorem weaken (h : F.Rooted l rs) (hr : ∀ k ∈ rs, k ∈ rs') : F.Rooted l rs' :=
  ⟨h.distinct, fun v hv => (h.linked v hv).imp_left (hr _)⟩

theorem descends (h : F.Rooted l rs) (hv : v ∈ l) : ∃ r ∈ rs, F.Descends l r v := by
  -- by the rank of the node: its parent's is smaller
  induction hn : F.rank (F.key v) generalizing v with
  | zero => have := F.rank_key v; omega
  | succ n ih =>
    rcases h.linked v hv with hr | ⟨w, hw, hk⟩
    · exact ⟨_, hr, .child hv rfl⟩
    · have hra : F.rank (F.key w) = n := by rw [hk]; have := F.rank_key v; omega
      obtain ⟨r, hr, hd⟩ := ih hw hra
      exact ⟨r, hr, .next hv hk.symm hd⟩

theorem cons (h : F.Rooted l rs) (hn : ∀ w ∈ l, F.key w ≠ F.key v) (hp : F.parent v ∈ rs ∨ ∃ w ∈ l, F.key w = F.parent v) :
    F.Rooted (v :: l) rs := by
  refine ⟨nodup_cons.2 ⟨fun hm => ?_, h.distinct⟩, fun w hw => ?_⟩
  · obtain ⟨w, hw, hk⟩ := mem_map.1 hm
    exact hn w hw hk
  · have hup : (F.parent w ∈ rs ∨ ∃ u ∈ l, F.key u = F.parent w) → F.parent w ∈ rs ∨ ∃ u ∈ v :: l, F.key u = F.parent w :=
      Or.imp_right (fun ⟨u, hu, hk⟩ => ⟨u, mem_cons_of_mem _ hu, hk⟩)
    rcases mem_cons.1 hw with rfl | hw
    · exact hup hp
    · exact hup (h.linked w hw)

theorem nil (rs : List K) : F.Rooted [] rs := ⟨nodup_nil, fun _ hv => absurd hv not_mem_nil⟩

end Rooted
end Order

variable [DecidableEq K]

def find (l : List V) (k : K) : Option V := l.find? (fun v => F.key v == k)

def children (l : List V) (k : K) : List V := l.filter (fun v => F.parent v == k)

def erase (l : List V) (k : K) : List V := l.filter (fun v => F.key v != k)

def walk (l : List V) : Nat → K → List V
  | 0, _ => []
  | n + 1, k =>
    match F.find l k with
    | none => []
    | some v => v :: walk l n (F.parent v)

/-- The nodes from a key up, as far as they are in the list. The rank of the key is fuel enough (`path_eq`). -/
def path (l : List V) (k : K) : List V := F.walk l (F.rank k) k

def queue (l : List V) : Nat → List K → List K
  | 0, ks => ks
  | _ + 1, [] => []
  | n + 1, k :: ks => k :: queue l n (ks ++ (F.children l k).map F.key)

/-- A key and the keys below it. Each node enters the queue once at most, so the fuel is enough (`mem_subtree`). -/
def subtree (l : List V) (k : K) : List K := F.queue l (l.length + 1) [k]

def prune (l : List V) (k : K) : List V := (F.subtree l k).foldl F.erase l

variable {F}

/-! ## Walking up -/

theorem find_some (h : F.find l k = some v) : v ∈ l ∧ F.key v = k :=
  ⟨mem_of_find?_eq_some h, by simpa using find?_some h⟩

theorem find_of_mem (h : (l.map F.key).Nodup) (hv : v ∈ l) : F.find l (F.key v) = some v := by
  cases hf : F.find l (F.key v) with
  | none => exact absurd (find?_eq_none.1 hf v hv) (by simp)
  | some w => rw [eq_of_key h (find_some hf).1 hv (find_some hf).2]

theorem path_eq (F : Forest K V) (l : List V) (k : K) : F.path l k = match F.find l k with
      | none => []
      | some v => v :: F.path l (F.parent v) := by
  unfold path
  cases hf : F.find l k with
  | none => cases F.rank k <;> simp [walk, hf]
  | some v =>
    have hk := (find_some hf).2
    rw [← hk] at hf ⊢
    rw [F.rank_key, walk, hf]

theorem find_none (h : F.find l k = none) (hv : v ∈ l) : F.key v ≠ k := by
  simpa using find?_eq_none.1 h v hv

/-- **The rule for what holds of a walk up.** -/
theorem path_induction {P : K → List V → Prop} (stop : ∀ k, F.find l k = none → P k [])
    (step : ∀ k v, F.find l k = some v → P (F.parent v) (F.path l (F.parent v)) → P k (v :: F.path l (F.parent v)))
    (k : K) : P k (F.path l k) := by
  induction hn : F.rank k using Nat.strongRecOn generalizing k with
  | _ n ih =>
    rw [path_eq]
    cases hf : F.find l k with
    | none => exact stop k hf
    | some v =>
      have := F.rank_key v
      rw [(find_some hf).2] at this
      exact step k v hf (ih _ (by omega) _ rfl)

theorem mem_path (k : K) : ∀ w ∈ F.path l k, w ∈ l ∧ F.rank (F.key w) ≤ F.rank k := by
  refine path_induction (P := fun k p => ∀ w ∈ p, w ∈ l ∧ F.rank (F.key w) ≤ F.rank k)
    (fun _ _ _ hw => absurd hw not_mem_nil) (fun k v hf ih w hw => ?_) k
  obtain ⟨hv, rfl⟩ := find_some hf
  rcases mem_cons.1 hw with rfl | hw
  · exact ⟨hv, Nat.le_refl _⟩
  · have := F.rank_key v
    exact ⟨(ih w hw).1, by have := (ih w hw).2; omega⟩

theorem path_getLast? (h : F.Rooted l [r]) {v : V} (hv : v ∈ l) :
    (F.parent v :: (F.path l (F.parent v)).map F.parent).getLast? = some r := by
  refine path_induction (P := fun k p => ∀ v ∈ l, F.parent v = k → (k :: p.map F.parent).getLast? = some r)
    (fun k hf v hv hp => ?_) (fun k w hf ih v _ _ => ?_) (F.parent v) v hv rfl
  · rcases h.linked v hv with hr | ⟨w, hw, hk⟩
    · rw [← hp, mem_singleton.1 hr]; rfl
    · exact absurd (hk.trans hp) (find_none hf hw)
  · rw [map_cons, getLast?_cons_cons]
    exact ih w (find_some hf).1 rfl

theorem exists_mem_path (h : F.Rooted l [r]) {n : Nat} (hr : F.rank r < n) {v : V} (hv : v ∈ l)
    (hn : n ≤ F.rank (F.key v)) : ∃ w ∈ F.path l (F.key v), F.rank (F.key w) = n := by
  refine path_induction (P := fun k p => ∀ v ∈ l, F.key v = k → n ≤ F.rank k → ∃ w ∈ p, F.rank (F.key w) = n)
    (fun k hf v hv hk _ => absurd hk (find_none hf hv)) (fun k v hf ih _ _ _ hn => ?_) (F.key v) v hv rfl hn
  obtain ⟨hv, rfl⟩ := find_some hf
  have hra := F.rank_key v
  rcases Nat.lt_or_eq_of_le hn with hlt | heq
  · rcases h.linked v hv with hp | ⟨w, hw, hk⟩
    · rw [mem_singleton.1 hp] at hra
      omega
    · obtain ⟨x, hx, hxn⟩ := ih w hw hk (by omega)
      exact ⟨x, mem_cons_of_mem _ hx, hxn⟩
  · exact ⟨v, mem_cons_self .., heq.symm⟩

/-! ## Walking down -/

theorem mem_queue_sound : ∀ {n : Nat} {ks} {x : K}, x ∈ F.queue l n ks →
    ∃ k ∈ ks, x = k ∨ ∃ v, F.Descends l k v ∧ F.key v = x
  | 0, _, x, h => ⟨x, h, .inl rfl⟩
  | _ + 1, [], _, h => absurd h not_mem_nil
  | n + 1, k :: ks, x, h => by
    rcases mem_cons.1 h with rfl | h
    · exact ⟨x, mem_cons_self .., .inl rfl⟩
    obtain ⟨k', hk', hx⟩ := mem_queue_sound h
    rcases mem_append.1 hk' with hk' | hk'
    · exact ⟨k', mem_cons_of_mem _ hk', hx⟩
    · -- a child of `k`, or what is below it
      obtain ⟨w, hw, rfl⟩ := mem_map.1 hk'
      obtain ⟨hw, hp⟩ := mem_filter.1 hw
      have hch : F.Descends l k w := .child hw (beq_iff_eq.1 hp)
      refine ⟨k, mem_cons_self .., .inr ?_⟩
      rcases hx with rfl | ⟨v, hv, rfl⟩
      · exact ⟨w, hch, rfl⟩
      · exact ⟨v, hch.trans hv, rfl⟩

/-- **What holds of the queue**, with `done` the keys it has passed and `ks` those to come: no key is there twice, each but
the first is a node's whose parent was passed, and the children of what was passed are there. -/
structure Queued (F : Forest K V) (l : List V) (k₀ : K) (done ks : List K) : Prop where
  distinct : (done ++ ks).Nodup
  origin : ∀ x ∈ done ++ ks, F.rank k₀ ≤ F.rank x ∧ (x = k₀ ∨ ∃ v ∈ l, F.key v = x ∧ F.parent v ∈ done)
  complete : ∀ v ∈ l, F.parent v ∈ done → F.key v ∈ done ++ ks

omit [DecidableEq K] in
theorem queued_init (k₀ : K) : Queued F l k₀ [] [k₀] :=
  ⟨nodup_singleton _, fun _ hx => ⟨Nat.le_of_eq (by rw [mem_singleton.1 hx]), .inl (mem_singleton.1 hx)⟩,
    fun _ _ hp => absurd hp not_mem_nil⟩

theorem Queued.next {done ks : List K} (hl : (l.map F.key).Nodup) (h : Queued F l k₀ done (k :: ks)) :
    Queued F l k₀ (done ++ [k]) (ks ++ (F.children l k).map F.key) := by
  have hs : (done ++ [k]) ++ (ks ++ (F.children l k).map F.key) = (done ++ k :: ks) ++ (F.children l k).map F.key := by
    simp
  have hch : ∀ x ∈ (F.children l k).map F.key, ∃ v ∈ l, F.key v = x ∧ F.parent v = k := fun x hx => by
    obtain ⟨v, hv, rfl⟩ := mem_map.1 hx
    obtain ⟨hv, hp⟩ := mem_filter.1 hv
    exact ⟨v, hv, rfl, beq_iff_eq.1 hp⟩
  have hk := h.origin k (by simp)
  refine ⟨?_, fun x hx => ?_, fun v hv hp => ?_⟩
  · rw [hs, nodup_append]
    refine ⟨h.distinct, hl.sublist ((filter_sublist).map _), fun a ha b hb heq => ?_⟩
    subst heq
    obtain ⟨v, hv, rfl, hp⟩ := hch a hb
    -- a child is deeper than the first key, and its parent was not passed before
    rcases (h.origin _ ha).2 with hk0 | ⟨w, hw, hwk, hwp⟩
    · have := F.rank_key v
      rw [hp, hk0] at this
      omega
    · rw [eq_of_key hl hw hv hwk, hp] at hwp
      have := nodup_append.1 h.distinct
      exact this.2.2 k hwp k (mem_cons_self ..) rfl
  · rw [hs] at hx
    rcases mem_append.1 hx with hx | hx
    · obtain ⟨hr, ho⟩ := h.origin x hx
      refine ⟨hr, ho.imp_right (fun ⟨v, hv, hvx, hp⟩ => ⟨v, hv, hvx, mem_append_left _ hp⟩)⟩
    · obtain ⟨v, hv, rfl, hp⟩ := hch x hx
      refine ⟨?_, .inr ⟨v, hv, rfl, by rw [hp]; simp⟩⟩
      rw [F.rank_key, hp]
      omega
  · rw [hs]
    rcases mem_append.1 hp with hp | hp
    · exact mem_append_left _ (h.complete v hv hp)
    · refine mem_append_right _ (mem_map_of_mem (mem_filter.2 ⟨hv, ?_⟩))
      rw [mem_singleton.1 hp]
      exact beq_self_eq_true _

theorem queue_complete (hl : (l.map F.key).Nodup) : ∀ {n : Nat} {done ks}, Queued F l k₀ done ks →
    l.length + 1 ≤ n + done.length → ∀ v ∈ l, F.parent v ∈ done ++ F.queue l n ks → F.key v ∈ done ++ F.queue l n ks
  | 0, done, ks, h, hn, v, hv, hp => by
    -- no more keys than nodes and the first one, so nothing is left to pass
    have hsub : (done ++ ks) ⊆ k₀ :: l.map F.key := fun x hx => by
      rcases (h.origin x hx).2 with rfl | ⟨w, hw, rfl, -⟩
      · exact mem_cons_self ..
      · exact mem_cons_of_mem _ (mem_map_of_mem hw)
    have hlen := (List.Nodup.subperm h.distinct hsub).length_le
    simp only [length_append, length_cons, length_map] at hlen
    obtain rfl : ks = [] := eq_nil_of_length_eq_zero (by omega)
    rw [queue, append_nil] at hp ⊢
    simpa using h.complete v hv hp
  | n + 1, done, [], h, _, v, hv, hp => by
    rw [queue, append_nil] at hp ⊢
    simpa using h.complete v hv hp
  | n + 1, done, k :: ks, h, hn, v, hv, hp => by
    have heq : done ++ F.queue l (n + 1) (k :: ks) = (done ++ [k]) ++ F.queue l n (ks ++ (F.children l k).map F.key) := by
      simp [queue]
    rw [heq] at hp ⊢
    exact queue_complete hl (h.next hl) (by simp only [length_append, length_singleton]; omega) v hv hp

theorem mem_subtree (hl : (l.map F.key).Nodup) {x : K} :
    x ∈ F.subtree l k ↔ x = k ∨ ∃ v, F.Descends l k v ∧ F.key v = x := by
  have hco := queue_complete hl (queued_init (F := F) (l := l) k) (Nat.le_refl _)
  simp only [nil_append] at hco
  have hk : k ∈ F.subtree l k := by simp [subtree, queue]
  refine ⟨fun h => ?_, ?_⟩
  · obtain ⟨k', hk', hx⟩ := mem_queue_sound h
    rwa [mem_singleton.1 hk'] at hx
  · rintro (rfl | ⟨v, hv, rfl⟩)
    · exact hk
    · induction hv with
      | child mem parent => exact hco _ mem (parent ▸ hk)
      | next mem parent _ ih => exact hco _ mem (parent ▸ ih)

/-! ## Pruning -/

theorem mem_erase : v ∈ F.erase l k ↔ v ∈ l ∧ F.key v ≠ k := by simp [erase]

theorem erase_sublist : (F.erase l k).Sublist l := filter_sublist

theorem foldl_erase_sublist : ∀ (ks : List K) (l : List V), (ks.foldl F.erase l).Sublist l
  | [], _ => List.Sublist.refl _
  | _ :: ks, _ => (foldl_erase_sublist ks _).trans erase_sublist

theorem mem_foldl_erase : ∀ {ks : List K} {l : List V}, v ∈ ks.foldl F.erase l ↔ v ∈ l ∧ F.key v ∉ ks
  | [], _ => by simp
  | k :: ks, l => by
    rw [foldl_cons, mem_foldl_erase, mem_erase, mem_cons, not_or, and_assoc]

theorem prune_sublist : (F.prune l k).Sublist l := foldl_erase_sublist _ _

theorem mem_prune (hl : (l.map F.key).Nodup) : v ∈ F.prune l k ↔ v ∈ l ∧ F.key v ≠ k ∧ ¬ F.Descends l k v := by
  rw [prune, mem_foldl_erase, mem_subtree hl, not_or]
  refine and_congr_right fun hv => and_congr_right (fun _ => not_congr ⟨?_, fun h => ⟨v, h, rfl⟩⟩)
  rintro ⟨w, hw, hk⟩
  rwa [← eq_of_key hl hw.mem hv hk]

namespace Rooted
variable {rs : List K}

theorem prune (h : F.Rooted l rs) (k : K) : F.Rooted (F.prune l k) (rs.filter (· ≠ k)) := by
  refine ⟨h.distinct.sublist (prune_sublist.map _), fun v hv => ?_⟩
  obtain ⟨hv, -, hd⟩ := (mem_prune h.distinct).1 hv
  have hpk : F.parent v ≠ k := fun hp => hd (.child hv hp)
  rcases h.linked v hv with hr | ⟨w, hw, hk⟩
  · exact .inl (mem_filter.2 ⟨hr, decide_eq_true hpk⟩)
  · refine .inr ⟨w, (mem_prune h.distinct).2 ⟨hw, by rwa [hk], fun hd' => hd ?_⟩, hk⟩
    exact .next hv hk.symm hd'

theorem erase (h : F.Rooted l rs) (k : K) : F.Rooted (F.erase l k) (k :: rs) := by
  refine ⟨h.distinct.sublist (erase_sublist.map _), fun v hv => ?_⟩
  rcases h.linked v (mem_erase.1 hv).1 with hr | ⟨w, hw, hk⟩
  · exact .inl (mem_cons_of_mem _ hr)
  · by_cases hwk : F.key w = k
    · exact .inl (by rw [← hk, hwk]; exact mem_cons_self ..)
    · exact .inr ⟨w, mem_erase.2 ⟨hw, hwk⟩, hk⟩

omit [DecidableEq K] in
theorem filter_rank (h : F.Rooted l rs) (n : Nat) : F.Rooted (l.filter (fun v => F.rank (F.key v) < n)) rs := by
  refine ⟨h.distinct.sublist (filter_sublist.map _), fun v hv => ?_⟩
  obtain ⟨hv, hn⟩ := mem_filter.1 hv
  refine (h.linked v hv).imp_right fun ⟨w, hw, hk⟩ => ⟨w, mem_filter.2 ⟨hw, ?_⟩, hk⟩
  have := F.rank_key v
  simp only [decide_eq_true_eq] at hn ⊢
  rw [hk]
  omega

theorem prunes : ∀ {l : List V} {rs : List K} (ks : List K), F.Rooted l rs →
    F.Rooted (ks.foldl F.prune l) (rs.filter (· ∉ ks))
  | _, _, [], h => by simpa using h
  | l, rs, k :: ks, h => by
    have := (h.prune k).prunes ks
    rw [filter_filter] at this
    refine this.weaken fun x hx => ?_
    simp only [mem_filter, Bool.and_eq_true, decide_eq_true_eq, mem_cons, not_or] at hx ⊢
    exact ⟨hx.1, hx.2.2, hx.2.1⟩

end Rooted

omit [DecidableEq K] in
theorem Descends.through (hl : (l.map F.key).Nodup) (hsub : ∀ w ∈ l', w ∈ l) (hk : F.rank k < F.rank k₀)
    (h0 : F.Descends l k₀ v) (h : F.Descends l' k v) : ∃ w ∈ l', F.key w = k₀ := by
  induction h0 with
  | child _ parent =>
    cases h with
    | child _ hp => rw [← parent, hp] at hk; omega
    | next _ hp above => exact ⟨_, above.mem, by rw [← hp, parent]⟩
  | next _ parent above0 ih =>
    cases h with
    | child _ hp =>
      have := above0.rank_lt
      rw [← parent, hp] at this
      omega
    | next _ hp above =>
      rw [eq_of_key hl (hsub _ above.mem) above0.mem (hp.symm.trans parent)] at above
      exact ih above

theorem mem_prunes_of_descends (hl : (l.map F.key).Nodup) (h0 : F.Descends l k₀ v) : ∀ {ks : List K} {l' : List V},
    (∀ k ∈ ks, F.rank k < F.rank k₀) → l'.Sublist l → (∀ w ∈ l', F.key w ≠ k₀) → v ∈ l' → v ∈ ks.foldl F.prune l'
  | [], _, _, _, _, hv => hv
  | k :: ks, l', hks, hsub, hk0, hv => by
    have hk := hks k (mem_cons_self ..)
    have hke : v ∈ F.prune l' k := by
      refine (mem_prune (hl.sublist (hsub.map _))).2 ⟨hv, fun h => ?_, fun h => ?_⟩
      · have := h0.rank_lt
        rw [h] at this
        omega
      · obtain ⟨w, hw, hwk⟩ := h0.through hl (fun _ hw => hsub.subset hw) hk h
        exact hk0 w hw hwk
    rw [foldl_cons]
    exact mem_prunes_of_descends hl h0 (fun k hk => hks k (mem_cons_of_mem _ hk)) (prune_sublist.trans hsub)
      (fun w hw => hk0 w (prune_sublist.subset hw)) hke

theorem foldl_prune_sublist : ∀ (ks : List K) (l : List V), (ks.foldl F.prune l).Sublist l
  | [], _ => List.Sublist.refl _
  | _ :: ks, _ => (foldl_prune_sublist ks _).trans prune_sublist

/-- **Moving the root**: with the new root's node erased and smaller keys pruned, the old root among them, what is left is
rooted there and is what was below it. -/
theorem prunes_spec {ks : List K} (h : F.Rooted l [r]) (hks : ∀ k ∈ ks, F.rank k < F.rank k₀) (hr : r ∈ ks) :
    F.Rooted (ks.foldl F.prune (F.erase l k₀)) [k₀] ∧
      ∀ v, v ∈ ks.foldl F.prune (F.erase l k₀) ↔ F.Descends l k₀ v := by
  have hroot : F.Rooted (ks.foldl F.prune (F.erase l k₀)) [k₀] :=
    ((h.erase k₀).prunes ks).weaken (fun x hx => by
      simp only [mem_filter, mem_cons, not_mem_nil, or_false, decide_eq_true_eq] at hx
      rcases hx with ⟨rfl | rfl, hx⟩
      · exact mem_singleton_self _
      · exact absurd hr hx)
  refine ⟨hroot, fun v => ⟨fun hv => ?_, fun hv => ?_⟩⟩
  · obtain ⟨r, hr, hd⟩ := hroot.descends hv
    rw [← mem_singleton.1 hr]
    exact hd.mono fun _ hw => ((foldl_prune_sublist ks _).trans erase_sublist).subset hw
  · refine mem_prunes_of_descends h.distinct hv hks erase_sublist (fun w hw => (mem_erase.1 hw).2)
      (mem_erase.2 ⟨hv.mem, ?_⟩)
    exact fun hk => absurd hv.rank_lt (by rw [hk]; omega)

end Forest
/-! ## Trees by a parent relation -/

section Tree

variable {α : Type} {nodes : Set α} {parent : α → α → Prop} {root v w : α}

structure IsTree (nodes : Set α) (parent : α → α → Prop) (root : α) : Prop where
  root_mem : root ∈ nodes
  root_top : ∀ w, ¬ parent root w
  parent_mem : ∀ v ∈ nodes, ∀ w, parent v w → w ∈ nodes
  parent_unique : ∀ v ∈ nodes, ∀ w w', parent v w → parent v w' → w = w'
  reaches : ∀ v ∈ nodes, Relation.ReflTransGen parent v root

theorem IsTree.of_rank (rank : α → Nat) (root_mem : root ∈ nodes) (root_top : ∀ w, ¬ parent root w)
    (parent_unique : ∀ v ∈ nodes, ∀ w w', parent v w → parent v w' → w = w')
    (hp : ∀ v ∈ nodes, v ≠ root → ∃ w ∈ nodes, parent v w ∧ rank w < rank v) : IsTree nodes parent root := by
  refine ⟨root_mem, root_top, fun v hv w hvw => ?_, parent_unique, fun v hv => ?_⟩
  · have hne : v ≠ root := fun h => root_top w (h ▸ hvw)
    obtain ⟨u, hu, hvu, -⟩ := hp v hv hne
    exact parent_unique v hv u w hvu hvw ▸ hu
  · induction hn : rank v using Nat.strong_induction_on generalizing v with
    | _ n ih =>
      by_cases hne : v = root
      · exact hne ▸ .refl
      · obtain ⟨w, hw, hvw, hlt⟩ := hp v hv hne
        exact .head hvw (ih (rank w) (hn ▸ hlt) w hw rfl)

theorem transGen_parent (hvw : parent v w) (huni : ∀ w', parent v w' → w' = w) {u : α} :
    Relation.TransGen parent v u ↔ Relation.ReflTransGen parent w u := by
  refine ⟨fun h => ?_, fun h => .head' hvw h⟩
  obtain ⟨w', hw', h⟩ := Relation.TransGen.head'_iff.1 h
  exact huni w' hw' ▸ h

end Tree
end TheChannel
