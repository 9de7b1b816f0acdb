import TheChannel.UndoIndex
/-!
# UndoIndexOrder — the secondary indices when rows come, go and change

An index lists the ids of the rows in the order of its comparator (`StrictIndex`). While `undo` puts old values back one
by one, equivalent rows may stand side by side (`WeakIndex`); the rows it ends with have distinct keys again. One lemma
for each thing that happens to a row.
-/
namespace TheChannel
namespace UndoIndex
open List
open Prod (fst)

variable {V : Type} {rows rows' : List (Nat × Node V)} {p a b : Nat} {less : Nat × V → Nat × V → Bool} {l ix' ix : List Nat}
  {ixs ixs' : List (List Nat)} {P Q : (Nat × V → Nat × V → Bool) → List Nat → Prop} {ls : List (Nat × V → Nat × V → Bool)}

theorem compare_strictWeak (h : StrictWeak less) (rows : List (Nat × Node V)) : StrictWeak (compare less rows) where
  irrefl := fun _ => h.optLt_strictWeak.irrefl _
  trans := fun hab hbc => h.optLt_strictWeak.trans hab hbc
  negTrans := fun hac _ => h.optLt_strictWeak.negTrans hac _

theorem compare_congr (ha : rows.lookup a = rows'.lookup a) (hb : rows.lookup b = rows'.lookup b) :
    compare less rows a b = compare less rows' a b := by
  unfold compare valueOf
  rw [ha, hb]

theorem compare_eq {x y : Node V} (ha : rows.lookup a = some x) (hb : rows.lookup b = some y) :
    compare less rows a b = less (a, x.val) (b, y.val) := by
  unfold compare valueOf
  rw [ha, hb]
  rfl

theorem strictSorted_congr (h : ∀ a ∈ l, rows.lookup a = rows'.lookup a)
    (hs : StrictSorted (compare less rows) l) : StrictSorted (compare less rows') l :=
  hs.imp_of_mem (fun ha hb hab => (compare_congr (h _ ha) (h _ hb)).symm.trans hab)

/-! ## One index -/

structure StrictIndex (less : Nat × V → Nat × V → Bool) (rows : List (Nat × Node V)) (ix : List Nat) : Prop where
  perm : ix.Perm (rows.map fst)
  sorted : StrictSorted (compare less rows) ix

structure WeakIndex (less : Nat × V → Nat × V → Bool) (rows : List (Nat × Node V)) (ix : List Nat) : Prop where
  perm : ix.Perm (rows.map fst)
  sorted : Sorted (compare less rows) ix

structure Drops (rows rows' : List (Nat × Node V)) (p : Nat) : Prop where
  keys : (rows.map fst).Perm (p :: rows'.map fst)
  same : ∀ a ∈ rows'.map fst, rows.lookup a = rows'.lookup a

structure Sets (rows rows' : List (Nat × Node V)) (p : Nat) : Prop where
  keys : rows'.map fst = rows.map fst
  same : ∀ a, a ≠ p → rows.lookup a = rows'.lookup a
  mem : p ∈ rows.map fst
  nodup : (rows.map fst).Nodup

theorem StrictIndex.weak (h : StrictWeak less) (hi : StrictIndex less rows ix) : WeakIndex less rows ix :=
  ⟨hi.perm, StrictSorted.sorted (compare_strictWeak h rows) hi.sorted⟩

theorem StrictIndex.erase (hd : Drops rows rows' p) (hi : StrictIndex less rows ix) :
    StrictIndex less rows' (ix.erase p) := by
  have hp := (hi.perm.trans hd.keys).erase p
  rw [erase_cons_head] at hp
  exact ⟨hp, strictSorted_congr (fun a ha => hd.same a (hp.mem_iff.1 ha)) (hi.sorted.sublist erase_sublist)⟩

theorem StrictIndex.insert (h : StrictWeak less) (hd : Drops rows' rows p)
    (hi : StrictIndex less rows ix) (hins : insertUnique (compare less rows') p ix = some ix') :
    StrictIndex less rows' ix' := by
  refine ⟨(insertUnique_perm hins).trans ((hi.perm.cons p).trans hd.keys.symm), ?_⟩
  refine insertUnique_strict (compare_strictWeak h rows') hins ?_
  exact strictSorted_congr (fun a ha => (hd.same a (hi.perm.mem_iff.1 ha)).symm) hi.sorted

theorem Sets.ne_of_mem_erase (hs : Sets rows rows' p) (hp : ix.Perm (rows.map fst))
    (ha : a ∈ ix.erase p) : a ≠ p :=
  fun heq => (hp.nodup_iff.2 hs.nodup).not_mem_erase (heq ▸ ha)

theorem WeakIndex.reposition (h : StrictWeak less) (hs : Sets rows rows' p)
    (hi : WeakIndex less rows ix) : WeakIndex less rows' (reposition (compare less rows') p ix) := by
  have hmem : p ∈ ix := hi.perm.mem_iff.2 hs.mem
  refine ⟨(reposition_perm hmem).trans (hs.keys ▸ hi.perm), reposition_sorted (compare_strictWeak h rows') hmem ?_⟩
  have hsame := fun a ha => hs.same a (hs.ne_of_mem_erase hi.perm ha)
  exact (hi.sorted.sublist erase_sublist).imp_of_mem
    fun ha hb hab => (compare_congr (hsame _ hb) (hsame _ ha)).symm.trans hab

theorem StrictIndex.repositionUnique (h : StrictWeak less) (hs : Sets rows rows' p)
    (hi : StrictIndex less rows ix) (hr : repositionUnique (compare less rows') p ix = (ix', true)) :
    StrictIndex less rows' ix' := by
  have hmem : p ∈ ix := hi.perm.mem_iff.2 hs.mem
  obtain ⟨hso, hp⟩ := repositionUnique_strict (compare_strictWeak h rows') hmem
    (strictSorted_congr (fun a ha => hs.same a (hs.ne_of_mem_erase hi.perm ha)) (hi.sorted.sublist erase_sublist)) hr
  exact ⟨hp.trans (hs.keys ▸ hi.perm), hso⟩

/-! ## All of them -/

variable (S : TableType V)

def StrictIndices (rows : List (Nat × Node V)) (ixs : List (List Nat)) : Prop :=
  List.Forall₂ (fun less ix => StrictIndex less rows ix) S.less ixs

def WeakIndices (rows : List (Nat × Node V)) (ixs : List (List Nat)) : Prop :=
  List.Forall₂ (fun less ix => WeakIndex less rows ix) S.less ixs

/-- **Distinct keys**: no comparator has two rows of the table equivalent. -/
def Distinct (t : Nat → Option (Node V)) : Prop :=
  ∀ less ∈ S.less, ∀ a b x y, t a = some x → t b = some y → a ≠ b →
    less (a, x.val) (b, y.val) = true ∨ less (b, y.val) (a, x.val) = true

variable {S}

variable {ixs : List (List Nat)}

theorem forall₂_step (f : List Nat → List Nat) (hstep : ∀ less ∈ ls, ∀ ix, P less ix → Q less (f ix))
    (h : List.Forall₂ P ls ixs) : List.Forall₂ Q ls (ixs.map f) := by
  induction h with
  | nil => exact .nil
  | cons h _ ih =>
    exact .cons (hstep _ (mem_cons_self ..) _ h) (ih (fun l hl => hstep l (mem_cons_of_mem _ hl)))

theorem forall₂_imp (hstep : ∀ less ∈ ls, ∀ ix, P less ix → Q less ix) (h : List.Forall₂ P ls ixs) :
    List.Forall₂ Q ls ixs := by
  have := forall₂_step id hstep h
  rwa [map_id] at this

theorem StrictIndices.weak (hi : StrictIndices S rows ixs) : WeakIndices S rows ixs :=
  forall₂_imp (fun less hl _ h => h.weak (S.weak less hl)) hi

theorem StrictIndices.erase (hi : StrictIndices S rows ixs) (hd : Drops rows rows' p) :
    StrictIndices S rows' (eraseIndices p ixs) := forall₂_step _ (fun _ _ _ h => h.erase hd) hi

theorem StrictIndices.insert (hd : Drops rows' rows p) : ∀ {ls : List (Nat × V → Nat × V → Bool)}
    {ixs ixs'}, (∀ l ∈ ls, StrictWeak l) →
    List.Forall₂ (fun less ix => StrictIndex less rows ix) ls ixs → insertIndices rows' p ls ixs = (ixs', true) →
    List.Forall₂ (fun less ix => StrictIndex less rows' ix) ls ixs'
  | [], _, _, _, .nil, hins => by
    cases hins
    exact .nil
  | less :: ls, ix :: ixs, _, hw, .cons h hs, hins => by
    unfold insertIndices at hins
    cases hix : insertUnique (compare less rows') p ix with
    | none => simp [hix] at hins
    | some ix' =>
    rcases hr : insertIndices rows' p ls ixs with ⟨rest, _ | _⟩
    · simp [hix, hr] at hins
    simp only [hix, hr] at hins
    cases hins
    exact .cons (h.insert (hw _ (mem_cons_self ..)) hd hix)
      (StrictIndices.insert hd (fun l hl => hw l (mem_cons_of_mem _ hl)) hs hr)

theorem insertIndices_inserted : ∀ {ls : List (Nat × V → Nat × V → Bool)} {ixs},
    List.Forall₂ (fun less ix => ∀ a ∈ ix, compare less rows a p = true ∨ compare less rows p a = true) ls ixs →
    ∃ ixs', insertIndices rows p ls ixs = (ixs', true)
  | [], _, .nil => ⟨_, rfl⟩
  | less :: ls, ix :: ixs, .cons h hs => by
    obtain ⟨ix', hix⟩ := insertUnique_isSome h
    obtain ⟨ixs', hi⟩ := insertIndices_inserted hs
    exact ⟨ix' :: ixs', by simp only [insertIndices, hix, hi]⟩

/-- What a failed insertion did before is undone, as the node was in none of the indices. -/
theorem insertIndices_restored : ∀ {ls : List (Nat × V → Nat × V → Bool)} {ixs ixs'}, List.Forall₂ (fun _ ix => p ∉ ix) ls ixs →
    insertIndices rows p ls ixs = (ixs', false) → ixs' = ixs
  | [], _, _, .nil, h => by cases h
  | less :: ls, ix :: ixs, ixs', .cons hix hps, h => by
    unfold insertIndices at h
    cases hins : insertUnique (compare less rows) p ix with
    | none =>
      simp only [hins] at h
      cases h
      rfl
    | some ix' =>
      rcases hr : insertIndices rows p ls ixs with ⟨rest, _ | _⟩
      · simp only [hins, hr] at h
        cases h
        obtain ⟨pre, post, rfl, rfl⟩ := insertUnique_split hins
        have hpre : p ∉ pre := fun hm => hix (mem_append_left _ hm)
        rw [insertIndices_restored hps hr, erase_append_right _ hpre, erase_cons_head]
      · simp [hins, hr] at h

theorem WeakIndices.postModify (hs : Sets rows rows' p) : ∀ {ls : List (Nat × V → Nat × V → Bool)}
    {ixs}, (∀ l ∈ ls, StrictWeak l) →
    List.Forall₂ (fun less ix => WeakIndex less rows ix) ls ixs →
    List.Forall₂ (fun less ix => WeakIndex less rows' ix) ls (postModify rows' p ls ixs)
  | [], _, _, .nil => .nil
  | _ :: _, _ :: _, hw, .cons h hr =>
    .cons (h.reposition (hw _ (mem_cons_self ..)) hs)
      (WeakIndices.postModify hs (fun l hl => hw l (mem_cons_of_mem _ hl)) hr)

theorem StrictIndices.postModifyUnique (hs : Sets rows rows' p) : ∀ {ls : List (Nat × V → Nat × V → Bool)}
    {ixs ixs'}, (∀ l ∈ ls, StrictWeak l) →
    List.Forall₂ (fun less ix => StrictIndex less rows ix) ls ixs → postModifyUnique rows' p ls ixs = (ixs', true) →
    List.Forall₂ (fun less ix => StrictIndex less rows' ix) ls ixs'
  | [], _, _, _, .nil, hm => by
    cases hm
    exact .nil
  | less :: ls, ix :: ixs, _, hw, .cons h hre, hm => by
    unfold UndoIndex.postModifyUnique at hm
    rcases hr : TheChannel.repositionUnique (compare less rows') p ix with ⟨ix', success⟩
    rw [hr] at hm
    cases success with
    | false => cases hm
    | true =>
      rcases hp : UndoIndex.postModifyUnique rows' p ls ixs with ⟨rest, success⟩
      simp only [hp] at hm
      cases hm
      exact .cons (h.repositionUnique (hw _ (mem_cons_self ..)) hs hr)
        (StrictIndices.postModifyUnique hs (fun l hl => hw l (mem_cons_of_mem _ hl)) hre hp)

/-! ## Keys -/

theorem StrictIndices.distinct (hi : StrictIndices S rows ixs) : Distinct S (fun q => rows.lookup q) := by
  intro less hl a b x y ha hb hne
  obtain ⟨ix, hix⟩ : ∃ ix, StrictIndex less rows ix := by
    obtain ⟨i, hi', rfl⟩ := getElem_of_mem hl
    exact ⟨_, hi.get hi' (hi.length_eq ▸ hi')⟩
  have hmem : ∀ {c : Nat} {z : Node V}, rows.lookup c = some z → c ∈ ix := fun hc =>
    hix.perm.mem_iff.2 (lookup_isSome_iff_mem.1 (by rw [hc]; rfl))
  have hcm := hix.sorted.comparable (hmem ha) (hmem hb) hne
  rwa [compare_eq ha hb, compare_eq hb ha] at hcm

theorem WeakIndices.strict (hi : WeakIndices S rows ixs) (hn : (rows.map fst).Nodup)
    (hd : Distinct S (fun q => rows.lookup q)) : StrictIndices S rows ixs := by
  refine forall₂_imp (fun less hl ix h => ⟨h.perm, ?_⟩) hi
  refine h.sorted.strict (h.perm.nodup_iff.2 hn) fun a ha b hb hne => ?_
  obtain ⟨x, hx⟩ := Option.isSome_iff_exists.1 (lookup_isSome_iff_mem.2 (h.perm.mem_iff.1 ha))
  obtain ⟨y, hy⟩ := Option.isSome_iff_exists.1 (lookup_isSome_iff_mem.2 (h.perm.mem_iff.1 hb))
  rw [compare_eq hx hy, compare_eq hy hx]
  exact hd less hl a b x y hx hy hne

theorem StrictIndices.insertIndices_inserted (hi : StrictIndices S rows ixs) (hd : Drops rows' rows p) {n : Node V}
    (hp : rows'.lookup p = some n) (hnot : p ∉ rows.map fst) (hdi : Distinct S (fun q => rows'.lookup q)) :
    ∃ ixs', insertIndices rows' p S.less ixs = (ixs', true) := by
  refine TheChannel.UndoIndex.insertIndices_inserted (forall₂_imp (fun less hl ix h a ha => ?_) hi)
  have hmem := h.perm.mem_iff.1 ha
  obtain ⟨x, hx⟩ := Option.isSome_iff_exists.1 (lookup_isSome_iff_mem.2 hmem)
  have hx' : rows'.lookup a = some x := (hd.same a hmem).trans hx
  rw [compare_eq hx' hp, compare_eq hp hx']
  exact hdi less hl a p x n hx' hp fun heq => hnot (heq ▸ hmem)

end UndoIndex
end TheChannel
