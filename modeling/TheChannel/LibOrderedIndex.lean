import Mathlib.Data.List.Basic
import Mathlib.Data.List.Pairwise
/-!
# LibOrderedIndex — ordered sets of references to values that change

The elements of an ordered intrusive set are references; the order compares the values they refer to. A strict weak order
`lt` on references stands for that comparison. When one value changes, its reference is moved if it no longer lies
between its neighbours (`reposition`, `repositionUnique`). While several values are being restored, equivalent elements
may stand next to each other (`Sorted`); with distinct keys the order is strict (`StrictSorted`).
-/
namespace TheChannel
open List

variable {ι : Type} {lt : ι → ι → Bool} {p : ι}

/-- **A strict weak order**, as a comparator computes it. -/
structure StrictWeak {α : Type} (lt : α → α → Bool) : Prop where
  irrefl : ∀ a, lt a a = false
  trans : ∀ {a b c}, lt a b = true → lt b c = true → lt a c = true
  negTrans : ∀ {a c}, lt a c = true → ∀ b, lt a b = true ∨ lt b c = true

namespace StrictWeak
variable {α : Type} {lt : α → α → Bool}

theorem asymm (h : StrictWeak lt) {a b : α} (hab : lt a b = true) : lt b a = false := by
  rw [← Bool.not_eq_true]
  intro hba
  have := h.trans hab hba
  rw [h.irrefl] at this
  cases this

def optLt (lt : α → α → Bool) : Option α → Option α → Bool
  | some a, some b => lt a b
  | none, some _ => true
  | _, none => false

theorem optLt_strictWeak (h : StrictWeak lt) : StrictWeak (optLt lt) where
  irrefl := by
    intro a
    cases a with
    | none => rfl
    | some a => exact h.irrefl a
  trans := by
    intro a b c hab hbc
    cases a <;> cases b <;> cases c <;> simp only [optLt] at hab hbc ⊢ <;> try contradiction
    exact h.trans hab hbc
  negTrans := by
    intro a c hac b
    cases a <;> cases b <;> cases c <;> simp only [optLt] at hac ⊢ <;> try simp_all
    exact h.negTrans hac _

end StrictWeak

/-! ## The operations -/

section Operations

variable (lt : ι → ι → Bool)

/-- `insert_unique`: none if an equivalent element is there. -/
def insertUnique (p : ι) : List ι → Option (List ι)
  | [] => some [p]
  | a :: l =>
    if lt a p then (insertUnique p l).map (a :: ·)
    else if lt p a then some (p :: a :: l)
    else none

def insertEqual (p : ι) : List ι → List ι
  | [] => [p]
  | a :: l => if lt p a then p :: a :: l else a :: insertEqual p l

def insertBefore (p : ι) : List ι → List ι
  | [] => [p]
  | a :: l => if lt a p then a :: insertBefore p l else p :: a :: l

def Sorted (l : List ι) : Prop := l.Pairwise (fun a b => lt b a = false)

def StrictSorted (l : List ι) : Prop := l.Pairwise (fun a b => lt a b = true)

/-! Moving an element -/

variable [DecidableEq ι]

def misplaced (p : ι) (l : List ι) : Bool :=
  (l.takeWhile (· ≠ p)).getLast?.any (fun a => !lt a p) || ((l.dropWhile (· ≠ p)).drop 1).head?.any (fun a => !lt p a)

def reposition (p : ι) (l : List ι) : List ι := if misplaced lt p l then insertEqual lt p (l.erase p) else l

def repositionUnique (p : ι) (l : List ι) : List ι × Bool :=
  if misplaced lt p l then
    match insertUnique lt p (l.erase p) with
    | some l' => (l', true)
    | none => (insertBefore lt p (l.erase p), false)
  else (l, true)

end Operations

/-! ## What they leave -/

theorem insertEqual_perm : ∀ l : List ι, (insertEqual lt p l).Perm (p :: l)
  | [] => List.Perm.refl _
  | a :: l => by
    unfold insertEqual
    split
    · exact List.Perm.refl _
    · exact ((insertEqual_perm l).cons a).trans (List.Perm.swap p a l)

theorem insertUnique_split : ∀ {l l'}, insertUnique lt p l = some l' →
    ∃ pre post, l = pre ++ post ∧ l' = pre ++ p :: post
  | [], _, h => by
    cases h
    exact ⟨[], [], rfl, rfl⟩
  | a :: l, _, h => by
    unfold insertUnique at h
    split at h
    · obtain ⟨m, hm, rfl⟩ := Option.map_eq_some_iff.1 h
      obtain ⟨pre, post, rfl, rfl⟩ := insertUnique_split hm
      exact ⟨a :: pre, post, rfl, rfl⟩
    · split at h
      · cases h
        exact ⟨[], a :: l, rfl, rfl⟩
      · cases h

theorem insertUnique_perm {l l' : List ι} (h : insertUnique lt p l = some l') : l'.Perm (p :: l) := by
  obtain ⟨pre, post, rfl, rfl⟩ := insertUnique_split h
  exact perm_middle

theorem insertUnique_isSome : ∀ {l}, (∀ a ∈ l, lt a p = true ∨ lt p a = true) →
    ∃ l', insertUnique lt p l = some l'
  | [], _ => ⟨[p], rfl⟩
  | a :: l, h => by
    unfold insertUnique
    by_cases ha : lt a p = true
    · obtain ⟨l', hl'⟩ := insertUnique_isSome (fun b hb => h b (mem_cons_of_mem _ hb))
      exact ⟨a :: l', by rw [if_pos ha, hl']; rfl⟩
    · exact ⟨p :: a :: l, by rw [if_neg ha, if_pos ((h a (mem_cons_self ..)).resolve_left ha)]⟩

theorem insert_between {R : ι → ι → Prop} {pre post : List ι} (hs : (pre ++ post).Pairwise R) (h1 : ∀ a ∈ pre, R a p)
    (h2 : ∀ b ∈ post, R p b) : (pre ++ p :: post).Pairwise R := by
  obtain ⟨hpre, hp, hcr⟩ := pairwise_append.1 hs
  refine pairwise_append.2 ⟨hpre, pairwise_cons.2 ⟨h2, hp⟩, fun a ha b hb => ?_⟩
  rcases mem_cons.1 hb with rfl | hb
  · exact h1 a ha
  · exact hcr a ha b hb

section Orders

variable (ho : StrictWeak lt)
include ho

theorem insertEqual_sorted : ∀ {l}, Sorted lt l → Sorted lt (insertEqual lt p l)
  | [], _ => pairwise_singleton _ _
  | a :: l, h => by
    obtain ⟨ha, hl⟩ := pairwise_cons.1 h
    unfold insertEqual
    by_cases hp : lt p a = true
    · rw [if_pos hp]
      refine pairwise_cons.2 ⟨fun b hb => ?_, h⟩
      rcases mem_cons.1 hb with rfl | hb
      · exact ho.asymm hp
      · -- `p < a` and not `b < a`, so `p < b`
        exact ho.asymm ((ho.negTrans hp b).resolve_right (by rw [ha b hb]; exact Bool.false_ne_true))
    · rw [if_neg hp]
      refine pairwise_cons.2 ⟨fun b hb => ?_, insertEqual_sorted hl⟩
      rcases mem_cons.1 ((insertEqual_perm l).mem_iff.1 hb) with rfl | hb
      · simpa using hp
      · exact ha b hb

theorem insertUnique_strict : ∀ {l l'}, insertUnique lt p l = some l' → StrictSorted lt l → StrictSorted lt l'
  | [], l', h, _ => by
    cases h
    exact pairwise_singleton _ _
  | a :: l, l', h, hs => by
    obtain ⟨ha, hl⟩ := pairwise_cons.1 hs
    unfold insertUnique at h
    by_cases hap : lt a p = true
    · rw [if_pos hap] at h
      obtain ⟨m, hm, rfl⟩ := Option.map_eq_some_iff.1 h
      refine pairwise_cons.2 ⟨fun b hb => ?_, insertUnique_strict hm hl⟩
      rcases mem_cons.1 ((insertUnique_perm hm).mem_iff.1 hb) with rfl | hb
      · exact hap
      · exact ha b hb
    · rw [if_neg hap] at h
      by_cases hpa : lt p a = true
      · rw [if_pos hpa] at h
        cases h
        refine pairwise_cons.2 ⟨fun b hb => ?_, hs⟩
        rcases mem_cons.1 hb with rfl | hb
        · exact hpa
        · exact ho.trans hpa (ha b hb)
      · rw [if_neg hpa] at h
        cases h

variable {l : List ι}

theorem StrictSorted.sorted (h : StrictSorted lt l) : Sorted lt l := h.imp (fun hab => ho.asymm hab)

variable [DecidableEq ι]

theorem between_of_not_misplaced {pre post : List ι} (hpre : p ∉ pre) (hs : Sorted lt (pre ++ post))
    (hm : misplaced lt p (pre ++ p :: post) = false) : (∀ a ∈ pre, lt a p = true) ∧ ∀ b ∈ post, lt p b = true := by
  have hne : ∀ a ∈ pre, decide (a ≠ p) = true := fun a ha => decide_eq_true fun heq => hpre (heq ▸ ha)
  have ht : (pre ++ p :: post).takeWhile (· ≠ p) = pre := by
    rw [takeWhile_append_of_pos hne]
    simp
  have hd : (pre ++ p :: post).dropWhile (· ≠ p) = p :: post := by
    rw [dropWhile_append_of_pos hne]
    simp
  unfold misplaced at hm
  rw [ht, hd, Bool.or_eq_false_iff] at hm
  obtain ⟨hl, hh⟩ := hm
  obtain ⟨hsp, hso, -⟩ := pairwise_append.1 hs
  constructor
  · intro a ha
    obtain ⟨c, hc⟩ := getLast?_isSome.2 (ne_nil_of_mem ha) |> Option.isSome_iff_exists.1
    rw [hc] at hl
    have hcp : lt c p = true := by simpa using hl
    -- `a` is at or before the last element `c`
    have hca : a = c ∨ lt c a = false := by
      obtain ⟨init, rfl⟩ := getLast?_eq_some_iff.1 hc
      rcases mem_append.1 ha with ha | ha
      · exact .inr ((pairwise_append.1 hsp).2.2 a ha c (mem_singleton_self _))
      · exact .inl (mem_singleton.1 ha)
    rcases hca with rfl | hca
    · exact hcp
    · exact (ho.negTrans hcp a).resolve_left (by rw [hca]; exact Bool.false_ne_true)
  · intro b hb
    cases post with
    | nil => cases hb
    | cons d post =>
      have hpd : lt p d = true := by simpa using hh
      rcases mem_cons.1 hb with rfl | hb
      · exact hpd
      · have hbd := (pairwise_cons.1 hso).1 b hb
        exact (ho.negTrans hpd b).resolve_right (by rw [hbd]; exact Bool.false_ne_true)

theorem reposition_sorted (hp : p ∈ l) (hs : Sorted lt (l.erase p)) : Sorted lt (reposition lt p l) := by
  unfold reposition
  by_cases hm : misplaced lt p l = true
  · rw [if_pos hm]
    exact insertEqual_sorted ho hs
  · rw [if_neg hm]
    obtain ⟨pre, post, hpre, rfl, hera⟩ := exists_erase_eq hp
    rw [hera] at hs
    obtain ⟨h1, h2⟩ := between_of_not_misplaced ho hpre hs (by simpa using hm)
    exact insert_between hs (fun a ha => ho.asymm (h1 a ha)) fun b hb => ho.asymm (h2 b hb)

theorem repositionUnique_strict {l' : List ι} (hp : p ∈ l) (hs : StrictSorted lt (l.erase p))
    (hr : repositionUnique lt p l = (l', true)) : StrictSorted lt l' ∧ l'.Perm l := by
  unfold repositionUnique at hr
  by_cases hm : misplaced lt p l = true
  · rw [if_pos hm] at hr
    cases hi : insertUnique lt p (l.erase p) with
    | none => rw [hi] at hr; cases hr
    | some m =>
      rw [hi] at hr
      cases hr
      exact ⟨insertUnique_strict ho hi hs, (insertUnique_perm hi).trans (perm_cons_erase hp).symm⟩
  · rw [if_neg hm] at hr
    cases hr
    obtain ⟨pre, post, hpre, rfl, hera⟩ := exists_erase_eq hp
    rw [hera] at hs
    obtain ⟨h1, h2⟩ := between_of_not_misplaced ho hpre (StrictSorted.sorted ho hs) (by simpa using hm)
    exact ⟨insert_between hs h1 h2, List.Perm.refl _⟩

end Orders

theorem reposition_perm [DecidableEq ι] {l : List ι} (hp : p ∈ l) : (reposition lt p l).Perm l := by
  unfold reposition
  split
  · exact (insertEqual_perm _).trans (perm_cons_erase hp).symm
  · exact List.Perm.refl _

theorem StrictSorted.comparable : ∀ {l}, StrictSorted lt l → ∀ {a b : ι}, a ∈ l → b ∈ l → a ≠ b →
    lt a b = true ∨ lt b a = true
  | c :: l, h, a, b, ha, hb, hne => by
    obtain ⟨hc, hl⟩ := pairwise_cons.1 h
    rcases mem_cons.1 ha with rfl | ha'
    · exact .inl (hc b ((mem_cons.1 hb).resolve_left (fun heq => hne heq.symm)))
    · rcases mem_cons.1 hb with rfl | hb'
      · exact .inr (hc a ha')
      · exact StrictSorted.comparable hl ha' hb' hne

theorem Sorted.strict {l : List ι} (h : Sorted lt l) (hn : l.Nodup)
    (hd : ∀ a ∈ l, ∀ b ∈ l, a ≠ b → lt a b = true ∨ lt b a = true) : StrictSorted lt l := by
  refine (h.and hn).imp_of_mem fun {a b} ha hb hab => ?_
  exact (hd a ha b hb hab.2).resolve_right (by rw [hab.1]; exact Bool.false_ne_true)

/-! ## Moving an element there and back -/

section Moved

theorem insertBefore_split : ∀ l : List ι, ∃ pre post, l = pre ++ post ∧ insertBefore lt p l = pre ++ p :: post
  | [] => ⟨[], [], rfl, rfl⟩
  | a :: l => by
    unfold insertBefore
    split
    · obtain ⟨pre, post, hl, heq⟩ := insertBefore_split l
      exact ⟨a :: pre, post, by rw [hl]; rfl, by rw [heq]; rfl⟩
    · exact ⟨[], a :: l, rfl, rfl⟩

variable [DecidableEq ι] {l l' : List ι}

def Moved (p : ι) (l l' : List ι) : Prop := p ∈ l' ∧ l'.erase p = l.erase p

theorem moved_of_split {pre post : List ι} (hn : l.Nodup) (h : l.erase p = pre ++ post) : Moved p l (pre ++ p :: post) := by
  have hpre : p ∉ pre := fun hmem => hn.not_mem_erase (h ▸ mem_append_left _ hmem)
  refine ⟨mem_append_right _ mem_cons_self, ?_⟩
  rw [erase_append_right _ hpre, erase_cons_head, h]

theorem repositionUnique_moved (hp : p ∈ l) (hn : l.Nodup) : Moved p l (repositionUnique lt p l).1 := by
  unfold repositionUnique
  split
  · split
    · rename_i hins
      obtain ⟨pre, post, hl, rfl⟩ := insertUnique_split hins
      exact moved_of_split hn hl
    · obtain ⟨pre, post, hl, heq⟩ := @insertBefore_split _ lt p (l.erase p)
      rw [heq]
      exact moved_of_split hn hl
  · exact ⟨hp, rfl⟩

theorem repositionUnique_back (ho : StrictWeak lt) (hs : StrictSorted lt l) (hp : p ∈ l) (hm : Moved p l l') :
    repositionUnique lt p l' = (l, true) := by
  obtain ⟨hp', hera⟩ := hm
  have hn : l.Nodup := hs.imp fun hab heq => by rw [heq, ho.irrefl] at hab; cases hab
  have hf : (repositionUnique lt p l').2 = true := by
    unfold repositionUnique
    split
    · obtain ⟨x, hx⟩ : ∃ x, insertUnique lt p (l'.erase p) = some x := by
        refine insertUnique_isSome fun a ha => ?_
        rw [hera] at ha
        exact hs.comparable (mem_of_mem_erase ha) hp fun heq => hn.not_mem_erase (heq ▸ ha)
      rw [hx]
    · rfl
  have hsorted := repositionUnique_strict ho hp' (hera ▸ hs.sublist erase_sublist)
    (show repositionUnique lt p l' = ((repositionUnique lt p l').1, true) from Prod.ext rfl hf)
  have hpe : (repositionUnique lt p l').1.Perm l :=
    hsorted.2.trans ((perm_cons_erase hp').trans (hera ▸ (perm_cons_erase hp).symm))
  refine Prod.ext (hpe.eq_of_pairwise (fun a b _ _ hab hba => ?_) hsorted.1 hs) hf
  rw [ho.asymm hab] at hba
  cases hba

end Moved
end TheChannel
