import TheChannel.FinalityCore
import TheChannel.LibNumbered
/-!
# FinalityCoreInv — the nine invariants of a finality core, kept by `next`

`finality_core.hpp` states nine invariants and `finality_core.cpp` argues them in comments. `Invariants` is their
statement, `Wf` the form the induction carries: the links are numbered from the front link's source, the references from
the last final block. Under `Wf` and `next`'s preconditions no assert of `next` fails and its result is `advance`
(`next_eq`), which is `Wf` again (`wf_advance`).
-/
namespace TheChannel
namespace FinalityCore
open List

/-- **The invariants 1 to 9 of `finality_core.hpp`.** -/
structure Invariants (c : FinalityCore) : Prop where
  inv1 : c.links ≠ []
  inv2 : c.lastFinalBlockNum ≤ c.front.sourceBlockNum ∧ c.front.sourceBlockNum ≤ c.latestQcClaim.blockNum
  inv3 : c.refs = [] → c.links.length = 1 ∧ c.back.targetBlockNum = c.back.sourceBlockNum ∧
    c.back.sourceBlockNum = c.lastFinalBlockNum
  inv4 : ∀ r, c.refs.head? = some r → r.blockNum = c.front.targetBlockNum ∧ c.front.targetBlockNum = c.lastFinalBlockNum
  inv5 : ∀ r, c.refs.getLast? = some r → r.blockNum + 1 = c.back.sourceBlockNum ∧
    c.back.sourceBlockNum = c.currentBlockNum
  inv6 : c.refs.IsChain (fun a b => a.blockNum + 1 = b.blockNum ∧ a.timestamp < b.timestamp)
  inv7 : c.links.IsChain (fun a b => a.sourceBlockNum + 1 = b.sourceBlockNum ∧ a.targetBlockNum ≤ b.targetBlockNum)
  inv8 : c.lastFinalBlockNum ≤ c.currentBlockNum ∧ c.currentBlockNum - c.lastFinalBlockNum = c.refs.length
  inv9 : c.front.sourceBlockNum ≤ c.currentBlockNum ∧
    c.currentBlockNum - c.front.sourceBlockNum = c.links.length - 1

/-- **A well-formed core**: what `next` keeps, in the form the induction needs. -/
structure Wf (c : FinalityCore) : Prop where
  links_ne : c.links ≠ []
  sources : NumberedFrom QcLink.sourceBlockNum c.front.sourceBlockNum c.links
  targets : c.links.Pairwise (fun a b => a.targetBlockNum ≤ b.targetBlockNum)
  target_le : ∀ l ∈ c.links, l.targetBlockNum ≤ l.sourceBlockNum
  front_le : c.front.sourceBlockNum ≤ c.latestQcClaim.blockNum
  ref_nums : NumberedFrom BlockRef.blockNum c.lastFinalBlockNum c.refs
  ref_times : c.refs.Pairwise (fun a b => a.timestamp < b.timestamp)
  ref_length : c.lastFinalBlockNum + c.refs.length = c.currentBlockNum
  genesis : c.refs = [] → c.links.length = 1
  proper : c.refs ≠ [] → ∀ l ∈ c.links, l.targetBlockNum < c.currentBlockNum

variable {c : FinalityCore}

theorem links_head? (h : c.links ≠ []) : c.links.head? = some c.front := by
  unfold front
  cases hl : c.links with
  | nil => exact absurd hl h
  | cons l ls => rfl

theorem links_getLast? (h : c.links ≠ []) : c.links.getLast? = some c.back := by
  unfold back
  obtain ⟨l, hl⟩ := Option.ne_none_iff_exists'.1 fun hn => h (getLast?_eq_none_iff.1 hn)
  rw [hl]; rfl

namespace Wf
variable {c : FinalityCore} {l : QcLink}

theorem front_mem (h : c.Wf) : c.front ∈ c.links := mem_of_head? (links_head? h.links_ne)

theorem back_mem (h : c.Wf) : c.back ∈ c.links := mem_of_getLast? (links_getLast? h.links_ne)

theorem source_back (h : c.Wf) : c.currentBlockNum + 1 = c.front.sourceBlockNum + c.links.length :=
  numberedFrom_getLast? h.sources (links_getLast? h.links_ne)

theorem lastFinal_le_front (h : c.Wf) : c.lastFinalBlockNum ≤ c.front.sourceBlockNum := h.target_le _ h.front_mem

section

variable (h : c.Wf)

include h

theorem source_le_current (hl : l ∈ c.links) : l.sourceBlockNum ≤ c.currentBlockNum := by
  have := numberedFrom_mem h.sources hl
  have := h.source_back
  omega

theorem claim_le_current : c.latestQcClaim.blockNum ≤ c.currentBlockNum :=
  h.target_le _ h.back_mem

theorem lastFinal_le_claim : c.lastFinalBlockNum ≤ c.latestQcClaim.blockNum :=
  h.lastFinal_le_front.trans h.front_le

theorem front_target_le (hl : l ∈ c.links) : c.lastFinalBlockNum ≤ l.targetBlockNum := by
  have hh := links_head? h.links_ne
  have ht := h.targets
  cases hls : c.links with
  | nil => rw [hls] at hl; cases hl
  | cons x xs =>
    rw [hls] at hl hh ht
    obtain rfl : x = c.front := by simpa using hh
    rcases mem_cons.1 hl with rfl | hl
    · exact le_rfl
    · exact rel_of_pairwise_cons ht hl

theorem target_le_claim (hl : l ∈ c.links) : l.targetBlockNum ≤ c.latestQcClaim.blockNum := by
  have hla := dropLast_append_getLast? c.back (links_getLast? h.links_ne)
  have ht := h.targets
  rw [← hla] at hl ht
  rcases mem_append.1 hl with hl | hl
  · exact (pairwise_append.1 ht).2.2 l hl c.back (by simp)
  · rw [mem_singleton.1 hl]; exact le_rfl

theorem invariants : c.Invariants where
  inv1 := h.links_ne
  inv2 := ⟨h.lastFinal_le_front, h.front_le⟩
  inv3 := by
    intro hr
    have hlen := h.genesis hr
    have h1 := h.ref_length
    have h2 := h.source_back
    have h3 := h.front_le
    have h4 := h.claim_le_current
    have h5 := h.lastFinal_le_front
    rw [hr, length_nil] at h1
    unfold latestQcClaim at h3 h4
    unfold currentBlockNum at h1 h2 h4
    refine ⟨hlen, ?_, ?_⟩ <;> simp only at h3 h4 <;> omega
  inv4 := fun r hr => ⟨numberedFrom_head? h.ref_nums hr, rfl⟩
  inv5 := by
    intro r hr
    have := numberedFrom_getLast? h.ref_nums hr
    rw [h.ref_length] at this
    exact ⟨this, rfl⟩
  inv6 := isChain_of_numberedFrom h.ref_nums h.ref_times
  inv7 := isChain_of_numberedFrom h.sources h.targets
  inv8 := by have := h.ref_length; omega
  inv9 := by
    have := h.source_back
    have := h.source_le_current h.front_mem
    omega

end

end Wf

theorem wf_genesis (id : BlockId) (t : Nat) : (createCoreForGenesisBlock id t).Wf where
  links_ne := by simp [createCoreForGenesisBlock]
  sources := ⟨rfl, trivial⟩
  targets := pairwise_singleton _ _
  target_le := by simp [createCoreForGenesisBlock]
  front_le := le_rfl
  ref_nums := trivial
  ref_times := List.Pairwise.nil
  ref_length := rfl
  genesis := fun _ => rfl
  proper := fun h => absurd rfl h

/-! ## What `next` returns -/

def frontAfter (c : FinalityCore) (q : QcClaim) : QcLink :=
  if q.isStrongQc then (c.links[q.blockNum - c.front.sourceBlockNum]?).getD default else c.front

/-- `next` without its asserts. -/
def advance (c : FinalityCore) (currentBlock : BlockRef) (q : QcClaim) : FinalityCore :=
  { links := c.links.drop ((c.frontAfter q).sourceBlockNum - c.front.sourceBlockNum) ++
      [⟨c.currentBlockNum + 1, q.blockNum, q.isStrongQc⟩]
    refs := c.refs.drop ((c.frontAfter q).targetBlockNum - c.lastFinalBlockNum) ++ [currentBlock]
    genesisTimestamp := 0 }

/-- **A claim a child may make**: not past the parent, not behind the parent's claim. -/
structure Claimable (c : FinalityCore) (q : QcClaim) : Prop where
  le_current : q.blockNum ≤ c.currentBlockNum
  le_claim : c.latestQcClaim.le q = true

section Next

variable {c : FinalityCore} {q : QcClaim} {n : Nat} {r : BlockRef}

theorem Claimable.claim_le (hq : c.Claimable q) : c.latestQcClaim.blockNum ≤ q.blockNum :=
  QcClaim.blockNum_le_of_le hq.le_claim

theorem Wf.getQcLinkFrom_ok (h : c.Wf) (h1 : c.front.sourceBlockNum ≤ n) (h2 : n ≤ c.currentBlockNum) :
    ∃ l, c.getQcLinkFrom n = .ok l ∧ c.links[n - c.front.sourceBlockNum]? = some l ∧ l.sourceBlockNum = n := by
  have hb := h.source_back
  obtain ⟨l, hl, hn⟩ := numberedFrom_lookup h.sources h1 (by omega)
  refine ⟨l, ?_, hl, hn⟩
  simp [getQcLinkFrom, assertThat, h.links_ne, h1, h2, hl]

theorem Wf.getBlockReference_ok (h : c.Wf) (h1 : c.lastFinalBlockNum ≤ n) (h2 : n < c.currentBlockNum) :
    ∃ r, c.getBlockReference n = .ok r ∧ c.refs[n - c.lastFinalBlockNum]? = some r ∧ r.blockNum = n := by
  have hb := h.ref_length
  obtain ⟨r, hr, hn⟩ := numberedFrom_lookup h.ref_nums h1 (by omega)
  refine ⟨r, ?_, hr, hn⟩
  simp [getBlockReference, assertThat, h.links_ne, h1, h2, hr]

theorem Wf.blockNum_of_getBlockReference (h : c.Wf) (hr : c.getBlockReference n = .ok r) : r.blockNum = n := by
  obtain ⟨-, hr'⟩ := unit_ok hr
  obtain ⟨h1, hr'⟩ := unit_ok hr'
  obtain ⟨h2, -⟩ := unit_ok hr'
  obtain ⟨r', hok, -, hn⟩ := h.getBlockReference_ok (by simpa using h1) (by simpa using h2)
  rw [hr] at hok
  cases hok
  exact hn

theorem Wf.frontAfter_spec (h : c.Wf) (hq : c.Claimable q) :
    c.links[(c.frontAfter q).sourceBlockNum - c.front.sourceBlockNum]? = some (c.frontAfter q) ∧
      c.front.sourceBlockNum ≤ (c.frontAfter q).sourceBlockNum ∧ (c.frontAfter q).sourceBlockNum ≤ q.blockNum ∧
      (q.isStrongQc = true → (c.frontAfter q).sourceBlockNum = q.blockNum) := by
  have hc := hq.claim_le
  have hf := h.front_le
  cases hs : q.isStrongQc with
  | true =>
    obtain ⟨l, -, hl, hn⟩ := h.getQcLinkFrom_ok (hf.trans hc) hq.le_current
    have hfa : c.frontAfter q = l := by simp [frontAfter, hs, hl]
    rw [hfa, hn]
    exact ⟨hl, hf.trans hc, le_rfl, fun _ => rfl⟩
  | false =>
    have hfa : c.frontAfter q = c.front := by simp [frontAfter, hs]
    rw [hfa, Nat.sub_self]
    refine ⟨?_, le_rfl, hf.trans hc, fun h => by cases h⟩
    rw [← head?_eq_getElem?, links_head? h.links_ne]

theorem Wf.frontAfter_mem (h : c.Wf) (hq : c.Claimable q) : c.frontAfter q ∈ c.links :=
  mem_of_getElem? (h.frontAfter_spec hq).1

theorem Wf.getNewBlockNumbers_eq (h : c.Wf) (hq : c.Claimable q) :
    c.getNewBlockNumbers q = .ok ((c.frontAfter q).targetBlockNum, (c.frontAfter q).sourceBlockNum) := by
  have hc := hq.claim_le
  have hf := h.front_le.trans hc
  cases hs : q.isStrongQc with
  | true =>
    obtain ⟨l, hok, hl, hn⟩ := h.getQcLinkFrom_ok hf hq.le_current
    have hfa : c.frontAfter q = l := by simp [frontAfter, hs, hl]
    have ht := h.front_target_le (mem_of_getElem? hl)
    simp [getNewBlockNumbers, assertThat, hs, hq.le_current, hc, hf, hok, hfa, ht, hn, pure, Except.pure]
  | false =>
    have hfa : c.frontAfter q = c.front := by simp [frontAfter, hs]
    simp [getNewBlockNumbers, assertThat, hs, hq.le_current, hc, hf, hfa, pure, Except.pure, lastFinalBlockNum]

/-! the links and references that stay -/

theorem Wf.links_drop_head? (h : c.Wf) (hq : c.Claimable q) :
    (c.links.drop ((c.frontAfter q).sourceBlockNum - c.front.sourceBlockNum)).head? = some (c.frontAfter q) := by
  rw [head?_drop]
  exact (h.frontAfter_spec hq).1

theorem Wf.links_drop_getLast? (h : c.Wf) (hq : c.Claimable q) :
    (c.links.drop ((c.frontAfter q).sourceBlockNum - c.front.sourceBlockNum)).getLast? = some c.back := by
  have hlt := (List.getElem?_eq_some_iff.1 (h.frontAfter_spec hq).1).1
  rw [getLast?_drop, if_neg (by omega), links_getLast? h.links_ne]

theorem Wf.refs_drop_numbered (h : c.Wf) (hq : c.Claimable q) :
    NumberedFrom BlockRef.blockNum (c.frontAfter q).targetBlockNum
      (c.refs.drop ((c.frontAfter q).targetBlockNum - c.lastFinalBlockNum)) := by
  have ht := h.front_target_le (h.frontAfter_mem hq)
  have := numberedFrom_drop ((c.frontAfter q).targetBlockNum - c.lastFinalBlockNum) h.ref_nums
  rwa [show c.lastFinalBlockNum + ((c.frontAfter q).targetBlockNum - c.lastFinalBlockNum)
    = (c.frontAfter q).targetBlockNum by omega] at this

theorem Wf.refs_index (h : c.Wf) (hq : c.Claimable q) :
    (c.refs = [] → (c.frontAfter q).targetBlockNum = c.lastFinalBlockNum) ∧
      (c.refs ≠ [] → (c.frontAfter q).targetBlockNum - c.lastFinalBlockNum < c.refs.length) := by
  have hm := h.frontAfter_mem hq
  have ht := h.front_target_le hm
  have hr := h.ref_length
  refine ⟨fun he => ?_, fun hne => ?_⟩
  · have := h.target_le _ hm
    have := h.source_le_current hm
    rw [he, length_nil] at hr
    omega
  · have := h.proper hne _ hm
    omega

theorem Wf.refs_drop_length (h : c.Wf) (hq : c.Claimable q) :
    (c.frontAfter q).targetBlockNum + (c.refs.drop ((c.frontAfter q).targetBlockNum - c.lastFinalBlockNum)).length
      = c.currentBlockNum := by
  have hidx := h.refs_index hq
  have ht := h.front_target_le (h.frontAfter_mem hq)
  have hr := h.ref_length
  rw [length_drop]
  rcases Decidable.em (c.refs = []) with he | hne
  · have := hidx.1 he
    rw [he, length_nil] at hr ⊢
    omega
  · have := hidx.2 hne
    omega

theorem Wf.next_eq (h : c.Wf) (hq : c.Claimable q) (hn : r.blockNum = c.currentBlockNum)
    (ht : ∀ x, c.refs.getLast? = some x → x.timestamp < r.timestamp) : c.next r q = .ok (c.advance r q) := by
  obtain ⟨hfa, hf1, hf2, -⟩ := h.frontAfter_spec hq
  have hm := h.frontAfter_mem hq
  have hlt := (List.getElem?_eq_some_iff.1 hfa).1
  have htl := h.target_le _ hm
  have hlf := h.front_target_le hm
  have hidx := h.refs_index hq
  have hcl : c.back.targetBlockNum ≤ q.blockNum := hq.claim_le
  have a1 : c.refs.getLast?.all (·.blockNum + 1 == r.blockNum) = true := by
    cases hl : c.refs.getLast? with
    | none => rfl
    | some x =>
      have := numberedFrom_getLast? h.ref_nums hl
      have := h.ref_length
      simp only [Option.all_some, beq_iff_eq]; omega
  have a2 : c.refs.getLast?.all (fun x => decide (x.timestamp < r.timestamp)) = true := by
    cases hl : c.refs.getLast? with
    | none => rfl
    | some x => simpa using ht x hl
  have a3 : (!c.refs.isEmpty || (c.frontAfter q).targetBlockNum - c.lastFinalBlockNum == 0) = true := by
    cases hr : c.refs with
    | nil => have := hidx.1 hr; simp; omega
    | cons x xs => rfl
  have a4 : (c.refs.isEmpty || decide ((c.frontAfter q).targetBlockNum - c.lastFinalBlockNum < c.refs.length)) = true := by
    cases hr : c.refs with
    | nil => rfl
    | cons x xs => rw [← hr]; have := hidx.2 (by simp [hr]); simp [this]
  have a5 : ∀ l, NumberedFrom BlockRef.blockNum (c.frontAfter q).targetBlockNum l →
      l.head?.all (fun x => x.blockNum == (c.frontAfter q).targetBlockNum) = true := by
    intro l hl
    cases hh : l.head? with
    | none => rfl
    | some x => simpa using numberedFrom_head? hl hh
  have hnum := h.refs_drop_numbered hq
  have a6 := a5 _ (numberedFrom_concat (x := r) hnum (by rw [h.refs_drop_length hq, hn]))
  rw [next, assertThat_bind (by simpa using h.links_ne), assertThat_bind (by simpa using hn), assertThat_bind a1,
    assertThat_bind a2, assertThat_bind (by simpa using hq.le_current), assertThat_bind hq.le_claim,
    h.getNewBlockNumbers_eq hq, ok_bind]
  simp only
  rw [assertThat_bind (by simpa using htl), assertThat_bind (by simpa using hf2), assertThat_bind (by simpa using hlf),
    assertThat_bind (by simpa using hf1), assertThat_bind (by simpa using hlt),
    assertThat_bind (by simp [h.links_drop_head? hq]), assertThat_bind (by simp [h.links_drop_getLast? hq, currentBlockNum]),
    assertThat_bind (by simpa [h.links_drop_getLast? hq] using hcl), assertThat_bind a3, assertThat_bind a4,
    assertThat_bind (a5 _ hnum), assertThat_bind a6, assertThat_bind]
  · rfl
  · simpa [latestQcClaim, back] using hcl

theorem claimable_of_next_ok {c' : FinalityCore} (h : c.next r q = .ok c') : c.Claimable q := by
  iterate 4 replace h := rest_ok h
  obtain ⟨hle, h⟩ := unit_ok h
  obtain ⟨hcl, -⟩ := unit_ok h
  exact ⟨by simpa using hle, by simpa using hcl⟩

/-! ## The child's core -/

theorem advance_front (h : c.Wf) (hq : c.Claimable q) (r : BlockRef) : (c.advance r q).front = c.frontAfter q := by
  unfold front advance
  simp only
  rw [head?_append, h.links_drop_head? hq]
  rfl

theorem advance_back (r : BlockRef) : (c.advance r q).back = ⟨c.currentBlockNum + 1, q.blockNum, q.isStrongQc⟩ := by
  simp [back, advance]

theorem advance_lastFinalBlockNum (h : c.Wf) (hq : c.Claimable q) (r : BlockRef) :
    (c.advance r q).lastFinalBlockNum = (c.frontAfter q).targetBlockNum := by
  rw [lastFinalBlockNum, advance_front h hq]

@[simp] theorem advance_currentBlockNum (r : BlockRef) : (c.advance r q).currentBlockNum = c.currentBlockNum + 1 := by
  rw [currentBlockNum, advance_back]

@[simp] theorem advance_latestQcClaim (r : BlockRef) : (c.advance r q).latestQcClaim = q := by
  rw [latestQcClaim, advance_back]

theorem mem_advance_links {l : QcLink} (hl : l ∈ (c.advance r q).links) :
    l ∈ c.links ∨ l = ⟨c.currentBlockNum + 1, q.blockNum, q.isStrongQc⟩ := by
  rcases mem_append.1 hl with hl | hl
  · exact .inl (mem_of_mem_drop hl)
  · exact .inr (by simpa using hl)

theorem wf_advance (h : c.Wf) (hq : c.Claimable q) (hn : r.blockNum = c.currentBlockNum)
    (ht : ∀ x ∈ c.refs, x.timestamp < r.timestamp) : (c.advance r q).Wf where
  links_ne := by simp [advance]
  sources := by
    rw [advance_front h hq]
    obtain ⟨hfa, hf1, -, -⟩ := h.frontAfter_spec hq
    have hlt := (List.getElem?_eq_some_iff.1 hfa).1
    have hb := h.source_back
    have hd := numberedFrom_drop ((c.frontAfter q).sourceBlockNum - c.front.sourceBlockNum) h.sources
    rw [show c.front.sourceBlockNum + ((c.frontAfter q).sourceBlockNum - c.front.sourceBlockNum)
      = (c.frontAfter q).sourceBlockNum by omega] at hd
    refine numberedFrom_concat hd ?_
    rw [length_drop]
    simp only
    omega
  targets := by
    refine pairwise_append.2 ⟨h.targets.drop, by simp, fun a ha b hb => ?_⟩
    obtain rfl := mem_singleton.1 hb
    exact (h.target_le_claim (mem_of_mem_drop ha)).trans hq.claim_le
  target_le := by
    intro l hl
    rcases mem_advance_links hl with hl | rfl
    · exact h.target_le l hl
    · have := hq.le_current
      simp only
      omega
  front_le := by
    rw [advance_front h hq, advance_latestQcClaim]
    exact (h.frontAfter_spec hq).2.2.1
  ref_nums := by
    rw [advance_lastFinalBlockNum h hq]
    exact numberedFrom_concat (h.refs_drop_numbered hq) (by rw [h.refs_drop_length hq, hn])
  ref_times := by
    refine pairwise_append.2 ⟨h.ref_times.drop, by simp, fun a ha b hb => ?_⟩
    obtain rfl := mem_singleton.1 hb
    exact ht a (mem_of_mem_drop ha)
  ref_length := by
    have := h.refs_drop_length hq
    rw [advance_lastFinalBlockNum h hq, advance_currentBlockNum]
    simp only [advance, length_append, length_singleton]
    omega
  genesis := fun he => absurd he (by simp [advance])
  proper := by
    intro _ l hl
    rw [advance_currentBlockNum]
    rcases mem_advance_links hl with hl | rfl
    · have := h.target_le l hl
      have := h.source_le_current hl
      omega
    · have := hq.le_current
      simp only
      omega

end Next
end FinalityCore
end TheChannel
