import TheChannel.SavannaNet
/-!
# SavannaVotes — what a key's safety information remembers of its votes

`KeyInv` relates the votes a key has cast to its last vote, its lock and its other-branch time, and states what the
rules make of the votes themselves: one vote a time, a strong vote covers the earlier votes above its claim, a later vote
is guarded by the lock. `keyInv_vote` is the step: a decision of `decide_vote` keeps it.
-/
namespace TheChannel
open FinalizerSafetyInformation List

def timeOf : List Block → Nat
  | [] => 0
  | b :: _ => b.time

def digestOf : List Block → Digest
  | [] => 0
  | b :: _ => b.ref.finalityDigest

def refOf : List Block → BlockRef
  | [] => BlockRef.unset
  | b :: _ => b.ref

@[simp] theorem timeOf_cons (b : Block) (bs : List Block) : timeOf (b :: bs) = b.time := rfl

theorem refOf_timestamp (B : List Block) : (refOf B).timestamp = timeOf B := by cases B <;> rfl

/-- **A block tree**: valid branches, closed under ancestors, from one genesis block, with unique ids. -/
structure Tree (r : BlockRef) (tree : List (List Block)) : Prop where
  valid : ∀ B ∈ tree, ValidBranch B
  closed : ∀ B ∈ tree, ∀ A, A <:+ B → A ≠ [] → A ∈ tree
  root : ∀ B ∈ tree, [genesisBlock r] <:+ B
  ids : ∀ A ∈ tree, ∀ B ∈ tree, (refOf A).blockId = (refOf B).blockId → A = B

namespace Tree
variable {r : BlockRef} {tree : List (List Block)} {B bs A : List Block}

theorem ne_nil (h : Tree r tree) {B : List Block} (hB : B ∈ tree) : B ≠ [] := (h.valid B hB).ne_nil

theorem claimed_mem (h : Tree r tree) (hB : B ∈ tree) : claimedBlock B ∈ tree := by
  cases B with
  | nil => exact absurd rfl (h.ne_nil hB)
  | cons b bs =>
    obtain ⟨a, as, ha, -, -, -⟩ := (h.valid _ hB).claimedBlock_eq
    have := claimedBlock_suffix (b :: bs)
    exact h.closed _ hB _ this (by rw [ha]; simp)

theorem ref_nonempty (h : Tree r tree) (hB : B ∈ tree) : (refOf B).empty = false := by
  cases B with
  | nil => exact absurd rfl (h.ne_nil hB)
  | cons b bs =>
    have hlt := (h.valid _ hB).length_le
    cases he : (refOf (b :: bs)).empty with
    | false => rfl
    | true =>
      simp only [refOf, BlockRef.empty, BlockId.empty, beq_iff_eq] at he
      have : b.num = 0 := by simp [Block.num, BlockRef.blockNum, numFromId, he, BlockId.zero]
      omega

theorem suffix_of_extends (h : Tree r tree) {b : Block} (hb : b :: bs ∈ tree) {L : List Block}
    (hL : L ∈ tree) (he : b.core.extends' (refOf L).blockId = .ok true) : L <:+ bs := by
  obtain ⟨a, as, hs, hid⟩ := (h.valid _ hb).extends_ok he
  have ha := h.closed _ hb (a :: as) (hs.trans (suffix_cons _ _)) (by simp)
  rwa [← h.ids _ ha _ hL hid]

theorem time_le (h : Tree r tree) {A B : List Block} (hB : B ∈ tree) (hne : A ≠ []) (hs : A <:+ B) :
    timeOf A ≤ timeOf B := by
  cases A with
  | nil => exact absurd rfl hne
  | cons a as =>
    cases B with
    | nil => simp at hs
    | cons b bs => exact (h.valid _ hB).time_le (suffix_refl _) hs

theorem time_lt (h : Tree r tree) {b : Block} (hB : b :: bs ∈ tree) (hne : A ≠ [])
    (hs : A <:+ bs) : timeOf A < b.time := by
  cases A with
  | nil => exact absurd rfl hne
  | cons a as => exact (h.valid _ hB).time_lt hs

theorem suffix_of_time_le (h : Tree r tree) {A B C : List Block} (hC : C ∈ tree) (hA : A ≠ []) (hB : B ≠ [])
    (h1 : A <:+ C) (h2 : B <:+ C) (ht : timeOf A ≤ timeOf B) : A <:+ B := by
  cases A with
  | nil => exact absurd rfl hA
  | cons a as =>
    cases B with
    | nil => exact absurd rfl hB
    | cons b bs => exact (h.valid _ hC).suffix_of_time_le h1 h2 ht

theorem claimed_time_le (h : Tree r tree) (hA : A ∈ tree) (hB : B ∈ tree) (hs : A <:+ B) :
    timeOf (claimedBlock A) ≤ timeOf (claimedBlock B) := by
  cases A with
  | nil => exact absurd rfl (h.ne_nil hA)
  | cons a as =>
    cases B with
    | nil => simp at hs
    | cons b bs =>
      exact h.time_le (h.claimed_mem hB) (h.ne_nil (h.claimed_mem hA))
        ((h.valid _ hB).claimedBlock_suffix_of_suffix hs)

end Tree

def IsClaimed (r : BlockRef) (tree : List (List Block)) (L : List Block) : Prop :=
  L = [genesisBlock r] ∨ ∃ D ∈ tree, claimedBlock D = L

/-- **A key's safety information and its votes**; `casts B strong` are the votes the key has released. -/
structure KeyInv (r : BlockRef) (tree : List (List Block)) (casts : List Block → Bool → Prop)
    (fsi : FinalizerSafetyInformation) : Prop where
  mem : ∀ B s, casts B s → B ∈ tree
  last : (∀ B s, ¬ casts B s) ∨ ∃ B ∈ tree, refOf B = fsi.lastVote ∧ ∀ V s, casts V s →
    timeOf V ≤ timeOf B ∧ (V <:+ B ∨ timeOf V ≤ max fsi.otherBranchLatestTime (timeOf (claimedBlock B)))
  lock : (fsi.lock.empty = true ∧ ∀ B, ¬ casts B true) ∨ ∃ L ∈ tree, refOf L = fsi.lock ∧ ∀ C, casts C true →
    timeOf (claimedBlock C) ≤ timeOf L ∧ (claimedBlock C <:+ L ∨ IsClaimed r tree L)
  once : ∀ A B s s', casts A s → casts B s' → timeOf A = timeOf B → A = B
  covers : ∀ A B s, casts A true → casts B s → timeOf B < timeOf A → timeOf (claimedBlock A) < timeOf B → B <:+ A
  guards : ∀ A B s, casts A true → casts B s → timeOf A < timeOf B →
    timeOf (claimedBlock A) < timeOf (claimedBlock B) ∨
      ∃ L ∈ tree, L <:+ B ∧ timeOf L < timeOf B ∧ timeOf (claimedBlock A) ≤ timeOf L ∧
        (claimedBlock A <:+ L ∨ IsClaimed r tree L)

section Vote

variable {r : BlockRef} {tree tree' : List (List Block)} {casts casts' : List Block → Bool → Prop}
  {fsi fsi' : FinalizerSafetyInformation} {b : Block} {bs V : List Block} {strong s : Bool} {t : Nat}

theorem IsClaimed.mono (hsub : tree ⊆ tree') {L : List Block} (h : IsClaimed r tree L) : IsClaimed r tree' L :=
  h.imp id (fun ⟨D, hD, hL⟩ => ⟨D, hsub hD, hL⟩)

theorem KeyInv.mono (h : KeyInv r tree casts fsi) (hsub : tree ⊆ tree') : KeyInv r tree' casts fsi where
  mem B s hc := hsub (h.mem B s hc)
  last := h.last.imp id (fun ⟨B, hB, hr⟩ => ⟨B, hsub hB, hr⟩)
  lock := h.lock.imp id (fun ⟨L, hL, he, hall⟩ =>
    ⟨L, hsub hL, he, fun C hC => ⟨(hall C hC).1, (hall C hC).2.imp id (IsClaimed.mono hsub)⟩⟩)
  once := h.once
  covers := h.covers
  guards A B s hA hB ht := (h.guards A B s hA hB ht).imp id (fun ⟨L, hL, h1, h2, h3, h4⟩ =>
    ⟨L, hsub hL, h1, h2, h3, h4.imp id (IsClaimed.mono hsub)⟩)

theorem KeyInv.congr (h : KeyInv r tree casts fsi) (hc : ∀ B s, casts' B s ↔ casts B s) : KeyInv r tree casts' fsi := by
  have : casts' = casts := by funext B s; exact propext (hc B s)
  rw [this]
  exact h

section

variable (hT : Tree r tree)

include hT

theorem cast_le (h : KeyInv r tree casts fsi) (hv : Voted fsi b strong fsi' t)
    (hV : casts V s) : timeOf V ≤ fsi.lastVote.timestamp ∧ timeOf V < b.time := by
  rcases h.last with hno | ⟨B, hB, href, hall⟩
  · exact absurd hV (hno V s)
  · have hle := (hall V s hV).1
    rw [← href, refOf_timestamp]
    refine ⟨hle, ?_⟩
    rcases hv.monotony with he | hlt
    · rw [← href, hT.ref_nonempty hB] at he
      cases he
    · rw [← href, refOf_timestamp] at hlt
      omega

theorem cast_branch (h : KeyInv r tree casts fsi) (hb : b :: bs ∈ tree)
    (he : b.core.extends' fsi.lastVote.blockId = .ok true) (hV : casts V s) :
    V <:+ bs ∨ timeOf V ≤ max fsi.otherBranchLatestTime (timeOf (claimedBlock (b :: bs))) := by
  rcases h.last with hno | ⟨B, hB, href, hall⟩
  · exact absurd hV (hno V s)
  · rw [← href] at he
    have hs := hT.suffix_of_extends hb hB he
    rcases (hall V s hV).2 with hVB | hle
    · exact .inl (hVB.trans hs)
    · have := hT.claimed_time_le hB hb (hs.trans (suffix_cons _ _))
      exact .inr (by omega)

theorem voted_time_eq (hb : b :: bs ∈ tree) (hp : bs ≠ []) (hv : Voted fsi b strong fsi' t) :
    t = timeOf (claimedBlock (b :: bs)) := by
  obtain ⟨a, as, ha, -⟩ := (hT.valid _ hb).claimedBlock_eq
  have := (hT.valid _ hb).latestQcBlockTimestamp_eq hp ha
  rw [hv.qcTime] at this
  rw [ha, timeOf_cons]
  exact Except.ok.inj this

theorem voted_lock_block (h : KeyInv r tree casts fsi) (hb : b :: bs ∈ tree) (hp : bs ≠ [])
    (hv : Voted fsi b strong fsi' t) : ∃ L ∈ tree, refOf L = fsi.lock ∧
    (∀ C, casts C true → timeOf (claimedBlock C) ≤ timeOf L ∧ (claimedBlock C <:+ L ∨ IsClaimed r tree L)) ∧
    (timeOf L < timeOf (claimedBlock (b :: bs)) ∨
      timeOf (claimedBlock (b :: bs)) ≤ timeOf L ∧ L <:+ bs) := by
  have ht := voted_time_eq hT hb hp hv
  rcases h.lock with ⟨he, -⟩ | ⟨L, hL, href, hall⟩
  · rw [hv.locked] at he; cases he
  · refine ⟨L, hL, href, hall, ?_⟩
    have hu := hv.unlock
    rw [← href, refOf_timestamp] at hu
    rcases hu with hlt | ⟨hle, he⟩
    · exact .inl (by omega)
    · exact .inr ⟨by omega, hT.suffix_of_extends hb hL he⟩

end

end Vote

theorem keyInv_vote {r : BlockRef} {tree : List (List Block)} {casts : List Block → Bool → Prop}
    {fsi fsi' : FinalizerSafetyInformation} (hT : Tree r tree) (h : KeyInv r tree casts fsi) {b : Block}
    {bs : List Block} (hb : b :: bs ∈ tree) (hp : bs ≠ []) {strong : Bool} {t : Nat} (hv : Voted fsi b strong fsi' t)
    (released : Bool) : KeyInv r tree (fun V s => casts V s ∨ (released = true ∧ V = b :: bs ∧ s = strong)) fsi' := by
  have ht := voted_time_eq hT hb hp hv
  have hle := fun {V : List Block} {s : Bool} (hV : casts V s) => cast_le hT h hv hV
  obtain ⟨L, hL, href, hlo, hg⟩ := voted_lock_block hT h hb hp hv
  have hcl := claimedBlock_suffix (b :: bs)
  have hcm := hT.claimed_mem hb
  refine ⟨?_, .inr ⟨b :: bs, hb, hv.lastVote.symm, ?_⟩, ?_, ?_, ?_, ?_⟩
  · rintro B s (hc | ⟨-, rfl, -⟩)
    · exact h.mem B s hc
    · exact hb
  · rintro V s (hc | ⟨-, rfl, -⟩)
    · have hV := hle hc
      refine ⟨Nat.le_of_lt hV.2, ?_⟩
      rcases hv.branch with ⟨-, hl, -⟩ | ⟨-, he, hob, -⟩ | ⟨-, he, hob⟩ | ⟨-, hob⟩
      · exact .inr (by omega)
      · rcases cast_branch hT h hb he hc with hs | hm
        · exact .inl (hs.trans (suffix_cons _ _))
        · exact .inr (by omega)
      · rcases cast_branch hT h hb he hc with hs | hm
        · exact .inl (hs.trans (suffix_cons _ _))
        · exact .inr (by omega)
      · exact .inr (by omega)
    · exact ⟨le_rfl, .inl (suffix_refl _)⟩
  · -- the lock moves to the newer claimed block, or stays on a block above the claim
    rcases hv.lock with ⟨hs, hlt, hget⟩ | ⟨hst, heq⟩
    · obtain ⟨a, as, ha, -⟩ := (hT.valid _ hb).claimedBlock_eq
      rw [(hT.valid _ hb).getBlockReference_claimed hp ha] at hget
      rw [← href, refOf_timestamp] at hlt
      refine .inr ⟨claimedBlock (b :: bs), hcm, by rw [ha]; exact Except.ok.inj hget, ?_⟩
      rintro C (hc | ⟨-, rfl, -⟩)
      · have := (hlo C hc).1
        exact ⟨by omega, .inr (.inr ⟨b :: bs, hb, rfl⟩)⟩
      · exact ⟨le_rfl, .inl (suffix_refl _)⟩
    · refine .inr ⟨L, hL, by rw [heq, href], ?_⟩
      rintro C (hc | ⟨-, rfl, hs⟩)
      · exact hlo C hc
      · have hle' := hst hs.symm
        rw [← href, refOf_timestamp] at hle'
        rcases hg with hlt | ⟨-, hLs⟩
        · omega
        · refine ⟨by omega, .inl ?_⟩
          exact hT.suffix_of_time_le hb (hT.ne_nil hcm) (hT.ne_nil hL) hcl (hLs.trans (suffix_cons _ _)) (by omega)
  · rintro A B s s' (hA | ⟨-, rfl, -⟩) (hB | ⟨-, rfl, -⟩) he
    · exact h.once A B s s' hA hB he
    · have := (hle hA).2
      rw [timeOf_cons] at he
      omega
    · have := (hle hB).2
      rw [timeOf_cons] at he
      omega
    · rfl
  · rintro A B s (hA | ⟨-, rfl, hs⟩) (hB | ⟨-, rfl, -⟩) h1 h2
    · exact h.covers A B s hA hB h1 h2
    · have := (hle hA).2
      rw [timeOf_cons] at h1
      omega
    · have ht := voted_time_eq hT hb hp hv
      have := hle hB
      rcases hv.branch with ⟨-, hl, -⟩ | ⟨-, he, hob, -⟩ | ⟨hw, -⟩ | ⟨hw, -⟩
      · omega
      · rcases cast_branch hT h hb he hB with hVs | hmax
        · exact hVs.trans (suffix_cons _ _)
        · omega
      · rw [← hs] at hw; cases hw
      · rw [← hs] at hw; cases hw
    · exact suffix_refl _
  · rintro A B s (hA | ⟨-, rfl, hs⟩) (hB | ⟨-, rfl, -⟩) h1
    · exact h.guards A B s hA hB h1
    · obtain ⟨hc1, hc2⟩ := hlo A hA
      rcases hg with hlt | ⟨-, hLs⟩
      · exact .inl (by omega)
      · exact .inr ⟨L, hL, hLs.trans (suffix_cons _ _), hT.time_lt hb (hT.ne_nil hL) hLs, hc1, hc2⟩
    · have := (hle hB).2
      rw [timeOf_cons] at h1
      omega
    · omega

end TheChannel
