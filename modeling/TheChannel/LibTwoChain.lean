import Mathlib.Tactic.ByContra
/-!
# LibTwoChain — agreement of two-chain finality with weak and strong votes

A tree of timed blocks, each of which claims a certificate on an ancestor, and the votes that certify them. A block is
final when a block that claims it is strongly certified. `VoteHistory` collects what the voters' rules leave of a run:
a strong vote stands for every earlier vote above the claim it is made with (`strong_covers`), and a later vote either
sees a newer claim or stays above a block that guards the old one (`lock_guards`). Final blocks are then on one branch
(`claims_comparable`).
-/
namespace TheChannel

/-- **A run's votes and certificates**, with `β` the blocks and `ν` the voters that keep the rules. -/
structure VoteHistory (β ν : Type) where
  block : β → Prop
  le : β → β → Prop
  time : β → Nat
  root : β
  claim : β → β
  cert : β → Prop
  strongCert : β → Prop
  voted : ν → β → Prop
  votedStrong : ν → β → Prop
  -- the tree
  le_trans : ∀ {a b c}, le a b → le b c → le a c
  le_of_le_le : ∀ {a b c}, block c → le a c → le b c → time a ≤ time b → le a b
  eq_of_time : ∀ {a b}, block b → le a b → time a = time b → a = b
  root_le : ∀ {b}, block b → le root b
  time_le : ∀ {a b}, block b → le a b → time a ≤ time b
  -- the claims
  claim_block : ∀ {b}, block b → block (claim b)
  claim_le : ∀ {b}, block b → le (claim b) b
  claim_cert : ∀ {b}, block b → claim b = root ∨ cert (claim b)
  claim_time : ∀ {b}, cert b → time (claim b) < time b
  -- the certificates
  cert_block : ∀ {b}, cert b → block b
  strong_cert : ∀ {b}, strongCert b → cert b
  quorum : ∀ {a b}, cert a → cert b → ∃ v, voted v a ∧ voted v b
  quorum_strong : ∀ {a b}, strongCert a → cert b → ∃ v, votedStrong v a ∧ voted v b
  -- the votes
  strong_voted : ∀ {v b}, votedStrong v b → voted v b
  voted_once : ∀ {v a b}, voted v a → voted v b → time a = time b → a = b
  strong_covers : ∀ {v a b}, votedStrong v a → voted v b → time b < time a → time (claim a) < time b → le b a
  lock_guards : ∀ {v a b}, votedStrong v a → voted v b → time a < time b →
    time (claim a) < time (claim b) ∨
      ∃ l, block l ∧ le l b ∧ time l < time b ∧ time (claim a) ≤ time l ∧ (le (claim a) l ∨ l = root ∨ cert l)

namespace VoteHistory
variable {β ν : Type} (H : VoteHistory β ν) {a b : β}

theorem cert_unique (ha : H.cert a) (hb : H.cert b) (ht : H.time a = H.time b) : a = b := by
  obtain ⟨v, va, vb⟩ := H.quorum ha hb
  exact H.voted_once va vb ht

theorem guard_unique (hba : H.block a) (hbb : H.block b) (ha : a = H.root ∨ H.cert a)
    (hb : b = H.root ∨ H.cert b) (ht : H.time a = H.time b) : a = b := by
  rcases ha with rfl | ha
  · exact H.eq_of_time hbb (H.root_le hbb) ht
  · rcases hb with rfl | hb
    · exact (H.eq_of_time hba (H.root_le hba) ht.symm).symm
    · exact H.cert_unique ha hb ht

/-- **Every certified block newer than a final block extends it**, by induction on its time: the voter shared with the
strong certificate voted for it before, or after under the lock. -/
theorem final_le_cert (ha : H.strongCert a) : ∀ (n : Nat) {d : β}, H.time d = n → H.cert d →
    H.time (H.claim a) < H.time d → H.le (H.claim a) d := by
  intro n
  induction n using Nat.strongRecOn with
  | ind n ih =>
    intro d hn hd ht
    subst hn
    have hba := H.cert_block (H.strong_cert ha)
    have hbd := H.cert_block hd
    obtain ⟨v, va, vd⟩ := H.quorum_strong ha hd
    rcases Nat.lt_trichotomy (H.time d) (H.time a) with hlt | heq | hgt
    · -- voted before: an ancestor of `a`, above its claim
      exact H.le_of_le_le hba (H.claim_le hba) (H.strong_covers va vd hlt ht) (Nat.le_of_lt ht)
    · rw [H.voted_once vd (H.strong_voted va) heq]
      exact H.claim_le hba
    · rcases H.lock_guards va vd hgt with hnew | ⟨l, hbl, hld, hll, htl, hl⟩
      · -- the newer claim extends the final block
        have hc : H.cert (H.claim d) := by
          rcases H.claim_cert hbd with hr | hc
          · have := H.time_le (H.claim_block hba) (H.root_le (H.claim_block hba))
            rw [hr] at hnew
            omega
          · exact hc
        exact H.le_trans (ih _ (H.claim_time hd) rfl hc hnew) (H.claim_le hbd)
      · -- the block locked on guards the claim
        refine H.le_trans ?_ hld
        rcases hl with hl | hl
        · exact hl
        · rcases Nat.eq_or_lt_of_le htl with heq | hlt
          · rw [H.guard_unique (H.claim_block hba) hbl (H.claim_cert hba) hl heq]
            exact H.le_of_le_le hbd hld hld (Nat.le_refl _)
          · have hc : H.cert l := by
              rcases hl with rfl | hc
              · have := H.time_le (H.claim_block hba) (H.root_le (H.claim_block hba))
                omega
              · exact hc
            exact ih _ hll rfl hc hlt

/-- **Agreement**: the blocks that two strongly certified blocks claim are on one branch. -/
theorem claims_comparable (ha : H.strongCert a) (hb : H.strongCert b) :
    H.le (H.claim a) (H.claim b) ∨ H.le (H.claim b) (H.claim a) := by
  -- the claim with the later time extends the other
  have key : ∀ {a b : β}, H.strongCert a → H.strongCert b → H.time (H.claim a) ≤ H.time (H.claim b) →
      H.le (H.claim a) (H.claim b) := by
    intro a b ha hb ht
    have hba := H.cert_block (H.strong_cert ha)
    have hbb := H.cert_block (H.strong_cert hb)
    rcases Nat.eq_or_lt_of_le ht with heq | hlt
    · have he := H.guard_unique (H.claim_block hba) (H.claim_block hbb) (H.claim_cert hba) (H.claim_cert hbb) heq
      exact H.le_of_le_le hbb (he ▸ H.claim_le hbb) (H.claim_le hbb) ht
    · rcases H.claim_cert hbb with hr | hc
      · have := H.time_le (H.claim_block hba) (H.root_le (H.claim_block hba))
        rw [hr] at hlt
        omega
      · exact H.final_le_cert ha _ rfl hc hlt
  rcases Nat.le_total (H.time (H.claim a)) (H.time (H.claim b)) with h | h
  · exact .inl (key ha hb h)
  · exact .inr (key hb ha h)

end VoteHistory
end TheChannel
