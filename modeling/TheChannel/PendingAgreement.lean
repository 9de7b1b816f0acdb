import TheChannel.PendingLib
import TheChannel.SavannaSafety
/-!
# PendingAgreement — what nodes hold irreversible is on one branch

A node moves its pending last irreversible block by the claims of the blocks it adds to its own fork database (`PendingLib`); the
blocks, with their certificates, come from one network of finalizers (`SavannaNet`). Whatever calls two nodes make, in whatever
order, their pending blocks do not conflict (`pendingLib_agree`).
-/
namespace TheChannel
open List

section

variable {pol : FinalizerPolicy} {honest : PublicKey → Bool} {r : BlockRef} {net : Net} {F G : List Block}

/-- **A final block of the network**: the genesis block, or the block that a strongly certified one claims. -/
def Net.Final (pol : FinalizerPolicy) (honest : PublicKey → Bool) (r : BlockRef) (net : Net) (F : List Block) : Prop :=
  F ∈ net.tree ∧ (F = [genesisBlock r] ∨ ∃ A ∈ net.tree, Certified pol honest net.ballots A true ∧ F = claimedBlock A)

theorem NetInv.final_comparable (hi : NetInv pol honest r net) (hbyz : weightWhere (fun _ => true) pol.weights +
    weightWhere (byzantine pol honest) pol.weights < 2 * pol.threshold.toNat)
    (hF : net.Final pol honest r F) (hG : net.Final pol honest r G) : F <:+ G ∨ G <:+ F := by
  rcases hF.2 with rfl | ⟨A, hA, hcA, rfl⟩
  · exact .inl (hi.tree.root _ hG.1)
  rcases hG.2 with rfl | ⟨B, hB, hcB, rfl⟩
  · exact .inr (hi.tree.root _ hF.1)
  · exact ((hi.history hbyz).claims_comparable (a := A) (b := B) ⟨hA, hcA⟩ ⟨hB, hcB⟩).imp And.right And.right

theorem Tree.linked {tree : List (List Block)} (hT : Tree r tree) {W : List SavannaBlock} (hW : ∀ b ∈ W, b.branch ∈ tree) :
    Linked W := by
  intro p hp b hb hprev
  cases hanc : b.ancestors with
  | nil =>
    -- the genesis block has no block of the tree below it
    have hg := hT.root _ (hW b hb)
    rw [SavannaBlock.branch, hanc] at hg
    have hbg : genesisBlock r = b.block := (cons.inj (hg.eq_of_length rfl)).1
    have hlt : p.block.num < (genesisBlock r).num := by
      rw [hbg, b.numbered, hprev]
      exact Nat.lt_succ_self _
    rcases suffix_cons_iff.1 (hT.root _ (hW p hp)) with hs | hs
    · rw [(cons.inj hs).1] at hlt
      exact absurd hlt (Nat.lt_irrefl _)
    · exact absurd (p.valid.num_lt hs) (Nat.lt_asymm hlt)
  | cons a as =>
    have ha : a :: as ∈ tree := hT.closed _ (hW b hb) _ (hanc ▸ suffix_cons _ _) (cons_ne_nil _ _)
    have hid : a.ref.blockId = p.id := (b.parent a (by rw [hanc]; rfl)).symm.trans hprev
    rw [hT.ids _ ha _ (hW p hp) hid]

theorem SavannaBlock.lastFinalBlock_eq (b : SavannaBlock) {ref : BlockRef}
    (h : b.block.core.getBlockReference b.block.core.lastFinalBlockNum = .ok ref) :
    ∃ a as, lastFinalBlock b.branch = a :: as ∧ a.ref = ref := by
  have hv := b.valid.view
  have hlt : b.block.core.lastFinalBlockNum < b.block.num := by
    obtain ⟨-, h⟩ := unit_ok h
    obtain ⟨-, h⟩ := unit_ok h
    rw [← hv.current]
    simpa using (assertThat_ok_iff _ _ _).1 (unit_ok h).1
  obtain ⟨a, as, ha, -, -⟩ := b.valid.ancestorAt_eq (Nat.le_of_lt hlt) hv.lastFinal_le
  rw [hv.getBlockReference_eq le_rfl hlt ha] at h
  exact ⟨a, as, ha, Except.ok.inj h⟩

end

namespace ForkDb

/-- **A pending id is that of a final block**, if calls set such ids only. -/
theorem pending_final {pol : FinalizerPolicy} {honest : PublicKey → Bool} {r : BlockRef} {net : Net} (hi : NetInv pol honest r net)
    {ops : List (Op SavannaBlock)} (hnet : ∀ op ∈ ops, ∀ b ∈ op.blocks, b.branch ∈ net.tree)
    (hset : ∀ id, .setPendingSavannaLibId id ∈ ops → ∃ F, net.Final pol honest r F ∧ (refOf F).blockId = id) :
    (run savannaType ops).pendingSavannaLibId = BlockId.zero ∨
      ∃ F, net.Final pol honest r F ∧ (refOf F).blockId = (run savannaType ops).pendingSavannaLibId := by
  have hW : Linked (ops.flatMap Op.blocks) := hi.tree.linked fun b hb => by
    obtain ⟨op, hop, hb⟩ := mem_flatMap.1 hb
    exact hnet op hop b hb
  obtain ⟨-, -, hf⟩ := LibInv.run hW ops LibInv.init fun op hop b hb => mem_flatMap.2 ⟨op, hop, hb⟩
  rcases hf with hz | hs | ⟨b, _, _, _, ref, hm, href, hid⟩
  · exact .inl ((mem_pair.1 hz).elim id id)
  · exact .inr (hset _ hs)
  · have hb := hnet _ hm b (mem_singleton_self _)
    obtain ⟨a, as, ha, rfl⟩ := b.lastFinalBlock_eq href
    have hsuf : lastFinalBlock b.branch <:+ b.branch := ancestorAt_suffix (b.block :: b.ancestors) _
    have hmem := hi.tree.closed _ hb (a :: as) (ha ▸ hsuf) (cons_ne_nil _ _)
    exact .inr ⟨a :: as, ⟨hmem, ha ▸ hi.lastFinal_cases hb⟩, hid⟩

/-- **Agreement of the nodes**: in every reachable network with less than `2T - W` Byzantine weight, after any calls of any two nodes
on blocks of the network, the pending last irreversible blocks of their fork databases, if set, are on one branch. -/
theorem pendingLib_agree (pol : FinalizerPolicy) (honest : PublicKey → Bool) (r : BlockRef) (net : Net)
    (hbyz : weightWhere (fun _ => true) pol.weights + weightWhere (byzantine pol honest) pol.weights < 2 * pol.threshold.toNat)
    (hreach : Net.Reachable pol honest r net) (ops ops' : List (Op SavannaBlock))
    (hnet : ∀ op ∈ ops ++ ops', ∀ b ∈ op.blocks, b.branch ∈ net.tree)
    (hset : ∀ id, .setPendingSavannaLibId id ∈ ops ++ ops' → ∃ F, net.Final pol honest r F ∧ (refOf F).blockId = id) :
    (run savannaType ops).pendingSavannaLibId = BlockId.zero ∨ (run savannaType ops').pendingSavannaLibId = BlockId.zero ∨
    ∃ F ∈ net.tree, ∃ G ∈ net.tree, (refOf F).blockId = (run savannaType ops).pendingSavannaLibId ∧
      (refOf G).blockId = (run savannaType ops').pendingSavannaLibId ∧ (F <:+ G ∨ G <:+ F) := by
  have hi := netInv_reachable hreach
  rcases pending_final hi (fun op hop => hnet op (mem_append_left _ hop)) (fun id h => hset id (mem_append_left _ h)) with
    hz | ⟨F, hF, hid⟩
  · exact .inl hz
  rcases pending_final hi (fun op hop => hnet op (mem_append_right _ hop)) (fun id h => hset id (mem_append_right _ h)) with
    hz | ⟨G, hG, hid'⟩
  · exact .inr (.inl hz)
  · exact .inr (.inr ⟨F, hF.1, G, hG.1, hid, hid', hi.final_comparable hbyz hF hG⟩)

def sampleState (b p : Block) (bs : List Block) (hb : b :: p :: bs ∈ sampleNet.tree) (hnum : b.num = p.num + 1) :
    { b : SavannaBlock // b.branch ∈ sampleNet.tree } :=
  ⟨{ block := b, ancestors := p :: bs, previous := p.ref.blockId, activatedProtocolFeatures := [], newProtocolFeatures := none,
     valid := (netInv_reachable sampleNet_reachable).tree.valid _ hb, parent := by simp, numbered := hnum }, hb⟩

theorem sampleNet_mem : sampleB6 ∈ sampleNet.tree ∧ sampleB7 ∈ sampleNet.tree ∧ sampleB8 ∈ sampleNet.tree ∧
    sampleB10 ∈ sampleNet.tree ∧ sampleB9 ∈ sampleNet.tree := by
  simp [sampleNet_tree]

def sampleAdds (blocks : List { b : SavannaBlock // b.branch ∈ sampleNet.tree }) : List (Op SavannaBlock) :=
  .resetRoot (some sampleRoot) :: blocks.map fun b => .add (some b.1) false false (fun _ _ _ => .ok ())

/-- One node has seen the fork, the other the block that makes the next one final. -/
theorem pendingLib_agree_sampleNet :
    let trunk := [sampleState _ _ _ sampleNet_mem.1 rfl, sampleState _ _ _ sampleNet_mem.2.1 rfl,
      sampleState _ _ _ sampleNet_mem.2.2.1 rfl]
    let ops := sampleAdds (trunk ++ [sampleState _ _ _ sampleNet_mem.2.2.2.1 rfl])
    let ops' := sampleAdds (trunk ++ [sampleState _ _ _ sampleNet_mem.2.2.2.2 rfl])
    (run savannaType ops).pendingSavannaLibId = ⟨6, 6⟩ ∧ (run savannaType ops').pendingSavannaLibId = ⟨7, 7⟩ ∧
    ∃ F ∈ sampleNet.tree, ∃ G ∈ sampleNet.tree, (refOf F).blockId = ⟨6, 6⟩ ∧ (refOf G).blockId = ⟨7, 7⟩ ∧
      (F <:+ G ∨ G <:+ F) := by
  have hall : ∀ blocks, ∀ op ∈ sampleAdds blocks,
      (∀ b ∈ op.blocks, b.branch ∈ sampleNet.tree) ∧ ∀ id, op ≠ .setPendingSavannaLibId id := by
    intro blocks op hop
    rcases mem_cons.1 hop with rfl | hop
    · refine ⟨fun b hb => ?_, by simp⟩
      rw [mem_singleton.1 hb, sampleNet_tree]
      simp [sampleRoot, SavannaBlock.branch]
    · obtain ⟨b, -, rfl⟩ := mem_map.1 hop
      exact ⟨fun c hc => mem_singleton.1 hc ▸ b.2, by simp⟩
  intro trunk ops ops'
  have hop : ∀ op ∈ ops ++ ops', (∀ b ∈ op.blocks, b.branch ∈ sampleNet.tree) ∧ ∀ id, op ≠ .setPendingSavannaLibId id :=
    fun op hop => (mem_append.1 hop).elim (hall _ op) (hall _ op)
  have h := pendingLib_agree samplePolicy (· != 4) (sampleRef 5) sampleNet (by decide) sampleNet_reachable ops ops'
    (fun op h => (hop op h).1) (fun id h => absurd rfl ((hop _ h).2 id))
  exact ⟨rfl, rfl, (h.resolve_left (by decide)).resolve_left (by decide)⟩

end ForkDb
end TheChannel
