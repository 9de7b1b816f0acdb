import TheChannel.FinalizerKeysInv
/-!
# FinalizerProposal — the policies that the contract proposes

Whether the host accepts what `set_proposed_finalizers` passes to it. The last proposal outlives the tables: its entries are
rows that were registered once, of different accounts, and may be deleted since. A list of such rows is refused by the host
only for a public key that stands in it twice; a list made from the tables has none.

Where `actfinkey` changes an entry of the last proposal, the new key may be that of another entry, whose account has deleted
it (`actfinkey_refused`).
-/
namespace TheChannel
open List

/-! ## What the host accepts -/

def AbiFinalizerAuthority.Fine (bls : Bls) (f : AbiFinalizerAuthority) : Prop :=
  f.description.length ≤ 13 ∧ f.weight = 1 ∧ f.publicKey.length = 96 ∧ bls.validPoint f.publicKey = true

theorem checkFinalizers_ok_iff {bls : Bls} : ∀ {l}, (∀ f ∈ l, f.Fine bls) →
    ∀ {unique} {weightSum n : Nat}, weightSum + l.length < 2 ^ 64 →
      (checkFinalizers bls unique weightSum l = .ok n ↔
        n = weightSum + l.length ∧ (l.map (·.publicKey)).Nodup ∧ ∀ f ∈ l, f.publicKey ∉ unique)
  | [], _, unique, weightSum, n, _ => by
    rw [checkFinalizers]
    simp [eq_comm]
  | f :: l, hl, unique, weightSum, n, hsum => by
    obtain ⟨hd, hw, hlen, hval⟩ := hl f mem_cons_self
    have hsum' : weightSum + f.weight + l.length < 2 ^ 64 := by
      rw [hw]
      rw [length_cons] at hsum
      omega
    have ih := @checkFinalizers_ok_iff bls l (fun f' hf' => hl f' (mem_cons_of_mem _ hf')) (f.publicKey :: unique) _ n hsum'
    rw [checkFinalizers, eosAssert_bind (decide_eq_true (hd.trans (by decide))),
      eosAssert_bind (decide_eq_true (by rw [length_cons] at hsum; omega)), eosAssert_bind (beq_iff_eq.2 hlen),
      eosAssert_bind hval, unit_bind_ok_iff, eosAssert_ok_iff, ih, hw]
    rw [forall_mem_cons]
    simp only [map_cons, nodup_cons, mem_cons, not_or, mem_map, not_exists, Bool.not_eq_true',
      contains_eq_mem, decide_eq_false_iff_not, length_cons]
    constructor
    · rintro ⟨hnew, rfl, hn, hall⟩
      exact ⟨by omega, ⟨fun f' h => (hall f' h.1).1 h.2, hn⟩, hnew, fun f' hf' => (hall f' hf').2⟩
    · rintro ⟨rfl, ⟨hne, hn⟩, hnew, hall⟩
      exact ⟨hnew, by omega, hn, fun f' hf' => ⟨fun h => hne f' ⟨hf', h⟩, hall f' hf'⟩⟩

namespace Finalizers
variable {bls : Bls} {env : FinalizerEnv} {s s' : Finalizers} {log rows : List (Nat × FinalizerKeyInfo)}
  {l l' : List FinalizerAuthInfo} {e e' : FinalizerAuthInfo} {name : AccountName} {id : Nat} {k : FinalizerKeyInfo}
  {f : FinalizerInfo} {key pop : List Char} {ranking : Ranking}

theorem setFinalizers_ok_iff (hfi : ∀ e ∈ l, e.finAuthority.Fine bls) (hpos : l ≠ []) (hle : l.length ≤ 21) :
    setFinalizers bls (policyOf l) = .ok () ↔ (l.map (·.finAuthority.publicKey)).Nodup := by
  have hlen : 0 < l.length := length_pos_iff.2 hpos
  have hf' : ∀ f ∈ l.map (·.finAuthority), f.Fine bls := by
    intro f hf
    obtain ⟨e, he, rfl⟩ := mem_map.1 hf
    exact hfi e he
  have hch : ∀ n, checkFinalizers bls [] 0 (l.map (·.finAuthority)) = .ok n ↔
      n = l.length ∧ (l.map (·.finAuthority.publicKey)).Nodup := by
    intro n
    rw [checkFinalizers_ok_iff hf' (by rw [length_map]; omega), length_map, Nat.zero_add, List.map_map]
    simp [Function.comp_def]
  unfold setFinalizers policyOf
  rw [length_map, eosAssert_bind (decide_eq_true (hle.trans (by decide))), eosAssert_bind (decide_eq_true hlen),
    bind_ok_iff]
  simp only [hch, eosAssert_ok_iff, decide_eq_true_eq]
  constructor
  · rintro ⟨n, ⟨-, hn⟩, -⟩
    exact hn
  · intro hn
    exact ⟨l.length, ⟨rfl, hn⟩, by omega⟩

/-! ## Lists of registered rows -/

def Listed (log : List (Nat × FinalizerKeyInfo)) (e : FinalizerAuthInfo) : Prop :=
  ∃ k, (e.keyId, k) ∈ log ∧ e.finAuthority.publicKey = k.finalizerKeyBinary ∧ e.finAuthority.weight = 1 ∧
    e.finAuthority.description.length ≤ 13

def Apart (log : List (Nat × FinalizerKeyInfo)) (e e' : FinalizerAuthInfo) : Prop :=
  ∀ k k', (e.keyId, k) ∈ log → (e'.keyId, k') ∈ log → k.finalizerName ≠ k'.finalizerName

structure Proposal (log : List (Nat × FinalizerKeyInfo)) (l : List FinalizerAuthInfo) : Prop where
  listed : ∀ e ∈ l, Listed log e
  apart : l.Pairwise (Apart log)
  size : l.length ≤ 21

theorem Apart.symm (h : Apart log e e') : Apart log e' e := fun k k' hk hk' heq => h k' k hk' hk heq.symm

theorem Proposal.perm (P : Proposal log l) (h : l'.Perm l) : Proposal log l' where
  listed := fun e he => P.listed e (h.subset he)
  apart := (h.pairwise_iff (·.symm)).2 P.apart
  size := h.length_eq.trans_le P.size

theorem log_inj {k' : FinalizerKeyInfo} (h : (log.map (·.1)).Nodup) (hk : (id, k) ∈ log) (hk' : (id, k') ∈ log) : k = k' :=
  congrArg Prod.snd (inj_on_of_nodup_map h hk hk' rfl)

theorem Proposal.append (P : Proposal log l) (h : ((log ++ rows).map (·.1)).Nodup) : Proposal (log ++ rows) l where
  listed := fun e he => by
    obtain ⟨k, hk, hr⟩ := P.listed e he
    exact ⟨k, mem_append_left _ hk, hr⟩
  apart := by
    refine P.apart.imp_of_mem fun {e e'} he he' hap k k' hk hk' => ?_
    obtain ⟨k1, hk1, -⟩ := P.listed e he
    obtain ⟨k2, hk2, -⟩ := P.listed e' he'
    rw [log_inj h hk (mem_append_left _ hk1), log_inj h hk' (mem_append_left _ hk2)]
    exact hap k1 k2 hk1 hk2
  size := P.size

theorem Proposal.keyId_ne (P : Proposal log l) : l.Pairwise (fun e e' => e.keyId ≠ e'.keyId) := by
  refine P.apart.imp_of_mem fun {e e'} he he' hap heq => ?_
  obtain ⟨k, hk, -⟩ := P.listed e he
  exact hap k k hk (heq ▸ hk) rfl

theorem perm_sortByKeyId (l : List FinalizerAuthInfo) : (sortByKeyId l).Perm l := perm_insertionSort _ l

theorem Proposal.sorted (P : Proposal log l) : (sortByKeyId l).Pairwise (fun e e' => e.keyId < e'.keyId) := by
  have : Std.Total (fun a b : FinalizerAuthInfo => a.keyId ≤ b.keyId) := ⟨fun a b => Nat.le_total a.keyId b.keyId⟩
  have : IsTrans FinalizerAuthInfo (fun a b => a.keyId ≤ b.keyId) := ⟨fun a b c => Nat.le_trans⟩
  have hle : (sortByKeyId l).Pairwise (fun a b => a.keyId ≤ b.keyId) := pairwise_insertionSort _ l
  have hne := (P.perm (perm_sortByKeyId l)).keyId_ne
  exact (hle.and hne).imp fun h => lt_of_le_of_ne h.1 h.2

def LogFine (bls : Bls) (log : List (Nat × FinalizerKeyInfo)) : Prop :=
  ∀ e ∈ log, e.2.finalizerKeyBinary.length = 96 ∧ bls.validPoint e.2.finalizerKeyBinary = true

theorem Listed.fine (h : Listed log e) (hl : LogFine bls log) : e.finAuthority.Fine bls := by
  obtain ⟨k, hk, hkey, hw, hd⟩ := h
  obtain ⟨hlen, hval⟩ := hl _ hk
  exact ⟨hd, hw, hkey ▸ hlen, hkey ▸ hval⟩

structure ProposedInv (bls : Bls) (s : Finalizers) (log : List (Nat × FinalizerKeyInfo)) : Prop where
  fine : LogFine bls log
  proposal : Proposal log s.lastProposedFinalizers
  sorted : s.lastProposedFinalizers.Pairwise (fun e e' => e.keyId < e'.keyId)
  keys : (s.lastProposedFinalizers.map (·.finAuthority.publicKey)).Nodup
  schedule : s.lastProducerScheduleSize ≤ 21

theorem sameEntries_keys (h : sameEntries l l' = true) :
    l.map (·.finAuthority.publicKey) = l'.map (·.finAuthority.publicKey) := by
  have := congrArg (List.map Prod.snd) (beq_iff_eq.1 h)
  simpa [Function.comp_def] using this

theorem setProposedFinalizers_ok_iff (J : ProposedInv bls s log) (P : Proposal log l) (hne : l ≠ []) :
    (∃ s', s.setProposedFinalizers bls l = .ok s') ↔ (l.map (·.finAuthority.publicKey)).Nodup := by
  have hp := perm_sortByKeyId l
  have P' := P.perm hp
  have hk := (hp.map (·.finAuthority.publicKey)).nodup_iff
  have hne' : sortByKeyId l ≠ [] := fun h => hne (perm_nil.1 (h ▸ hp.symm))
  unfold setProposedFinalizers
  by_cases hs : sameEntries (sortByKeyId l) s.lastProposedFinalizers = true
  · rw [if_pos hs]
    refine ⟨fun _ => ?_, fun _ => ⟨s, rfl⟩⟩
    rw [← hk, sameEntries_keys hs]
    exact J.keys
  · rw [if_neg hs, ← hk, ← setFinalizers_ok_iff (fun e he => (P'.listed e he).fine J.fine) hne' P'.size]
    simp only [unit_bind_ok_iff, exists_and_left]
    exact ⟨fun h => h.1, fun h => ⟨h, _, rfl⟩⟩

theorem ProposedInv.set (J : ProposedInv bls s log) (P : Proposal log l) (h : s.setProposedFinalizers bls l = .ok s') :
    ProposedInv bls s' log := by
  have hp := perm_sortByKeyId l
  have h0 := h
  unfold setProposedFinalizers at h
  split at h
  · cases h
    exact J
  · obtain ⟨hset, h⟩ := unit_ok h
    cases h
    refine ⟨J.fine, P.perm hp, P.sorted, ?_, J.schedule⟩
    by_cases hnil : l = []
    · subst hnil
      exact nodup_nil
    · exact (hp.map _).nodup_iff.2 ((setProposedFinalizers_ok_iff J P hnil).1 ⟨_, h0⟩)

/-! ## Lists made from the tables -/

theorem collectFinalizers_eq (s : Finalizers) (limit : Nat) : ∀ acc l,
    acc.length ≤ limit → ∃ rows : List (AccountName × FinalizerInfo),
      s.collectFinalizers limit acc l = acc ++ rows.map (fun r => .of r.1 r.2) ∧
      (rows.map (·.1)).Sublist (l.map (·.owner)) ∧ (∀ r ∈ rows, s.finalizers.lookup r.1 = some r.2) ∧
      acc.length + rows.length ≤ limit
  | acc, [], hacc => ⟨[], by simp [collectFinalizers], nil_sublist _, fun r hr => (by cases hr), by simpa using hacc⟩
  | acc, p :: l, hacc => by
    have skip : ∃ rows : List (AccountName × FinalizerInfo),
        s.collectFinalizers limit acc l = acc ++ rows.map (fun r => .of r.1 r.2) ∧
        (rows.map (·.1)).Sublist ((p :: l).map (·.owner)) ∧ (∀ r ∈ rows, s.finalizers.lookup r.1 = some r.2) ∧
        acc.length + rows.length ≤ limit := by
      obtain ⟨rows, heq, hsub, hre⟩ := collectFinalizers_eq s limit acc l hacc
      exact ⟨rows, heq, hsub.cons _, hre⟩
    rw [collectFinalizers]
    split
    · rename_i hgo
      cases hrow : s.finalizers.lookup p.owner with
      | none => exact skip
      | some f =>
        dsimp only
        split
        · exact skip
        · obtain ⟨rows, heq, hsub, hrow', hlen⟩ := collectFinalizers_eq s limit (acc ++ [.of p.owner f]) l
            (by rw [length_append, length_singleton]; omega)
          refine ⟨(p.owner, f) :: rows, by rw [heq]; simp, hsub.cons_cons _, ?_, ?_⟩
          · exact forall_mem_cons.2 ⟨hrow, hrow'⟩
          · rw [length_append, length_singleton] at hlen
            rw [length_cons]
            omega
    · exact ⟨[], by simp, nil_sublist _, fun r hr => (by cases hr), by simpa using hacc⟩

theorem topProducers_savanna (h : s.isSavannaConsensus = true) :
    ∀ acc l, acc.1.length = acc.2.length →
      (s.topProducers acc l).2 = s.collectFinalizers 21 acc.2 l ∧
      (s.topProducers acc l).1.length = (s.topProducers acc l).2.length
  | acc, [], hacc => ⟨rfl, hacc⟩
  | acc, p :: l, hacc => by
    rw [topProducers, collectFinalizers, hacc]
    rw [if_pos h]
    split
    · cases hrow : s.finalizers.lookup p.owner with
      | none => exact topProducers_savanna h acc l hacc
      | some f =>
        dsimp only
        split
        · exact topProducers_savanna h acc l hacc
        · refine topProducers_savanna h _ l ?_
          rw [length_append, length_append, hacc]
          rfl
    · exact ⟨rfl, hacc⟩

theorem length_topProducers_le (s : Finalizers) :
    ∀ acc l, acc.1.length ≤ 21 →
      (s.topProducers acc l).1.length ≤ 21
  | acc, [], hacc => hacc
  | acc, p :: l, hacc => by
    have grow : acc.1.length < 21 → (acc.1 ++ [p.owner]).length ≤ 21 := fun h => by
      rw [length_append, length_singleton]
      omega
    rw [topProducers]
    split
    · rename_i hgo
      split
      · cases s.finalizers.lookup p.owner with
        | none => exact length_topProducers_le s acc l hacc
        | some f =>
          dsimp only
          split
          · exact length_topProducers_le s acc l hacc
          · exact length_topProducers_le s _ l (grow hgo.1)
      · exact length_topProducers_le s _ l (grow hgo.1)
    · exact hacc

theorem KeysInv.proposal (I : KeysInv bls s log) {rows : List (AccountName × FinalizerInfo)} (hno : (rows.map (·.1)).Nodup)
    (hrow : ∀ r ∈ rows, s.finalizers.lookup r.1 = some r.2) (hs : rows.length ≤ 21) :
    Proposal log (rows.map (fun r => .of r.1 r.2)) ∧
      ((rows.map (fun r => FinalizerAuthInfo.of r.1 r.2)).map (·.finAuthority.publicKey)).Nodup := by
  have hne : rows.Pairwise (fun r r' => r.1 ≠ r'.1) := pairwise_map.1 hno
  refine ⟨⟨fun e he => ?_, pairwise_map.2 (hne.imp_of_mem fun {r r'} hr hr' hne k k' hk hk' heq => ?_), ?_⟩, ?_⟩
  · obtain ⟨r, hr, rfl⟩ := mem_map.1 he
    obtain ⟨k, hk, -, hb⟩ := I.active r.1 r.2 (hrow r hr)
    exact ⟨k, I.logged _ _ hk, hb.symm, rfl, length_nameToString_le r.1⟩
  · obtain ⟨k1, hk1, hn, -⟩ := I.active r.1 r.2 (hrow r hr)
    obtain ⟨k2, hk2, hn', -⟩ := I.active r'.1 r'.2 (hrow r' hr')
    rw [log_inj I.nodup hk (I.logged _ _ hk1), log_inj I.nodup hk' (I.logged _ _ hk2), hn, hn'] at heq
    exact hne heq
  · rw [length_map]
    exact hs
  · rw [List.map_map]
    refine pairwise_map.2 (hne.imp_of_mem fun {r r'} hr hr' hne heq => ?_)
    obtain ⟨k1, hk1, hn, hb⟩ := I.active r.1 r.2 (hrow r hr)
    obtain ⟨k2, hk2, hn', hb'⟩ := I.active r'.1 r'.2 (hrow r' hr')
    -- one key is one row, of one account
    have hid := I.hashes _ _ k1 k2 hk1 hk2 (congrArg bls.sha256 ((hb.trans heq).trans hb'.symm))
    rw [hid, hk2] at hk1
    cases hk1
    exact hne (hn.symm.trans hn')

theorem KeysInv.collect (I : KeysInv bls s log) (ranking : Ranking) {limit : Nat} (hl : limit ≤ 21) :
    Proposal log (s.collectFinalizers limit [] ranking.producers) ∧
      ((s.collectFinalizers limit [] ranking.producers).map (·.finAuthority.publicKey)).Nodup := by
  obtain ⟨rows, heq, hsub, hrow, hlen⟩ := collectFinalizers_eq s limit [] ranking.producers (Nat.zero_le _)
  rw [heq, nil_append]
  rw [length_nil, Nat.zero_add] at hlen
  exact I.proposal (hsub.nodup ranking.nodup) hrow (hlen.trans hl)

/-! ## The entry of a finalizer that activates a key -/

theorem replaceKey_eq_some_iff {activeKeyId : Nat} {key : List UInt8}
    (hs : s.lastProposedFinalizers.Pairwise (fun e e' => e.keyId < e'.keyId)) :
    s.replaceKey activeKeyId id key = some l ↔ ∃ l1 e l2, s.lastProposedFinalizers = l1 ++ e :: l2 ∧
      e.keyId = activeKeyId ∧ l = l1 ++ ⟨id, { e.finAuthority with publicKey := key }⟩ :: l2 := by
  unfold replaceKey
  dsimp only
  constructor
  · intro h
    cases hat : s.lastProposedFinalizers[lowerBound (fun e : FinalizerAuthInfo => decide (e.keyId < activeKeyId))
        s.lastProposedFinalizers]? with
    | none =>
      rw [hat] at h
      cases h
    | some e =>
      rw [hat] at h
      dsimp only at h
      split at h
      · rename_i hid
        cases h
        obtain ⟨hlt, rfl⟩ := List.getElem?_eq_some_iff.1 hat
        refine ⟨_, _, _, ?_, hid, by rw [List.set_eq_take_append_cons_drop, if_pos hlt]⟩
        rw [cons_getElem_drop_succ, take_append_drop]
      · cases h
  · rintro ⟨l1, e, l2, hl, rfl, rfl⟩
    have hat : s.lastProposedFinalizers[l1.length]? = some e := by
      rw [hl]
      simp
    have hf : lowerBound (fun a => decide (FinalizerAuthInfo.keyId a < e.keyId)) s.lastProposedFinalizers = l1.length :=
      lowerBound_eq hs hat
    rw [hf, hat]
    dsimp only
    rw [if_pos rfl, hl]
    simp

theorem KeysInv.replaced {l1 l2 : List FinalizerAuthInfo} (I : KeysInv bls s log) (hf : s.finalizers.lookup name = some f)
    (hk : s.finalizerKeys.lookup id = some k) (hn : k.finalizerName = name) (he : e.keyId = f.activeKeyId)
    (P : Proposal log (l1 ++ e :: l2)) :
    Proposal log (l1 ++ ⟨id, { e.finAuthority with publicKey := k.finalizerKeyBinary }⟩ :: l2) := by
  refine Proposal.perm ?_ perm_middle
  have P' := P.perm perm_middle.symm
  obtain ⟨hl, hr⟩ := forall_mem_cons.1 P'.listed
  obtain ⟨hap, has⟩ := pairwise_cons.1 P'.apart
  refine ⟨forall_mem_cons.2 ⟨?_, hr⟩, pairwise_cons.2 ⟨fun x hx k1 kx hk1 hkx => ?_, has⟩, P'.size⟩
  · obtain ⟨-, -, -, hw, hd⟩ := hl
    exact ⟨k, I.logged id k hk, rfl, hw, hd⟩
  · obtain ⟨ka, hka, hkn, -⟩ := I.active name f hf
    rw [log_inj I.nodup hk1 (I.logged id k hk), hn, ← hkn]
    exact hap x hx ka kx (he ▸ I.logged _ _ hka) hkx

/-! ## The actions keep it -/

theorem ProposedInv.init (bls : Bls) : ProposedInv bls init [] where
  fine := fun e he => by cases he
  proposal := ⟨fun e he => (by cases he), List.Pairwise.nil, Nat.zero_le _⟩
  sorted := List.Pairwise.nil
  keys := nodup_nil
  schedule := Nat.zero_le _

theorem ProposedInv.regfinkey (I : KeysInv bls s log) (J : ProposedInv bls s log)
    (h : s.regfinkey bls env name key pop = .ok (s', rows)) : ProposedInv bls s' (log ++ rows) := by
  have I' := I.regfinkey h
  obtain ⟨g1, hval, -, rfl, rfl⟩ := regfinkey_ok h
  refine ⟨fun e he => ?_, J.proposal.append I'.nodup, J.sorted, J.keys, J.schedule⟩
  rcases mem_append.1 he with he | he
  · exact J.fine e he
  · rw [mem_singleton.1 he]
    exact ⟨Vector.length_toList .., hval⟩

theorem ProposedInv.actfinkey (I : KeysInv bls s log) (J : ProposedInv bls s log)
    (h : s.actfinkey bls env name key = .ok s') : ProposedInv bls s' log := by
  obtain ⟨f, id, k, hf, hk, hkn, -, s1, rfl, hs'⟩ := actfinkey_ok h
  have J1 : ProposedInv bls
      { s with finalizers := s.finalizers.insert name ⟨id, k.finalizerKeyBinary, f.finalizerKeyCount⟩ } log :=
    ⟨J.fine, J.proposal, J.sorted, J.keys, J.schedule⟩
  rcases hs' with ⟨-, rfl⟩ | ⟨l, hl, hset⟩
  · exact J1
  · obtain ⟨l1, e, l2, hla, he, rfl⟩ := (replaceKey_eq_some_iff J.sorted).1 hl
    exact J1.set (I.replaced hf hk hkn he (hla ▸ J.proposal)) hset

theorem ProposedInv.switchtosvnn (I : KeysInv bls s log) (J : ProposedInv bls s log)
    (h : s.switchtosvnn bls env ranking = .ok s') : ProposedInv bls s' log := by
  iterate 3 replace h := rest_ok h
  obtain ⟨s1, hset, h⟩ := bind_ok h
  replace h := rest_ok h
  cases h
  exact J.set (I.collect ranking J.schedule).1 hset

theorem ProposedInv.schedule_set (J : ProposedInv bls s log) (ranking : Ranking) (accepted : Bool) :
    ProposedInv bls (if accepted then
      { s with lastProducerScheduleSize := (s.topProducers ([], []) ranking.producers).1.length } else s) log := by
  split
  · exact ⟨J.fine, J.proposal, J.sorted, J.keys, length_topProducers_le s _ _ (Nat.zero_le _)⟩
  · exact J

theorem ProposedInv.updateElectedProducers {accepted : Bool} (I : KeysInv bls s log)
    (J : ProposedInv bls s log) (h : s.updateElectedProducers bls ranking accepted = .ok s') : ProposedInv bls s' log := by
  unfold Finalizers.updateElectedProducers at h
  dsimp only at h
  split at h
  · cases h
    exact J
  split at h
  · rename_i hs
    rw [(topProducers_savanna hs _ _ rfl).1] at h
    exact (J.schedule_set ranking accepted).set (I.collect ranking le_rfl).1 h
  · cases h
    exact J.schedule_set ranking accepted

theorem ProposedInv.apply {a : Action} (I : KeysInv bls s log) (J : ProposedInv bls s log)
    (h : s.apply bls env a = .ok (s', rows)) : ProposedInv bls s' (log ++ rows) := by
  have mapped : ∀ x : Result Finalizers, x.map (·, []) = .ok (s', rows) → (∀ s1, x = .ok s1 → ProposedInv bls s1 log) →
      ProposedInv bls s' (log ++ rows) := by
    intro x hx hall
    obtain ⟨s1, h1, hx⟩ := map_ok_iff.1 hx
    cases hx
    rw [append_nil]
    exact hall s' h1
  cases a with
  | regfinkey name key pop => exact ProposedInv.regfinkey I J h
  | actfinkey name key => exact mapped _ h fun s1 h1 => ProposedInv.actfinkey I J h1
  | delfinkey name key =>
    refine mapped _ h fun s1 h1 => ?_
    obtain ⟨f, id, k, -, -, -, -, rfl⟩ := delfinkey_ok h1
    exact ⟨J.fine, J.proposal, J.sorted, J.keys, J.schedule⟩
  | switchtosvnn ranking => exact mapped _ h fun s1 h1 => ProposedInv.switchtosvnn I J h1
  | updateElectedProducers ranking accepted => exact mapped _ h fun s1 h1 => ProposedInv.updateElectedProducers I J h1

theorem ProposedInv.run (bls : Bls) (actions : List (FinalizerEnv × Action)) :
    ProposedInv bls (run bls actions).1 (run bls actions).2 := by
  refine (List.foldlRecOn (motive := fun r => KeysInv bls r.1 r.2 ∧ ProposedInv bls r.1 r.2) (b := (Finalizers.init, []))
    actions (Finalizers.step bls) ⟨KeysInv.init bls, ProposedInv.init bls⟩ (fun r IJ a _ => ?_)).2
  unfold Finalizers.step
  cases h : r.1.apply bls a.1 a.2 with
  | ok r' => exact ⟨IJ.1.apply h, ProposedInv.apply IJ.1 IJ.2 h⟩
  | error e => exact IJ

/-! ## When the host accepts -/

/-- **Which proposals are accepted**: all that an election and the switch make; that of an activation if no other entry of
the last proposal has the key. -/
structure Accepted (bls : Bls) (s : Finalizers) : Prop where
  sorted : s.lastProposedFinalizers.Pairwise (fun e e' => e.keyId < e'.keyId)
  elected : ∀ (ranking : Ranking) (accepted : Bool), ∃ s', s.updateElectedProducers bls ranking accepted = .ok s'
  switched : s.isSavannaConsensus = false → ∀ ranking : Ranking, ∃ s',
    s.setProposedFinalizers bls (s.collectFinalizers s.lastProducerScheduleSize [] ranking.producers) = .ok s'
  found : ∀ activeKeyId id key, (s.replaceKey activeKeyId id key).isSome = true ↔
    ∃ e ∈ s.lastProposedFinalizers, e.keyId = activeKeyId
  activated : ∀ name f id k l, s.finalizers.lookup name = some f → s.finalizerKeys.lookup id = some k →
    k.finalizerName = name → s.replaceKey f.activeKeyId id k.finalizerKeyBinary = some l →
    ((∃ s', setProposedFinalizers bls
        { s with finalizers := s.finalizers.insert name ⟨id, k.finalizerKeyBinary, f.finalizerKeyCount⟩ } l = .ok s') ↔
      ∀ e ∈ s.lastProposedFinalizers, e.keyId ≠ f.activeKeyId → e.finAuthority.publicKey ≠ k.finalizerKeyBinary)

theorem elected_accepted (I : KeysInv bls s log) (J : ProposedInv bls s log) (ranking : Ranking) (accepted : Bool) :
    ∃ s', s.updateElectedProducers bls ranking accepted = .ok s' := by
  unfold Finalizers.updateElectedProducers
  dsimp only
  split
  · exact ⟨s, rfl⟩
  rename_i hs
  split
  · rename_i hsa
    obtain ⟨heq, hlen⟩ := topProducers_savanna hsa ([], []) ranking.producers rfl
    obtain ⟨P, hn⟩ := I.collect ranking (le_refl 21)
    rw [heq] at hlen ⊢
    refine (setProposedFinalizers_ok_iff (J.schedule_set ranking accepted) P fun hnil => ?_).2 hn
    rw [hnil, length_nil] at hlen
    exact hs (.inl hlen)
  · exact ⟨_, rfl⟩

theorem switched_accepted (I : KeysInv bls s log) (J : ProposedInv bls s log) (h : s.isSavannaConsensus = false)
    (ranking : Ranking) :
    ∃ s', s.setProposedFinalizers bls (s.collectFinalizers s.lastProducerScheduleSize [] ranking.producers) = .ok s' := by
  obtain ⟨P, hn⟩ := I.collect ranking J.schedule
  by_cases hnil : s.collectFinalizers s.lastProducerScheduleSize [] ranking.producers = []
  · -- nothing is passed to the host
    have hl : s.lastProposedFinalizers = [] := by
      unfold isSavannaConsensus at h
      simpa using h
    rw [hnil]
    unfold setProposedFinalizers
    rw [hl]
    exact ⟨s, rfl⟩
  · exact (setProposedFinalizers_ok_iff J P hnil).2 hn

theorem activated_accepted_iff (I : KeysInv bls s log) (J : ProposedInv bls s log) (hf : s.finalizers.lookup name = some f)
    (hk : s.finalizerKeys.lookup id = some k) (hn : k.finalizerName = name)
    (hl : s.replaceKey f.activeKeyId id k.finalizerKeyBinary = some l) : (∃ s', setProposedFinalizers bls
        { s with finalizers := s.finalizers.insert name ⟨id, k.finalizerKeyBinary, f.finalizerKeyCount⟩ } l = .ok s') ↔
      ∀ e ∈ s.lastProposedFinalizers, e.keyId ≠ f.activeKeyId → e.finAuthority.publicKey ≠ k.finalizerKeyBinary := by
  obtain ⟨l1, e, l2, hla, he, rfl⟩ := (replaceKey_eq_some_iff J.sorted).1 hl
  have P := I.replaced hf hk hn he (hla ▸ J.proposal)
  have J1 : ProposedInv bls
      { s with finalizers := s.finalizers.insert name ⟨id, k.finalizerKeyBinary, f.finalizerKeyCount⟩ } log :=
    ⟨J.fine, J.proposal, J.sorted, J.keys, J.schedule⟩
  rw [setProposedFinalizers_ok_iff J1 P (by simp)]
  -- the new entry is compared with all others, which differ from each other
  have hke := J.keys
  have hids := J.proposal.keyId_ne
  rw [hla] at hke hids ⊢
  rw [(perm_middle.map _).nodup_iff, map_cons, nodup_cons] at hke ⊢
  rw [(perm_middle.pairwise_iff (·.symm)), pairwise_cons] at hids
  constructor
  · rintro ⟨hnew, -⟩ x hx hne heq
    rcases mem_cons.1 (perm_middle.subset hx) with rfl | hx
    · exact hne he
    · exact hnew (mem_map.2 ⟨x, hx, heq⟩)
  · intro hall
    refine ⟨fun hmem => ?_, hke.2⟩
    obtain ⟨x, hx, heq⟩ := mem_map.1 hmem
    exact hall x (perm_middle.symm.subset (mem_cons_of_mem _ hx)) (he ▸ (hids.1 x hx).symm) heq

/-- **In every reachable state the list of the last proposal is sorted and found in by the halving search, and the host
accepts every proposal but that of an activated key that another entry has.** -/
theorem run_accepted (bls : Bls) (actions : List (FinalizerEnv × Action)) : Accepted bls (run bls actions).1 where
  sorted := (ProposedInv.run bls actions).sorted
  elected := elected_accepted (KeysInv.run bls actions) (ProposedInv.run bls actions)
  switched := switched_accepted (KeysInv.run bls actions) (ProposedInv.run bls actions)
  found := fun activeKeyId id key => by
    rw [Option.isSome_iff_exists]
    simp only [replaceKey_eq_some_iff (ProposedInv.run bls actions).sorted]
    constructor
    · rintro ⟨-, l₁, e, l₂, hl, he, -⟩
      exact ⟨e, hl ▸ (by simp), he⟩
    · rintro ⟨e, hmem, he⟩
      obtain ⟨l₁, l₂, hl⟩ := append_of_mem hmem
      exact ⟨_, l₁, e, l₂, hl, he, rfl⟩
  activated := fun name f id k l => activated_accepted_iff (KeysInv.run bls actions) (ProposedInv.run bls actions)

/-! ## A key that moves to another account -/

def sampleBls : Bls where
  decodeKey := fun text => some (Vector.replicate 96 (UInt8.ofNat ((text.getD 7 'A').toNat)))
  decodeSignature := fun _ => some []
  popVerify := fun _ _ => true
  sha256 := fun key => (key.headD 0).toNat
  validPoint := fun _ => true
  popVerify_valid := fun _ _ _ => rfl

def sampleKey (c : Char) : List Char := ['P', 'U', 'B', '_', 'B', 'L', 'S', c]

def sampleRanking : Ranking := ⟨[⟨1, true, true⟩, ⟨2, true, true⟩], by decide⟩

def sampleFinalizerEnv : FinalizerEnv := ⟨⟨fun _ => true, fun _ => true⟩, fun _ => true⟩

/-- Two producers register a key each and are the finalizers; the first deletes its key `A`, and the second registers it. -/
def sampleMove : List (FinalizerEnv × Action) :=
  [.regfinkey 1 (sampleKey 'A') ['S', 'I', 'G', '_', 'B', 'L', 'S'],
    .regfinkey 2 (sampleKey 'B') ['S', 'I', 'G', '_', 'B', 'L', 'S'],
    .updateElectedProducers sampleRanking true,
    .switchtosvnn sampleRanking,
    .delfinkey 1 (sampleKey 'A'),
    .regfinkey 2 (sampleKey 'A') ['S', 'I', 'G', '_', 'B', 'L', 'S']].map (fun a => (sampleFinalizerEnv, a))

/-- **The host refuses the policy that `actfinkey` passes to it.** -/
theorem actfinkey_refused :
    ((run sampleBls sampleMove).1.actfinkey sampleBls sampleFinalizerEnv 2 (sampleKey 'A')).map (fun _ => ()) =
      .error (.thrown .wasmExecution "Duplicate public key: ${pk}") := by
  decide +kernel

end Finalizers
end TheChannel
