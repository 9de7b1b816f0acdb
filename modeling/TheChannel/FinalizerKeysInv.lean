import TheChannel.FinalizerKeys
/-!
# FinalizerKeysInv — the tables of finalizer keys agree

A `finalizers` row counts the keys of its account and names one of them as active; an account without a row has no key; no
two keys have one hash, and no key id is given twice. The log of registered rows is what outlives a deletion.
-/
namespace TheChannel
namespace Finalizers
open Option RowMap

variable {bls : Bls} {env : FinalizerEnv} {s s' : Finalizers} {log rows : List (Nat × FinalizerKeyInfo)} {name : AccountName}
  {id : Nat} {k : FinalizerKeyInfo} {f : FinalizerInfo} {key pop : List Char} {ranking : Ranking}

def keysOf (s : Finalizers) (name : AccountName) : Nat := RowMap.count (fun _ k => k.finalizerName == name) s.finalizerKeys

structure KeysInv (bls : Bls) (s : Finalizers) (log : List (Nat × FinalizerKeyInfo)) : Prop where
  next : ∀ e ∈ log, e.1 < s.nextFinalizerKeyId
  nodup : (log.map (·.1)).Nodup
  logged : ∀ id k, s.finalizerKeys.lookup id = some k → (id, k) ∈ log
  hashes : ∀ id id' k k', s.finalizerKeys.lookup id = some k → s.finalizerKeys.lookup id' = some k' →
    bls.sha256 k.finalizerKeyBinary = bls.sha256 k'.finalizerKeyBinary → id = id'
  owned : ∀ id k, s.finalizerKeys.lookup id = some k → s.finalizers.lookup k.finalizerName ≠ none
  active : ∀ name f, s.finalizers.lookup name = some f → ∃ k, s.finalizerKeys.lookup f.activeKeyId = some k ∧
    k.finalizerName = name ∧ k.finalizerKeyBinary = f.activeKeyBinary
  count : ∀ name f, s.finalizers.lookup name = some f → f.finalizerKeyCount = s.keysOf name

/-! ## What the parts of an action do -/

theorem getFinalizer_ok (h : s.getFinalizer name = .ok f) : s.finalizers.lookup name = some f := by
  unfold getFinalizer at h
  split at h
  · cases h
  rename_i f' hrow
  cases rest_ok h
  exact hrow

theorem findByFinKey_some {hash : Nat} (h : s.findByFinKey bls hash = some (id, k)) :
    s.finalizerKeys.lookup id = some k ∧ bls.sha256 k.finalizerKeyBinary = hash := by
  obtain ⟨e, he, heq⟩ := map_eq_some_iff.1 h
  cases heq
  have hh := List.find?_some he
  exact ⟨mem_entries_iff.1 (List.mem_of_find?_eq_some he), beq_iff_eq.1 hh⟩

theorem setProposedFinalizers_ok {proposed : List FinalizerAuthInfo} (h : s.setProposedFinalizers bls proposed = .ok s') :
    ∃ l, s' = { s with lastProposedFinalizers := l } := by
  unfold setProposedFinalizers at h
  split at h
  · cases h
    exact ⟨s.lastProposedFinalizers, rfl⟩
  · replace h := rest_ok h
    cases h
    exact ⟨_, rfl⟩

def registered (s : Finalizers) (name : AccountName) (key : List UInt8) : FinalizerInfo :=
  match s.finalizers.lookup name with
  | none => ⟨s.nextFinalizerKeyId, key, 1⟩
  | some f => { f with finalizerKeyCount := f.finalizerKeyCount + 1 }

theorem regfinkey_ok (h : s.regfinkey bls env name key pop = .ok (s', rows)) :
    ∃ g1 : Vector UInt8 96, bls.validPoint g1.toList = true ∧
      (∀ id k, s.finalizerKeys.lookup id = some k → bls.sha256 k.finalizerKeyBinary ≠ bls.sha256 g1.toList) ∧
      rows = [(s.nextFinalizerKeyId, ⟨name, key, g1.toList⟩)] ∧
      s' = { s with
        finalizerKeys := s.finalizerKeys.insert s.nextFinalizerKeyId ⟨name, key, g1.toList⟩
        finalizers := s.finalizers.insert name (s.registered name g1.toList)
        finKeyIdGenerator := some s.nextFinalizerKeyId } := by
  iterate 3 replace h := rest_ok h
  obtain ⟨g1, -, h⟩ := bind_ok h
  split at h
  · cases h
  rename_i popG2 hpop
  obtain ⟨hnew, h⟩ := check_ok h
  obtain ⟨hver, h⟩ := check_ok h
  cases h
  unfold findByFinKey at hnew
  rw [isNone_map, isNone_iff_eq_none, List.find?_eq_none] at hnew
  exact ⟨g1, bls.popVerify_valid g1 popG2 hver,
    fun id k hk heq => hnew ⟨id, k⟩ (mem_entries_iff.2 hk) (beq_iff_eq.2 heq), rfl, rfl⟩

/-- **An activation that was accepted**: the row names another key of the account, and a finalizer of the last proposal is
proposed again with it. -/
theorem actfinkey_ok (h : s.actfinkey bls env name key = .ok s') :
    ∃ f id k, s.finalizers.lookup name = some f ∧ s.finalizerKeys.lookup id = some k ∧ k.finalizerName = name ∧
      id ≠ f.activeKeyId ∧
      ∃ s1, s1 = { s with finalizers := s.finalizers.insert name ⟨id, k.finalizerKeyBinary, f.finalizerKeyCount⟩ } ∧
        ((s.replaceKey f.activeKeyId id k.finalizerKeyBinary = none ∧ s' = s1) ∨
          ∃ l, s.replaceKey f.activeKeyId id k.finalizerKeyBinary = some l ∧ s1.setProposedFinalizers bls l = .ok s') := by
  replace h := rest_ok h
  obtain ⟨f, hf, h⟩ := bind_ok h
  obtain ⟨g1, -, h⟩ := bind_ok h
  split at h
  · cases h
  rename_i id k hfi
  obtain ⟨hn, h⟩ := check_ok h
  obtain ⟨hne, h⟩ := check_ok h
  refine ⟨f, id, k, getFinalizer_ok hf, (findByFinKey_some hfi).1, beq_iff_eq.1 hn, bne_iff_ne.1 hne, _, rfl, ?_⟩
  cases hr : s.replaceKey f.activeKeyId id k.finalizerKeyBinary with
  | none =>
    rw [hr] at h
    cases h
    exact .inl ⟨rfl, rfl⟩
  | some l =>
    rw [hr] at h
    exact .inr ⟨l, rfl, h⟩

theorem delfinkey_ok (h : s.delfinkey bls env name key = .ok s') :
    ∃ f id k, s.finalizers.lookup name = some f ∧ s.finalizerKeys.lookup id = some k ∧ k.finalizerName = name ∧
      (id = f.activeKeyId → f.finalizerKeyCount = 1) ∧
      s' = { s with
        finalizerKeys := s.finalizerKeys.erase id
        finalizers :=
          if f.finalizerKeyCount = 1 then s.finalizers.erase name
          else s.finalizers.insert name { f with finalizerKeyCount := f.finalizerKeyCount - 1 } } := by
  replace h := rest_ok h
  obtain ⟨f, hf, h⟩ := bind_ok h
  obtain ⟨g1, -, h⟩ := bind_ok h
  split at h
  · cases h
  rename_i id k hfi
  obtain ⟨hn, h⟩ := check_ok h
  obtain ⟨hact, h⟩ := check_ok h
  cases h
  refine ⟨f, id, k, getFinalizer_ok hf, (findByFinKey_some hfi).1, beq_iff_eq.1 hn, fun hid => ?_, rfl⟩
  rw [Bool.or_eq_true, bne_iff_ne, beq_iff_eq] at hact
  exact hact.resolve_left fun hne => hne hid

/-! ## The actions keep the invariant -/

theorem KeysInv.init (bls : Bls) : KeysInv bls init [] where
  next := fun e he => by cases he
  nodup := List.nodup_nil
  logged := fun id k h => by cases h
  hashes := fun id id' k k' h => by cases h
  owned := fun id k h => by cases h
  active := fun name f h => by cases h
  count := fun name f h => by cases h

section

variable (I : KeysInv bls s log)

include I

theorem KeysInv.proposed (l : List FinalizerAuthInfo) (n : Nat) :
    KeysInv bls { s with lastProposedFinalizers := l, lastProducerScheduleSize := n } log :=
  ⟨I.next, I.nodup, I.logged, I.hashes, I.owned, I.active, I.count⟩

theorem KeysInv.fresh : s.finalizerKeys.lookup s.nextFinalizerKeyId = none := by
  cases h : s.finalizerKeys.lookup s.nextFinalizerKeyId with
  | none => rfl
  | some k => exact absurd (I.next _ (I.logged _ _ h)) (lt_irrefl _)

theorem KeysInv.keysOf_eq_zero (h : s.finalizers.lookup name = none) : s.keysOf name = 0 := by
  refine count_eq_zero fun id k hk => ?_
  rw [beq_eq_false_iff_ne]
  rintro rfl
  exact I.owned id k hk h

theorem KeysInv.regfinkey (h : s.regfinkey bls env name key pop = .ok (s', rows)) :
    KeysInv bls s' (log ++ rows) := by
  obtain ⟨g1, -, hh, rfl, rfl⟩ := regfinkey_ok h
  have hfr := I.fresh
  have hco : ∀ n, keysOf { s with
        finalizerKeys := s.finalizerKeys.insert s.nextFinalizerKeyId ⟨name, key, g1.toList⟩
        finalizers := s.finalizers.insert name (s.registered name g1.toList)
        finKeyIdGenerator := some s.nextFinalizerKeyId } n = s.keysOf n + (if n = name then 1 else 0) := by
    intro n
    unfold keysOf
    rw [count_insert_new _ _ hfr]
    simp only [beq_iff_eq, eq_comm (a := name)]
  refine ⟨fun e he => ?_, ?_, fun id k hk => ?_, fun id id' k k' hk hk' heq => ?_, fun id k hk => ?_, fun n f hf => ?_,
    fun n f hf => ?_⟩
  · show e.1 < s.nextFinalizerKeyId + 1
    rcases List.mem_append.1 he with he | he
    · exact Nat.lt_succ_of_lt (I.next e he)
    · rw [List.mem_singleton.1 he]
      exact Nat.lt_succ_self _
  · rw [List.map_append]
    refine I.nodup.append (List.nodup_singleton _) (List.disjoint_singleton.2 fun ha => ?_)
    obtain ⟨e, he, heq⟩ := List.mem_map.1 ha
    exact (I.next e he).ne heq
  · rcases lookup_insert_some hk with ⟨hid, rfl⟩ | ⟨-, hk⟩
    · exact List.mem_append_right _ (List.mem_singleton.2 (hid ▸ rfl))
    · exact List.mem_append_left _ (I.logged id k hk)
  · rcases lookup_insert_some hk with ⟨hid, rfl⟩ | ⟨-, hk⟩ <;>
      rcases lookup_insert_some hk' with ⟨hid', rfl⟩ | ⟨-, hk'⟩
    · exact hid.trans hid'.symm
    · exact absurd heq.symm (hh id' k' hk')
    · exact absurd heq (hh id k hk)
    · exact I.hashes id id' k k' hk hk' heq
  · rw [lookup_insert_ite] at hk ⊢
    split
    · exact some_ne_none _
    · rename_i hna
      split at hk
      · cases hk
        exact absurd rfl hna
      · exact I.owned id k hk
  · rcases lookup_insert_some hf with ⟨hn, rfl⟩ | ⟨-, hf⟩
    · unfold registered
      cases hrow : s.finalizers.lookup name with
      | none => exact ⟨_, AList.lookup_insert _, hn.symm, rfl⟩
      | some f' =>
        obtain ⟨k, hk, hkn, hbi⟩ := I.active name f' hrow
        refine ⟨k, (AList.lookup_insert_ne fun heq => ?_).trans hk, hkn.trans hn.symm, hbi⟩
        rw [heq, hfr] at hk
        cases hk
    · obtain ⟨k, hk, hkn, hbi⟩ := I.active n f hf
      refine ⟨k, (AList.lookup_insert_ne fun heq => ?_).trans hk, hkn, hbi⟩
      rw [heq, hfr] at hk
      cases hk
  · rw [hco]
    rcases lookup_insert_some hf with ⟨hn, rfl⟩ | ⟨hn, hf⟩
    · rw [if_pos hn, hn]
      unfold registered
      cases hrow : s.finalizers.lookup name with
      | none => rw [I.keysOf_eq_zero hrow]
      | some f' => exact congrArg (· + 1) (I.count name f' hrow)
    · rw [if_neg hn]
      exact I.count n f hf

theorem KeysInv.actfinkey (h : s.actfinkey bls env name key = .ok s') : KeysInv bls s' log := by
  obtain ⟨f, id, k, hf, hk, hkn, -, s1, rfl, hs'⟩ := actfinkey_ok h
  have I1 : KeysInv bls
      { s with finalizers := s.finalizers.insert name ⟨id, k.finalizerKeyBinary, f.finalizerKeyCount⟩ } log := by
    refine ⟨I.next, I.nodup, I.logged, I.hashes, fun id' k' hk' => ?_, fun n f' hf' => ?_, fun n f' hf' => ?_⟩
    · rw [lookup_insert_ite]
      split
      · exact some_ne_none _
      · exact I.owned id' k' hk'
    · rcases lookup_insert_some hf' with ⟨hn, rfl⟩ | ⟨-, hf'⟩
      · exact ⟨k, hk, hkn.trans hn.symm, rfl⟩
      · exact I.active n f' hf'
    · rcases lookup_insert_some hf' with ⟨hn, rfl⟩ | ⟨-, hf'⟩
      · rw [hn]
        exact I.count name f hf
      · exact I.count n f' hf'
  rcases hs' with ⟨-, rfl⟩ | ⟨l, -, hset⟩
  · exact I1
  · obtain ⟨l', rfl⟩ := setProposedFinalizers_ok hset
    exact I1.proposed l' _

theorem KeysInv.delfinkey (h : s.delfinkey bls env name key = .ok s') : KeysInv bls s' log := by
  obtain ⟨f, id, k, hf, hk, hkn, hact, rfl⟩ := delfinkey_ok h
  have hco : ∀ n, s.keysOf n =
      RowMap.count (fun _ k => k.finalizerName == n) (s.finalizerKeys.erase id) + (if n = name then 1 else 0) := by
    intro n
    unfold keysOf
    rw [count_erase _ hk]
    simp only [beq_iff_eq, hkn, eq_comm (a := name)]
  have hcf := I.count name f hf
  have hcn := hco name
  rw [if_pos rfl] at hcn
  -- an account with one key has no other
  have hl : f.finalizerKeyCount = 1 → ∀ id' k', s.finalizerKeys.lookup id' = some k' → id' ≠ id → k'.finalizerName ≠ name := by
    intro h1 id' k' hk' hne hn
    have := count_pos (p := fun _ k => k.finalizerName == name) ((AList.lookup_erase_ne hne).trans hk') (beq_iff_eq.2 hn)
    omega
  refine ⟨I.next, I.nodup, fun id' k' hk' => ?_, fun id1 id2 k1 k2 hk1 hk2 => ?_, fun id' k' hk' => ?_, fun n f' hf' => ?_,
    fun n f' hf' => ?_⟩
  · exact I.logged id' k' (lookup_erase_some hk').2
  · exact I.hashes id1 id2 k1 k2 (lookup_erase_some hk1).2 (lookup_erase_some hk2).2
  · obtain ⟨hne, hk'⟩ := lookup_erase_some hk'
    split
    · rename_i h1
      rw [lookup_erase_ite, if_neg (hl h1 id' k' hk' hne)]
      exact I.owned id' k' hk'
    · rw [lookup_insert_ite]
      split
      · exact some_ne_none _
      · exact I.owned id' k' hk'
  · -- the active key of a row that stays is not the deleted one
    have hke : ∀ g, s.finalizers.lookup n = some g → (n = name → g.finalizerKeyCount ≠ 1) →
        ∃ k, (s.finalizerKeys.erase id).lookup g.activeKeyId = some k ∧ k.finalizerName = n ∧
          k.finalizerKeyBinary = g.activeKeyBinary := by
      intro g hg h1
      obtain ⟨k', hk', hkn', hb⟩ := I.active n g hg
      refine ⟨k', (AList.lookup_erase_ne fun heq => ?_).trans hk', hkn', hb⟩
      rw [heq, hk] at hk'
      cases hk'
      have hn := hkn'.symm.trans hkn
      subst hn
      rw [hf] at hg
      cases hg
      exact h1 rfl (hact heq.symm)
    split at hf'
    · obtain ⟨hn, hf'⟩ := lookup_erase_some hf'
      exact hke f' hf' fun heq => absurd heq hn
    · rename_i h1
      rcases lookup_insert_some hf' with ⟨hn, rfl⟩ | ⟨hn, hf'⟩
      · exact hke f (hn ▸ hf) fun _ => h1
      · exact hke f' hf' fun heq => absurd heq hn
  · have hcn' := hco n
    show f'.finalizerKeyCount = RowMap.count (fun _ k => k.finalizerName == n) (s.finalizerKeys.erase id)
    dsimp only at hf'
    split at hf'
    · obtain ⟨hn, hf'⟩ := lookup_erase_some hf'
      rw [if_neg hn] at hcn'
      exact (I.count n f' hf').trans hcn'
    · rcases lookup_insert_some hf' with ⟨hn, rfl⟩ | ⟨hn, hf'⟩
      · rw [hn]
        dsimp only
        omega
      · rw [if_neg hn] at hcn'
        exact (I.count n f' hf').trans hcn'

end

theorem KeysInv.switchtosvnn (I : KeysInv bls s log) (h : s.switchtosvnn bls env ranking = .ok s') :
    KeysInv bls s' log := by
  iterate 3 replace h := rest_ok h
  obtain ⟨s1, hset, h⟩ := bind_ok h
  replace h := rest_ok h
  cases h
  obtain ⟨l, rfl⟩ := setProposedFinalizers_ok hset
  exact I.proposed l _

theorem KeysInv.updateElectedProducers {accepted : Bool} (I : KeysInv bls s log)
    (h : s.updateElectedProducers bls ranking accepted = .ok s') : KeysInv bls s' log := by
  unfold Finalizers.updateElectedProducers at h
  dsimp only at h
  split at h
  · cases h
    exact I
  have I' : ∀ n, KeysInv bls (if accepted then { s with lastProducerScheduleSize := n } else s) log := by
    intro n
    split
    · exact I.proposed _ n
    · exact I
  split at h
  · obtain ⟨l, rfl⟩ := setProposedFinalizers_ok h
    exact (I' _).proposed l _
  · cases h
    exact I' _

theorem KeysInv.mapped {x : Result Finalizers} (hx : ∀ s1, x = .ok s1 → KeysInv bls s1 log)
    (h : x.map (·, []) = .ok (s', rows)) : KeysInv bls s' (log ++ rows) := by
  obtain ⟨s1, h1, h⟩ := map_ok_iff.1 h
  cases h
  rw [List.append_nil]
  exact hx s' h1

theorem KeysInv.apply {a : Action} (I : KeysInv bls s log) (h : s.apply bls env a = .ok (s', rows)) :
    KeysInv bls s' (log ++ rows) := by
  cases a with
  | regfinkey name key pop => exact I.regfinkey h
  | actfinkey name key => exact KeysInv.mapped (fun _ h1 => I.actfinkey h1) h
  | delfinkey name key => exact KeysInv.mapped (fun _ h1 => I.delfinkey h1) h
  | switchtosvnn ranking => exact KeysInv.mapped (fun _ h1 => I.switchtosvnn h1) h
  | updateElectedProducers ranking accepted => exact KeysInv.mapped (fun _ h1 => I.updateElectedProducers h1) h

theorem KeysInv.run (bls : Bls) (actions : List (FinalizerEnv × Action)) :
    KeysInv bls (run bls actions).1 (run bls actions).2 := by
  refine List.foldlRecOn (motive := fun r => KeysInv bls r.1 r.2) (b := (Finalizers.init, [])) actions (Finalizers.step bls)
    (KeysInv.init bls) (fun r I a _ => ?_)
  unfold Finalizers.step
  cases h : r.1.apply bls a.1 a.2 with
  | ok r' => exact I.apply h
  | error e => exact I

/-- **The tables of finalizer keys agree**, over every sequence of actions. -/
theorem run_keys_agree (bls : Bls) (actions : List (FinalizerEnv × Action)) :
    (∀ name f, (run bls actions).1.finalizers.lookup name = some f →
      f.finalizerKeyCount = (run bls actions).1.keysOf name ∧ 0 < f.finalizerKeyCount ∧
      ∃ k, (run bls actions).1.finalizerKeys.lookup f.activeKeyId = some k ∧ k.finalizerName = name ∧
        k.finalizerKeyBinary = f.activeKeyBinary) ∧
    (∀ name, (run bls actions).1.finalizers.lookup name = none → (run bls actions).1.keysOf name = 0) ∧
    (∀ id id' k k', (run bls actions).1.finalizerKeys.lookup id = some k →
      (run bls actions).1.finalizerKeys.lookup id' = some k' → id ≠ id' →
      bls.sha256 k.finalizerKeyBinary ≠ bls.sha256 k'.finalizerKeyBinary) ∧
    ((run bls actions).2.map (·.1)).Nodup ∧
    (∀ id k, (run bls actions).1.finalizerKeys.lookup id = some k → (id, k) ∈ (run bls actions).2) := by
  have I := KeysInv.run bls actions
  refine ⟨fun name f hf => ?_, fun name h => I.keysOf_eq_zero h, fun id id' k k' hk hk' hne heq => ?_, I.nodup, I.logged⟩
  · obtain ⟨k, hk, hkn, hb⟩ := I.active name f hf
    refine ⟨I.count name f hf, ?_, k, hk, hkn, hb⟩
    rw [I.count name f hf]
    exact count_pos hk (beq_iff_eq.2 hkn)
  · exact hne (I.hashes id id' k k' hk hk' heq)

end Finalizers
end TheChannel
