import TheChannel.AuthorityChecker
import TheChannel.LibThreshold
/-!
# AuthorityCheckerSpec — what the checker finds out

A permission is granted if it was provided or if its authority's threshold is reached by provided keys, waits within the
delay and granted permissions: the least fixed point of these rules over the permission graph. Whatever the graph, the
checker finds no more. Where no chain of nested permissions is longer than the depth limit, it finds all.
-/
namespace TheChannel
open List Option

/-! ## The order of a tally does not matter -/

theorem MetaPermission.emplace_perm (m : MetaPermission) : ∀ ms : List MetaPermission, (m.emplace ms).Perm (m :: ms)
  | [] => List.Perm.refl _
  | x :: xs => by
    unfold emplace
    split
    · exact List.Perm.refl _
    · exact ((emplace_perm m xs).cons x).trans (List.Perm.swap m x xs)

theorem foldl_emplace_perm : ∀ (ms acc : List MetaPermission), (ms.foldl (fun ms m => m.emplace ms) acc).Perm (ms ++ acc)
  | [], acc => List.Perm.refl _
  | m :: ms, acc => by
    refine (foldl_emplace_perm ms (m.emplace acc)).trans ?_
    exact ((m.emplace_perm acc).append_left ms).trans perm_middle

namespace Authority
variable {auth : Authority}

theorem metaPermissions_perm (auth : Authority) : auth.metaPermissions.Perm auth.unsorted := by
  have h := foldl_emplace_perm auth.unsorted []
  rwa [append_nil] at h

theorem threshold_pos (h : auth.validate = true) : 0 < auth.threshold := by
  unfold validate at h
  split at h
  · cases h
  · split at h
    · cases h
    · rename_i hz
      exact Nat.pos_of_ne_zero fun heq => hz (beq_iff_eq.2 heq)

theorem sum_weight_le : ∀ ms : List MetaPermission, (ms.map (·.weight.val)).sum ≤ ms.length * (2 ^ 16 - 1)
  | [] => le_rfl
  | m :: ms => by
    have ih := sum_weight_le ms
    have hm := m.weight.isLt
    rw [map_cons, sum_cons, length_cons, Nat.add_mul]
    omega

theorem sum_weight_lt (h : auth.validate = true) : (auth.metaPermissions.map (·.weight.val)).sum < 2 ^ 32 := by
  have hle := sum_weight_le auth.metaPermissions
  have hlen : auth.metaPermissions.length ≤ 2 ^ 16 := by
    rw [(metaPermissions_perm auth).length_eq]
    unfold validate at h
    split at h
    · cases h
    · unfold unsorted
      simp only [length_append, length_map]
      omega
  have hmul := Nat.mul_le_mul_right (2 ^ 16 - 1) hlen
  omega

end Authority

namespace AuthorityChecker
variable (C : AuthorityChecker)

/-! ## The rules -/

def factor : MetaPermission → Factor PermissionLevel
  | .account a => ⟨a.weight, .inl a.permission⟩
  | .key k => ⟨k.weight, .inr (decide (k.key ∈ C.providedKeys))⟩
  | .wait w => ⟨w.weight, .inr (decide (w.waitSec * 1000000 ≤ C.providedDelay))⟩

def rule (auth : Authority) : ThresholdRule PermissionLevel := ⟨auth.threshold, auth.unsorted.map C.factor⟩

def provided : Set PermissionLevel := { p | p ∈ C.providedPermissions ∨ ⟨p.actor, 0⟩ ∈ C.providedPermissions }

def grantedPermissions : Set PermissionLevel := granted (fun p => (C.graph.authority p).map C.rule) C.provided

def Derivable (auth : Authority) : Prop := (C.rule auth).Reached C.grantedPermissions

variable {C}

theorem mem_grantedPermissions {p : PermissionLevel} : p ∈ C.grantedPermissions ↔
    p ∈ C.provided ∨ ∃ auth, C.graph.authority p = some auth ∧ C.Derivable auth := by
  unfold grantedPermissions
  rw [mem_granted_iff]
  refine or_congr_right ⟨?_, ?_⟩
  · rintro ⟨r, hr, hre⟩
    obtain ⟨auth, ha, rfl⟩ := map_eq_some_iff.1 hr
    exact ⟨auth, ha, hre⟩
  · rintro ⟨auth, ha, hre⟩
    exact ⟨C.rule auth, by rw [ha]; rfl, hre⟩

theorem reached_iff {auth : Authority} {X : Set PermissionLevel} :
    (C.rule auth).Reached X ↔ auth.threshold ≤ weightIn X (auth.metaPermissions.map C.factor) := by
  rw [weightIn_perm ((auth.metaPermissions_perm).map C.factor)]
  rfl

/-! ## Tallies -/

section Tally

variable {visit : MetaPermission → CheckerState → Bool × CheckerState} {threshold : Nat} {X Y : Set PermissionLevel}
  {I : CheckerState → Prop}

theorem factor_weight (m : MetaPermission) : (C.factor m).weight = m.weight.val := by cases m <;> rfl

theorem tally_between : ∀ {ms} {total : Nat} {s},
    (∀ m ∈ ms, ∀ s, I s → I (visit m s).2 ∧ ((visit m s).1 = true → (C.factor m).Holds X) ∧
      ((C.factor m).Holds Y → (visit m s).1 = true)) → I s →
    total + (ms.map (·.weight.val)).sum < 2 ^ 32 → total < threshold →
    I (tally visit threshold ms total s).2 ∧
      ((tally visit threshold ms total s).1 = true → threshold ≤ total + weightIn X (ms.map C.factor)) ∧
      (threshold ≤ total + weightIn Y (ms.map C.factor) → (tally visit threshold ms total s).1 = true)
  | [], total, _, _, hs, _, hlt => by
    have hz : weightIn Y (([] : List MetaPermission).map C.factor) = 0 := rfl
    exact ⟨hs, fun h => (by cases h), fun h => (by omega)⟩
  | m :: ms, total, s, hvi, hs, hfit, hlt => by
    obtain ⟨hs', hX, hY⟩ := hvi m (mem_cons_self ..) s hs
    rw [map_cons, sum_cons] at hfit
    obtain ⟨total', htot', hfit', heq⟩ : ∃ total', (if (visit m s).1 then (total + m.weight) % 2 ^ 32 else total) = total' ∧
        total' + (ms.map (·.weight.val)).sum < 2 ^ 32 ∧ total' = total + if (visit m s).1 then m.weight.val else 0 := by
      refine ⟨_, rfl, ?_⟩
      split
      · rw [Nat.mod_eq_of_lt (by omega)]
        exact ⟨by omega, rfl⟩
      · exact ⟨by omega, rfl⟩
    have hle : total' + weightIn X (ms.map C.factor) ≤ total + weightIn X ((m :: ms).map C.factor) := by
      rw [heq, map_cons]
      by_cases hh : (C.factor m).Holds X
      · rw [weightIn_cons_pos hh, factor_weight]
        split <;> omega
      · rw [weightIn_cons_neg hh, if_neg (fun hv => hh (hX hv)), Nat.add_zero]
    have hge : total + weightIn Y ((m :: ms).map C.factor) ≤ total' + weightIn Y (ms.map C.factor) := by
      rw [heq, map_cons]
      by_cases hh : (C.factor m).Holds Y
      · rw [weightIn_cons_pos hh, factor_weight, if_pos (hY hh), Nat.add_assoc]
      · rw [weightIn_cons_neg hh]
        omega
    unfold tally
    simp only [htot']
    by_cases hr : threshold ≤ total'
    · rw [if_pos hr]
      exact ⟨hs', fun _ => (by omega), fun _ => rfl⟩
    · rw [if_neg hr]
      obtain ⟨h1, h2, h3⟩ := tally_between (fun x hx => hvi x (mem_cons_of_mem _ hx)) hs' hfit' (by omega)
      exact ⟨h1, fun h => (by have := h2 h; omega), fun h => h3 (by omega)⟩

end Tally

/-! ## One authority -/

section Check

variable {visitPermission : PermissionLevel → CheckerState → Bool × CheckerState} {auth : Authority}
  {I : CheckerState → Prop} {s : CheckerState} {m : MetaPermission}

theorem visit_iff {X : Set PermissionLevel} (hm : ∀ a, m ≠ .account a) (s : CheckerState) :
    (C.visit visitPermission m s).1 = true ↔ (C.factor m).Holds X := by
  cases m with
  | account a => exact absurd rfl (hm a)
  | key k =>
    show (C.visit visitPermission (.key k) s).1 = true ↔ decide (k.key ∈ C.providedKeys) = true
    rw [decide_eq_true_iff, ← isSome_idxOf?]
    simp only [visit]
    cases C.providedKeys.idxOf? k.key <;> simp
  | wait w => exact Iff.rfl

theorem visit_cache (hm : ∀ a, m ≠ .account a) (s : CheckerState) :
    (C.visit visitPermission m s).2.cache = s.cache := by
  cases m with
  | account a => exact absurd rfl (hm a)
  | key k =>
    simp only [visit]
    cases C.providedKeys.idxOf? k.key <;> rfl
  | wait w => rfl

theorem mem_metaPermissions_account {a : PermissionLevelWeight} (h : MetaPermission.account a ∈ auth.metaPermissions) :
    a ∈ auth.accounts := by
  have h := (auth.metaPermissions_perm.mem_iff).1 h
  unfold Authority.unsorted at h
  simpa using h

def OfCache (I : CheckerState → Prop) : Prop := ∀ s s' : CheckerState, s'.cache = s.cache → I s → I s'

theorem checkAuthority_between {X Y : Set PermissionLevel} (hI : OfCache I) (hval : auth.validate = true)
    (hv : ∀ a ∈ auth.accounts, ∀ s, I s → I (visitPermission a.permission s).2 ∧
      ((visitPermission a.permission s).1 = true → a.permission ∈ X) ∧
      (a.permission ∈ Y → (visitPermission a.permission s).1 = true)) (hs : I s) :
    I (C.checkAuthority visitPermission auth s).2 ∧
      ((C.checkAuthority visitPermission auth s).1 = true → (C.rule auth).Reached X) ∧
      ((C.rule auth).Reached Y → (C.checkAuthority visitPermission auth s).1 = true) := by
  have hall : ∀ m ∈ auth.metaPermissions, ∀ s, I s → I (C.visit visitPermission m s).2 ∧
      ((C.visit visitPermission m s).1 = true → (C.factor m).Holds X) ∧
      ((C.factor m).Holds Y → (C.visit visitPermission m s).1 = true) := by
    intro m hm s hs
    cases m with
    | account a => exact hv a (mem_metaPermissions_account hm) s hs
    | key k => exact ⟨hI s _ (visit_cache (by simp) s) hs, (visit_iff (by simp) s).1, (visit_iff (by simp) s).2⟩
    | wait w => exact ⟨hI s _ (visit_cache (by simp) s) hs, (visit_iff (by simp) s).1, (visit_iff (by simp) s).2⟩
  have hfit : 0 + (auth.metaPermissions.map (·.weight.val)).sum < 2 ^ 32 := by
    rw [Nat.zero_add]
    exact auth.sum_weight_lt hval
  have ht := tally_between hall hs hfit (auth.threshold_pos hval)
  rw [Nat.zero_add, Nat.zero_add, ← reached_iff, ← reached_iff] at ht
  unfold checkAuthority
  simp only
  split
  · exact ht
  · rename_i hf
    exact ⟨hI (tally (C.visit visitPermission) auth.threshold auth.metaPermissions 0 s).2 _ rfl ht.1,
      fun h => (by cases h), fun h => absurd (ht.2.2 h) hf⟩

end Check

/-! ## Soundness -/

/-- **What the cache says is satisfied is granted**, and an empty name is there only as provided. -/
structure Sound (C : AuthorityChecker) (s : CheckerState) : Prop where
  satisfied : ∀ p, s.cache p = some .satisfied → p ∈ C.grantedPermissions
  wildcard : ∀ a status, s.cache ⟨a, 0⟩ = some status → status = .satisfied ∧ ⟨a, 0⟩ ∈ C.providedPermissions

section Soundness

variable {s : CheckerState} {p : PermissionLevel}

theorem Sound.ofCache : OfCache C.Sound := fun _ _ h hs =>
  ⟨fun p hp => hs.satisfied p (h ▸ hp), fun a st ha => hs.wildcard a st (h ▸ ha)⟩

theorem Sound.status (hs : C.Sound s) (h : permissionStatusInCache s.cache p = some .satisfied) :
    p ∈ C.grantedPermissions := by
  rcases or_eq_some_iff.1 h with h | ⟨-, h⟩
  · exact hs.satisfied p h
  · exact mem_grantedPermissions.2 (.inl (.inr (hs.wildcard _ _ h).2))

theorem Sound.cached (hs : C.Sound s) (status : CacheStatus) (hn : p.permission ≠ 0)
    (h : status = .satisfied → p ∈ C.grantedPermissions) : C.Sound (cached s p status) := by
  constructor
  · intro q hq
    by_cases hqp : q = p
    · subst hqp
      rw [show (AuthorityChecker.cached s q status).cache q = some status from Function.update_self ..] at hq
      exact h (Option.some.inj hq)
    · rw [show (AuthorityChecker.cached s p status).cache q = s.cache q from Function.update_of_ne hqp ..] at hq
      exact hs.satisfied q hq
  · intro a st ha
    have hne : (⟨a, 0⟩ : PermissionLevel) ≠ p := fun heq => hn (heq ▸ rfl)
    rw [show (AuthorityChecker.cached s p status).cache ⟨a, 0⟩ = s.cache ⟨a, 0⟩ from Function.update_of_ne hne ..] at ha
    exact hs.wildcard a st ha

theorem visitPermission_sound {evaluate : Option (Authority → CheckerState → Bool × CheckerState)}
    (he : ∀ e, evaluate = some e → ∀ auth s, auth.validate = true → C.Sound s →
      C.Sound (e auth s).2 ∧ ((e auth s).1 = true → C.Derivable auth)) (hs : C.Sound s) :
    C.Sound (C.visitPermission evaluate p s).2 ∧ ((C.visitPermission evaluate p s).1 = true → p ∈ C.grantedPermissions) := by
  unfold visitPermission
  split
  · rename_i status _ _ hst
    refine ⟨hs, fun h => hs.status (p := p) ?_⟩
    rw [hst, eq_of_beq h]
  · rename_i e auth _ ha
    have hn := C.graph.named p auth ha
    have hca := hs.cached (p := p) .beingEvaluated hn fun h => by cases h
    obtain ⟨h1, h2⟩ := he e rfl auth _ (C.graph.valid p auth ha) hca
    have hg : (e auth (cached s p .beingEvaluated)).1 = true → p ∈ C.grantedPermissions := fun h =>
      mem_grantedPermissions.2 (.inr ⟨auth, ha, h2 h⟩)
    refine ⟨h1.cached _ hn (fun h => hg ?_), hg⟩
    by_contra hcon
    rw [if_neg hcon] at h
    cases h
  · exact ⟨hs, fun h => by cases h⟩

theorem satisfiedAt_eq (n : Nat) : C.satisfiedAt n = C.checkAuthority (C.visitAt n) := by
  cases n <;> rfl

theorem checkAuthority_sound {n : Nat} {auth : Authority} (hval : auth.validate = true)
    (hv : ∀ p s, C.Sound s → C.Sound (C.visitAt n p s).2 ∧ ((C.visitAt n p s).1 = true → p ∈ C.grantedPermissions))
    (hs : C.Sound s) :
    C.Sound (C.satisfiedAt n auth s).2 ∧ ((C.satisfiedAt n auth s).1 = true → C.Derivable auth) := by
  rw [satisfiedAt_eq]
  obtain ⟨h1, h2, -⟩ := checkAuthority_between (Y := ∅) Sound.ofCache hval
    (fun a _ s hs => ⟨(hv _ s hs).1, (hv _ s hs).2, fun h => h.elim⟩) hs
  exact ⟨h1, h2⟩

theorem visitAt_sound : ∀ (n : Nat) {p} {s}, C.Sound s →
    C.Sound (C.visitAt n p s).2 ∧ ((C.visitAt n p s).1 = true → p ∈ C.grantedPermissions)
  | 0, _, _, hs => visitPermission_sound (fun _ h => by cases h) hs
  | n + 1, _, _, hs => visitPermission_sound (fun _ h _ _ hval hs =>
      Option.some.inj h ▸ checkAuthority_sound hval (fun _ _ => visitAt_sound n) hs) hs

theorem Sound.init (C : AuthorityChecker) (usedKeys : List Bool) : C.Sound ⟨C.initializePermissionCache, usedKeys⟩ := by
  have hmem : ∀ p status, C.initializePermissionCache p = some status →
      status = .satisfied ∧ p ∈ C.providedPermissions := by
    intro p status h
    unfold initializePermissionCache at h
    split at h
    · cases h
      exact ⟨rfl, by assumption⟩
    · cases h
  exact ⟨fun p hp => mem_grantedPermissions.2 (.inl (.inl (hmem p _ hp).2)), fun a st ha => hmem _ st ha⟩

end Soundness
end AuthorityChecker

/-! ## Nested permissions -/

namespace PermissionGraph
variable (g : PermissionGraph) {n : Nat} {p q : PermissionLevel}

def Mentions (p q : PermissionLevel) : Prop := ∃ auth, g.authority p = some auth ∧ ∃ a ∈ auth.accounts, a.permission = q

def Chain (l : List PermissionLevel) : Prop := (∀ p ∈ l, (g.authority p).isSome = true) ∧ l.IsChain g.Mentions

/-- **No chain that begins with the permission is longer than `n`.** -/
def ChainsWithin (n : Nat) (p : PermissionLevel) : Prop := ∀ l, g.Chain (p :: l) → (p :: l).length ≤ n

def Within : Nat → PermissionLevel → Prop
  | 0, p => g.authority p = none
  | n + 1, p => ∀ auth, g.authority p = some auth → ∀ a ∈ auth.accounts, Within n a.permission

variable {g}

theorem ChainsWithin.within : ∀ {n : Nat} {p}, g.ChainsWithin n p → g.Within n p
  | 0, p, h => by
    by_contra hne
    have hs : (g.authority p).isSome = true := isSome_iff_ne_none.2 hne
    have hlen := h [] ⟨fun q hq => by rw [mem_singleton.1 hq]; exact hs, .singleton p⟩
    exact absurd hlen (Nat.not_succ_le_zero _)
  | n + 1, p, h => by
    intro auth hau a ha
    refine ChainsWithin.within fun l hl => ?_
    have hco : g.Chain (p :: a.permission :: l) := by
      refine ⟨fun q hq => ?_, isChain_cons_cons.2 ⟨⟨auth, hau, a, ha, rfl⟩, hl.2⟩⟩
      rcases mem_cons.1 hq with rfl | hq
      · rw [hau]
        rfl
      · exact hl.1 q hq
    exact Nat.le_of_succ_le_succ (h _ hco)

theorem Within.chainsWithin : ∀ {n : Nat} {p}, g.Within n p → g.ChainsWithin n p
  | 0, p, h, _, hc => by
    have hs := hc.1 p mem_cons_self
    rw [h] at hs
    cases hs
  | n + 1, _, _, [], _ => Nat.succ_le_succ (Nat.zero_le n)
  | n + 1, p, h, q :: l, hc => by
    obtain ⟨⟨auth, hau, a, ha, rfl⟩, hl⟩ := isChain_cons_cons.1 hc.2
    exact Nat.succ_le_succ (Within.chainsWithin (h auth hau a ha) l ⟨fun r hr => hc.1 r (mem_cons_of_mem _ hr), hl⟩)

theorem Within.mentions (h : g.Within n p) (hm : g.Mentions p q) : ∃ m, m < n ∧ g.Within m q := by
  obtain ⟨auth, hau, a, ha, rfl⟩ := hm
  cases n with
  | zero =>
    rw [show g.authority p = none from h] at hau
    cases hau
  | succ m => exact ⟨m, Nat.lt_succ_self m, h auth hau a ha⟩

theorem Within.reach (h : g.Within n p) (hr : Relation.ReflTransGen g.Mentions p q) : ∃ m, m ≤ n ∧ g.Within m q := by
  induction hr with
  | refl => exact ⟨n, Nat.le_refl n, h⟩
  | tail _ hm ih =>
    obtain ⟨m, hmn, hw⟩ := ih
    obtain ⟨k, hk, hw'⟩ := hw.mentions hm
    exact ⟨k, by omega, hw'⟩

theorem Within.acyclic : ∀ {n : Nat}, g.Within n p → ¬ Relation.TransGen g.Mentions p p := by
  intro n
  induction n using Nat.strong_induction_on with
  | _ n ih =>
    intro h hcy
    obtain ⟨q, hpq, hqp⟩ := Relation.TransGen.head'_iff.1 hcy
    obtain ⟨m, hm, hq⟩ := h.mentions hpq
    obtain ⟨k, hk, hp⟩ := hq.reach hqp
    exact ih k (by omega) hp hcy

end PermissionGraph

namespace AuthorityChecker

/-! ## Completeness -/

/-- **The cache is right**, but for the permissions that are being evaluated. -/
structure Exact (C : AuthorityChecker) (B : Set PermissionLevel) (s : CheckerState) : Prop where
  sound : C.Sound s
  provided : ∀ p ∈ C.providedPermissions, s.cache p = some .satisfied
  unsatisfied : ∀ p, s.cache p = some .unsatisfied → p ∉ C.grantedPermissions
  evaluating : ∀ p, s.cache p = some .beingEvaluated → p ∈ B

section Completeness

variable {C : AuthorityChecker} {B : Set PermissionLevel} {s : CheckerState} {p : PermissionLevel} {auth : Authority}
  {usedKeys : List Bool}

theorem Exact.ofCache : OfCache (C.Exact B) := fun _ _ h hs =>
  ⟨Sound.ofCache _ _ h hs.sound, fun p hp => h ▸ hs.provided p hp, fun p hp => hs.unsatisfied p (h ▸ hp),
    fun p hp => hs.evaluating p (h ▸ hp)⟩

theorem Exact.not_provided (hs : C.Exact B s) (h : permissionStatusInCache s.cache p = none) : p ∉ C.provided := by
  obtain ⟨h1, h2⟩ := or_eq_none_iff.1 h
  rintro (hp | hp)
  · rw [hs.provided p hp] at h1
    cases h1
  · rw [hs.provided _ hp] at h2
    cases h2

theorem Exact.status (hs : C.Exact B s) (hB : p ∉ B) {status : CacheStatus}
    (h : permissionStatusInCache s.cache p = some status) : status = .satisfied ↔ p ∈ C.grantedPermissions := by
  constructor
  · intro hst
    exact hs.sound.status (p := p) (hst ▸ h)
  · intro hp
    rcases or_eq_some_iff.1 h with h | ⟨-, h⟩
    · cases status with
      | satisfied => rfl
      | unsatisfied => exact absurd hp (hs.unsatisfied p h)
      | beingEvaluated => exact absurd (hs.evaluating p h) hB
    · exact (hs.sound.wildcard _ _ h).1

theorem Exact.cached {B' : Set PermissionLevel} (hs : C.Exact B s) (status : CacheStatus) (hn : p.permission ≠ 0)
    (hp : p ∉ C.providedPermissions) (hsat : status = .satisfied → p ∈ C.grantedPermissions)
    (hu : status = .unsatisfied → p ∉ C.grantedPermissions) (he : status = .beingEvaluated → p ∈ B')
    (hB : ∀ q, q ≠ p → q ∈ B → q ∈ B') : C.Exact B' (cached s p status) := by
  have hse : (AuthorityChecker.cached s p status).cache p = some status := Function.update_self ..
  have hot : ∀ q, q ≠ p → (AuthorityChecker.cached s p status).cache q = s.cache q := fun q hq =>
    Function.update_of_ne hq ..
  refine ⟨hs.sound.cached status hn hsat, fun q hq => ?_, fun q hq => ?_, fun q hq => ?_⟩
  · rw [hot q (fun heq => hp (heq ▸ hq))]
    exact hs.provided q hq
  · by_cases hqp : q = p
    · subst hqp
      rw [hse] at hq
      exact hu (Option.some.inj hq)
    · rw [hot q hqp] at hq
      exact hs.unsatisfied q hq
  · by_cases hqp : q = p
    · subst hqp
      rw [hse] at hq
      exact he (Option.some.inj hq)
    · rw [hot q hqp] at hq
      exact hB q hqp (hs.evaluating q hq)

theorem Exact.begin (hs : C.Exact B s) (ha : C.graph.authority p = some auth)
    (hst : permissionStatusInCache s.cache p = none) :
    C.Exact (insert p B) (AuthorityChecker.cached s p .beingEvaluated) :=
  hs.cached _ (C.graph.named p auth ha) (fun hp => hs.not_provided hst (.inl hp)) (fun h => by cases h)
    (fun h => by cases h) (fun _ => .inl rfl) (fun _ _ hq => .inr hq)

theorem visitPermission_exact {ev : Option (Authority → CheckerState → Bool × CheckerState)}
    (hne : ev = none → C.graph.authority p = none)
    (hev : ∀ e, ev = some e → ∀ auth, C.graph.authority p = some auth → ∀ s, C.Exact (insert p B) s →
      C.Exact (insert p B) (e auth s).2 ∧ ((e auth s).1 = true ↔ C.Derivable auth))
    (hB : p ∉ B) (hs : C.Exact B s) :
    C.Exact B (C.visitPermission ev p s).2 ∧
      ((C.visitPermission ev p s).1 = true ↔ p ∈ C.grantedPermissions) := by
  have hso {auth} (ha : C.graph.authority p = some auth) : ∃ e, ev = some e := by
    refine ne_none_iff_exists'.1 fun h => ?_
    rw [hne h] at ha
    cases ha
  unfold visitPermission
  split
  · rename_i status _ _ hst
    exact ⟨hs, beq_iff_eq.trans (hs.status hB hst)⟩
  · rename_i e auth hst ha
    have hn := C.graph.named p auth ha
    have hpr := hs.not_provided hst
    have hl : p ∉ C.providedPermissions := fun hp => hpr (.inl hp)
    obtain ⟨h1, h2⟩ := hev e rfl auth ha _ (hs.begin ha hst)
    have hg : (e auth (cached s p .beingEvaluated)).1 = true ↔ p ∈ C.grantedPermissions := by
      rw [h2, mem_grantedPermissions]
      refine ⟨fun h => .inr ⟨auth, ha, h⟩, fun h => ?_⟩
      obtain ⟨auth', ha', hd⟩ := h.resolve_left hpr
      rw [ha] at ha'
      exact Option.some.inj ha' ▸ hd
    refine ⟨h1.cached _ hn hl (fun h => ?_) (fun h => ?_) (fun h => ?_) (fun q hq hqB => hqB.resolve_left hq), hg⟩
    · by_cases hr : (e auth (cached s p .beingEvaluated)).1 = true
      · exact hg.1 hr
      · rw [if_neg hr] at h
        cases h
    · by_cases hr : (e auth (cached s p .beingEvaluated)).1 = true
      · rw [if_pos hr] at h
        cases h
      · exact fun hp => hr (hg.2 hp)
    · split at h <;> cases h
  · rename_i hst hno
    refine ⟨hs, fun h => absurd h Bool.false_ne_true, fun hp => ?_⟩
    obtain ⟨auth, ha, -⟩ := (mem_grantedPermissions.1 hp).resolve_left (hs.not_provided hst)
    obtain ⟨e, he⟩ := hso ha
    exact absurd ha (hno e auth he)

def Avoids (C : AuthorityChecker) (B : Set PermissionLevel) (p : PermissionLevel) : Prop :=
  ∀ q, Relation.ReflTransGen C.graph.Mentions p q → q ∉ B

theorem Avoids.insert {n : Nat} {q : PermissionLevel} (ha : C.Avoids B p) (hw : C.graph.Within n p)
    (hpq : C.graph.Mentions p q) : C.Avoids (insert p B) q := by
  intro r hr hrB
  rcases hrB with rfl | hrB
  · -- the permission would be under itself
    exact hw.acyclic (Relation.TransGen.head' hpq hr)
  · exact ha r (Relation.ReflTransGen.head hpq hr) hrB

theorem checkAuthority_exact {n : Nat} (hval : auth.validate = true)
    (hv : ∀ a ∈ auth.accounts, ∀ s, C.Exact B s → C.Exact B (C.visitAt n a.permission s).2 ∧
      ((C.visitAt n a.permission s).1 = true ↔ a.permission ∈ C.grantedPermissions)) (hs : C.Exact B s) :
    C.Exact B (C.satisfiedAt n auth s).2 ∧ ((C.satisfiedAt n auth s).1 = true ↔ C.Derivable auth) := by
  rw [satisfiedAt_eq]
  obtain ⟨h1, h2, h3⟩ := checkAuthority_between Exact.ofCache hval
    (fun a ha s hs => ⟨(hv a ha s hs).1, (hv a ha s hs).2.1, (hv a ha s hs).2.2⟩) hs
  exact ⟨h1, h2, h3⟩

theorem visitAt_exact : ∀ (n : Nat) {B} {p} {s},
    C.graph.Within n p → C.Avoids B p → C.Exact B s →
    C.Exact B (C.visitAt n p s).2 ∧ ((C.visitAt n p s).1 = true ↔ p ∈ C.grantedPermissions)
  | 0, B, p, s, hw, ha, hs =>
    visitPermission_exact (fun _ => hw) (fun _ h => by cases h) (ha p .refl) hs
  | n + 1, B, p, s, hw, ha, hs => by
    refine visitPermission_exact (fun h => by cases h) (fun e he auth hau s hs => ?_) (ha p .refl) hs
    cases he
    refine checkAuthority_exact (C.graph.valid p auth hau) (fun a hacc s hs => ?_) hs
    exact visitAt_exact n (hw auth hau a hacc) (ha.insert hw ⟨auth, hau, a, hacc, rfl⟩) hs

theorem Exact.init (C : AuthorityChecker) (usedKeys : List Bool) : C.Exact ∅ ⟨C.initializePermissionCache, usedKeys⟩ := by
  have hi : ∀ p status, C.initializePermissionCache p = some status → status = .satisfied := by
    intro p status h
    unfold initializePermissionCache at h
    split at h
    · cases h
      rfl
    · cases h
  refine ⟨Sound.init C usedKeys, fun p hp => if_pos hp, fun p hp => ?_, fun p hp => ?_⟩
  · cases hi p _ hp
  · cases hi p _ hp

theorem avoids_empty (p : PermissionLevel) : C.Avoids ∅ p := fun _ _ hq => hq

theorem satisfiedPermission_iff (hch : C.graph.ChainsWithin C.recursionDepthLimit p) :
    (C.satisfiedPermission usedKeys p).1 = true ↔ p ∈ C.grantedPermissions :=
  (visitAt_exact _ hch.within (avoids_empty p) (Exact.init C usedKeys)).2

theorem satisfiedAuthority_iff (hval : auth.validate = true)
    (hch : ∀ a ∈ auth.accounts, C.graph.ChainsWithin C.recursionDepthLimit a.permission) :
    (C.satisfiedAuthority usedKeys auth).1 = true ↔ C.Derivable auth :=
  (checkAuthority_exact hval (fun a ha _ hs => visitAt_exact _ (hch a ha).within (avoids_empty _) hs)
    (Exact.init C usedKeys)).2

end Completeness

/-! ## The checker -/

/-- **The checker is sound, and complete within the depth limit.** `satisfied` returns true only for a permission that is
granted and an authority that is derivable, in every graph; and it does return true for them where no chain of nested
permissions that begins with the permission, or with an account of the authority, is longer than the recursion limit. -/
theorem satisfied_sound_complete (C : AuthorityChecker) (usedKeys : List Bool) :
    (∀ p, ((C.satisfiedPermission usedKeys p).1 = true → p ∈ C.grantedPermissions) ∧
      (C.graph.ChainsWithin C.recursionDepthLimit p → p ∈ C.grantedPermissions →
        (C.satisfiedPermission usedKeys p).1 = true)) ∧
    (∀ auth : Authority, auth.validate = true →
      ((C.satisfiedAuthority usedKeys auth).1 = true → C.Derivable auth) ∧
      ((∀ a ∈ auth.accounts, C.graph.ChainsWithin C.recursionDepthLimit a.permission) → C.Derivable auth →
        (C.satisfiedAuthority usedKeys auth).1 = true)) := by
  refine ⟨fun p => ⟨?_, fun hch hp => (satisfiedPermission_iff hch).2 hp⟩,
    fun auth hval => ⟨?_, fun hch hd => (satisfiedAuthority_iff hval hch).2 hd⟩⟩
  · exact (visitAt_sound _ (Sound.init C usedKeys)).2
  · exact (checkAuthority_sound hval (fun _ _ => visitAt_sound _) (Sound.init C usedKeys)).2

end AuthorityChecker
end TheChannel
