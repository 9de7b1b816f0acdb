import TheChannel.AuthorityCheckerSpec
/-!
# MoreKeys — a check with more keys

More keys, permissions or delay can make a check of `authority_checker` fail: the tally of an authority ends earlier, so a
permission is not cached where it was near enough to be evaluated (`more_keys_unsatisfied`). Where no chain of nested
permissions passes the depth limit they cannot.
-/
namespace TheChannel
namespace AuthorityChecker

/-! ## Calls -/

inductive CheckTarget
  | permission (p : PermissionLevel)
  | authority (auth : Authority)

/-- A call of `satisfied`, with its `override_provided_delay` if it has one. -/
structure CheckCall where
  target : CheckTarget
  overrideDelay : Option Nat

section Calls

variable (C : AuthorityChecker)

def satisfied (usedKeys : List Bool) (c : CheckCall) : Bool × List Bool :=
  let C := { C with providedDelay := c.overrideDelay.getD C.providedDelay }
  match c.target with
  | .permission p => C.satisfiedPermission usedKeys p
  | .authority auth => C.satisfiedAuthority usedKeys auth

def answers : List Bool → List CheckCall → List Bool
  | _, [] => []
  | usedKeys, c :: cs => (C.satisfied usedKeys c).1 :: answers (C.satisfied usedKeys c).2 cs

/-- **No chain of nested permissions under the target passes the depth limit.** -/
def Shallow : CheckTarget → Prop
  | .permission p => C.graph.ChainsWithin C.recursionDepthLimit p
  | .authority auth =>
    auth.validate = true ∧ ∀ a ∈ auth.accounts, C.graph.ChainsWithin C.recursionDepthLimit a.permission

end Calls

variable {C C' : AuthorityChecker} {auth : Authority}

structure Extends (C C' : AuthorityChecker) : Prop where
  graph : C'.graph = C.graph
  limit : C'.recursionDepthLimit = C.recursionDepthLimit
  keys : C.providedKeys ⊆ C'.providedKeys
  permissions : C.providedPermissions ⊆ C'.providedPermissions
  delay : C.providedDelay ≤ C'.providedDelay

theorem Extends.reached (h : Extends C C') {X : Set PermissionLevel}
    (hr : (C.rule auth).Reached X) : (C'.rule auth).Reached X := by
  refine Nat.le_trans hr (weightIn_map_le (fun m => ?_) (fun m hm => ?_) auth.unsorted)
  · rw [factor_weight, factor_weight]
  · cases m with
    | account a => exact hm
    | key k => exact decide_eq_true (h.keys (of_decide_eq_true hm))
    | wait w => exact decide_eq_true (Nat.le_trans (of_decide_eq_true hm) h.delay)

theorem Extends.granted (h : Extends C C') : C.grantedPermissions ⊆ C'.grantedPermissions := by
  refine granted_mono ?_ fun p r hr => ?_
  · rintro p (hp | hp)
    · exact .inl (h.permissions hp)
    · exact .inr (h.permissions hp)
  · obtain ⟨auth, ha, rfl⟩ := Option.map_eq_some_iff.1 hr
    exact ⟨C'.rule auth, by rw [h.graph, ha]; rfl, fun X hre => h.reached hre⟩

theorem Extends.derivable (h : Extends C C') (hd : C.Derivable auth) : C'.Derivable auth :=
  Nat.le_trans (h.reached hd) (weightIn_mono h.granted _)

theorem Extends.satisfied (h : Extends C C') {c : CheckCall} (hc : C.Shallow c.target) {usedKeys usedKeys' : List Bool}
    (hsat : (C.satisfied usedKeys c).1 = true) : (C'.satisfied usedKeys' c).1 = true := by
  have h' : Extends { C with providedDelay := c.overrideDelay.getD C.providedDelay }
      { C' with providedDelay := c.overrideDelay.getD C'.providedDelay } := by
    refine ⟨h.graph, h.limit, h.keys, h.permissions, ?_⟩
    cases c.overrideDelay with
    | none => exact h.delay
    | some d => exact Nat.le_refl d
  obtain ⟨target, overrideDelay⟩ := c
  cases target with
  | permission p =>
    have hp := h'.granted ((satisfiedPermission_iff (C := { C with providedDelay := overrideDelay.getD C.providedDelay }) hc).1 hsat)
    refine (satisfiedPermission_iff ?_).2 hp
    rw [h.graph, h.limit]
    exact hc
  | authority auth =>
    have hd := h'.derivable ((satisfiedAuthority_iff (C := { C with providedDelay := overrideDelay.getD C.providedDelay }) hc.1 hc.2).1 hsat)
    refine (satisfiedAuthority_iff hc.1 ?_).2 hd
    rw [h.graph, h.limit]
    exact hc.2

theorem Extends.answers_all (h : Extends C C') : ∀ {calls : List CheckCall} {usedKeys usedKeys' : List Bool},
    (∀ c ∈ calls, C.Shallow c.target) → (C.answers usedKeys calls).all id = true → (C'.answers usedKeys' calls).all id = true
  | [], _, _, _, _ => rfl
  | c :: calls, usedKeys, usedKeys', hsh, ha => by
    simp only [answers, List.all_cons, Bool.and_eq_true, id_eq] at ha ⊢
    exact ⟨h.satisfied (hsh c List.mem_cons_self) ha.1, h.answers_all (fun c' hc' => hsh c' (List.mem_cons_of_mem _ hc')) ha.2⟩

/-- **More keys, permissions or delay never turn a true answer into a false one**, in a sequence of calls on the checker,
where no chain of nested permissions passes the depth limit. -/
theorem answers_mono (C C' : AuthorityChecker) (h : Extends C C') (calls : List CheckCall)
    (hcalls : ∀ c ∈ calls, C.Shallow c.target) (usedKeys usedKeys' : List Bool) :
    List.Forall₂ (fun a a' => a = true → a' = true) (C.answers usedKeys calls) (C'.answers usedKeys' calls) := by
  induction calls generalizing usedKeys usedKeys' with
  | nil => exact .nil
  | cons c calls ih =>
    exact .cons (fun hsat => h.satisfied (hcalls c List.mem_cons_self) hsat)
      (ih (fun c' hc' => hcalls c' (List.mem_cons_of_mem _ hc')) _ _)

/-- Account 1 needs accounts 2 and 4. Account 2 needs key 9 or account 3, which needs key 7; account 4 needs account 5, which
needs account 3. -/
def sampleNested : PermissionGraph where
  authority p :=
    if p = ⟨1, 1⟩ then some ⟨2, [], [⟨⟨2, 1⟩, 1⟩, ⟨⟨4, 1⟩, 1⟩], []⟩
    else if p = ⟨2, 1⟩ then some ⟨1, [⟨9, 2⟩], [⟨⟨3, 1⟩, 1⟩], []⟩
    else if p = ⟨3, 1⟩ then some ⟨1, [⟨7, 1⟩], [], []⟩
    else if p = ⟨4, 1⟩ then some ⟨1, [], [⟨⟨5, 1⟩, 1⟩], []⟩
    else if p = ⟨5, 1⟩ then some ⟨1, [], [⟨⟨3, 1⟩, 1⟩], []⟩
    else none
  valid p auth h := by
    split_ifs at h <;> cases h <;> decide
  named p auth h := by
    split_ifs at h <;> subst_vars <;> decide

theorem within_sampleNested : sampleNested.Within 4 ⟨1, 1⟩ := by
  simp [PermissionGraph.Within, sampleNested]

theorem answers_mono_sampleNested : answers ⟨sampleNested, 4, [7], [], 0⟩ [false] [⟨.permission ⟨1, 1⟩, none⟩,
      ⟨.permission ⟨4, 1⟩, some 5⟩] = [true, true] ∧
    List.Forall₂ (fun a a' => a = true → a' = true)
      (answers ⟨sampleNested, 4, [7], [], 0⟩ [false] [⟨.permission ⟨1, 1⟩, none⟩, ⟨.permission ⟨4, 1⟩, some 5⟩])
      (answers ⟨sampleNested, 4, [7, 9], [], 0⟩ [false, false] [⟨.permission ⟨1, 1⟩, none⟩, ⟨.permission ⟨4, 1⟩, some 5⟩]) := by
  have hext : Extends ⟨sampleNested, 4, [7], [], 0⟩ ⟨sampleNested, 4, [7, 9], [], 0⟩ :=
    ⟨rfl, rfl, by simp, List.nil_subset _, Nat.le_refl 0⟩
  refine ⟨by decide, answers_mono _ _ hext [⟨.permission ⟨1, 1⟩, none⟩, ⟨.permission ⟨4, 1⟩, some 5⟩] (fun c hc => ?_)
    [false] [false, false]⟩
  rcases List.mem_pair.1 hc with rfl | rfl
  · exact within_sampleNested.chainsWithin
  · exact PermissionGraph.Within.chainsWithin (by simp [PermissionGraph.Within, sampleNested])

/-- **With key 9 the check fails.** Without it account 3 is evaluated under account 2 and then cached; with it account 2 does
not look at account 3, and under account 5 the depth limit is reached. -/
theorem more_keys_unsatisfied : answers ⟨sampleNested, 3, [7], [], 0⟩ [false] [⟨.permission ⟨1, 1⟩, none⟩] = [true] ∧
    answers ⟨sampleNested, 3, [7, 9], [], 0⟩ [false, false] [⟨.permission ⟨1, 1⟩, none⟩] = [false] := by decide

end AuthorityChecker
end TheChannel
