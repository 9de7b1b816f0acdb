import TheChannel.BlockPaySolvency
/-!
# BlockPaySelection — who gets what is sent to `ra.bpay`

The loop of `on_transfer` stays at the first producer that is not active, and counts its way past a schedule size of 0. It selects
the first active producers exactly if it meets no inactive one among the first `last_producer_schedule_size` rows, and then the
transfer is booked (`transfer_booked`). The index puts an inactive producer with votes behind all active ones, so the loop does not
end if it reads on to it, or if the inactive one has no votes and stands among the active ones without votes
(`loop_stays_at_inactive`).
-/
namespace TheChannel
namespace BlockPay

open RowMap Asset List

variable {core : Symbol} {env : PayEnv} {s : BlockPay} {reward : Asset} {count : Nat} {ps : List (AccountName × ProducerInfo)}

def activeOwners (ps : List (AccountName × ProducerInfo)) : List AccountName := (ps.filter (·.2.isActive)).map (·.1)

/-- The rows the loop reads until it has `count` producers are active, and there are none if it is to have none. -/
def Selectable (count : Nat) (ps : List (AccountName × ProducerInfo)) : Prop :=
  (∀ e ∈ ps.take count, e.2.isActive = true) ∧ (count = 0 → ps = [])

theorem activeOwners_take (h : ∀ e ∈ ps.take count, e.2.isActive = true) :
    (activeOwners ps).take count = (ps.take count).map (·.1) := by
  induction ps generalizing count with
  | nil => simp [activeOwners]
  | cons e ps ih =>
    cases count with
    | zero => simp
    | succ count =>
      obtain ⟨he, h⟩ := forall_mem_cons.1 h
      simp [activeOwners, he, ← ih h]

/-- How many rows the loop reads: a schedule size that is passed is never reached. -/
def needed (count : Nat) (ps : List (AccountName × ProducerInfo)) (top : List AccountName) : Nat :=
  if top.length < count then count - top.length else ps.length

theorem topProducers_some : ∀ {ps top r}, topProducers count ps top = some r ↔
    (∀ e ∈ ps.take (needed count ps top), e.2.isActive = true) ∧ top ++ (ps.take (needed count ps top)).map (·.1) = r
  | [], top, r => by simp [topProducers]
  | (owner, info) :: ps, top, r => by
    have hn : needed count ((owner, info) :: ps) top =
        (if (top ++ [owner]).length = count then 0 else needed count ps (top ++ [owner])) + 1 := by
      simp only [needed, length_append, length_cons, length_nil]
      split_ifs <;> omega
    rw [hn, take_succ_cons, forall_mem_cons, map_cons]
    unfold topProducers
    by_cases ha : info.isActive = true
    · by_cases hc : (top ++ [owner]).length = count
      · simp [ha, hc]
      · rw [if_pos ha, if_neg (by simpa using hc), topProducers_some, if_neg hc]
        simp [ha]
    · simp [ha]

theorem topProducers_iff : topProducers count ps [] = some ((activeOwners ps).take count) ↔ Selectable count ps := by
  rw [topProducers_some]
  cases count with
  | zero => cases ps <;> simp [needed, Selectable]
  | succ n => exact ⟨fun h => ⟨h.1, by simp⟩, fun h => ⟨h.1, (activeOwners_take h.1).symm⟩⟩

theorem distribute_returns (hsym : reward.symbol = core) (hpos : 0 ≤ reward.amount) : ∀ {top rewards}, RewardsFit core rewards →
    total (fun _ q => q.amount) rewards + top.length * reward.amount ≤ maxAmount →
    ∃ rewards', distribute reward top rewards = .ok rewards'
  | [], rewards, _, _ => ⟨rewards, rfl⟩
  | producer :: top, rewards, F, hmax => by
    have hrest : 0 ≤ top.length * reward.amount := Int.mul_nonneg (Int.natCast_nonneg _) hpos
    rw [length_cons, Nat.cast_add, Int.add_mul, Nat.cast_one, Int.one_mul] at hmax
    obtain ⟨rewards1, hadd⟩ : ∃ rewards1, addReward reward rewards producer = .ok rewards1 := by
      unfold addReward
      cases hrow : rewards.lookup producer with
      | none => exact ⟨_, rfl⟩
      | some q =>
        obtain ⟨hq, hq0⟩ := F producer q hrow
        have hle := weigh_le_total (t := rewards) (w := fun _ q => q.amount) (fun o q hq => (F o q hq).2) producer
        rw [hrow, weigh_some] at hle
        have hfit := (add_ok_iff (a := q) (b := reward)).2 ⟨hsym.trans hq.symm, ⟨?_, ?_⟩, rfl⟩
        · exact ⟨_, congrArg (Except.map (rewards.insert producer ·)) hfit⟩
        · unfold maxAmount
          omega
        · omega
    obtain ⟨F1, hsum⟩ := addReward_ok F hsym hpos hadd
    obtain ⟨rewards', hr⟩ : ∃ r, distribute reward top rewards1 = .ok r := distribute_returns hsym hpos F1 (by omega)
    exact ⟨rewards', bind_ok_iff.2 ⟨rewards1, hadd, hr⟩⟩

/-- **Distribution of incoming tokens.** In every solvent state, which those of a run are (`Solvent.run`), for all votes and
every schedule size: exactly if the loop reads active producers only, it selects the first active ones, and
every transfer of the core token to `ra.bpay` that the token accepts is booked for them, if there is one. -/
theorem transfer_booked (core : Symbol) (s : BlockPay) (S : Solvent core s) (env : PayEnv) :
    let ps := s.producersByVotes env
    let top := (activeOwners ps).take env.lastProducerScheduleSize
    Selectable env.lastProducerScheduleSize ps ↔ topProducers env.lastProducerScheduleSize ps [] = some top ∧
      ((∃ e ∈ ps, e.2.isActive = true) → ∀ from_ quantity memo token, from_ ≠ systemAccountName → quantity.symbol = core →
        s.token.transfer env.toActionEnv from_ bpayAccount quantity memo = .ok token →
        ∃ rewards, distribute ⟨quantity.amount.tdiv top.length, quantity.symbol⟩ top s.rewards = .ok rewards ∧
          s.send core env env.toActionEnv from_ bpayAccount quantity memo =
            .ok { s with token := token, rewards := rewards }) := by
  intro ps top
  refine ⟨fun hsel => ?_, fun h => topProducers_iff.1 h.1⟩
  have htop : topProducers env.lastProducerScheduleSize ps [] = some top := topProducers_iff.2 hsel
  refine ⟨htop, fun ⟨e, he, ha⟩ from_ quantity memo token hsys hsym ht => ?_⟩
  have hlen : top.length ≠ 0 := by
    have hcount : env.lastProducerScheduleSize ≠ 0 := fun h0 => by simp [hsel.2 h0] at he
    have hmem : e.1 ∈ activeOwners ps := mem_map_of_mem (mem_filter.2 ⟨he, ha⟩)
    have hown := length_pos_of_mem hmem
    rw [length_take]
    omega
  -- the rewards and the quantity are covered by the balance, which is an asset
  obtain ⟨hne, hpos, -⟩ := Token.transfer_ok ht
  have hbal := Token.transfer_balance ht bpayAccount
  have hmax := (S.issued.transfer ht).balance_le bpayAccount
  have hbucket := S.bucket.trans S.covered
  rw [hsym, if_pos rfl, if_neg (Ne.symm hne)] at hbal
  unfold slack at hbucket
  have hparts : (top.length : Int) * quantity.amount.tdiv top.length ≤ quantity.amount := by
    rw [Int.tdiv_eq_ediv_of_nonneg hpos.le]
    exact Int.mul_ediv_self_le (by exact_mod_cast hlen)
  obtain ⟨rewards, hd⟩ : ∃ r, distribute ⟨quantity.amount.tdiv top.length, quantity.symbol⟩ top s.rewards = .ok r :=
    distribute_returns (by exact hsym) (Int.tdiv_nonneg hpos.le (Int.natCast_nonneg _)) S.rewards (by
      change s.rewardTotal + top.length * quantity.amount.tdiv top.length ≤ _
      omega)
  refine ⟨rewards, hd, bind_ok_iff.2 ⟨token, ht, ?_⟩⟩
  unfold onTransfer
  rw [if_neg (by simp [hne]), if_neg hsys]
  refine check_bind_ok_iff.2 ⟨beq_iff_eq.2 hsym, ?_⟩
  rw [show topProducers env.lastProducerScheduleSize (producersByVotes env { s with token := token }) [] = some top from htop]
  exact check_bind_ok_iff.2 ⟨bne_iff_ne.2 hlen, bind_ok_iff.2 ⟨rewards, hd, rfl⟩⟩

theorem transfer_booked_sampleReward : let s := (run sampleCoin sampleElection sampleStart).1
    s.producersByVotes (sampleEnv 1) =
      [(sampleProducer, ⟨true, 0, 1⟩), (sampleUnvoted, ⟨true, 0, 1⟩), (sampleRetired, ⟨false, 0, 1⟩)] ∧
    topProducers 2 (s.producersByVotes (sampleEnv 1)) [] = some [sampleProducer, sampleUnvoted] ∧
    ∃ token rewards, distribute ⟨50, sampleCoin⟩ [sampleProducer, sampleUnvoted] s.rewards = .ok rewards ∧
      s.send sampleCoin (sampleEnv 1) (sampleEnv 1).toActionEnv samplePayer bpayAccount ⟨101, sampleCoin⟩ "" =
        .ok { s with token := token, rewards := rewards } := by
  have hps : (run sampleCoin sampleElection sampleStart).1.producersByVotes (sampleEnv 1) =
      [(sampleProducer, ⟨true, 0, 1⟩), (sampleUnvoted, ⟨true, 0, 1⟩), (sampleRetired, ⟨false, 0, 1⟩)] := by decide +kernel
  have S : Solvent sampleCoin (run sampleCoin sampleElection sampleStart).1 :=
    (sampleStart_solvent.run (by decide +kernel) (by decide +kernel) (by decide +kernel)).1
  have h := transfer_booked sampleCoin _ S (sampleEnv 1)
  rw [hps] at h
  obtain ⟨htop, hbooked⟩ := h.1 ⟨by decide +kernel, by decide⟩
  refine ⟨hps, by rw [hps]; exact htop, ?_⟩
  have hok : ((run sampleCoin sampleElection sampleStart).1.token.transfer (sampleEnv 1).toActionEnv samplePayer bpayAccount
      ⟨101, sampleCoin⟩ "").isOk = true := by decide +kernel
  cases ht : (run sampleCoin sampleElection sampleStart).1.token.transfer (sampleEnv 1).toActionEnv samplePayer bpayAccount
      ⟨101, sampleCoin⟩ "" with
  | error e => rw [ht] at hok; cases hok
  | ok token =>
    obtain ⟨rewards, hd, hs⟩ := hbooked ⟨_, mem_cons_self, rfl⟩ samplePayer ⟨101, sampleCoin⟩ "" token (by decide +kernel) rfl ht
    exact ⟨token, rewards, hd, hs⟩

/-- **The loop stays at an inactive producer.** Without votes it stands before an active one whose name comes later, and with
votes it is read if the schedule has more places than there are active producers. -/
theorem loop_stays_at_inactive :
    let s := (run sampleCoin ([.regproducer sampleRetired, .regproducer sampleUnvoted, .unregprod sampleRetired].map
      (sampleEnv 1, ·)) sampleStart).1
    let unvoted := { sampleEnv 1 with totalVotes := fun _ => 0 }
    (topProducers 1 (s.producersByVotes unvoted) [] = none ∧
      (activeOwners (s.producersByVotes unvoted)).take 1 = [sampleUnvoted]) ∧
    topProducers 2 (s.producersByVotes (sampleEnv 1)) [] = none ∧
      (activeOwners (s.producersByVotes (sampleEnv 1))).take 2 = [sampleUnvoted] := by
  decide +kernel

end BlockPay
end TheChannel
