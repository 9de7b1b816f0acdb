import TheChannel.ResourceUsage
/-!
# ElasticLimits — the virtual limits of net and cpu

`process_block_usage`: with each block the virtual limit of a resource contracts by 1 % if the average usage is above the
target and expands by 0.1 % if not, between the maximum of a block and a thousand times it. The parameters are those that
`finish_block` derives from the chain configuration.
-/
namespace TheChannel

/-! ## The configuration -/

structure ChainConfigV0 where
  maxBlockNetUsage : Nat -- a `uint64_t`, the others are `uint32_t`
  targetBlockNetUsagePct : Nat
  maxTransactionNetUsage : Nat
  basePerTransactionNetUsage : Nat
  contextFreeDiscountNetUsageNum : Nat
  contextFreeDiscountNetUsageDen : Nat
  maxBlockCpuUsage : Nat
  targetBlockCpuUsagePct : Nat
  maxTransactionCpuUsage : Nat
  minTransactionCpuUsage : Nat
  maxAuthorityDepth : Nat
  cpuFits : maxBlockCpuUsage < 2 ^ 32

def validateThat (c : Bool) (msg : String) : Result Unit := eosAssert c .actionValidate msg

def ChainConfigV0.validate (c : ChainConfigV0) : Result Unit := do
  validateThat (c.targetBlockNetUsagePct ≤ 10000) "target block net usage percentage cannot exceed 100%"
  validateThat (100 / 10 ≤ c.targetBlockNetUsagePct) "target block net usage percentage must be at least 0.1%"
  validateThat (c.targetBlockCpuUsagePct ≤ 10000) "target block cpu usage percentage cannot exceed 100%"
  validateThat (100 / 10 ≤ c.targetBlockCpuUsagePct) "target block cpu usage percentage must be at least 0.1%"
  validateThat (c.maxTransactionNetUsage < c.maxBlockNetUsage)
    "max transaction net usage must be less than max block net usage"
  validateThat (c.maxTransactionCpuUsage < c.maxBlockCpuUsage)
    "max transaction cpu usage must be less than max block cpu usage"
  validateThat (c.basePerTransactionNetUsage < c.maxTransactionNetUsage)
    "base net usage per transaction must be less than the max transaction net usage"
  validateThat (10 * 1024 ≤ c.maxTransactionNetUsage - c.basePerTransactionNetUsage)
    "max transaction net usage must be at least ${delta} bytes larger than base net usage per transaction"
  validateThat (0 < c.contextFreeDiscountNetUsageDen)
    "net usage discount ratio for context free data cannot have a 0 denominator"
  validateThat (c.contextFreeDiscountNetUsageNum ≤ c.contextFreeDiscountNetUsageDen)
    "net usage discount ratio for context free data cannot exceed 1"
  validateThat (c.minTransactionCpuUsage ≤ c.maxTransactionCpuUsage)
    "min transaction cpu usage cannot exceed max transaction cpu usage"
  validateThat (c.maxTransactionCpuUsage < c.maxBlockCpuUsage - c.minTransactionCpuUsage)
    "max transaction cpu usage must be at less than the difference between the max block cpu usage and the min transaction cpu usage"
  validateThat (1 ≤ c.maxAuthorityDepth) "max authority depth should be at least 1"

structure Ratio where
  numerator : Nat
  denominator : Nat

def Ratio.scale (r : Ratio) (value : Nat) : Result Nat :=
  eosAssert (r.numerator == 0 || decide (value ≤ maxUint64 / r.numerator)) .rateLimitingStateInconsistent
    "Usage exceeds maximum value representable after extending for precision" >>= fun _ =>
  .ok (value * r.numerator / r.denominator)

structure ElasticLimitParameters where
  target : Nat
  max : Nat
  periods : Nat
  maxMultiplier : Nat
  contractRate : Ratio
  expandRate : Ratio

def eosPercent (value percentage : Nat) : Nat := value * percentage % 2 ^ 64 / 10000

def elasticParameters (max targetPct : Nat) : ElasticLimitParameters :=
  ⟨eosPercent max targetPct, max, 60 * 1000 / 500, 1000, ⟨99, 100⟩, ⟨1000, 999⟩⟩

def ChainConfigV0.netLimitParameters (c : ChainConfigV0) : ElasticLimitParameters :=
  elasticParameters c.maxBlockNetUsage c.targetBlockNetUsagePct

def ChainConfigV0.cpuLimitParameters (c : ChainConfigV0) : ElasticLimitParameters :=
  elasticParameters c.maxBlockCpuUsage c.targetBlockCpuUsagePct

/-! ## The limits -/

namespace ElasticLimitParameters
variable (params : ElasticLimitParameters)

def rate (averageUsage : Nat) : Ratio := if params.target < averageUsage then params.contractRate else params.expandRate

def updateElasticLimit (currentLimit averageUsage : Nat) : Result Nat :=
  (params.rate averageUsage).scale currentLimit >>= fun result =>
  .ok (min (Max.max result params.max) (params.max * params.maxMultiplier % 2 ^ 64))

/-- **The limit is between the maximum and a thousand times it**, without wrapping around. -/
def InRange (limit : Nat) : Prop := params.max ≤ limit ∧ limit ≤ params.max * params.maxMultiplier

/-- **The update is exact**: it returns, and no product wraps around. -/
def Exact (limit averageUsage : Nat) : Prop :=
  params.updateElasticLimit limit averageUsage = .ok (min (Max.max
    (limit * (params.rate averageUsage).numerator / (params.rate averageUsage).denominator) params.max)
    (params.max * params.maxMultiplier))

end ElasticLimitParameters

theorem elasticParameters_exact {max targetPct limit : Nat} (hmax : max * 1000 * 1000 ≤ maxUint64)
    (h : (elasticParameters max targetPct).InRange limit) (usage : Nat) :
    (elasticParameters max targetPct).Exact limit usage := by
  have hle : limit ≤ max * 1000 := h.2
  have hb : maxUint64 = 2 ^ 64 - 1 := rfl
  have hnum : ((elasticParameters max targetPct).rate usage).numerator ≤ 1000 := by
    unfold ElasticLimitParameters.rate
    split
    · exact (by decide : 99 ≤ 1000)
    · exact Nat.le_refl _
  have hmul : limit * ((elasticParameters max targetPct).rate usage).numerator ≤ maxUint64 :=
    Nat.le_trans (Nat.mul_le_mul hle hnum) hmax
  have hw : max * 1000 % 2 ^ 64 = max * 1000 := Nat.mod_eq_of_lt (by omega)
  unfold ElasticLimitParameters.Exact ElasticLimitParameters.updateElasticLimit Ratio.scale
  rw [eosAssert_bind, ok_bind]
  · exact congrArg (fun top => Except.ok (min _ top)) hw
  · rw [Bool.or_eq_true, beq_iff_eq, decide_eq_true_eq]
    rcases Nat.eq_zero_or_pos ((elasticParameters max targetPct).rate usage).numerator with hz | hpos
    · exact .inl hz
    · exact .inr ((Nat.le_div_iff_mul_le hpos).2 hmul)

theorem ElasticLimitParameters.InRange.update {params : ElasticLimitParameters} {limit usage limit' : Nat}
    (h : params.InRange limit) (he : params.Exact limit usage) (hok : params.updateElasticLimit limit usage = .ok limit') :
    params.InRange limit' := by
  have heq := Except.ok.inj (hok.symm.trans he)
  have hle : params.max ≤ params.max * params.maxMultiplier := Nat.le_trans h.1 h.2
  rw [heq]
  exact ⟨Nat.le_min.2 ⟨Nat.le_max_right .., hle⟩, Nat.min_le_right ..⟩

/-! ## The state -/

structure ResourceLimitsState where
  averageBlockNetUsage : UsageAccumulator
  averageBlockCpuUsage : UsageAccumulator
  pendingNetUsage : Nat
  pendingCpuUsage : Nat
  virtualNetLimit : Nat
  virtualCpuLimit : Nat

def UsageAccumulator.averageValue (a : UsageAccumulator) : Nat := divideCeil a.valueEx ratePrecision

namespace ResourceLimitsState
variable (config : ChainConfigV0) (s : ResourceLimitsState)

def processBlockUsage (blockNum : Nat) : Result ResourceLimitsState :=
  s.averageBlockCpuUsage.add s.pendingCpuUsage blockNum config.cpuLimitParameters.periods >>= fun cpu =>
  config.cpuLimitParameters.updateElasticLimit s.virtualCpuLimit cpu.averageValue >>= fun virtualCpu =>
  s.averageBlockNetUsage.add s.pendingNetUsage blockNum config.netLimitParameters.periods >>= fun net =>
  config.netLimitParameters.updateElasticLimit s.virtualNetLimit net.averageValue >>= fun virtualNet =>
  .ok ⟨net, cpu, 0, 0, virtualNet, virtualCpu⟩

/-- `initialize_database`: the virtual limits are the maxima of the default parameters. -/
def initializeDatabase : ResourceLimitsState := ⟨.zero, .zero, 0, 0, 1024 * 1024, 200000⟩

/-- The blocks, each with its number and the net and cpu its transactions used. -/
def run : List (Nat × Nat × Nat) → ResourceLimitsState → Result ResourceLimitsState
  | [], s => .ok s
  | (blockNum, net, cpu) :: blocks, s =>
    processBlockUsage config { s with pendingNetUsage := net, pendingCpuUsage := cpu } blockNum >>= run blocks

def InRange : Prop :=
  config.netLimitParameters.InRange s.virtualNetLimit ∧ config.cpuLimitParameters.InRange s.virtualCpuLimit

variable {config s} {s' : ResourceLimitsState}

theorem InRange.exact (h : s.InRange config) (hnet : config.maxBlockNetUsage * 1000 * 1000 ≤ maxUint64) (usage : Nat) :
    config.netLimitParameters.Exact s.virtualNetLimit usage ∧ config.cpuLimitParameters.Exact s.virtualCpuLimit usage := by
  have hcpu : config.maxBlockCpuUsage * 1000 * 1000 ≤ maxUint64 :=
    Nat.le_trans (Nat.mul_le_mul_right _ (Nat.mul_le_mul_right _ (Nat.le_of_lt config.cpuFits))) (by decide)
  exact ⟨elasticParameters_exact hnet h.1 usage, elasticParameters_exact hcpu h.2 usage⟩

theorem InRange.processBlockUsage (h : s.InRange config) (hnet : config.maxBlockNetUsage * 1000 * 1000 ≤ maxUint64)
    {blockNum : Nat} (hok : s.processBlockUsage config blockNum = .ok s') : s'.InRange config := by
  obtain ⟨cpu, -, hok⟩ := bind_ok hok
  obtain ⟨virtualCpu, hcpu, hok⟩ := bind_ok hok
  obtain ⟨net, -, hok⟩ := bind_ok hok
  obtain ⟨virtualNet, hn, hok⟩ := bind_ok hok
  cases hok
  exact ⟨h.1.update (h.exact hnet _).1 hn, h.2.update (h.exact hnet _).2 hcpu⟩

/-- **The virtual limits stay in their range, and their updates neither throw nor wrap around**, whatever the blocks used,
if the maximum of net times 10^6 is representable. For cpu it always is. -/
theorem run_inRange (config : ChainConfigV0) (hnet : config.maxBlockNetUsage * 1000 * 1000 ≤ maxUint64)
    (blocks : List (Nat × Nat × Nat)) (s s' : ResourceLimitsState) (h : s.InRange config)
    (hrun : run config blocks s = .ok s') :
    s'.InRange config ∧ ∀ usage, config.netLimitParameters.Exact s'.virtualNetLimit usage ∧
      config.cpuLimitParameters.Exact s'.virtualCpuLimit usage := by
  induction blocks generalizing s with
  | nil =>
    cases hrun
    exact ⟨h, h.exact hnet⟩
  | cons block blocks ih =>
    obtain ⟨s1, hstep, hrun⟩ := bind_ok hrun
    have h : InRange config { s with pendingNetUsage := block.2.1, pendingCpuUsage := block.2.2 } := h
    exact ih s1 (h.processBlockUsage hnet hstep) hrun

def sampleConfig (maxBlockNetUsage : Nat) : ChainConfigV0 :=
  ⟨maxBlockNetUsage, 1000, 524288, 12, 20, 100, 200000, 1000, 150000, 100, 6, by decide⟩

theorem run_inRange_sampleConfig : ∃ s', run (sampleConfig 1048576) [(1, 500, 600)] initializeDatabase = .ok s' ∧
    s'.InRange (sampleConfig 1048576) := by
  refine ⟨_, rfl, (run_inRange (sampleConfig 1048576) (by decide) [(1, 500, 600)] initializeDatabase _ ?_ rfl).1⟩
  exact ⟨by constructor <;> decide, by constructor <;> decide⟩

/-- **The second block throws** with an accepted maximum of 10^17 bytes: the first one brings the limit to the maximum. -/
theorem accepted_config_throws : (sampleConfig (10 ^ 17)).validate = .ok () ∧
    ∃ s, run (sampleConfig (10 ^ 17)) [(1, 0, 0)] initializeDatabase = .ok s ∧ s.InRange (sampleConfig (10 ^ 17)) ∧
      s.processBlockUsage (sampleConfig (10 ^ 17)) 2 = .error (.thrown .rateLimitingStateInconsistent
        "Usage exceeds maximum value representable after extending for precision") := by
  exact ⟨by decide, _, rfl, ⟨by constructor <;> decide, by constructor <;> decide⟩, rfl⟩

end ResourceLimitsState
end TheChannel
