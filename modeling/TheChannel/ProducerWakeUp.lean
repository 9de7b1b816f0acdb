import TheChannel.HeaderState
/-!
# ProducerWakeUp — when a producer has to be awake

`block_timing_util.hpp`. A producer's next slot is the least one that its watermarks allow and the schedule gives it; the node
wakes up for the least one over its producers (`wakeUp_least`), where the last `uint32_t` slot stands for none
(`last_slot_missed`).
-/
namespace TheChannel
open List

/-- What `calculate_producer_wake_up_time` is asked about. The schedule has a producer once; a watermark is the number and the
slot of a producer's last block. -/
structure BlockTiming where
  blockNum : Nat
  refBlockSlot : Nat
  activeSchedule : List ProducerAuthority
  prodWatermarks : AccountName → Option (Nat × Nat)
  unique : (activeSchedule.map (·.producerName)).Nodup

def minimumOffset (currentBlockSlot blockNum : Nat) : Option (Nat × Nat) → Nat
  | none => 1
  | some watermark =>
    let offset := if blockNum < watermark.1 then (watermark.1 - blockNum + 1) % 2 ^ 32 else 1
    if currentBlockSlot < watermark.2 then max offset ((watermark.2 - currentBlockSlot + 1) % 2 ^ 32) else offset

/-- The second half of `calculate_next_block_slot`: the next turn of the producer, not before `minimumSlot`. -/
def slotFrom (minimumSlot producerIndex activeScheduleSize : Nat) : Nat :=
  let minimumSlotProducerIndex := minimumSlot % (activeScheduleSize * producerRepetitions) / producerRepetitions
  if producerIndex = minimumSlotProducerIndex then minimumSlot
  else
    let distance := (producerIndex + 2 ^ 64 - minimumSlotProducerIndex) % 2 ^ 64
    -- unsigned underflow
    let producerDistance := if producerIndex < distance then (distance + activeScheduleSize) % 2 ^ 64 else distance
    (minimumSlot - minimumSlot % producerRepetitions + producerDistance * producerRepetitions) % 2 ^ 32

def slotTime (slot : Nat) : Int := (slot * 500 + 946684800000) * 1000

def productionRoundBlockStartTime (cpuEffort : Int) (blockSlot : Nat) : Int :=
  slotTime ((blockSlot / producerRepetitions * producerRepetitions + 2 ^ 32 - 1) % 2 ^ 32) +
    cpuEffort * (blockSlot % producerRepetitions : Nat)

namespace BlockTiming
variable (t : BlockTiming)

def calculateNextBlockSlot (producerName : AccountName) (producerIndex : Nat) : Nat :=
  slotFrom ((t.refBlockSlot + minimumOffset t.refBlockSlot t.blockNum (t.prodWatermarks producerName)) % 2 ^ 32)
    producerIndex t.activeSchedule.length

def earlier (wakeUpSlot : Nat) (p : AccountName) : Nat :=
  match t.activeSchedule.findIdx? (·.producerName == p) with
  | none => wakeUpSlot
  | some producerIndex => min (t.calculateNextBlockSlot p producerIndex) wakeUpSlot

def calculateProducerWakeUpTime (cpuEffort : Int) (producers : List AccountName) : Option Int :=
  let wakeUpSlot := producers.foldl t.earlier (2 ^ 32 - 1)
  if wakeUpSlot = 2 ^ 32 - 1 then none else some (productionRoundBlockStartTime cpuEffort wakeUpSlot)

/-- A slot in which a producer may produce: after the current one and its watermark, as far ahead as the block numbers ask for,
and given to it by the schedule. -/
structure Eligible (producer : AccountName) (slot : Nat) : Prop where
  after : t.refBlockSlot < slot
  watermark : ∀ w, t.prodWatermarks producer = some w → w.2 < slot ∧ t.refBlockSlot + (w.1 + 1) ≤ slot + t.blockNum
  scheduled : ∃ p, getScheduledProducer t.activeSchedule slot = .ok p ∧ p.producerName = producer

end BlockTiming

/-! ## The next turn -/

section

variable {n i q : Nat}

/-- How many turns after turn `q` the producer with index `i` of `n` has its own. -/
def turnsAhead (n i q : Nat) : Nat := if q % n ≤ i then i - q % n else i + n - q % n

theorem turnsAhead_mod (hi : i < n) : (q + turnsAhead n i q) % n = i := by
  have hq := Nat.mod_lt q (i.zero_le.trans_lt hi)
  rw [← Nat.mod_add_mod]
  unfold turnsAhead
  split
  · rw [Nat.add_sub_cancel' ‹_›, Nat.mod_eq_of_lt hi]
  · rw [Nat.add_sub_cancel' (by omega), Nat.add_mod_right, Nat.mod_eq_of_lt hi]

theorem turnsAhead_le (hi : i < n) {x : Nat} (hx : q ≤ x) (h : x % n = i) : q + turnsAhead n i q ≤ x := by
  obtain ⟨e, rfl⟩ := Nat.exists_eq_add_of_le hx
  rw [← Nat.mod_add_mod] at h
  have hq := Nat.mod_lt q (i.zero_le.trans_lt hi)
  have hle := Nat.mod_le (q % n + e) n
  unfold turnsAhead
  split
  · omega
  · by_contra hlt
    rcases Nat.lt_or_ge (q % n + e) n with hs | hs
    · rw [Nat.mod_eq_of_lt hs] at h
      omega
    · rw [Nat.mod_eq_sub_mod hs, Nat.mod_eq_of_lt (by omega)] at h
      omega

theorem producerDistance_eq (hi : i < n) (hq : q < 2 ^ 64) (h : turnsAhead n i q < 2 ^ 64) :
    (if i < (i + 2 ^ 64 - q % n) % 2 ^ 64 then ((i + 2 ^ 64 - q % n) % 2 ^ 64 + n) % 2 ^ 64
      else (i + 2 ^ 64 - q % n) % 2 ^ 64) = turnsAhead n i q := by
  have hlt := Nat.mod_lt q (i.zero_le.trans_lt hi)
  have hle := Nat.mod_le q n
  unfold turnsAhead at *
  by_cases hj : q % n ≤ i
  · rw [if_pos hj] at *
    have hd : (i + 2 ^ 64 - q % n) % 2 ^ 64 = i - q % n := by omega
    rw [hd, if_neg (by omega)]
  · rw [if_neg hj] at *
    have hd : (i + 2 ^ 64 - q % n) % 2 ^ 64 = i + 2 ^ 64 - q % n := Nat.mod_eq_of_lt (by omega)
    rw [hd, if_pos (by omega)]
    omega

theorem aligned_eq {m d fits : Nat} (hfits : fits < 2 ^ 32) (h : m / producerRepetitions + d ≤ fits / producerRepetitions) :
    (m - m % producerRepetitions + d * producerRepetitions) % 2 ^ 32 = producerRepetitions * (m / producerRepetitions + d) := by
  simp only [producerRepetitions] at *
  omega

theorem slotFrom_isLeast {m fits : Nat} (hi : i < n) (hfits : fits < 2 ^ 32) (hm : m ≤ fits)
    (hturn : fits / producerRepetitions % n = i) :
    IsLeast {s | m ≤ s ∧ s / producerRepetitions % n = i} (slotFrom m i n) := by
  have hle : ∀ {s}, m ≤ s → s / producerRepetitions % n = i →
      m / producerRepetitions + turnsAhead n i (m / producerRepetitions) ≤ s / producerRepetitions :=
    fun hs => turnsAhead_le hi (Nat.div_le_div_right hs)
  have hfs := (hle hm hturn).trans (Nat.div_le_self fits producerRepetitions)
  have hmod := turnsAhead_mod hi (q := m / producerRepetitions)
  unfold slotFrom
  rw [Nat.mul_comm n]
  simp only [Nat.mod_mul_right_div_self]
  split
  case isTrue hj => exact ⟨⟨le_rfl, hj.symm⟩, fun s hs => hs.1⟩
  case isFalse hj =>
    -- another producer's turn is not the one of the minimum
    have hpos : turnsAhead n i (m / producerRepetitions) ≠ 0 := fun h0 => hj (by rw [← hmod, h0, Nat.add_zero])
    rw [producerDistance_eq hi ((Nat.le_of_add_right_le hfs).trans_lt (by omega))
      ((Nat.le_of_add_left_le hfs).trans_lt (by omega)), aligned_eq hfits (hle hm hturn)]
    refine ⟨⟨?_, ?_⟩, fun s hs => ?_⟩
    · have := Nat.lt_mul_div_succ m (show 0 < producerRepetitions by decide)
      exact this.le.trans (Nat.mul_le_mul_left _ (Nat.add_le_add_left (Nat.pos_of_ne_zero hpos) _))
    · rw [Nat.mul_div_cancel_left _ (by decide), hmod]
    · exact (Nat.mul_le_mul_left _ (hle hs.1 hs.2)).trans (Nat.mul_div_le s _)

end

namespace BlockTiming
variable {t : BlockTiming} {producer : AccountName} {i slot fits : Nat} {producers : List AccountName}

/-! ## The next slot of a producer -/

theorem minimumOffset_le {w : Option (Nat × Nat)} {current blockNum : Nat} (hfits : fits < 2 ^ 32) (hcur : current < fits)
    (hw : ∀ v, w = some v → v.2 < fits ∧ current + (v.1 + 1) ≤ fits + blockNum) :
    current + minimumOffset current blockNum w ≤ slot ↔
      current < slot ∧ ∀ v, w = some v → v.2 < slot ∧ current + (v.1 + 1) ≤ slot + blockNum := by
  cases w with
  | none => simp [minimumOffset]
  | some v =>
    obtain ⟨hslot, hnum⟩ := hw v rfl
    simp only [Option.some.injEq, forall_eq', minimumOffset]
    split_ifs <;> omega

theorem scheduled_iff (hi : t.activeSchedule.findIdx? (·.producerName == producer) = some i) :
    (∃ p, getScheduledProducer t.activeSchedule slot = .ok p ∧ p.producerName = producer) ↔
      slot / producerRepetitions % t.activeSchedule.length = i := by
  obtain ⟨hlt, hp, -⟩ := findIdx?_eq_some_iff_getElem.1 hi
  have hturn : slot / producerRepetitions % t.activeSchedule.length < t.activeSchedule.length := Nat.mod_lt _ (by omega)
  rw [beq_iff_eq] at hp
  unfold getScheduledProducer
  rw [Nat.mul_comm, Nat.mod_mul_right_div_self, getElem?_eq_getElem hturn]
  have hinj := @Nodup.getElem_inj_iff _ _ t.unique _ (by simpa using hturn) i (by simpa using hlt)
  simpa [← hp] using hinj

theorem calculateNextBlockSlot_isLeast (hi : t.activeSchedule.findIdx? (·.producerName == producer) = some i)
    (hfits : fits < 2 ^ 32) (he : t.Eligible producer fits) :
    IsLeast {slot | t.Eligible producer slot} (t.calculateNextBlockSlot producer i) := by
  obtain ⟨hlt, -⟩ := findIdx?_eq_some_iff_getElem.1 hi
  have hel : ∀ slot, t.Eligible producer slot ↔
      t.refBlockSlot + minimumOffset t.refBlockSlot t.blockNum (t.prodWatermarks producer) ≤ slot ∧
        slot / producerRepetitions % t.activeSchedule.length = i := fun slot => by
    rw [minimumOffset_le hfits he.after he.watermark, ← scheduled_iff hi]
    exact ⟨fun h => ⟨⟨h.after, h.watermark⟩, h.scheduled⟩, fun h => ⟨h.1.1, h.1.2, h.2⟩⟩
  obtain ⟨hmin, hturn⟩ := (hel fits).1 he
  simp only [hel, calculateNextBlockSlot]
  rw [Nat.mod_eq_of_lt (hmin.trans_lt hfits)]
  exact slotFrom_isLeast hlt hfits hmin hturn

/-! ## The node -/

theorem mem_iff_findIdx? : producer ∈ t.activeSchedule.map (·.producerName) ↔
    ∃ i, t.activeSchedule.findIdx? (·.producerName == producer) = some i := by
  rw [← Option.isSome_iff_exists, findIdx?_isSome]
  simp

theorem Eligible.mem (h : t.Eligible producer slot) : producer ∈ t.activeSchedule.map (·.producerName) := by
  obtain ⟨p, hp, rfl⟩ := h.scheduled
  unfold getScheduledProducer at hp
  split at hp
  case h_1 q hq =>
    cases hp
    exact mem_map_of_mem (mem_of_getElem? hq)
  case h_2 => cases hp

def Fits (t : BlockTiming) (producers : List AccountName) : Prop :=
  ∀ p ∈ producers, p ∈ t.activeSchedule.map (·.producerName) → ∃ fits < 2 ^ 32, t.Eligible p fits

theorem foldl_earlier_isLeast : ∀ {producers A slot}, t.Fits producers → IsLeast A slot →
    IsLeast ({s | ∃ p ∈ producers, t.Eligible p s} ∪ A) (producers.foldl t.earlier slot)
  | [], A, slot, _, h => by simpa using h
  | p :: producers, A, slot, hfits, h => by
    have hset : {s | ∃ q ∈ p :: producers, t.Eligible q s} ∪ A =
        {s | ∃ q ∈ producers, t.Eligible q s} ∪ ({s | t.Eligible p s} ∪ A) := by
      ext s
      simp [or_left_comm, or_assoc]
    rw [hset]
    refine foldl_earlier_isLeast (fun q hq => hfits q (by simp [hq])) ?_
    unfold earlier
    split
    case h_1 hnone =>
      -- a producer that is not in the schedule has no slot
      have hempty : {s | t.Eligible p s} = ∅ := Set.eq_empty_of_forall_notMem fun s hs => by
        obtain ⟨i, hi⟩ := mem_iff_findIdx?.1 (Eligible.mem hs)
        rw [hnone] at hi
        cases hi
      simpa [hempty] using h
    case h_2 i hi =>
      obtain ⟨fits, hf, he⟩ := hfits p (by simp) (mem_iff_findIdx?.2 ⟨i, hi⟩)
      exact (calculateNextBlockSlot_isLeast hi hf he).union h

/-- **Producer wake-up.** Where the slots of the node's producers fit: the next slot of each is the least one it may produce in;
the node wakes up for the least one of all, if it does; and it wakes up for none exactly when none of its producers is in the
schedule, exactly if the least one is not the last `uint32_t`. -/
theorem wakeUp_least (t : BlockTiming) (cpuEffort : Int) (producers : List AccountName) (hfits : t.Fits producers) :
    (∀ p ∈ producers, ∀ i, t.activeSchedule.findIdx? (·.producerName == p) = some i →
      IsLeast {s | t.Eligible p s} (t.calculateNextBlockSlot p i)) ∧
    (∀ time, t.calculateProducerWakeUpTime cpuEffort producers = some time →
      ∃ slot, IsLeast {s | ∃ p ∈ producers, t.Eligible p s} slot ∧ time = productionRoundBlockStartTime cpuEffort slot) ∧
    ((t.calculateProducerWakeUpTime cpuEffort producers = none ↔
        ∀ p ∈ producers, p ∉ t.activeSchedule.map (·.producerName)) ↔
      ¬ IsLeast {s | ∃ p ∈ producers, t.Eligible p s} (2 ^ 32 - 1)) := by
  have hle := foldl_earlier_isLeast hfits (isLeast_singleton (a := 2 ^ 32 - 1))
  refine ⟨fun p hp i hi => ?_, ?_⟩
  · obtain ⟨fits, hf, he⟩ := hfits p hp (mem_iff_findIdx?.2 ⟨i, hi⟩)
    exact calculateNextBlockSlot_isLeast hi hf he
  simp only [calculateProducerWakeUpTime]
  split
  case isTrue hmax =>
    rw [hmax] at hle
    simp only [reduceCtorEq, true_iff, false_implies, implies_true, true_and]
    constructor
    · rintro hnone ⟨⟨p, hp, he⟩, -⟩
      exact hnone p hp he.mem
    · -- a slot before the last one would be the result, and the last one is excluded
      intro hlast p hp hmem
      obtain ⟨fits, hf, he⟩ := hfits p hp hmem
      obtain rfl : fits = 2 ^ 32 - 1 := le_antisymm (Nat.le_pred_of_lt hf) (hle.2 (.inl ⟨p, hp, he⟩))
      exact hlast ⟨⟨p, hp, he⟩, fun s hs => hle.2 (.inl hs)⟩
  case isFalse hmax =>
    obtain ⟨p, hp, he⟩ := hle.1.resolve_right hmax
    have hleast : IsLeast {s | ∃ p ∈ producers, t.Eligible p s} (producers.foldl t.earlier (2 ^ 32 - 1)) :=
      ⟨⟨p, hp, he⟩, fun s hs => hle.2 (.inl hs)⟩
    refine ⟨fun time htime => ?_, iff_of_true ?_ fun hlast => hmax (hleast.unique hlast)⟩
    · cases htime
      exact ⟨_, hleast, rfl⟩
    · exact iff_of_false (fun h => by cases h) fun h => h p hp he.mem

/-! Three producers, of which the node has the first two; the first one's watermark is in its next turn. -/

def sampleTurns : BlockTiming :=
  ⟨5, 23, [⟨1, 1, []⟩, ⟨2, 1, []⟩, ⟨3, 1, []⟩], fun p => if p = 1 then some (7, 40) else none, by decide⟩

theorem sampleTurns_eligible : sampleTurns.Eligible 1 41 ∧ sampleTurns.Eligible 2 48 where
  left := ⟨by decide, fun w h => by cases (show some (7, 40) = some w from h); decide, ⟨1, 1, []⟩, by decide, rfl⟩
  right := ⟨by decide, fun w h => absurd (show none = some w from h) (by simp), ⟨2, 1, []⟩, by decide, rfl⟩

theorem wakeUp_least_sampleTurns : sampleTurns.calculateNextBlockSlot 1 0 = 41 ∧
    (∃ slot, IsLeast {s | ∃ p ∈ [1, 2], sampleTurns.Eligible p s} slot ∧
      productionRoundBlockStartTime 400000 41 = productionRoundBlockStartTime 400000 slot) ∧
    ¬ IsLeast {s | ∃ p ∈ [1, 2], sampleTurns.Eligible p s} (2 ^ 32 - 1) := by
  obtain ⟨-, hsome, hnone⟩ := wakeUp_least sampleTurns 400000 [1, 2] fun p hp _ => by
    rcases mem_pair.1 hp with rfl | rfl
    · exact ⟨41, by decide, sampleTurns_eligible.1⟩
    · exact ⟨48, by decide, sampleTurns_eligible.2⟩
  exact ⟨by decide, hsome _ (by decide +kernel), hnone.1 (by decide +kernel)⟩

/-! A schedule of one producer, whose slots are all the slots. -/

def sampleTiming (slot : Nat) : BlockTiming := ⟨5, slot, [⟨1, 1, []⟩], fun _ => none, by decide⟩

theorem sampleTiming_eligible (slot : Nat) : (sampleTiming slot).Eligible 1 (slot + 1) where
  after := slot.lt_succ_self
  watermark := fun _ h => by cases h
  scheduled := (scheduled_iff (i := 0) rfl).2 (Nat.mod_one _)

/-- **The node does not wake up for the last slot**, which its producer has. -/
theorem last_slot_missed : (sampleTiming (2 ^ 32 - 2)).calculateProducerWakeUpTime 400000 [1] = none ∧
    (sampleTiming (2 ^ 32 - 2)).Eligible 1 (2 ^ 32 - 1) ∧ (sampleTiming (2 ^ 32 - 2)).calculateNextBlockSlot 1 0 = 2 ^ 32 - 1 :=
  ⟨by decide +kernel, sampleTiming_eligible _, by decide +kernel⟩

end BlockTiming
end TheChannel
