import EthStateDiff.Lib.Machine
import EthStateDiff.Types
import Mathlib.Order.Interval.Finset.Nat
/-!
# Serialized lists (`eth1_data_votes.rs`, `historical_log.rs`, `attestations.rs`,
# `sync_committee.rs`, `pending_queue.rs`)

| here | there |
| --- | --- |
| `diffEth1Votes`, `applyEth1Votes` | eth1_data_votes.rs:53, :107 |
| `calculateLogCount`, `diffHistoricalLog`, `applyHistoricalLog` | historical_log.rs:28, :101, :182 |
| `diffAttestations`, `applyAttestations` | attestations.rs:74, :118 |
| `diffSyncCommittee`, `applySyncCommittee` | sync_committee.rs:141, :195 |
| `findChunkAligned`, `diffQueue`, `applyQueue` | pending_queue.rs:114, :195, :294 |

* `eth1Votes_reconstructs_iff` — votes come back iff the target is shorter or extends the base.
* `logCount_eq_card`, `diffHistoricalLog_spec` — the period ends a log delta accounts for.
* `applyAttestations_diffAttestations`, `applySyncCommittee_diffSyncCommittee` — always exact.
* `historicalLog_growth` — how many items a log delta holds.
* `diffQueue_nil`, `diffQueue_of_nil`, `diffQueue_of_head` — the three ways to encode a queue.
* `queue_reconstructs` — queues come back, FIFO or replaced.
-/

namespace EthStateDiff

open Rust ByteString

/-! ## Eth1 data votes -/

def diffEth1Votes (base target : List UInt8) : Eth1DataVotesDiff :=
  if target.length ≥ base.length then .append (target.drop base.length)
  else .resetAndAppend target

def applyEth1Votes (base : List UInt8) : Eth1DataVotesDiff → List UInt8
  | .append appendedVotes => base ++ appendedVotes
  | .resetAndAppend appendedVotes => appendedVotes

theorem eth1Votes_reconstructs_iff (base target : List UInt8) :
    applyEth1Votes base (diffEth1Votes base target) = target ↔
      target.length < base.length ∨ base <+: target := by
  unfold diffEth1Votes
  by_cases hlen : target.length ≥ base.length
  · rw [if_pos hlen]
    constructor
    · intro h
      exact Or.inr ⟨_, h⟩
    · rintro (h | ⟨rest, rfl⟩)
      · omega
      · simp [applyEth1Votes]
  · rw [if_neg hlen]
    exact ⟨fun _ => Or.inl (by omega), fun _ => rfl⟩

/-- What happens to a vote list between two states: a vote is appended, or the voting period
ends and the list is cleared. -/
inductive VoteOp (size : Nat) where
  | append (vote : Bytes size)
  | clear

def runVotes {size : Nat} (base : List UInt8) (ops : List (VoteOp size)) : List UInt8 :=
  ops.foldl (fun votes op => match op with
    | .append vote => votes ++ vote.val
    | .clear => []) base

/-- **Vote runs**: after any appends and resets the delta gives the list back iff the list is now
shorter than it was, or still begins with what it was. -/
theorem eth1Votes_run_iff {size : Nat} (base : List UInt8) (ops : List (VoteOp size)) :
    applyEth1Votes base (diffEth1Votes base (runVotes base ops)) = runVotes base ops ↔
      (runVotes base ops).length < base.length ∨ base <+: runVotes base ops :=
  eth1Votes_reconstructs_iff base (runVotes base ops)

/-- One vote is held, the period ends, and one different vote is cast: the reset is taken for no
change. -/
theorem eth1Votes_reset_lost :
    ¬∀ (base : List UInt8) (ops : List (VoteOp 72)),
      applyEth1Votes base (diffEth1Votes base (runVotes base ops)) = runVotes base ops := by
  intro h
  have hrun := h (List.replicate 72 1) [.clear, .append ⟨List.replicate 72 2, by decide⟩]
  exact absurd hrun (by decide)

/-! ## Historical logs -/

def SLOTS_PER_HISTORICAL_PERIOD : UInt64 := 8192

def calculateLogCount (b : Build) (slot : UInt64) (activationSlot : Option UInt64) :
    Option UInt64 :=
  match activationSlot with
  | some actSlot =>
    if slot ≤ actSlot then some 0
    else do
      let active ← b.subU64 slot actSlot
      some (active / SLOTS_PER_HISTORICAL_PERIOD)
  | none => do
    let next ← b.addU64 slot 1
    some (next / SLOTS_PER_HISTORICAL_PERIOD)

def diffHistoricalLog (b : Build) (baseSlot targetSlot : UInt64) (targetSsz : List UInt8)
    (itemSszSize : Nat) (activationSlot : Option UInt64) : Option HistoricalLogDiff := do
  let baseCount ← calculateLogCount b baseSlot activationSlot
  let targetCount ← calculateLogCount b targetSlot activationSlot
  let itemsToAppend ← b.subU64 targetCount baseCount
  if itemsToAppend = 0 then some .unchanged
  else
    let requiredBytes ← b.mulUsize itemsToAppend.toNat itemSszSize
    if b.debugAssertions && decide (targetSsz.length < requiredBytes) then none
    else
      let startByte ← b.subUsize targetSsz.length requiredBytes
      -- `target_ssz.get(start_byte..).expect(..)`
      if startByte ≤ targetSsz.length then some (.append (targetSsz.drop startByte)) else none

def applyHistoricalLog (base : List UInt8) : HistoricalLogDiff → List UInt8
  | .unchanged => base
  | .append bytes => base ++ bytes

/-- `calculate_log_count` on exact integers. -/
def logCount (activation : Option UInt64) (slot : Nat) : Nat :=
  match activation with
  | some act => (slot - act.toNat) / 8192
  | none => (slot + 1) / 8192

/-- The slot ends a historical period: it is the last slot of a period counted from genesis, or
lies a positive number of whole periods after the activation. -/
def EndsPeriod : Option UInt64 → Nat → Prop
  | some act, s => act.toNat < s ∧ 8192 ∣ s - act.toNat
  | none, s => 8192 ∣ s + 1

instance : ∀ activation, DecidablePred (EndsPeriod activation)
  | some _ => fun _ => inferInstanceAs (Decidable (_ ∧ _))
  | none => fun s => inferInstanceAs (Decidable (8192 ∣ s + 1))

def periodEnds (activation : Option UInt64) (base target : Nat) : Finset Nat :=
  (Finset.Ioc base target).filter (EndsPeriod activation)

theorem card_filter_Ioc_add {p : Nat → Prop} [DecidablePred p] {f : Nat → Nat}
    (hstep : ∀ s, f (s + 1) = f s + if p (s + 1) then 1 else 0) {base target : Nat}
    (hle : base ≤ target) : ((Finset.Ioc base target).filter p).card + f base = f target := by
  induction target, hle using Nat.le_induction with
  | base => simp
  | succ target hle ih =>
    have hins : Finset.Ioc base (target + 1) = insert (target + 1) (Finset.Ioc base target) := by
      ext s
      simp only [Finset.mem_Ioc, Finset.mem_insert]
      omega
    have hnot : target + 1 ∉ (Finset.Ioc base target).filter p := by
      simp only [Finset.mem_filter, Finset.mem_Ioc]
      omega
    rw [hins, Finset.filter_insert, hstep target]
    by_cases hp : p (target + 1)
    · rw [if_pos hp, if_pos hp, Finset.card_insert_of_notMem hnot]
      omega
    · rw [if_neg hp, if_neg hp]
      omega

/-- **The two formulas count period ends.** -/
theorem logCount_eq_card (activation : Option UInt64) {base target : Nat} (hle : base ≤ target) :
    (periodEnds activation base target).card + logCount activation base =
      logCount activation target := by
  refine card_filter_Ioc_add (fun s => ?_) hle
  by_cases hp : EndsPeriod activation (s + 1)
  · rw [if_pos hp]
    cases activation <;> simp only [EndsPeriod] at hp <;> simp only [logCount] <;> omega
  · rw [if_neg hp]
    cases activation <;> simp only [EndsPeriod] at hp <;> simp only [logCount] <;> omega

theorem calculateLogCount_eq (b : Build) {slot : UInt64} (hslot : slot.toNat < 2 ^ 64 - 1)
    (activation : Option UInt64) :
    ∃ n, calculateLogCount b slot activation = some n ∧ n.toNat = logCount activation slot.toNat := by
  cases activation with
  | none =>
    have hone : (slot + 1).toNat = slot.toNat + 1 := by
      rw [UInt64.toNat_add]
      simp only [UInt64.toNat_one]
      omega
    refine ⟨(slot + 1) / SLOTS_PER_HISTORICAL_PERIOD, ?_, ?_⟩
    · have hadd : b.addU64 slot 1 = some (slot + 1) :=
        b.addU64_of_lt (by simp only [UInt64.toNat_one]; omega)
      simp only [calculateLogCount, hadd, Option.bind_eq_bind, Option.bind_some]
    · rw [UInt64.toNat_div, hone]
      rfl
  | some act =>
    by_cases hle : slot ≤ act
    · refine ⟨0, by rw [calculateLogCount, if_pos hle], ?_⟩
      have hnat := UInt64.le_iff_toNat_le.mp hle
      simp only [logCount, UInt64.toNat_zero]
      omega
    · have hnat : act.toNat ≤ slot.toNat := by
        have := UInt64.le_iff_toNat_le.not.mp hle
        omega
      refine ⟨(slot - act) / SLOTS_PER_HISTORICAL_PERIOD, ?_, ?_⟩
      · simp only [calculateLogCount, if_neg hle, b.subU64_of_le hnat, Option.bind_eq_bind,
          Option.bind_some]
      · rw [UInt64.toNat_div, UInt64.toNat_sub_of_le _ _ (UInt64.le_iff_toNat_le.mpr hnat)]
        rfl

theorem card_periodEnds {activation : Option UInt64} {base target k : Nat} (hle : base ≤ target)
    (hk : logCount activation target = logCount activation base + k) :
    (periodEnds activation base target).card = k := by
  have := logCount_eq_card activation hle
  omega

theorem diffHistoricalLog_spec (b : Build) {baseSlot targetSlot : UInt64} {target : List UInt8}
    {size : Nat} {activation : Option UInt64} (hle : baseSlot ≤ targetSlot)
    (hmax : targetSlot.toNat < 2 ^ 64 - 1) (hlen : target.length < 2 ^ 64)
    (hlong : (periodEnds activation baseSlot.toNat targetSlot.toNat).card * size ≤ target.length) :
    diffHistoricalLog b baseSlot targetSlot target size activation =
      if (periodEnds activation baseSlot.toNat targetSlot.toNat).card = 0 then some .unchanged
      else some (.append (target.drop (target.length -
        (periodEnds activation baseSlot.toNat targetSlot.toNat).card * size))) := by
  have hnat := UInt64.le_iff_toNat_le.mp hle
  have hcard := logCount_eq_card activation hnat
  have hmax' : baseSlot.toNat < 2 ^ 64 - 1 := by omega
  obtain ⟨m, hm, hmn⟩ := calculateLogCount_eq b hmax' activation
  obtain ⟨n, hn, hnn⟩ := calculateLogCount_eq b hmax activation
  generalize (periodEnds activation baseSlot.toNat targetSlot.toNat).card = k at *
  have hmnle : m.toNat ≤ n.toNat := by omega
  have hk : (n - m).toNat = k := by
    rw [UInt64.toNat_sub_of_le _ _ (UInt64.le_iff_toNat_le.mpr hmnle)]
    omega
  simp only [diffHistoricalLog, hm, hn, b.subU64_of_le hmnle, Option.bind_eq_bind,
    Option.bind_some]
  by_cases hzero : k = 0
  · rw [if_pos hzero, if_pos]
    apply UInt64.toNat_inj.mp
    rw [hk, hzero]
    rfl
  · have hne : ¬n - m = 0 := by
      intro h
      rw [h] at hk
      exact hzero hk.symm
    rw [if_neg hne, if_neg hzero, hk, b.mulUsize_of_lt (by omega)]
    simp only [Option.bind_some]
    rw [if_neg (by simp; omega), b.subUsize_of_le hlen hlong]
    simp only [Option.bind_some]
    rw [if_pos (Nat.sub_le _ _)]

/-- The items of a log delta. -/
def HistoricalLogDiff.itemCount (size : Nat) : HistoricalLogDiff → Nat
  | .unchanged => 0
  | .append items => items.length / size

theorem itemCount_eq {target : List UInt8} {size k : Nat} (hsize : 0 < size)
    (hlong : k * size ≤ target.length) :
    (if k = 0 then HistoricalLogDiff.unchanged
      else .append (target.drop (target.length - k * size))).itemCount size = k := by
  by_cases hk : k = 0
  · rw [if_pos hk, hk]
    rfl
  · have hdrop : (target.drop (target.length - k * size)).length = k * size := by
      rw [List.length_drop]
      omega
    rw [if_neg hk, HistoricalLogDiff.itemCount, hdrop, Nat.mul_div_cancel _ hsize]

theorem historicalLog_reconstructs (b : Build) {baseSlot targetSlot : UInt64}
    {base items : List UInt8} {size : Nat} {activation : Option UInt64}
    (hle : baseSlot ≤ targetSlot) (hmax : targetSlot.toNat < 2 ^ 64 - 1)
    (hlen : (base ++ items).length < 2 ^ 64)
    (hitems : items.length =
      (periodEnds activation baseSlot.toNat targetSlot.toNat).card * size) :
    ∃ d, diffHistoricalLog b baseSlot targetSlot (base ++ items) size activation = some d ∧
      applyHistoricalLog base d = base ++ items := by
  have hlong : (periodEnds activation baseSlot.toNat targetSlot.toNat).card * size ≤
      (base ++ items).length := by
    rw [List.length_append]
    omega
  rw [diffHistoricalLog_spec b hle hmax hlen hlong]
  by_cases hzero : (periodEnds activation baseSlot.toNat targetSlot.toNat).card = 0
  · rw [if_pos hzero]
    refine ⟨.unchanged, rfl, ?_⟩
    rw [hzero, Nat.zero_mul] at hitems
    rw [List.length_eq_zero_iff.mp hitems, List.append_nil]
    rfl
  · rw [if_neg hzero]
    refine ⟨_, rfl, ?_⟩
    rw [applyHistoricalLog, ← hitems, List.length_append, Nat.add_sub_cancel, List.drop_left]

/-- Periods counted from a slot that itself begins one end at the multiples of 8192. -/
theorem periodEnds_aligned {act : UInt64} (hact : 8192 ∣ act.toNat) (base target : Nat) :
    periodEnds (some act) base target =
      (Finset.Ioc (max base act.toNat) target).filter (8192 ∣ ·) := by
  ext s
  simp only [periodEnds, Finset.mem_filter, Finset.mem_Ioc, EndsPeriod]
  omega

/-- **Log growth.** A log delta holds one item for each period end passed; counted from genesis
and counted from an activation at slot 0 the growth is the same iff both or neither of the two
slots is the last one of a period. -/
theorem historicalLog_growth (b : Build) (activation : Option UInt64)
    {baseSlot targetSlot : UInt64} {target : List UInt8} {size : Nat}
    (hle : baseSlot ≤ targetSlot) (hmax : targetSlot.toNat < 2 ^ 64 - 1) (hsize : 0 < size)
    (hlen : target.length < 2 ^ 64)
    (hlong : (periodEnds activation baseSlot.toNat targetSlot.toNat).card * size ≤ target.length) :
    (∃ d, diffHistoricalLog b baseSlot targetSlot target size activation = some d ∧
      d.itemCount size = (periodEnds activation baseSlot.toNat targetSlot.toNat).card) ∧
    (∀ act, activation = some act → 8192 ∣ act.toNat →
      periodEnds activation baseSlot.toNat targetSlot.toNat =
        (Finset.Ioc (max baseSlot.toNat act.toNat) targetSlot.toNat).filter (8192 ∣ ·)) ∧
    ((periodEnds none baseSlot.toNat targetSlot.toNat).card * size ≤ target.length →
      (periodEnds (some 0) baseSlot.toNat targetSlot.toNat).card * size ≤ target.length →
      (diffHistoricalLog b baseSlot targetSlot target size none =
          diffHistoricalLog b baseSlot targetSlot target size (some 0) ↔
        (baseSlot.toNat % 8192 = 8191 ↔ targetSlot.toNat % 8192 = 8191))) := by
  refine ⟨⟨_, ?_, itemCount_eq hsize hlong⟩, ?_, ?_⟩
  · rw [diffHistoricalLog_spec b hle hmax hlen hlong]
    split <;> rfl
  · rintro act rfl hact
    exact periodEnds_aligned hact _ _
  · intro hlong₁ hlong₂
    have hnone := logCount_eq_card none (UInt64.le_iff_toNat_le.mp hle)
    have hzero := logCount_eq_card (some 0) (UInt64.le_iff_toNat_le.mp hle)
    simp only [logCount, UInt64.toNat_zero, Nat.sub_zero] at hnone hzero
    have hcounts : diffHistoricalLog b baseSlot targetSlot target size none =
        diffHistoricalLog b baseSlot targetSlot target size (some 0) ↔
        (periodEnds none baseSlot.toNat targetSlot.toNat).card =
          (periodEnds (some 0) baseSlot.toNat targetSlot.toNat).card := by
      rw [diffHistoricalLog_spec b hle hmax hlen hlong₁,
        diffHistoricalLog_spec b hle hmax hlen hlong₂]
      constructor
      · intro h
        -- equal deltas have equally many items
        rw [← itemCount_eq hsize hlong₁, ← itemCount_eq hsize hlong₂]
        rw [← apply_ite some, ← apply_ite some, Option.some.injEq] at h
        rw [h]
      · intro h
        rw [h]
    rw [hcounts]
    omega

/-- From slot 100 to slot 8191 a log counted from genesis gains one item, one counted from
slot 0 none. -/
theorem historicalLog_growth_first_period :
    (∃ d, diffHistoricalLog Build.dev 100 8191 (List.replicate 32 7) 32 none = some d ∧
      d.itemCount 32 = (periodEnds none (100 : UInt64).toNat (8191 : UInt64).toNat).card) ∧
    diffHistoricalLog Build.dev 100 8191 (List.replicate 32 7) 32 none ≠
      diffHistoricalLog Build.dev 100 8191 (List.replicate 32 7) 32 (some 0) := by
  have hnone : (periodEnds none (100 : UInt64).toNat (8191 : UInt64).toNat).card = 1 :=
    card_periodEnds (by decide) (by decide)
  have hzero : (periodEnds (some 0) (100 : UInt64).toNat (8191 : UInt64).toNat).card = 0 :=
    card_periodEnds (by decide) (by decide)
  have hlong : (periodEnds none (100 : UInt64).toNat (8191 : UInt64).toNat).card * 32 ≤
      (List.replicate 32 (7 : UInt8)).length := by
    rw [hnone]
    decide
  have hgrowth := historicalLog_growth Build.dev none (show (100 : UInt64) ≤ 8191 by decide)
    (by decide) (by decide) (by decide) hlong
  refine ⟨hgrowth.1, fun h => ?_⟩
  have hiff := hgrowth.2.2 hlong (by rw [hzero]; decide)
  exact absurd ((hiff.1 h).2 (by decide)) (by decide)

/-- Counted from genesis the item of the period ending at slot 8191 is due at that slot, not at
the multiple of 8192 behind it. -/
theorem historicalLog_growth_not_multiples :
    ¬∀ (b : Build) (activation : Option UInt64) (baseSlot targetSlot : UInt64)
      (target : List UInt8) (size : Nat), baseSlot ≤ targetSlot → targetSlot.toNat < 2 ^ 64 - 1 →
      0 < size → target.length < 2 ^ 64 →
      (periodEnds activation baseSlot.toNat targetSlot.toNat).card * size ≤ target.length →
      (∃ d, diffHistoricalLog b baseSlot targetSlot target size activation = some d ∧
        d.itemCount size = ((Finset.Ioc (max baseSlot.toNat (activation.getD 0).toNat)
          targetSlot.toNat).filter (8192 ∣ ·)).card) ∧
      diffHistoricalLog b baseSlot targetSlot target size none =
        diffHistoricalLog b baseSlot targetSlot target size (some 0) := by
  intro h
  have hnone : (periodEnds none (0 : UInt64).toNat (8191 : UInt64).toNat).card = 1 :=
    card_periodEnds (by decide) (by decide)
  have hbad := (h Build.dev none 0 8191 (List.replicate 32 7) 32 (by decide) (by decide)
    (by decide) (by decide) (by rw [hnone]; decide)).2
  exact absurd hbad (by decide)

/-! ## Attestations and sync committees -/

def diffAttestations (baseSsz targetSsz : List UInt8) : AttestationsDiff :=
  if baseSsz = targetSsz then .unchanged
  else if baseSsz.isPrefixOf targetSsz then .append (targetSsz.drop baseSsz.length)
  else .fullReplacement targetSsz

def applyAttestations (base : List UInt8) : AttestationsDiff → List UInt8
  | .unchanged => base
  | .append bytes => base ++ bytes
  | .fullReplacement bytes => bytes

theorem applyAttestations_diffAttestations (base target : List UInt8) :
    applyAttestations base (diffAttestations base target) = target := by
  unfold diffAttestations
  by_cases heq : base = target
  · rw [if_pos heq]
    exact heq
  · rw [if_neg heq]
    split
    · rename_i hpre
      obtain ⟨rest, rfl⟩ := List.isPrefixOf_iff_prefix.mp hpre
      rw [applyAttestations, List.drop_left]
    · rfl

def diffSyncCommittee (baseSsz targetSsz : List UInt8) : SyncCommitteeDiff :=
  if baseSsz = targetSsz then .unchanged else .fullReplacement targetSsz

def applySyncCommittee (base : List UInt8) : SyncCommitteeDiff → List UInt8
  | .unchanged => base
  | .fullReplacement replacement => replacement

theorem applySyncCommittee_diffSyncCommittee (base target : List UInt8) :
    applySyncCommittee base (diffSyncCommittee base target) = target := by
  unfold diffSyncCommittee
  by_cases heq : base = target
  · rw [if_pos heq]
    exact heq
  · rw [if_neg heq]
    rfl

/-! ## Pending queues -/

/-- The byte offset of the first item of `haystack` equal to `needle`. -/
def findChunkAligned (haystack needle : List UInt8) (itemSszSize : Nat) : Option Nat :=
  if needle.length ≠ itemSszSize then none
  else
    ((chunksExact itemSszSize haystack).findIdx? fun chunk => chunk.val == needle).map
      (· * itemSszSize)

def diffQueue (baseSsz targetSsz : List UInt8) (itemSszSize : Nat) : Option QueueDiff :=
  if itemSszSize = 0 then none
  else if targetSsz = [] then
    -- the `u32` division panics when the truncated size is zero
    if UInt32.ofNat itemSszSize = 0 then none
    else some (.fifo (UInt32.ofNat baseSsz.length / UInt32.ofNat itemSszSize) [])
  else if baseSsz = [] then some (.fifo 0 targetSsz)
  else if targetSsz.length < itemSszSize then none
  else
    let targetHead := targetSsz.take itemSszSize
    match findChunkAligned baseSsz targetHead itemSszSize with
    | some byteOffset =>
      let remainingBaseBytes := baseSsz.drop byteOffset
      let expectedTargetPrefixLen := remainingBaseBytes.length
      if expectedTargetPrefixLen ≤ targetSsz.length ∧
          targetSsz.take expectedTargetPrefixLen = remainingBaseBytes then
        some (.fifo (UInt32.ofNat (byteOffset / itemSszSize))
          (targetSsz.drop expectedTargetPrefixLen))
      else some (.fullReplacement targetSsz)
    | none => some (.fullReplacement targetSsz)

/-! ### The encoder's branches -/

theorem ofNat_size_ne_zero {size : Nat} (hpos : 0 < size) (hsize : size < 2 ^ 32) :
    UInt32.ofNat size ≠ 0 := by
  intro h
  have hnat := UInt32.toNat_ofNat_of_lt' hsize
  rw [h, UInt32.toNat_zero] at hnat
  omega

theorem diffQueue_nil {size : Nat} (base : List UInt8) (hpos : 0 < size) (hsize : size < 2 ^ 32) :
    diffQueue base [] size =
      some (.fifo (UInt32.ofNat base.length / UInt32.ofNat size) []) := by
  rw [diffQueue, if_neg hpos.ne', if_pos rfl, if_neg (ofNat_size_ne_zero hpos hsize)]

/-- What that branch counts: it narrows the byte length before it divides. -/
theorem toNat_emptied {size : Nat} (len : Nat) (hsize : size < 2 ^ 32) :
    (UInt32.ofNat len / UInt32.ofNat size).toNat = len % 2 ^ 32 / size := by
  rw [UInt32.toNat_div, UInt32.toNat_ofNat_of_lt' hsize, UInt32.toNat_ofNat']

theorem diffQueue_of_nil {size : Nat} {target : List UInt8} (hpos : 0 < size)
    (htarget : target ≠ []) : diffQueue [] target size = some (.fifo 0 target) := by
  rw [diffQueue, if_neg hpos.ne', if_neg htarget, if_pos rfl]

theorem take_length_eq_iff {α : Type} {l t : List α} :
    l.length ≤ t.length ∧ t.take l.length = l ↔ l <+: t := by
  constructor
  · rintro ⟨-, h⟩
    exact List.prefix_iff_eq_take.2 h.symm
  · intro h
    exact ⟨h.length_le, (List.prefix_iff_eq_take.1 h).symm⟩

/-- The encoder on two queues that begin with an item: the candidate is the base's first item equal
to the target's head. -/
theorem diffQueue_of_head {size : Nat} {base target : List UInt8} (hpos : 0 < size)
    (hbase : base ≠ []) (htarget : target ≠ []) (hlong : size ≤ target.length) :
    diffQueue base target size =
      some (match (chunksExact size base).findIdx? fun chunk => chunk.val == target.take size with
        | some idx =>
          if base.drop (idx * size) <+: target then
            .fifo (UInt32.ofNat idx) (target.drop (base.drop (idx * size)).length)
          else .fullReplacement target
        | none => .fullReplacement target) := by
  have hneedle : ¬(target.take size).length ≠ size := by
    rw [List.length_take, not_not]
    omega
  unfold diffQueue
  rw [if_neg hpos.ne', if_neg htarget, if_neg hbase, if_neg (by omega)]
  simp only [findChunkAligned, if_neg hneedle]
  cases (chunksExact size base).findIdx? fun chunk => chunk.val == target.take size with
  | none => rfl
  | some idx =>
    simp only [Option.map_some, take_length_eq_iff, Nat.mul_div_cancel idx hpos]
    rw [apply_ite some]

theorem lt_of_findIdx_chunks {size idx : Nat} {base : List UInt8} {p : Bytes size → Bool}
    (h : (chunksExact size base).findIdx? p = some idx) :
    idx < base.length / size ∧ idx * size ≤ base.length := by
  have hlt := (List.findIdx?_eq_some_iff_getElem.mp h).1
  rw [length_chunksExact] at hlt
  exact ⟨hlt, (Nat.mul_le_mul_right _ hlt.le).trans (Nat.div_mul_le_self _ _)⟩

/-! ### The applier -/

/-- The delta's own `deserialize` gives back the delta and cannot fail. -/
def applyQueue (b : Build) (base : List UInt8) (d : QueueDiff) (itemSszSize : Nat) :
    Exec (List UInt8) (List UInt8) :=
  match d with
  | .fifo consumedCount appendedItems => do
    let bytesToDrain ← orPanic base (b.mulUsize consumedCount.toNat itemSszSize)
    let kept := if bytesToDrain > base.length then [] else base.drop bytesToDrain
    .ok (kept ++ appendedItems)
  | .fullReplacement replacement => .ok replacement

theorem applyQueue_fifo (b : Build) (base : List UInt8) {consumed : UInt32} {size n : Nat}
    (appended : List UInt8) (hsize : size < 2 ^ 32) (hn : consumed.toNat = n)
    (hle : n * size ≤ base.length) :
    applyQueue b base (.fifo consumed appended) size = .ok (base.drop (n * size) ++ appended) := by
  have hc := consumed.toNat_lt
  have hmul : n * size < 2 ^ 64 :=
    Nat.lt_of_le_of_lt (Nat.mul_le_mul_left n hsize.le) (by omega)
  rw [applyQueue, hn, b.mulUsize_of_lt hmul, orPanic_some, ok_bind, if_neg (by omega)]

theorem applyQueue_isOk (b : Build) (base : List UInt8) (d : QueueDiff) {size : Nat}
    (hsize : size < 2 ^ 32) : ∃ out, applyQueue b base d size = .ok out := by
  cases d with
  | fullReplacement replacement => exact ⟨_, rfl⟩
  | fifo consumed appended =>
    have hc := consumed.toNat_lt
    have hmul : consumed.toNat * size < 2 ^ 64 :=
      Nat.lt_of_le_of_lt (Nat.mul_le_mul_left _ hsize.le) (by omega)
    rw [applyQueue, b.mulUsize_of_lt hmul, orPanic_some, ok_bind]
    exact ⟨_, rfl⟩

/-- **Queues**: whatever was consumed, appended or rewritten in between, the target comes back. -/
theorem queue_reconstructs (b : Build) {base target : List UInt8} {size : Nat} (hpos : 0 < size)
    (hsize : size < 2 ^ 32) (hbase : base.length < 2 ^ 32)
    (hdrained : target = [] → size ∣ base.length)
    (hhead : base ≠ [] → target ≠ [] → size ≤ target.length) :
    ∃ d, diffQueue base target size = some d ∧ applyQueue b base d size = .ok target := by
  by_cases htarget : target = []
  · -- everything was consumed
    subst htarget
    have hcount := toNat_emptied base.length hsize
    rw [Nat.mod_eq_of_lt hbase] at hcount
    have hall := Nat.div_mul_cancel (hdrained rfl)
    refine ⟨_, diffQueue_nil base hpos hsize, ?_⟩
    rw [applyQueue_fifo b base [] hsize hcount hall.le, hall, List.drop_length, List.append_nil]
  by_cases hempty : base = []
  · subst hempty
    refine ⟨_, diffQueue_of_nil hpos htarget, ?_⟩
    rw [applyQueue_fifo b [] target hsize (show (0 : UInt32).toNat = 0 by rfl) (by simp)]
    simp
  rw [diffQueue_of_head hpos hempty htarget (hhead hempty htarget)]
  refine ⟨_, rfl, ?_⟩
  cases hfind : (chunksExact size base).findIdx? fun chunk => chunk.val == target.take size with
  | none => rfl
  | some idx =>
    obtain ⟨hlt, hle⟩ := lt_of_findIdx_chunks hfind
    have hcount : (UInt32.ofNat idx).toNat = idx :=
      UInt32.toNat_ofNat_of_lt' ((hlt.trans_le (Nat.div_le_self _ _)).trans hbase)
    by_cases hover : base.drop (idx * size) <+: target
    · -- the validated overlap is a prefix of the target
      simp only [if_pos hover]
      rw [applyQueue_fifo b base _ hsize hcount hle, List.prefix_iff_eq_append.1 hover]
    · simp only [if_neg hover]
      rfl

end EthStateDiff
