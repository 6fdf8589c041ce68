import EthStateDiff.Chain
import EthStateDiff.Creation
import EthStateDiff.Frames
/-!
# Exactly which states `create` and `apply` carry over (`lib.rs:512-851`)

`Linked` is enough for a link. Here is what is needed: the encoders must return (`Encodable`), and
the appliers must make the target of the base (`Restores`).

* `applyBalancesIter_eq_target_iff`, … — one component.
* `onBoth_eq_target_iff` — an optional one.
* `apply_created_iff`, `link_reconstructs_iff` — exactly when a delta carries one state to the other.
* `chain_reconstructs_iff` — exactly when an archived chain can be replayed.
-/

namespace EthStateDiff

open Rust ByteString Overwrite Replay

/-! ## When an applier makes the target of the base -/

theorem applyBalancesIter_eq_target_iff {b : Build} {order : HashOrder} {base target : List UInt64}
    {d : BalancesDiff} (hd : diffBalancesIter b order base target = some d) :
    applyBalancesIter b base d = .ok target ↔ base.length ≤ target.length := by
  have hfit := diffBalancesIter_isSome.1 ⟨d, hd⟩
  constructor
  · intro hrun
    exact (leaves_applyBalancesIter b base d).of_ok hrun
  · intro hle
    obtain ⟨d', hd', hrun⟩ := applyBalancesIter_diffBalancesIter b order hle hfit
    obtain rfl := Option.some.inj (hd.symm.trans hd')
    exact hrun

theorem applyValidatorsIter_eq_target_iff (b : Build) {base target : ByteValidatorTarget}
    (hbase : VALIDATOR_SSZ_SIZE ∣ base.bytes.length)
    (htarget : VALIDATOR_SSZ_SIZE ∣ target.bytes.length)
    (hmax : base.bytes.length / VALIDATOR_SSZ_SIZE < 2 ^ 32) :
    applyValidatorsIter b base (diffValidatorsIter (chunksExact VALIDATOR_SSZ_SIZE base.bytes)
        (chunksExact VALIDATOR_SSZ_SIZE target.bytes)) = .ok target ↔
      base.bytes.length ≤ target.bytes.length ∧
        ∀ p ∈ (records base.bytes).zip (records target.bytes), Rebuilds p.1 p.2 := by
  rw [← applyValidators_eq_iff b hbase htarget hmax]
  unfold applyValidators
  show _ ↔ mapState _ (applyValidatorsIter b base (diffValidators base.bytes target.bytes)) = _
  have hdiff : diffValidators base.bytes target.bytes =
      diffValidatorsIter (chunksExact VALIDATOR_SSZ_SIZE base.bytes)
        (chunksExact VALIDATOR_SSZ_SIZE target.bytes) := rfl
  rw [hdiff]
  cases applyValidatorsIter b base (diffValidatorsIter (chunksExact VALIDATOR_SSZ_SIZE base.bytes)
      (chunksExact VALIDATOR_SSZ_SIZE target.bytes)) with
  | error out => simp
  | ok out =>
    obtain ⟨bytes⟩ := out
    obtain ⟨tbytes⟩ := target
    simp

/-- A ring whose capacity differs from the base's cannot come back. -/
theorem applyRoots_eq_target_iff (b : Build) {baseSlot targetSlot : UInt64}
    (base : List (Bytes 32)) {target : List (Bytes 32)} {d : RootsDiff}
    (hd : diffRoots baseSlot targetSlot target = some d) :
    applyRoots b baseSlot base d = .ok target ↔
      RingLinked baseSlot.toNat targetSlot.toNat base target := by
  obtain ⟨hle, hne, hspan⟩ := diffRoots_isSome.1 ⟨d, hd⟩
  by_cases hlen : base.length = target.length
  · obtain ⟨d', hd', hiff⟩ := diffRoots_reconstructs b hle hspan hlen hne
    obtain rfl := Option.some.inj (hd.symm.trans hd')
    rw [hiff]
    exact ⟨fun h => ⟨hlen, hne, h⟩, RingLinked.agree⟩
  · refine ⟨fun hrun => ?_, fun h => absurd h.capacity hlen⟩
    exact absurd ((leaves_applyRoots b baseSlot base d).of_ok hrun).symm hlen

theorem applyRandao_eq_target_iff {baseSlot targetSlot : UInt64} (base : List (Bytes 32))
    {target : List (Bytes 32)} {d : RandaoDiff}
    (hd : diffRandao baseSlot targetSlot target = some d) :
    applyRandao baseSlot base d = .ok target ↔
      RingLinked (baseSlot.toNat / 32) (targetSlot.toNat / 32 + 1) base target := by
  obtain ⟨hle, hne, hspan⟩ := diffRandao_isSome.1 ⟨d, hd⟩
  by_cases hlen : base.length = target.length
  · obtain ⟨d', hd', hiff⟩ := diffRandao_reconstructs hle hspan hlen hne
    obtain rfl := Option.some.inj (hd.symm.trans hd')
    rw [hiff]
    exact ⟨fun h => ⟨hlen, hne, h⟩, RingLinked.agree⟩
  · refine ⟨fun hrun => ?_, fun h => absurd h.capacity hlen⟩
    exact absurd ((leaves_applyRandao baseSlot base d).of_ok hrun).symm hlen

theorem applySlashings_eq_target_iff {baseSlot targetSlot : UInt64} {base target : List UInt64}
    {d : SlashingsDiff} (hd : diffSlashings baseSlot targetSlot base target = some d)
    (hcap : target.length ≤ 65536) : applySlashings base d = .ok target ↔
      RingLinked (baseSlot.toNat / 32 + 1) (targetSlot.toNat / 32 + 1) base target := by
  obtain ⟨hle, hbase, hlen⟩ := diffSlashings_isSome.1 ⟨d, hd⟩
  have hne := ne_nil_of_length_eq hlen.symm hbase
  obtain ⟨d', hd', hiff⟩ := diffSlashings_reconstructs hle hlen hne hcap
  obtain rfl := Option.some.inj (hd.symm.trans hd')
  rw [hiff]
  exact ⟨fun h => ⟨hlen, hne, h⟩, RingLinked.agree⟩

/-- The log grew by exactly one item for each period end of `lo + 1, …, hi`. -/
def LogGrows (activation : Option UInt64) (lo hi size : Nat) (base target : List UInt8) : Prop :=
  ∃ items, target = base ++ items ∧ items.length = (periodEnds activation lo hi).card * size

theorem applyHistoricalLog_eq_target_iff {b : Build} {baseSlot targetSlot : UInt64}
    {base target : List UInt8} {size : Nat} {activation : Option UInt64} {d : HistoricalLogDiff}
    (hd : diffHistoricalLog b baseSlot targetSlot target size activation = some d)
    (hle : baseSlot ≤ targetSlot) (hmax : targetSlot.toNat < 2 ^ 64 - 1)
    (hlen : target.length < 2 ^ 64) (hsize : size ≤ 64) :
    applyHistoricalLog base d = target ↔
      LogGrows activation baseSlot.toNat targetSlot.toNat size base target := by
  constructor
  · intro hrun
    have hlong := (diffHistoricalLog_isSome b hle hmax hlen hsize).1 ⟨d, hd⟩
    rw [diffHistoricalLog_spec b hle hmax hlen hlong] at hd
    split at hd
    · rename_i hzero
      obtain rfl := Option.some.inj hd
      exact ⟨[], by rw [← hrun, List.append_nil]; rfl, by rw [hzero, Nat.zero_mul]; rfl⟩
    · obtain rfl := Option.some.inj hd
      refine ⟨_, hrun.symm, ?_⟩
      rw [List.length_drop]
      omega
  · rintro ⟨items, rfl, hitems⟩
    obtain ⟨d', hd', hrun⟩ := historicalLog_reconstructs b hle hmax hlen hitems
    obtain rfl := Option.some.inj (hd.symm.trans hd')
    exact hrun

theorem applyQueue_eq_target_iff (b : Build) {size : Nat} {base target : List UInt8} {d : QueueDiff}
    (hd : diffQueue base target size = some d) (hpos : 0 < size) (hsize : size < 2 ^ 32)
    (hbase : base.length < 2 ^ 32) :
    applyQueue b base d size = .ok target ↔ (target = [] → size ∣ base.length) := by
  have hhead := (diffQueue_isSome hpos hsize).1 ⟨d, hd⟩
  constructor
  · rintro hrun rfl
    have hcount := toNat_emptied base.length hsize
    rw [Nat.mod_eq_of_lt hbase] at hcount
    have hle := Nat.div_mul_le_self base.length size
    rw [diffQueue_nil base hpos hsize, Option.some.injEq] at hd
    rw [← hd, applyQueue_fifo b base [] hsize hcount hle, Except.ok.injEq, List.append_nil,
      List.drop_eq_nil_iff] at hrun
    exact ⟨base.length / size, by rw [Nat.mul_comm]; omega⟩
  · intro hdrained
    obtain ⟨d', hd', hrun⟩ := queue_reconstructs b hpos hsize hbase hdrained hhead
    obtain rfl := Option.some.inj (hd.symm.trans hd')
    exact hrun

theorem applyInactivity_eq_target_iff {base target : List UInt64} (hmax : target.length < 2 ^ 32) :
    applyInactivity base (diffInactivity base target) = .ok target ↔
      base.length ≤ target.length ∨ ((∀ v ∈ target, v = 0) ∧ ∃ v ∈ base, v ≠ 0) := by
  have hreset : ((∀ v ∈ target, v = 0) ∧ ∃ v ∈ base, v ≠ 0) ↔
      (target.all (· == 0) && base.any (· != 0)) = true := by simp
  rw [applyInactivity_eq hmax, Except.ok.injEq, hreset]
  by_cases h : (target.all (· == 0) && base.any (· != 0)) = true
  · rw [if_pos h]
    exact ⟨fun _ => Or.inr h, fun _ => rfl⟩
  · rw [if_neg h, overlay_eq_iff, or_iff_left h]

/-! ## Optional components -/

/-- An optional component comes back iff both states have it or neither does, and its own delta
carries the one to the other. -/
theorem onBoth_eq_target_iff {α δ : Type} (diff : α → α → Option δ) {run : α → δ → Exec α α}
    {x y : Option α} {e : Option δ} (habsent : y = none → e = none)
    (hpresent : ∀ base target, x = some base → y = some target →
      ∃ c, diff base target = some c ∧ e = some c) :
    onBoth run e x = .ok y ↔ x.isSome = y.isSome ∧
      OnPair (fun base target => ∀ c, diff base target = some c → run base c = .ok target) x y := by
  cases x with
  | none =>
    cases y with
    | none => exact ⟨fun _ => ⟨rfl, fun _ _ h => (by cases h)⟩, fun _ => rfl⟩
    | some t => exact ⟨fun h => (by cases h), fun h => (by cases h.1)⟩
  | some base =>
    cases y with
    | none =>
      obtain rfl := habsent rfl
      exact ⟨fun h => (by cases h), fun h => (by cases h.1)⟩
    | some target =>
      obtain ⟨c, hc, rfl⟩ := hpresent base target rfl rfl
      constructor
      · intro hrun
        refine ⟨rfl, ?_⟩
        rintro _ _ ⟨⟩ ⟨⟩ c' hc'
        obtain rfl := Option.some.inj (hc.symm.trans hc')
        cases hout : run base c with
        | error out => simp [onBoth, hout] at hrun
        | ok out => simpa [onBoth, hout] using hrun
      · rintro ⟨-, hpair⟩
        rw [onBoth, hpair base target rfl rfl c hc, mapState_ok]

/-- Encoded from both states. -/
theorem onBoth_both_iff {α δ : Type} (diff : α → α → Option δ) {run : α → δ → Exec α α}
    {x y : Option α} {e : Option δ}
    (he : mapPanic (fun p : α × α => diff p.1 p.2) (both x y) = some e) :
    onBoth run e x = .ok y ↔ x.isSome = y.isSome ∧
      OnPair (fun base target => ∀ c, diff base target = some c → run base c = .ok target) x y := by
  refine onBoth_eq_target_iff diff ?_ ?_
  · rintro rfl
    cases x <;> exact (Option.some.inj he).symm
  · rintro base target rfl rfl
    obtain ⟨c, hc, rfl⟩ := Option.map_eq_some_iff.1 he
    exact ⟨c, hc, rfl⟩

/-- Encoded from both states by an encoder that cannot panic. -/
theorem onBoth_both_total_iff {α δ : Type} {diff : α → α → δ} {run : α → δ → Exec α α}
    {x y : Option α} {e : Option δ} (he : e = (both x y).map fun p => diff p.1 p.2) :
    onBoth run e x = .ok y ↔ x.isSome = y.isSome ∧
      OnPair (fun base target => run base (diff base target) = .ok target) x y := by
  have he' : mapPanic (fun p : α × α => some (diff p.1 p.2)) (both x y) = some e := by
    rw [he]
    cases both x y <;> rfl
  rw [onBoth_both_iff (fun base target => some (diff base target)) he']
  refine and_congr_right fun _ => ?_
  constructor
  · exact fun h base target hx hy => h base target hx hy _ rfl
  · rintro h base target hx hy _ ⟨⟩
    exact h base target hx hy

/-- Encoded from the target state alone. -/
theorem onBoth_target_iff {α δ : Type} {diff : α → Option δ} {run : α → δ → Exec α α}
    {x y : Option α} {e : Option δ} (he : mapPanic diff y = some e) :
    onBoth run e x = .ok y ↔ x.isSome = y.isSome ∧
      OnPair (fun base target => ∀ c, diff target = some c → run base c = .ok target) x y := by
  refine onBoth_eq_target_iff (fun _ => diff) ?_ ?_
  · rintro rfl
    exact (Option.some.inj he).symm
  · rintro base target rfl rfl
    obtain ⟨c, hc, rfl⟩ := Option.map_eq_some_iff.1 he
    exact ⟨c, hc, rfl⟩

/-! ## Links, exactly -/

/-- What a 64-bit machine and the protocol's limits leave open: a slot below the last one, whole
records, and counts that fit their indices. -/
structure Indexed (S : Snapshot) : Prop where
  slot : S.slot.toNat < 2 ^ 64 - 1
  records : VALIDATOR_SSZ_SIZE ∣ S.state.validators.bytes.length
  recordCount : S.state.validators.bytes.length / VALIDATOR_SSZ_SIZE < 2 ^ 32
  slashings : S.state.slashings.length ≤ 65536
  historicalRoots : ∀ log, S.state.historicalRoots = some log → log.length < 2 ^ 64
  historicalSummaries : ∀ log, S.state.historicalSummaries = some log → log.length < 2 ^ 64
  previousParticipation : ∀ flags, S.state.previousParticipation = some flags →
    flags.length < 2 ^ 63
  currentParticipation : ∀ flags, S.state.currentParticipation = some flags → flags.length < 2 ^ 63
  inactivityScores : ∀ scores, S.state.inactivityScores = some scores → scores.length < 2 ^ 32
  pendingDeposits : ∀ queue, S.state.pendingDeposits = some queue → queue.length < 2 ^ 32
  pendingPartialWithdrawals : ∀ queue, S.state.pendingPartialWithdrawals = some queue →
    queue.length < 2 ^ 32
  pendingConsolidations : ∀ queue, S.state.pendingConsolidations = some queue → queue.length < 2 ^ 32

/-- The balances can be counted in an archive, too. -/
structure Bounded (S : Snapshot) : Prop extends Indexed S where
  balanceCount : S.state.balances.length < 2 ^ 32

/-- Every component of `T` is what its delta makes of that component of `B`. -/
structure Restores (capellaForkSlot : UInt64) (B T : Snapshot) : Prop where
  fork : T.state.fork = B.state.fork
  present : ∀ field, B.state.has field = T.state.has field
  allowed : ∀ field, T.state.has field = true → field.InFork T.state.fork
  balances : B.state.balances.length ≤ T.state.balances.length
  validators : B.state.validators.bytes.length ≤ T.state.validators.bytes.length ∧
    ∀ p ∈ (records B.state.validators.bytes).zip (records T.state.validators.bytes),
      Rebuilds p.1 p.2
  blockRoots : RingLinked B.slot.toNat T.slot.toNat B.state.blockRoots T.state.blockRoots
  stateRoots : RingLinked B.slot.toNat T.slot.toNat B.state.stateRoots T.state.stateRoots
  randaoMixes : RingLinked (B.slot.toNat / 32) (T.slot.toNat / 32 + 1) B.state.randaoMixes
    T.state.randaoMixes
  slashings : RingLinked (B.slot.toNat / 32 + 1) (T.slot.toNat / 32 + 1) B.state.slashings
    T.state.slashings
  eth1DataVotes : T.state.eth1DataVotes.length < B.state.eth1DataVotes.length ∨
    B.state.eth1DataVotes <+: T.state.eth1DataVotes
  historicalRoots : OnPair (LogGrows none B.slot.toNat T.slot.toNat HISTORICAL_ROOTS_SSZ_SIZE)
    B.state.historicalRoots T.state.historicalRoots
  previousParticipation : OnPair (fun base target => base.length ≤ target.length)
    B.state.previousParticipation T.state.previousParticipation
  currentParticipation : OnPair (fun base target => base.length ≤ target.length)
    B.state.currentParticipation T.state.currentParticipation
  inactivityScores : OnPair (fun base target => base.length ≤ target.length ∨
    ((∀ v ∈ target, v = 0) ∧ ∃ v ∈ base, v ≠ 0)) B.state.inactivityScores T.state.inactivityScores
  historicalSummaries : OnPair (LogGrows (some capellaForkSlot) B.slot.toNat T.slot.toNat
    HISTORICAL_SUMMARIES_SSZ_SIZE) B.state.historicalSummaries T.state.historicalSummaries
  pendingDeposits : OnPair (fun base target => target = [] → PENDING_DEPOSIT_SSZ_SIZE ∣ base.length)
    B.state.pendingDeposits T.state.pendingDeposits
  pendingPartialWithdrawals : OnPair (fun base target =>
    target = [] → PARTIAL_WITHDRAWAL_SSZ_SIZE ∣ base.length)
    B.state.pendingPartialWithdrawals T.state.pendingPartialWithdrawals
  pendingConsolidations : OnPair (fun base target =>
    target = [] → PENDING_CONSOLIDATION_SSZ_SIZE ∣ base.length)
    B.state.pendingConsolidations T.state.pendingConsolidations

/-- A source of two states that have the same components has them too. -/
theorem has_source {capellaForkSlot : UInt64} {B T : Snapshot}
    (h : ∀ field, B.state.has field = T.state.has field) (field : OptionalField) :
    (source capellaForkSlot B T).has field = T.state.has field := by
  have hsame := h field
  cases field with
  | historicalRoots | historicalSummaries => rfl
  | _ => exact isSome_both hsame

theorem onPair_congr {α : Type} {P Q : α → α → Prop} {x y : Option α}
    (h : ∀ base target, x = some base → y = some target → (P base target ↔ Q base target)) :
    OnPair P x y ↔ OnPair Q x y :=
  forall_congr' fun base => forall_congr' fun target => forall_congr' fun hx =>
    forall_congr' fun hy => h base target hx hy

theorem log_restored_iff {b : Build} {baseSlot targetSlot : UInt64} {activation : Option UInt64}
    {size : Nat} {x y : Option (List UInt8)} {e : Option HistoricalLogDiff}
    (he : mapPanic (diffHistoricalLog b baseSlot targetSlot · size activation) y = some e)
    (hle : baseSlot ≤ targetSlot) (hmax : targetSlot.toNat < 2 ^ 64 - 1)
    (hlen : ∀ log, y = some log → log.length < 2 ^ 64) (hsize : size ≤ 64) :
    onBoth (fun x δ => .ok (applyHistoricalLog x δ)) e x = .ok y ↔ x.isSome = y.isSome ∧
      OnPair (LogGrows activation baseSlot.toNat targetSlot.toNat size) x y := by
  rw [onBoth_target_iff he]
  refine and_congr_right fun _ => onPair_congr fun base target _ hy => ?_
  obtain ⟨c, hc⟩ := mapPanic_isSome.1 ⟨e, he⟩ target hy
  have hiff : ∀ {c}, diffHistoricalLog b baseSlot targetSlot target size activation = some c →
      (applyHistoricalLog base c = target ↔
        LogGrows activation baseSlot.toNat targetSlot.toNat size base target) :=
    fun hc => applyHistoricalLog_eq_target_iff hc hle hmax (hlen target hy) hsize
  constructor
  · exact fun h => (hiff hc).1 (Except.ok.inj (h c hc))
  · exact fun h c' hc' => congrArg Except.ok ((hiff hc').2 h)

theorem queue_restored_iff (b : Build) {size : Nat} {x y : Option (List UInt8)}
    {e : Option QueueDiff}
    (he : mapPanic (fun (p : List UInt8 × List UInt8) => diffQueue p.1 p.2 size) (both x y) =
      some e) (hpos : 0 < size) (hsize : size < 2 ^ 32)
    (hlen : ∀ queue, x = some queue → queue.length < 2 ^ 32) :
    onBoth (applyQueue b · · size) e x = .ok y ↔ x.isSome = y.isSome ∧
      OnPair (fun base target => target = [] → size ∣ base.length) x y := by
  rw [onBoth_both_iff (diffQueue · · size) he]
  refine and_congr_right fun _ => onPair_congr fun base target hx hy => ?_
  have hiff : ∀ {c}, diffQueue base target size = some c →
      (applyQueue b base c size = .ok target ↔ (target = [] → size ∣ base.length)) :=
    fun hc => applyQueue_eq_target_iff b hc hpos hsize (hlen base hx)
  obtain ⟨c, hc⟩ := mapPanic_isSome.1 ⟨e, he⟩ (base, target) (by rw [hx, hy]; rfl)
  exact ⟨fun h => (hiff hc).1 (h c hc), fun h c' hc' => (hiff hc').2 h⟩

theorem flags_restored_iff (b : Build) {x y : Option (List UInt8)} {e : Option ParticipationDiff}
    (he : e = (both x y).map fun p => diffParticipationIter p.1 p.2)
    (hlen : ∀ flags, y = some flags → flags.length < 2 ^ 63) :
    onBoth (applyParticipationIter b) e x = .ok y ↔ x.isSome = y.isSome ∧
      OnPair (fun base target => base.length ≤ target.length) x y := by
  rw [onBoth_both_total_iff he]
  refine and_congr_right fun _ => onPair_congr fun base target _ hy => ?_
  rw [applyParticipationIter_overlay b (hlen target hy), Except.ok.injEq]
  exact overlay_eq_iff

theorem scores_restored_iff {x y : Option (List UInt64)} {e : Option InactivityDiff}
    (he : e = (both x y).map fun p => diffInactivity p.1 p.2)
    (hlen : ∀ scores, y = some scores → scores.length < 2 ^ 32) :
    onBoth applyInactivity e x = .ok y ↔ x.isSome = y.isSome ∧
      OnPair (fun base target => base.length ≤ target.length ∨
        ((∀ v ∈ target, v = 0) ∧ ∃ v ∈ base, v ≠ 0)) x y := by
  rw [onBoth_both_total_iff he]
  exact and_congr_right fun _ => onPair_congr fun base target _ hy =>
    applyInactivity_eq_target_iff (hlen target hy)

theorem attestations_restored_iff {x y : Option (List UInt8)} {e : Option AttestationsDiff}
    (he : e = (both x y).map fun p => diffAttestations p.1 p.2) :
    onBoth (fun x δ => .ok (applyAttestations x δ)) e x = .ok y ↔ x.isSome = y.isSome := by
  rw [onBoth_both_total_iff he, and_iff_left]
  exact fun base target _ _ => congrArg Except.ok (applyAttestations_diffAttestations base target)

theorem committee_restored_iff {x y : Option (List UInt8)} {e : Option SyncCommitteeDiff}
    (he : e = (both x y).map fun p => diffSyncCommittee p.1 p.2) :
    onBoth (fun x δ => .ok (applySyncCommittee x δ)) e x = .ok y ↔ x.isSome = y.isSome := by
  rw [onBoth_both_total_iff he, and_iff_left]
  exact fun base target _ _ => congrArg Except.ok (applySyncCommittee_diffSyncCommittee base target)

/-- **A created delta gives the target** iff every component restores it. -/
theorem apply_created_iff {b : Build} {order : HashOrder} {capellaForkSlot : UInt64}
    {B T : Snapshot} {d : BeaconStateDelta ForkName} (r : Rkyv) (hB : Bounded B) (hT : Bounded T)
    (h : Created b order (source capellaForkSlot B T) d) :
    apply b B.state (d.archive r) = .ok T.state ↔ Restores capellaForkSlot B T := by
  have harchive := h.archive_eq r (Nat.lt_of_le_of_lt (Nat.min_le_left _ _) hB.balanceCount)
  have hhas : ∀ field, ({ d with fork := .ok d.fork } : ArchivedBeaconStateDelta).has field =
      d.has field := fun field => by rw [← harchive, has_archive]
  have hle : B.slot ≤ T.slot := (diffRoots_isSome.1 ⟨_, h.blockRoots⟩).1
  have hbal := applyBalancesIter_eq_target_iff h.balances
  have hval := applyValidatorsIter_eq_target_iff b hB.records hT.records hB.recordCount
  have hblock := applyRoots_eq_target_iff b B.state.blockRoots h.blockRoots
  have hstate := applyRoots_eq_target_iff b B.state.stateRoots h.stateRoots
  have hrandao := applyRandao_eq_target_iff B.state.randaoMixes h.randaoMixes
  have hslash := applySlashings_eq_target_iff h.slashings hT.slashings
  have hvotes := eth1Votes_reconstructs_iff B.state.eth1DataVotes T.state.eth1DataVotes
  have hhr := log_restored_iff (x := B.state.historicalRoots) h.historicalRoots hle hT.slot
    hT.historicalRoots (by decide)
  have hpa := attestations_restored_iff h.previousEpochAttestations
  have hca := attestations_restored_iff h.currentEpochAttestations
  have hpp := flags_restored_iff b h.previousParticipation hT.previousParticipation
  have hcp := flags_restored_iff b h.currentParticipation hT.currentParticipation
  have hin := scores_restored_iff h.inactivityScores hT.inactivityScores
  have hcs := committee_restored_iff h.currentSyncCommittee
  have hns := committee_restored_iff h.nextSyncCommittee
  have hhs := log_restored_iff (x := B.state.historicalSummaries) h.historicalSummaries hle hT.slot
    hT.historicalSummaries (by decide)
  have hpd := queue_restored_iff b h.pendingDeposits (by decide) (by decide) hB.pendingDeposits
  have hpw := queue_restored_iff b h.pendingPartialWithdrawals (by decide) (by decide)
    hB.pendingPartialWithdrawals
  have hpc := queue_restored_iff b h.pendingConsolidations (by decide) (by decide)
    hB.pendingConsolidations
  rw [harchive, apply_eq_ok]
  constructor
  · rintro ⟨-, hallowed, happ⟩
    have hsame : ∀ field, B.state.has field = T.state.has field := by
      intro field
      cases field with
      | historicalRoots => exact (hhr.1 happ.historicalRoots).1
      | previousEpochAttestations => exact hpa.1 happ.previousEpochAttestations
      | currentEpochAttestations => exact hca.1 happ.currentEpochAttestations
      | previousParticipation => exact (hpp.1 happ.previousParticipation).1
      | currentParticipation => exact (hcp.1 happ.currentParticipation).1
      | inactivityScores => exact (hin.1 happ.inactivityScores).1
      | currentSyncCommittee => exact hcs.1 happ.currentSyncCommittee
      | nextSyncCommittee => exact hns.1 happ.nextSyncCommittee
      | historicalSummaries => exact (hhs.1 happ.historicalSummaries).1
      | pendingDeposits => exact (hpd.1 happ.pendingDeposits).1
      | pendingPartialWithdrawals => exact (hpw.1 happ.pendingPartialWithdrawals).1
      | pendingConsolidations => exact (hpc.1 happ.pendingConsolidations).1
    exact {
      fork := happ.fork
      present := hsame
      allowed := fun field hfield => by
        rw [happ.fork]
        refine hallowed field ?_
        rw [hhas, h.has, has_source hsame]
        exact hfield
      balances := hbal.1 happ.balances
      validators := hval.1 (h.validators ▸ happ.validators)
      blockRoots := hblock.1 (h.baseSlot ▸ happ.blockRoots)
      stateRoots := hstate.1 (h.baseSlot ▸ happ.stateRoots)
      randaoMixes := hrandao.1 (h.baseSlot ▸ happ.randaoMixes)
      slashings := hslash.1 happ.slashings
      eth1DataVotes := hvotes.1 (h.eth1DataVotes ▸ happ.eth1DataVotes)
      historicalRoots := (hhr.1 happ.historicalRoots).2
      previousParticipation := (hpp.1 happ.previousParticipation).2
      currentParticipation := (hcp.1 happ.currentParticipation).2
      inactivityScores := (hin.1 happ.inactivityScores).2
      historicalSummaries := (hhs.1 happ.historicalSummaries).2
      pendingDeposits := (hpd.1 happ.pendingDeposits).2
      pendingPartialWithdrawals := (hpw.1 happ.pendingPartialWithdrawals).2
      pendingConsolidations := (hpc.1 happ.pendingConsolidations).2 }
  · intro hres
    refine ⟨congrArg Except.ok (h.fork.trans hres.fork), fun field hfield => ?_, ?_⟩
    · rw [← hres.fork]
      refine hres.allowed field ?_
      rw [hhas, h.has, has_source hres.present] at hfield
      exact hfield
    · exact {
        fork := hres.fork
        scalarHeader := h.scalarHeader.symm
        balances := hbal.2 hres.balances
        validators := h.validators ▸ hval.2 hres.validators
        blockRoots := h.baseSlot ▸ hblock.2 hres.blockRoots
        stateRoots := h.baseSlot ▸ hstate.2 hres.stateRoots
        randaoMixes := h.baseSlot ▸ hrandao.2 hres.randaoMixes
        slashings := hslash.2 hres.slashings
        eth1DataVotes := h.eth1DataVotes ▸ hvotes.2 hres.eth1DataVotes
        historicalRoots := hhr.2 ⟨hres.present .historicalRoots, hres.historicalRoots⟩
        previousEpochAttestations := hpa.2 (hres.present .previousEpochAttestations)
        currentEpochAttestations := hca.2 (hres.present .currentEpochAttestations)
        previousParticipation := hpp.2 ⟨hres.present .previousParticipation, hres.previousParticipation⟩
        currentParticipation := hcp.2 ⟨hres.present .currentParticipation, hres.currentParticipation⟩
        inactivityScores := hin.2 ⟨hres.present .inactivityScores, hres.inactivityScores⟩
        currentSyncCommittee := hcs.2 (hres.present .currentSyncCommittee)
        nextSyncCommittee := hns.2 (hres.present .nextSyncCommittee)
        historicalSummaries := hhs.2 ⟨hres.present .historicalSummaries, hres.historicalSummaries⟩
        pendingDeposits := hpd.2 ⟨hres.present .pendingDeposits, hres.pendingDeposits⟩
        pendingPartialWithdrawals :=
          hpw.2 ⟨hres.present .pendingPartialWithdrawals, hres.pendingPartialWithdrawals⟩
        pendingConsolidations := hpc.2 ⟨hres.present .pendingConsolidations, hres.pendingConsolidations⟩ }

/-- What a delta asks of two states: the encoders return, and the appliers restore the target. -/
def Carries (b : Build) (capellaForkSlot : UInt64) (B T : Snapshot) : Prop :=
  Encodable b (source capellaForkSlot B T) ∧ Restores capellaForkSlot B T

theorem link_reconstructs_iff (b : Build) (r : Rkyv) (order : HashOrder) (capellaForkSlot : UInt64)
    {B T : Snapshot} (hB : Bounded B) (hT : Bounded T) :
    (∃ d, create b order (source capellaForkSlot B T) = some d ∧
      apply b B.state (d.archive r) = .ok T.state) ↔ Carries b capellaForkSlot B T := by
  have hreturns : (∃ d, create b order (source capellaForkSlot B T) = some d) ↔
      Encodable b (source capellaForkSlot B T) :=
    create_isSome b order hT.slot hT.historicalRoots hT.historicalSummaries
  rw [Carries, ← hreturns]
  constructor
  · rintro ⟨d, hd, happly⟩
    exact ⟨⟨d, hd⟩, (apply_created_iff r hB hT (create_eq_some.1 hd).1).1 happly⟩
  · rintro ⟨⟨d, hd⟩, hrestores⟩
    exact ⟨d, hd, (apply_created_iff r hB hT (create_eq_some.1 hd).1).2 hrestores⟩

/-- One link of a replay. -/
theorem link_replays_iff (b : Build) (r : Rkyv) (order : HashOrder) (capellaForkSlot : UInt64)
    {B T : Snapshot} (hB : Bounded B) (hT : Bounded T) :
    (∃ d, create b order (source capellaForkSlot B T) = some d ∧
      (apply b B.state (d.archive r)).state? = some T.state) ↔ Carries b capellaForkSlot B T := by
  rw [← link_reconstructs_iff b r order capellaForkSlot hB hT]
  refine exists_congr fun d => and_congr_right fun _ => ?_
  cases apply b B.state (d.archive r) <;> simp [Outcome.state?]

/-- **Exactly when a chain can be archived and replayed**: every state carries over to the next,
and that is a condition on the two states alone. -/
theorem chain_reconstructs_iff (b : Build) (r : Rkyv) (order : HashOrder) (capellaForkSlot : UInt64)
    (first : Snapshot) (later : List Snapshot) (hbounded : ∀ S ∈ first :: later, Bounded S) :
    (∃ deltas,
      diffAll (fun B T => create b order (source capellaForkSlot B T)) first later = some deltas ∧
      replay (fun s d => (apply b s (d.archive r)).state?) first.state deltas =
        some (later.map Snapshot.state)) ↔
      List.IsChain (Carries b capellaForkSlot) (first :: later) :=
  replay_diffAll_iff (fun _ _ hB hT => link_replays_iff b r order capellaForkSlot hB hT)
    first later hbounded

theorem bounded_joining {n : Nat} (hn : n ≤ 256) : Bounded (joining n) := by
  have hlen : (joining n).state.validators.bytes.length = (n + 1) * 121 := by
    show (encRaw _).length = _
    rw [length_encRaw, List.length_replicate]
  exact {
    slot := by
      rw [toNat_slot_joining hn]
      omega
    balanceCount := by
      show (List.replicate (n + 1) _).length < _
      rw [List.length_replicate]
      omega
    records := ⟨n + 1, by rw [hlen, Nat.mul_comm]⟩
    recordCount := by
      rw [hlen]
      show (n + 1) * 121 / 121 < _
      omega
    slashings := by
      show 1 ≤ 65536
      omega
    historicalRoots := by
      rintro _ ⟨⟩
    historicalSummaries := by
      rintro _ ⟨⟩
      rw [List.length_replicate]
      omega
    previousParticipation := by
      rintro _ ⟨⟩
      rw [List.length_replicate]
      omega
    currentParticipation := by
      rintro _ ⟨⟩
      rw [List.length_replicate]
      omega
    inactivityScores := by
      rintro _ ⟨⟩
      rw [List.length_replicate]
      omega
    pendingDeposits := by
      rintro _ ⟨⟩
      decide
    pendingPartialWithdrawals := by
      rintro _ ⟨⟩
      rw [List.length_replicate]
      omega
    pendingConsolidations := by
      rintro _ ⟨⟩
      rw [List.length_append, List.length_replicate, List.length_replicate]
      omega }

/-- The Electra chain can be archived, so its states carry over. -/
theorem chain_reconstructs_iff_joining :
    List.IsChain (Carries Build.dev 0) [joining 0, joining 1, joining 2] := by
  have hbounded : ∀ S ∈ [joining 0, joining 1, joining 2], Bounded S := by
    simp only [List.forall_mem_cons, List.not_mem_nil, false_imp_iff, implies_true, and_true]
    exact ⟨bounded_joining (by decide), bounded_joining (by decide), bounded_joining (by decide)⟩
  exact (chain_reconstructs_iff Build.dev .truncating ⟨id, fun _ => .refl _⟩ 0 (joining 0) _
    hbounded).1 (replay_joining _ _)

end EthStateDiff
