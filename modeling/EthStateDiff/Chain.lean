import EthStateDiff.BeaconState
import EthStateDiff.Lib.Replay
import EthStateDiff.RegistryProofs
/-!
# Chains of states (`README.md:127-147`)

A chain of full states of one fork is stored as its first state and a delta a link.
`Continues` says what a transition between neighbours may do to every component; `Linked`
neighbours are close enough for their roots to fit a `Vec`.

* `Linked.reconstructs` — one link: `create` makes a delta, and `apply` turns the base into the
  target with it.
* `chain_reconstructs` — replaying the deltas passes through every state of the chain.
* `continues_not_enough` — for neighbours that are not close `create` panics.
-/

namespace EthStateDiff

open Rust ByteString Overwrite Replay

/-! ## Links -/

/-- A state and its slot, which the state itself keeps in the scalar header. -/
structure Snapshot where
  slot : UInt64
  state : DiffTarget ByteValidatorTarget

/-- A component that both states have. -/
def both {α : Type} : Option α → Option α → Option (α × α)
  | some b, some t => some (b, t)
  | _, _ => none

/-- Two neighbouring states as `create` reads them. -/
def source (capellaForkSlot : UInt64) (B T : Snapshot) : DiffSource ByteValidator ByteValidator where
  fork := T.state.fork
  slot := (B.slot, T.slot)
  capellaForkSlot
  scalarHeader := T.state.scalarHeader
  balances := (B.state.balances, T.state.balances)
  validators := (chunksExact VALIDATOR_SSZ_SIZE B.state.validators.bytes,
    chunksExact VALIDATOR_SSZ_SIZE T.state.validators.bytes)
  blockRoots := T.state.blockRoots
  stateRoots := T.state.stateRoots
  randaoMixes := T.state.randaoMixes
  slashings := (B.state.slashings, T.state.slashings)
  eth1DataVotes := (B.state.eth1DataVotes, T.state.eth1DataVotes)
  historicalRoots := T.state.historicalRoots
  previousEpochAttestations :=
    both B.state.previousEpochAttestations T.state.previousEpochAttestations
  currentEpochAttestations := both B.state.currentEpochAttestations T.state.currentEpochAttestations
  previousParticipation := both B.state.previousParticipation T.state.previousParticipation
  currentParticipation := both B.state.currentParticipation T.state.currentParticipation
  inactivityScores := both B.state.inactivityScores T.state.inactivityScores
  currentSyncCommittee := both B.state.currentSyncCommittee T.state.currentSyncCommittee
  nextSyncCommittee := both B.state.nextSyncCommittee T.state.nextSyncCommittee
  historicalSummaries := T.state.historicalSummaries
  pendingDeposits := both B.state.pendingDeposits T.state.pendingDeposits
  pendingPartialWithdrawals :=
    both B.state.pendingPartialWithdrawals T.state.pendingPartialWithdrawals
  pendingConsolidations := both B.state.pendingConsolidations T.state.pendingConsolidations

/-- Whole records, kept public keys, canonical status bytes, and a `withdrawable_epoch` that an
unslashed record keeps or gets from its new `exit_epoch`. -/
structure RegistryLinked (base target : List UInt8) : Prop where
  whole : VALIDATOR_SSZ_SIZE ∣ base.length ∧ VALIDATOR_SSZ_SIZE ∣ target.length
  count : base.length / VALIDATOR_SSZ_SIZE < 2 ^ 32
  grows : base.length ≤ target.length
  status : ∀ r ∈ records base ++ records target, r.slashed = 0 ∨ r.slashed = 1
  pubkey : ∀ p ∈ (records base).zip (records target), p.1.pubkey = p.2.pubkey
  withdrawable : ∀ p ∈ (records base).zip (records target), p.2.slashed = 0 →
    p.2.withdrawableEpoch = if p.2.exitEpoch = p.1.exitEpoch then p.1.withdrawableEpoch
      else saturatingAdd p.2.exitEpoch MIN_VALIDATOR_WITHDRAWABILITY_DELAY

/-- Rings of one capacity that agree outside the positions of `lo, …, hi - 1`. -/
structure RingLinked {α : Type} (lo hi : Nat) (base target : List α) : Prop where
  capacity : base.length = target.length
  nonempty : target ≠ []
  agree : AgreeOff (ringWindow target.length lo hi) base target

/-- The items of the period ends after the base slot, up to the target slot, were appended. -/
structure LogLinked (activation : Option UInt64) (lo hi size : Nat) (base target : List UInt8) :
    Prop where
  length : target.length < 2 ^ 64
  items : ∃ items, target = base ++ items ∧ items.length = (periodEnds activation lo hi).card * size

/-- A queue that is drained held whole items, and one that is not begins with a whole item. -/
structure QueueLinked (size : Nat) (base target : List UInt8) : Prop where
  length : base.length < 2 ^ 32
  drained : target = [] → size ∣ base.length
  head : base ≠ [] → target ≠ [] → size ≤ target.length

/-- `P` of the two states' component where both have it. -/
def OnPair {α : Type} (P : α → α → Prop) (base target : Option α) : Prop :=
  ∀ b t, base = some b → target = some t → P b t

/-- `T` may follow `B` in a chain. Only builds with overflow checks ask anything of the values of
the balances (`diffsFit_of_lt`: below 2^63 will do); header, attestations and sync committees are
free. -/
structure Continues (b : Build) (capellaForkSlot : UInt64) (B T : Snapshot) : Prop where
  fork : T.state.fork = B.state.fork
  slots : B.slot ≤ T.slot
  slotBound : T.slot.toNat < 2 ^ 64 - 1
  presentBase : ∀ field, B.state.has field = true ↔ field.InFork B.state.fork
  presentTarget : ∀ field, T.state.has field = true ↔ field.InFork T.state.fork
  balances : B.state.balances.length ≤ T.state.balances.length ∧
    T.state.balances.length < 2 ^ 32
  differences : DiffsFit b (B.state.balances.zip T.state.balances)
  validators : RegistryLinked B.state.validators.bytes T.state.validators.bytes
  blockRoots : RingLinked B.slot.toNat T.slot.toNat B.state.blockRoots T.state.blockRoots
  stateRoots : RingLinked B.slot.toNat T.slot.toNat B.state.stateRoots T.state.stateRoots
  randaoMixes : RingLinked (B.slot.toNat / 32) (T.slot.toNat / 32 + 1) B.state.randaoMixes
    T.state.randaoMixes
  slashings : RingLinked (B.slot.toNat / 32 + 1) (T.slot.toNat / 32 + 1) B.state.slashings
    T.state.slashings
  slashingsCapacity : T.state.slashings.length ≤ 65536
  eth1DataVotes : T.state.eth1DataVotes.length < B.state.eth1DataVotes.length ∨
    B.state.eth1DataVotes <+: T.state.eth1DataVotes
  historicalRoots : OnPair (LogLinked none B.slot.toNat T.slot.toNat HISTORICAL_ROOTS_SSZ_SIZE)
    B.state.historicalRoots T.state.historicalRoots
  previousParticipation : OnPair (fun b t => b.length ≤ t.length ∧ t.length < 2 ^ 32)
    B.state.previousParticipation T.state.previousParticipation
  currentParticipation : OnPair (fun b t => b.length ≤ t.length ∧ t.length < 2 ^ 32)
    B.state.currentParticipation T.state.currentParticipation
  inactivityScores : OnPair (fun b t => b.length ≤ t.length ∧ t.length < 2 ^ 32)
    B.state.inactivityScores T.state.inactivityScores
  historicalSummaries : OnPair (LogLinked (some capellaForkSlot) B.slot.toNat T.slot.toNat
    HISTORICAL_SUMMARIES_SSZ_SIZE) B.state.historicalSummaries T.state.historicalSummaries
  pendingDeposits : OnPair (QueueLinked PENDING_DEPOSIT_SSZ_SIZE)
    B.state.pendingDeposits T.state.pendingDeposits
  pendingPartialWithdrawals : OnPair (QueueLinked PARTIAL_WITHDRAWAL_SSZ_SIZE)
    B.state.pendingPartialWithdrawals T.state.pendingPartialWithdrawals
  pendingConsolidations : OnPair (QueueLinked PENDING_CONSOLIDATION_SSZ_SIZE)
    B.state.pendingConsolidations T.state.pendingConsolidations

/-- A link of an archive: a root for every slot of the gap fits a `Vec`. -/
structure Linked (b : Build) (capellaForkSlot : UInt64) (B T : Snapshot) : Prop
    extends Continues b capellaForkSlot B T where
  span : T.slot.toNat - B.slot.toNat < 2 ^ 58

/-! ## Component by component -/

theorem isSome_both {α : Type} {x y : Option α} (h : x.isSome = y.isSome) :
    (both x y).isSome = y.isSome := by
  cases x <;> cases y <;> simp_all [both]

/-- A component encoded from both states. -/
theorem both_reconstructs {α δ : Type} {diff : α → α → Option δ} {run : α → δ → Exec α α}
    {x y : Option α} (hsame : x.isSome = y.isSome)
    (h : OnPair (fun b t => ∃ e, diff b t = some e ∧ run b e = .ok t) x y) :
    ∃ e, mapPanic (fun p : α × α => diff p.1 p.2) (both x y) = some e ∧ onBoth run e x = .ok y := by
  cases x with
  | none =>
    cases y with
    | none => exact ⟨none, rfl, rfl⟩
    | some t => cases hsame
  | some b =>
    cases y with
    | none => cases hsame
    | some t =>
      obtain ⟨e, hdiff, hrun⟩ := h b t rfl rfl
      exact ⟨some e, by simp [mapPanic, both, hdiff], by rw [onBoth, hrun, mapState_ok]⟩

/-- A component whose encoder cannot panic. -/
theorem both_reconstructs_total {α δ : Type} {diff : α → α → δ} {run : α → δ → Exec α α}
    {x y : Option α} (hsame : x.isSome = y.isSome)
    (h : OnPair (fun b t => run b (diff b t) = .ok t) x y) :
    onBoth run ((both x y).map fun p => diff p.1 p.2) x = .ok y := by
  have hpair : OnPair (fun b t => ∃ e, some (diff b t) = some e ∧ run b e = .ok t) x y :=
    fun b t hb ht => ⟨diff b t, rfl, h b t hb ht⟩
  obtain ⟨e, hdiff, hrun⟩ := both_reconstructs hsame hpair
  have he : e = (both x y).map fun p => diff p.1 p.2 := by
    cases hxy : both x y <;> rw [hxy] at hdiff <;> exact (Option.some.inj hdiff).symm
  rw [← he]
  exact hrun

/-- A component encoded from the target state. -/
theorem target_reconstructs {α δ : Type} {diff : α → Option δ} {run : α → δ → Exec α α}
    {x y : Option α} (hsame : x.isSome = y.isSome)
    (h : OnPair (fun b t => ∃ e, diff t = some e ∧ run b e = .ok t) x y) :
    ∃ e, mapPanic diff y = some e ∧ onBoth run e x = .ok y := by
  cases x with
  | none =>
    cases y with
    | none => exact ⟨none, rfl, rfl⟩
    | some t => cases hsame
  | some b =>
    cases y with
    | none => cases hsame
    | some t =>
      obtain ⟨e, hdiff, hrun⟩ := h b t rfl rfl
      exact ⟨some e, by simp [mapPanic, hdiff], by rw [onBoth, hrun, mapState_ok]⟩

theorem RegistryLinked.rebuilds {base target : List UInt8} (h : RegistryLinked base target) :
    ∀ p ∈ (records base).zip (records target), Rebuilds p.1 p.2 := by
  intro p hp
  obtain ⟨hb, ht⟩ := List.of_mem_zip hp
  have hbase := h.status p.1 (List.mem_append_left _ hb)
  have htarget := h.status p.2 (List.mem_append_right _ ht)
  refine ⟨h.pubkey p hp, fun hsame => ?_, fun _ => htarget, fun hts => ?_⟩
  · rcases hbase with hb | hb <;> rcases htarget with ht | ht <;> rw [hb, ht] at hsame ⊢
    · cases hsame
    · cases hsame
  · exact h.withdrawable p hp (by simpa using hts)

theorem RegistryLinked.reconstructs (b : Build) {base target : ByteValidatorTarget}
    (h : RegistryLinked base.bytes target.bytes) :
    applyValidatorsIter b base (diffValidatorsIter (chunksExact VALIDATOR_SSZ_SIZE base.bytes)
      (chunksExact VALIDATOR_SSZ_SIZE target.bytes)) = .ok target := by
  have hrun := (applyValidators_eq_iff b h.whole.1 h.whole.2 h.count).2 ⟨h.grows, h.rebuilds⟩
  unfold applyValidators at hrun
  cases hout : applyValidatorsIter b (⟨base.bytes⟩ : ByteValidatorTarget)
      (diffValidators base.bytes target.bytes) with
  | error out =>
    rw [hout] at hrun
    cases hrun
  | ok out =>
    rw [hout, mapState_ok] at hrun
    obtain ⟨bytes⟩ := out
    obtain rfl := Except.ok.inj hrun
    exact hout

theorem LogLinked.reconstructs (b : Build) {baseSlot targetSlot : UInt64}
    {activation : Option UInt64} {size : Nat} (hle : baseSlot ≤ targetSlot)
    (hmax : targetSlot.toNat < 2 ^ 64 - 1) {base target : Option (List UInt8)}
    (h : OnPair (LogLinked activation baseSlot.toNat targetSlot.toNat size) base target) :
    OnPair (fun x y => ∃ e, diffHistoricalLog b baseSlot targetSlot y size activation = some e ∧
      (Except.ok (applyHistoricalLog x e) : Exec (List UInt8) (List UInt8)) = .ok y)
      base target := by
  intro x y hx hy
  obtain ⟨hlen, items, rfl, hitems⟩ := h x y hx hy
  obtain ⟨e, he, hrun⟩ := historicalLog_reconstructs b hle hmax hlen hitems
  exact ⟨e, he, congrArg Except.ok hrun⟩

theorem QueueLinked.reconstructs (b : Build) {size : Nat} (hpos : 0 < size) (hsize : size < 2 ^ 32)
    {base target : Option (List UInt8)} (h : OnPair (QueueLinked size) base target) :
    OnPair (fun x y => ∃ e, diffQueue x y size = some e ∧ applyQueue b x e size = .ok y)
      base target := by
  intro x y hx hy
  obtain ⟨hlen, hdrained, hhead⟩ := h x y hx hy
  exact queue_reconstructs b hpos hsize hlen hdrained hhead

/-! ## Links and chains -/

section

variable {b : Build} {capellaForkSlot : UInt64} {B T : Snapshot}

theorem Continues.has (h : Continues b capellaForkSlot B T) (field : OptionalField) :
    B.state.has field = T.state.has field := by
  rw [Bool.eq_iff_iff, h.presentBase, h.presentTarget, h.fork]

theorem Continues.has_source (h : Continues b capellaForkSlot B T) (field : OptionalField) :
    (source capellaForkSlot B T).has field = T.state.has field := by
  have hsame := h.has field
  cases field with
  | historicalRoots | historicalSummaries => rfl
  | _ => exact isSome_both hsame

/-- **One link**: `create` makes a delta, with which `apply` turns the base into the target. -/
theorem Linked.reconstructs (r : Rkyv) (order : HashOrder) (h : Linked b capellaForkSlot B T) :
    ∃ d, create b order (source capellaForkSlot B T) = some d ∧
      apply b B.state (d.archive r) = .ok T.state := by
  have hspan := h.span
  obtain ⟨balances, hbal, hbal'⟩ := applyBalancesIter_diffBalancesIter b order h.balances.1
    h.differences
  obtain ⟨blockRoots, hblock, hblock'⟩ := diffRoots_reconstructs b h.slots h.span
    h.blockRoots.capacity h.blockRoots.nonempty
  obtain ⟨stateRoots, hstate, hstate'⟩ := diffRoots_reconstructs b h.slots h.span
    h.stateRoots.capacity h.stateRoots.nonempty
  obtain ⟨randaoMixes, hrandao, hrandao'⟩ := diffRandao_reconstructs h.slots (by omega)
    h.randaoMixes.capacity h.randaoMixes.nonempty
  obtain ⟨slashings, hslash, hslash'⟩ := diffSlashings_reconstructs h.slots h.slashings.capacity
    h.slashings.nonempty h.slashingsCapacity
  obtain ⟨historicalRoots, hhr, hhr'⟩ := target_reconstructs (h.has .historicalRoots)
    (LogLinked.reconstructs b h.slots h.slotBound h.historicalRoots)
  obtain ⟨historicalSummaries, hhs, hhs'⟩ := target_reconstructs (h.has .historicalSummaries)
    (LogLinked.reconstructs b h.slots h.slotBound h.historicalSummaries)
  obtain ⟨pendingDeposits, hpd, hpd'⟩ := both_reconstructs (h.has .pendingDeposits)
    (QueueLinked.reconstructs b (by decide) (by decide) h.pendingDeposits)
  obtain ⟨pendingPartialWithdrawals, hpw, hpw'⟩ :=
    both_reconstructs (h.has .pendingPartialWithdrawals)
      (QueueLinked.reconstructs b (by decide) (by decide) h.pendingPartialWithdrawals)
  obtain ⟨pendingConsolidations, hpc, hpc'⟩ := both_reconstructs (h.has .pendingConsolidations)
    (QueueLinked.reconstructs b (by decide) (by decide) h.pendingConsolidations)
  have hflags : ∀ {x y : Option (List UInt8)},
      OnPair (fun b t => b.length ≤ t.length ∧ t.length < 2 ^ 32) x y →
      OnPair (fun x y => applyParticipationIter b x (diffParticipationIter x y) = .ok y) x y := by
    intro x y hxy s t hs ht
    obtain ⟨hle, hmax⟩ := hxy s t hs ht
    exact applyParticipationIter_diffParticipationIter b hle (by omega)
  let d : BeaconStateDelta ForkName :=
    { fork := T.state.fork
      baseSlot := B.slot
      scalarHeader := T.state.scalarHeader
      balances
      validators := diffValidatorsIter (source capellaForkSlot B T).validators.1
        (source capellaForkSlot B T).validators.2
      blockRoots
      stateRoots
      randaoMixes
      slashings
      eth1DataVotes := diffEth1Votes B.state.eth1DataVotes T.state.eth1DataVotes
      historicalRoots
      previousEpochAttestations := (source capellaForkSlot B T).previousEpochAttestations.map
        fun p => diffAttestations p.1 p.2
      currentEpochAttestations := (source capellaForkSlot B T).currentEpochAttestations.map
        fun p => diffAttestations p.1 p.2
      previousParticipation := (source capellaForkSlot B T).previousParticipation.map
        fun p => diffParticipationIter p.1 p.2
      currentParticipation := (source capellaForkSlot B T).currentParticipation.map
        fun p => diffParticipationIter p.1 p.2
      inactivityScores := (source capellaForkSlot B T).inactivityScores.map
        fun p => diffInactivity p.1 p.2
      currentSyncCommittee := (source capellaForkSlot B T).currentSyncCommittee.map
        fun p => diffSyncCommittee p.1 p.2
      nextSyncCommittee := (source capellaForkSlot B T).nextSyncCommittee.map
        fun p => diffSyncCommittee p.1 p.2
      historicalSummaries
      pendingDeposits
      pendingPartialWithdrawals
      pendingConsolidations }
  have hcreated : Created b order (source capellaForkSlot B T) d :=
    ⟨rfl, rfl, rfl, hbal, rfl, hblock, hstate, hrandao, hslash, rfl, hhr, rfl, rfl, rfl, rfl, rfl,
      rfl, rfl, hhs, hpd, hpw, hpc⟩
  have hhas : ∀ field, d.has field = true ↔ field.InFork T.state.fork := by
    intro field
    rw [hcreated.has, h.has_source, h.presentTarget]
  have hcommon : min B.state.balances.length T.state.balances.length < 2 ^ 32 := by
    have := h.balances
    omega
  refine ⟨d, create_eq_some.2 ⟨hcreated, fun _ => createAsserts_iff.2 fun field _ => hhas field⟩, ?_⟩
  rw [hcreated.archive_eq r hcommon]
  refine apply_eq_ok.2 ⟨congrArg Except.ok h.fork, fun field hfield => ?_, ?_⟩
  · rw [← h.fork]
    exact (hhas field).1 (by cases field <;> exact hfield)
  · exact {
      fork := h.fork
      scalarHeader := rfl
      balances := hbal'
      validators := h.validators.reconstructs b
      blockRoots := hblock'.2 h.blockRoots.agree
      stateRoots := hstate'.2 h.stateRoots.agree
      randaoMixes := hrandao'.2 h.randaoMixes.agree
      slashings := hslash'.2 h.slashings.agree
      eth1DataVotes := (eth1Votes_reconstructs_iff _ _).2 h.eth1DataVotes
      historicalRoots := hhr'
      previousEpochAttestations := both_reconstructs_total (h.has .previousEpochAttestations)
        fun x y _ _ => congrArg Except.ok (applyAttestations_diffAttestations x y)
      currentEpochAttestations := both_reconstructs_total (h.has .currentEpochAttestations)
        fun x y _ _ => congrArg Except.ok (applyAttestations_diffAttestations x y)
      previousParticipation := both_reconstructs_total (h.has .previousParticipation)
        (hflags h.previousParticipation)
      currentParticipation := both_reconstructs_total (h.has .currentParticipation)
        (hflags h.currentParticipation)
      inactivityScores := both_reconstructs_total (h.has .inactivityScores) fun x y hx hy =>
        applyInactivity_diffInactivity (h.inactivityScores x y hx hy).1
          (h.inactivityScores x y hx hy).2
      currentSyncCommittee := both_reconstructs_total (h.has .currentSyncCommittee)
        fun x y _ _ => congrArg Except.ok (applySyncCommittee_diffSyncCommittee x y)
      nextSyncCommittee := both_reconstructs_total (h.has .nextSyncCommittee)
        fun x y _ _ => congrArg Except.ok (applySyncCommittee_diffSyncCommittee x y)
      historicalSummaries := hhs'
      pendingDeposits := hpd'
      pendingPartialWithdrawals := hpw'
      pendingConsolidations := hpc' }

end

/-- The state that an application returns. -/
def Outcome.state? {S : Type} : Outcome S → Option S
  | .ok state => some state
  | .err _ _ => none
  | .panic _ => none

/-- One link of a replay. -/
theorem Linked.replays {b : Build} {capellaForkSlot : UInt64} {B T : Snapshot} (r : Rkyv)
    (order : HashOrder) (h : Linked b capellaForkSlot B T) :
    ∃ d, create b order (source capellaForkSlot B T) = some d ∧
      (apply b B.state (d.archive r)).state? = some T.state := by
  obtain ⟨d, hd, happly⟩ := h.reconstructs r order
  exact ⟨d, hd, by rw [happly, Outcome.state?]⟩

/-- **A whole chain**: a delta can be created for every link, and applying them one after the
other to the first state passes through every later one. -/
theorem chain_reconstructs (b : Build) (r : Rkyv) (order : HashOrder) (capellaForkSlot : UInt64)
    (first : Snapshot) (later : List Snapshot)
    (hchain : List.IsChain (Linked b capellaForkSlot) (first :: later)) :
    ∃ deltas,
      diffAll (fun B T => create b order (source capellaForkSlot B T)) first later = some deltas ∧
      replay (fun s d => (apply b s (d.archive r)).state?) first.state deltas =
        some (later.map Snapshot.state) :=
  replay_diffAll (fun _ _ hlink => hlink.replays r order) first later hchain

/-! ## A chain -/

/-- A validator that has not exited, with this effective balance. -/
def staking (balance : Nat) : RawValidator where
  pubkey := ⟨List.replicate 48 7, rfl⟩
  withdrawalCredentials := filled 1
  effectiveBalance := UInt64.ofNat balance
  slashed := 0
  activationEligibilityEpoch := 0
  activationEpoch := 0
  exitEpoch := 0xffffffffffffffff
  withdrawableEpoch := 0xffffffffffffffff

/-- Step `n` of an Electra chain in which every epoch a validator joins, the balances, flags,
scores and slashings change, and the two queues that are not empty move on by an item. A
historical period ends between step 1 and step 2. -/
def joining (n : Nat) : Snapshot where
  slot := UInt64.ofNat (8128 + 32 * n)
  state :=
    { fork := .electra
      scalarHeader := [UInt8.ofNat n]
      balances := List.replicate (n + 1) (UInt64.ofNat (32 + n))
      validators := ⟨encRaw (List.replicate (n + 1) (staking n))⟩
      blockRoots := [filled (UInt8.ofNat n)]
      stateRoots := [filled (UInt8.ofNat n)]
      randaoMixes := [filled (UInt8.ofNat n)]
      slashings := [UInt64.ofNat n]
      eth1DataVotes := List.replicate n 1
      historicalRoots := none
      previousEpochAttestations := none
      currentEpochAttestations := none
      previousParticipation := some (List.replicate (n + 1) (UInt8.ofNat n))
      currentParticipation := some (List.replicate (n + 1) 1)
      inactivityScores := some (List.replicate (n + 1) (UInt64.ofNat n))
      currentSyncCommittee := some [UInt8.ofNat n]
      nextSyncCommittee := some [7]
      historicalSummaries := some (List.replicate ((8128 + 32 * n) / 8192 * 64) 9)
      pendingDeposits := some []
      pendingPartialWithdrawals := some (List.replicate 24 (UInt8.ofNat n))
      pendingConsolidations :=
        some (List.replicate 16 (UInt8.ofNat n) ++ List.replicate 16 (UInt8.ofNat (n + 1))) }

/-- On a ring of one entry, a window that is not empty covers it. -/
theorem ringLinked_singleton {α : Type} {lo hi : Nat} (x y : α) (hlt : lo < hi) :
    RingLinked lo hi [x] [y] := by
  refine ⟨rfl, by simp, fun i hi hoff => ?_⟩
  rw [List.length_singleton] at hi
  exact absurd ⟨lo, le_refl lo, hlt, by rw [List.length_singleton]; omega⟩ hoff

theorem length_encRaw (rs : List RawValidator) : (encRaw rs).length = rs.length * 121 := by
  rw [encRaw, length_join, List.length_map]

/-- Validators of one kind join, and their effective balance changes. -/
theorem registryLinked_staking {m n balance balance' : Nat} (hmn : m ≤ n) (hm : m < 2 ^ 32) :
    RegistryLinked (encRaw (List.replicate m (staking balance)))
      (encRaw (List.replicate n (staking balance'))) := by
  have hlen : ∀ k (v : RawValidator), (encRaw (List.replicate k v)).length = k * 121 := by
    intro k v
    rw [length_encRaw, List.length_replicate]
  refine ⟨⟨?_, ?_⟩, ?_, ?_, fun v hv => ?_, fun p hp => ?_, fun p hp _ => ?_⟩
  · exact ⟨m, by rw [hlen, Nat.mul_comm]⟩
  · exact ⟨n, by rw [hlen, Nat.mul_comm]⟩
  · rw [hlen]
    show m * 121 / 121 < _
    omega
  · rw [hlen, hlen]
    omega
  · rw [records_encRaw, records_encRaw, List.mem_append] at hv
    rcases hv with hv | hv <;> rw [List.eq_of_mem_replicate hv] <;> exact Or.inl rfl
  all_goals
    rw [records_encRaw, records_encRaw] at hp
    obtain ⟨hb, ht⟩ := List.of_mem_zip hp
    rw [List.eq_of_mem_replicate hb, List.eq_of_mem_replicate ht]
    rfl

theorem has_joining (n : Nat) (field : OptionalField) :
    (joining n).state.has field = true ↔ field.InFork (joining n).state.fork := by
  have hn : (joining n).state.has field = (joining 0).state.has field := by cases field <;> rfl
  rw [hn]
  show _ ↔ field.InFork .electra
  cases field <;> decide

theorem toNat_slot_joining {n : Nat} (hn : n ≤ 256) :
    (joining n).slot.toNat = 8128 + 32 * n :=
  UInt64.toNat_ofNat_of_lt' (show 8128 + 32 * n < 2 ^ 64 by omega)

theorem linked_joining {n : Nat} (hn : n < 256) :
    Linked Build.dev 0 (joining n) (joining (n + 1)) := by
  have hbase := toNat_slot_joining (show n ≤ 256 by omega)
  have htarget := toNat_slot_joining (show n + 1 ≤ 256 by omega)
  have hqueue : ∀ {size : Nat} {base target : List UInt8}, target ≠ [] → base.length < 2 ^ 32 →
      size ≤ target.length → QueueLinked size base target :=
    fun hne hlen hhead => ⟨hlen, fun h => absurd h hne, fun _ _ => hhead⟩
  exact {
    fork := rfl
    slots := by
      rw [UInt64.le_iff_toNat_le, hbase, htarget]
      omega
    slotBound := by
      rw [htarget]
      omega
    presentBase := has_joining n
    presentTarget := has_joining (n + 1)
    balances := by
      show (List.replicate (n + 1) _).length ≤ (List.replicate (n + 2) _).length ∧
        (List.replicate (n + 2) _).length < _
      rw [List.length_replicate, List.length_replicate]
      omega
    differences := diffsFit_of_lt fun _ p hp => by
      obtain ⟨hb, ht⟩ := List.of_mem_zip hp
      rw [List.eq_of_mem_replicate hb, List.eq_of_mem_replicate ht,
        UInt64.toNat_ofNat_of_lt' (show 32 + n < 2 ^ 64 by omega),
        UInt64.toNat_ofNat_of_lt' (show 32 + (n + 1) < 2 ^ 64 by omega)]
      omega
    validators := registryLinked_staking (by omega) (by omega)
    blockRoots := ringLinked_singleton _ _ (by omega)
    stateRoots := ringLinked_singleton _ _ (by omega)
    randaoMixes := ringLinked_singleton _ _ (by omega)
    slashings := ringLinked_singleton _ _ (by omega)
    slashingsCapacity := by
      show 1 ≤ 65536
      omega
    eth1DataVotes := Or.inr ⟨[1], by simp [joining, List.replicate_succ']⟩
    historicalRoots := by
      rintro _ _ ⟨⟩
    previousParticipation := by
      rintro _ _ ⟨⟩ ⟨⟩
      rw [List.length_replicate, List.length_replicate]
      omega
    currentParticipation := by
      rintro _ _ ⟨⟩ ⟨⟩
      rw [List.length_replicate, List.length_replicate]
      omega
    inactivityScores := by
      rintro _ _ ⟨⟩ ⟨⟩
      rw [List.length_replicate, List.length_replicate]
      omega
    historicalSummaries := by
      rintro _ _ ⟨⟩ ⟨⟩
      have hle : (8128 + 32 * n) / 8192 ≤ (8128 + 32 * (n + 1)) / 8192 := by omega
      refine ⟨by rw [List.length_replicate]; omega, List.replicate
        (((8128 + 32 * (n + 1)) / 8192 - (8128 + 32 * n) / 8192) * 64) 9, ?_, ?_⟩
      · rw [List.replicate_append_replicate, ← Nat.add_mul, Nat.add_sub_of_le hle]
      · rw [List.length_replicate, card_periodEnds (by omega)]
        · rfl
        · simp only [logCount, UInt64.toNat_zero, hbase, htarget]
          omega
    pendingDeposits := by
      rintro _ _ ⟨⟩ ⟨⟩
      exact ⟨by simp, fun _ => by simp, fun h => absurd rfl h⟩
    pendingPartialWithdrawals := by
      rintro _ _ ⟨⟩ ⟨⟩
      exact hqueue (by simp) (by simp) (by simp [PARTIAL_WITHDRAWAL_SSZ_SIZE])
    pendingConsolidations := by
      rintro _ _ ⟨⟩ ⟨⟩
      exact hqueue (by simp) (by simp) (by simp [PENDING_CONSOLIDATION_SSZ_SIZE])
    span := by
      rw [hbase, htarget]
      omega }

theorem isChain_joining {k : Nat} (hk : k ≤ 256) :
    List.IsChain (Linked Build.dev 0) ((List.range (k + 1)).map joining) := by
  rw [List.isChain_map, List.isChain_range_succ]
  exact fun n hn => linked_joining (by omega)

/-- Three links of that chain. -/
theorem chain_reconstructs_joining : ∃ deltas,
    diffAll (fun B T => create Build.dev ⟨id, fun _ => .refl _⟩ (source 0 B T)) (joining 0)
        [joining 1, joining 2, joining 3] = some deltas ∧
      replay (fun s d => (apply Build.dev s (d.archive .truncating)).state?) (joining 0).state
        deltas = some ([joining 1, joining 2, joining 3].map Snapshot.state) :=
  chain_reconstructs Build.dev .truncating ⟨id, fun _ => .refl _⟩ 0 (joining 0) _
    (isChain_joining (show 3 ≤ 256 by decide))

/-- Two of them, whatever the order of the maps. -/
theorem replay_joining (r : Rkyv) (order : HashOrder) : ∃ deltas,
    diffAll (fun B T => create Build.dev order (source 0 B T)) (joining 0)
        [joining 1, joining 2] = some deltas ∧
      replay (fun s d => (apply Build.dev s (d.archive r)).state?) (joining 0).state deltas =
        some ([joining 1, joining 2].map Snapshot.state) :=
  replay_diffAll (fun _ _ hlink => hlink.replays r order) (joining 0) _
    (isChain_joining (show 2 ≤ 256 by decide))

/-- The first state of that chain, at any slot. -/
def idle (slot : UInt64) : Snapshot := ⟨slot, (joining 0).state⟩

/-- Before the Capella fork no period ends, so nothing has to change. -/
theorem continues_idle :
    Continues Build.dev 0xffffffffffffffff (idle 0) (idle 0x400000000000000) := by
  have hagree : ∀ {α : Type} {lo hi : Nat} {ring : List α}, ring ≠ [] → RingLinked lo hi ring ring :=
    fun hne => ⟨rfl, hne, fun _ _ _ => rfl⟩
  exact {
    fork := rfl
    slots := by decide
    slotBound := by decide
    presentBase := has_joining 0
    presentTarget := has_joining 0
    balances := by decide
    differences := diffsFit_of_lt fun _ p hp => by
      obtain ⟨hb, ht⟩ := List.of_mem_zip hp
      rw [List.eq_of_mem_replicate hb, List.eq_of_mem_replicate ht]
      decide
    validators := registryLinked_staking (le_refl 1) (by decide)
    blockRoots := hagree (by simp [idle, joining])
    stateRoots := hagree (by simp [idle, joining])
    randaoMixes := hagree (by simp [idle, joining])
    slashings := hagree (by simp [idle, joining])
    slashingsCapacity := by decide
    eth1DataVotes := Or.inr (List.prefix_refl _)
    historicalRoots := by
      rintro _ _ ⟨⟩
    previousParticipation := by
      rintro _ _ ⟨⟩ ⟨⟩
      decide
    currentParticipation := by
      rintro _ _ ⟨⟩ ⟨⟩
      decide
    inactivityScores := by
      rintro _ _ ⟨⟩ ⟨⟩
      decide
    historicalSummaries := by
      rintro _ _ ⟨⟩ ⟨⟩
      refine ⟨by decide, [], rfl, ?_⟩
      rw [card_periodEnds (k := 0) (by decide) (by decide)]
      rfl
    pendingDeposits := by
      rintro _ _ ⟨⟩ ⟨⟩
      exact ⟨by decide, fun _ => by decide, fun h => absurd rfl h⟩
    pendingPartialWithdrawals := by
      rintro _ _ ⟨⟩ ⟨⟩
      exact ⟨by decide, fun h => (by cases h), fun _ _ => by decide⟩
    pendingConsolidations := by
      rintro _ _ ⟨⟩ ⟨⟩
      exact ⟨by decide, fun h => (by cases h), fun _ _ => by decide⟩ }

/-- For a state that does not change in `2^58` slots no delta can be created: there is no `Vec` for
that many roots. -/
theorem continues_not_enough : ¬∀ (b : Build) (r : Rkyv) (order : HashOrder)
    (capellaForkSlot : UInt64) (first : Snapshot) (later : List Snapshot),
    List.IsChain (Continues b capellaForkSlot) (first :: later) → ∃ deltas,
      diffAll (fun B T => create b order (source capellaForkSlot B T)) first later = some deltas ∧
      replay (fun s d => (apply b s (d.archive r)).state?) first.state deltas =
        some (later.map Snapshot.state) := by
  intro h
  have hchain : List.IsChain (Continues Build.dev 0xffffffffffffffff)
      [idle 0, idle 0x400000000000000] := by
    simpa only [List.isChain_cons_cons, List.isChain_singleton, and_true] using continues_idle
  obtain ⟨deltas, hall, -⟩ := h Build.dev .truncating ⟨id, fun _ => .refl _⟩ _ _ _ hchain
  obtain ⟨d, -, hd, -⟩ := diffAll_cons_eq_some.1 hall
  obtain ⟨hcreated, -⟩ := create_eq_some.1 hd
  obtain ⟨-, -, hspan, -⟩ := diffRoots_eq_some.1 hcreated.blockRoots
  exact absurd hspan (by decide)

end EthStateDiff
