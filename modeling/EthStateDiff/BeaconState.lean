import EthStateDiff.BalancesProofs
import EthStateDiff.ByteLists
import EthStateDiff.Rings
import EthStateDiff.SparseLists
import EthStateDiff.Validators
/-!
# `create` and `apply` (`lib.rs`, `error.rs`)

| here | there |
| --- | --- |
| `ForkName`, `Error` | lib.rs:154-175, error.rs:9-43 |
| `DiffSource`, `DiffTarget` | lib.rs:220-370, one field an accessor |
| `BeaconStateDelta` | lib.rs:433-472 |
| `create`, `createAsserts` | lib.rs:512-658 |
| `apply`, `validateFields`, `applyComponents` | lib.rs:694-851 |

The archived delta differs from the delta in its fork, which is decoded on application: it is the
outcome of that decoding (`ArchivedBeaconStateDelta`); and in its counts, as far as `rkyv` changes
them (`Rkyv`). `apply` takes the state by value, but a state may be a view of storage owned
elsewhere, so every outcome keeps the state it leaves.

* `create_eq_some` — the components of a delta are encoded independently of each other.
* `applyComponents_eq_ok` — and they are applied independently of each other.
* `applyComponents_isOk` — exactly when none of them panics (`PayloadFits`).
* `validateFields_eq_none`, `apply_eq_ok` — what `apply` accepts; `apply_of_fork` — how it ends.
-/

namespace EthStateDiff

open Rust ByteString

/-! ## Forks and errors -/

inductive ForkName where
  | phase0
  | altair
  | bellatrix
  | capella
  | deneb
  | electra
  | fulu
  | gloas
  | heze
deriving DecidableEq, Repr

/-- `#[repr(u8)]` -/
def ForkName.discriminant : ForkName → Nat
  | phase0 => 0
  | altair => 1
  | bellatrix => 2
  | capella => 3
  | deneb => 4
  | electra => 5
  | fulu => 6
  | gloas => 7
  | heze => 8

/-- `#[derive(PartialOrd, Ord)]`: the order of the variants. -/
instance : LE ForkName := ⟨fun a b => a.discriminant ≤ b.discriminant⟩
instance : LT ForkName := ⟨fun a b => a.discriminant < b.discriminant⟩
instance (a b : ForkName) : Decidable (a ≤ b) := inferInstanceAs (Decidable (_ ≤ _))
instance (a b : ForkName) : Decidable (a < b) := inferInstanceAs (Decidable (_ < _))

theorem ForkName.not_lt {a b : ForkName} : ¬a < b ↔ b ≤ a := Nat.not_lt
theorem ForkName.not_le {a b : ForkName} : ¬a ≤ b ↔ b < a := Nat.not_le

inductive Error where
  | forkMismatch (stateFork deltaFork : ForkName)
  | invalidFieldForFork (field : String) (fork : ForkName)
  | malformedDelta (message : String)
deriving DecidableEq, Repr

/-! ## Interfaces and the delta -/

def PENDING_DEPOSIT_SSZ_SIZE : Nat := 192
def PARTIAL_WITHDRAWAL_SSZ_SIZE : Nat := 24
def PENDING_CONSOLIDATION_SSZ_SIZE : Nat := 16

/-- `DiffSource`; of a pair the first component is the base's. -/
structure DiffSource (V₁ V₂ : Type) where
  fork : ForkName
  slot : UInt64 × UInt64
  capellaForkSlot : UInt64
  scalarHeader : List UInt8
  balances : List UInt64 × List UInt64
  validators : List V₁ × List V₂
  blockRoots : List (Bytes 32)
  stateRoots : List (Bytes 32)
  randaoMixes : List (Bytes 32)
  slashings : List UInt64 × List UInt64
  eth1DataVotes : List UInt8 × List UInt8
  historicalRoots : Option (List UInt8)
  previousEpochAttestations : Option (List UInt8 × List UInt8)
  currentEpochAttestations : Option (List UInt8 × List UInt8)
  previousParticipation : Option (List UInt8 × List UInt8)
  currentParticipation : Option (List UInt8 × List UInt8)
  inactivityScores : Option (List UInt64 × List UInt64)
  currentSyncCommittee : Option (List UInt8 × List UInt8)
  nextSyncCommittee : Option (List UInt8 × List UInt8)
  historicalSummaries : Option (List UInt8)
  pendingDeposits : Option (List UInt8 × List UInt8)
  pendingPartialWithdrawals : Option (List UInt8 × List UInt8)
  pendingConsolidations : Option (List UInt8 × List UInt8)

/-- `DiffTarget`, as the storage its accessors expose. -/
@[ext] structure DiffTarget (T : Type) where
  fork : ForkName
  scalarHeader : List UInt8
  balances : List UInt64
  validators : T
  blockRoots : List (Bytes 32)
  stateRoots : List (Bytes 32)
  randaoMixes : List (Bytes 32)
  slashings : List UInt64
  eth1DataVotes : List UInt8
  historicalRoots : Option (List UInt8)
  previousEpochAttestations : Option (List UInt8)
  currentEpochAttestations : Option (List UInt8)
  previousParticipation : Option (List UInt8)
  currentParticipation : Option (List UInt8)
  inactivityScores : Option (List UInt64)
  currentSyncCommittee : Option (List UInt8)
  nextSyncCommittee : Option (List UInt8)
  historicalSummaries : Option (List UInt8)
  pendingDeposits : Option (List UInt8)
  pendingPartialWithdrawals : Option (List UInt8)
  pendingConsolidations : Option (List UInt8)
deriving DecidableEq

structure BeaconStateDelta (Fork : Type) where
  fork : Fork
  baseSlot : UInt64
  scalarHeader : List UInt8
  balances : BalancesDiff
  validators : ValidatorsDiff
  blockRoots : RootsDiff
  stateRoots : RootsDiff
  randaoMixes : RandaoDiff
  slashings : SlashingsDiff
  eth1DataVotes : Eth1DataVotesDiff
  historicalRoots : Option HistoricalLogDiff
  previousEpochAttestations : Option AttestationsDiff
  currentEpochAttestations : Option AttestationsDiff
  previousParticipation : Option ParticipationDiff
  currentParticipation : Option ParticipationDiff
  inactivityScores : Option InactivityDiff
  currentSyncCommittee : Option SyncCommitteeDiff
  nextSyncCommittee : Option SyncCommitteeDiff
  historicalSummaries : Option HistoricalLogDiff
  pendingDeposits : Option QueueDiff
  pendingPartialWithdrawals : Option QueueDiff
  pendingConsolidations : Option QueueDiff

/-- An archived delta, its fork replaced by what decoding it gives. -/
abbrev ArchivedBeaconStateDelta := BeaconStateDelta (Except String ForkName)

/-- Archiving a delta: its fork decodes to what was archived. -/
def BeaconStateDelta.archive (r : Rkyv) (d : BeaconStateDelta ForkName) :
    ArchivedBeaconStateDelta where
  fork := .ok d.fork
  baseSlot := d.baseSlot
  scalarHeader := d.scalarHeader
  balances := d.balances.archive r
  validators := d.validators
  blockRoots := d.blockRoots
  stateRoots := d.stateRoots
  randaoMixes := d.randaoMixes
  slashings := d.slashings
  eth1DataVotes := d.eth1DataVotes
  historicalRoots := d.historicalRoots
  previousEpochAttestations := d.previousEpochAttestations
  currentEpochAttestations := d.currentEpochAttestations
  previousParticipation := d.previousParticipation.map (·.archive r)
  currentParticipation := d.currentParticipation.map (·.archive r)
  inactivityScores := d.inactivityScores
  currentSyncCommittee := d.currentSyncCommittee
  nextSyncCommittee := d.nextSyncCommittee
  historicalSummaries := d.historicalSummaries
  pendingDeposits := d.pendingDeposits
  pendingPartialWithdrawals := d.pendingPartialWithdrawals
  pendingConsolidations := d.pendingConsolidations

/-! ## Fork-specific components -/

inductive OptionalField where
  | historicalRoots
  | previousEpochAttestations
  | currentEpochAttestations
  | previousParticipation
  | currentParticipation
  | inactivityScores
  | currentSyncCommittee
  | nextSyncCommittee
  | historicalSummaries
  | pendingDeposits
  | pendingPartialWithdrawals
  | pendingConsolidations
deriving DecidableEq

/-- The forks whose delta may carry the component. -/
def OptionalField.InFork : OptionalField → ForkName → Prop
  | historicalRoots, fork => fork < .capella
  | previousEpochAttestations, fork => fork < .altair
  | currentEpochAttestations, fork => fork < .altair
  | previousParticipation, fork => .altair ≤ fork
  | currentParticipation, fork => .altair ≤ fork
  | inactivityScores, fork => .altair ≤ fork
  | currentSyncCommittee, fork => .altair ≤ fork
  | nextSyncCommittee, fork => .altair ≤ fork
  | historicalSummaries, fork => .capella ≤ fork
  | pendingDeposits, fork => .electra ≤ fork
  | pendingPartialWithdrawals, fork => .electra ≤ fork
  | pendingConsolidations, fork => .electra ≤ fork

instance : ∀ field fork, Decidable (OptionalField.InFork field fork)
  | .historicalRoots, _ | .previousEpochAttestations, _ | .currentEpochAttestations, _ =>
    inferInstanceAs (Decidable (_ < _))
  | .previousParticipation, _ | .currentParticipation, _ | .inactivityScores, _
  | .currentSyncCommittee, _ | .nextSyncCommittee, _ | .historicalSummaries, _
  | .pendingDeposits, _ | .pendingPartialWithdrawals, _ | .pendingConsolidations, _ =>
    inferInstanceAs (Decidable (_ ≤ _))

def DiffSource.has {V₁ V₂ : Type} (state : DiffSource V₁ V₂) : OptionalField → Bool
  | .historicalRoots => state.historicalRoots.isSome
  | .previousEpochAttestations => state.previousEpochAttestations.isSome
  | .currentEpochAttestations => state.currentEpochAttestations.isSome
  | .previousParticipation => state.previousParticipation.isSome
  | .currentParticipation => state.currentParticipation.isSome
  | .inactivityScores => state.inactivityScores.isSome
  | .currentSyncCommittee => state.currentSyncCommittee.isSome
  | .nextSyncCommittee => state.nextSyncCommittee.isSome
  | .historicalSummaries => state.historicalSummaries.isSome
  | .pendingDeposits => state.pendingDeposits.isSome
  | .pendingPartialWithdrawals => state.pendingPartialWithdrawals.isSome
  | .pendingConsolidations => state.pendingConsolidations.isSome

def DiffTarget.has {T : Type} (state : DiffTarget T) : OptionalField → Bool
  | .historicalRoots => state.historicalRoots.isSome
  | .previousEpochAttestations => state.previousEpochAttestations.isSome
  | .currentEpochAttestations => state.currentEpochAttestations.isSome
  | .previousParticipation => state.previousParticipation.isSome
  | .currentParticipation => state.currentParticipation.isSome
  | .inactivityScores => state.inactivityScores.isSome
  | .currentSyncCommittee => state.currentSyncCommittee.isSome
  | .nextSyncCommittee => state.nextSyncCommittee.isSome
  | .historicalSummaries => state.historicalSummaries.isSome
  | .pendingDeposits => state.pendingDeposits.isSome
  | .pendingPartialWithdrawals => state.pendingPartialWithdrawals.isSome
  | .pendingConsolidations => state.pendingConsolidations.isSome

def BeaconStateDelta.has {F : Type} (d : BeaconStateDelta F) : OptionalField → Bool
  | .historicalRoots => d.historicalRoots.isSome
  | .previousEpochAttestations => d.previousEpochAttestations.isSome
  | .currentEpochAttestations => d.currentEpochAttestations.isSome
  | .previousParticipation => d.previousParticipation.isSome
  | .currentParticipation => d.currentParticipation.isSome
  | .inactivityScores => d.inactivityScores.isSome
  | .currentSyncCommittee => d.currentSyncCommittee.isSome
  | .nextSyncCommittee => d.nextSyncCommittee.isSome
  | .historicalSummaries => d.historicalSummaries.isSome
  | .pendingDeposits => d.pendingDeposits.isSome
  | .pendingPartialWithdrawals => d.pendingPartialWithdrawals.isSome
  | .pendingConsolidations => d.pendingConsolidations.isSome

/-! ## `create` -/

/-- `o.map(|a| f(a))` where `f` may panic. -/
def mapPanic {α β : Type} (f : α → Option β) : Option α → Option (Option β)
  | none => some none
  | some a => (f a).map some

/-- The nine `debug_assert_eq!`s on the finished delta. -/
def createAsserts (d : BeaconStateDelta ForkName) : Bool :=
  d.previousParticipation.isSome == decide (d.fork ≥ .altair) &&
  d.currentParticipation.isSome == decide (d.fork ≥ .altair) &&
  d.inactivityScores.isSome == decide (d.fork ≥ .altair) &&
  d.currentSyncCommittee.isSome == decide (d.fork ≥ .altair) &&
  d.nextSyncCommittee.isSome == decide (d.fork ≥ .altair) &&
  d.historicalSummaries.isSome == decide (d.fork ≥ .capella) &&
  d.pendingDeposits.isSome == decide (d.fork ≥ .electra) &&
  d.pendingPartialWithdrawals.isSome == decide (d.fork ≥ .electra) &&
  d.pendingConsolidations.isSome == decide (d.fork ≥ .electra)

def create {V₁ V₂ : Type} [ValidatorSnapshot V₁] [ValidatorSnapshot V₂] (b : Build)
    (order : HashOrder) (state : DiffSource V₁ V₂) : Option (BeaconStateDelta ForkName) := do
  let baseSlot := state.slot.1
  let targetSlot := state.slot.2
  let balances ← diffBalancesIter b order state.balances.1 state.balances.2
  let blockRoots ← diffRoots baseSlot targetSlot state.blockRoots
  let stateRoots ← diffRoots baseSlot targetSlot state.stateRoots
  let randaoMixes ← diffRandao baseSlot targetSlot state.randaoMixes
  let slashings ← diffSlashings baseSlot targetSlot state.slashings.1 state.slashings.2
  let historicalRoots ← mapPanic
    (diffHistoricalLog b baseSlot targetSlot · HISTORICAL_ROOTS_SSZ_SIZE none)
    state.historicalRoots
  let historicalSummaries ← mapPanic
    (diffHistoricalLog b baseSlot targetSlot · HISTORICAL_SUMMARIES_SSZ_SIZE
      (some state.capellaForkSlot))
    state.historicalSummaries
  let pendingDeposits ← mapPanic
    (fun (p : List UInt8 × List UInt8) => diffQueue p.1 p.2 PENDING_DEPOSIT_SSZ_SIZE)
    state.pendingDeposits
  let pendingPartialWithdrawals ← mapPanic
    (fun (p : List UInt8 × List UInt8) => diffQueue p.1 p.2 PARTIAL_WITHDRAWAL_SSZ_SIZE)
    state.pendingPartialWithdrawals
  let pendingConsolidations ← mapPanic
    (fun (p : List UInt8 × List UInt8) => diffQueue p.1 p.2 PENDING_CONSOLIDATION_SSZ_SIZE)
    state.pendingConsolidations
  let delta : BeaconStateDelta ForkName :=
    { fork := state.fork
      baseSlot
      scalarHeader := state.scalarHeader
      balances
      validators := diffValidatorsIter state.validators.1 state.validators.2
      blockRoots
      stateRoots
      randaoMixes
      slashings
      eth1DataVotes := diffEth1Votes state.eth1DataVotes.1 state.eth1DataVotes.2
      historicalRoots
      previousEpochAttestations :=
        state.previousEpochAttestations.map fun p => diffAttestations p.1 p.2
      currentEpochAttestations :=
        state.currentEpochAttestations.map fun p => diffAttestations p.1 p.2
      previousParticipation :=
        state.previousParticipation.map fun p => diffParticipationIter p.1 p.2
      currentParticipation :=
        state.currentParticipation.map fun p => diffParticipationIter p.1 p.2
      inactivityScores := state.inactivityScores.map fun p => diffInactivity p.1 p.2
      currentSyncCommittee := state.currentSyncCommittee.map fun p => diffSyncCommittee p.1 p.2
      nextSyncCommittee := state.nextSyncCommittee.map fun p => diffSyncCommittee p.1 p.2
      historicalSummaries
      pendingDeposits
      pendingPartialWithdrawals
      pendingConsolidations }
  if b.debugAssertions && !createAsserts delta then none else some delta

/-! ## What `create` makes -/

/-- Every component of `d` is what its own encoder makes of that component of the source. -/
structure Created {V₁ V₂ : Type} [ValidatorSnapshot V₁] [ValidatorSnapshot V₂] (b : Build)
    (order : HashOrder) (state : DiffSource V₁ V₂) (d : BeaconStateDelta ForkName) : Prop where
  fork : d.fork = state.fork
  baseSlot : d.baseSlot = state.slot.1
  scalarHeader : d.scalarHeader = state.scalarHeader
  balances : diffBalancesIter b order state.balances.1 state.balances.2 = some d.balances
  validators : d.validators = diffValidatorsIter state.validators.1 state.validators.2
  blockRoots : diffRoots state.slot.1 state.slot.2 state.blockRoots = some d.blockRoots
  stateRoots : diffRoots state.slot.1 state.slot.2 state.stateRoots = some d.stateRoots
  randaoMixes : diffRandao state.slot.1 state.slot.2 state.randaoMixes = some d.randaoMixes
  slashings : diffSlashings state.slot.1 state.slot.2 state.slashings.1 state.slashings.2 =
    some d.slashings
  eth1DataVotes : d.eth1DataVotes = diffEth1Votes state.eth1DataVotes.1 state.eth1DataVotes.2
  historicalRoots : mapPanic
    (diffHistoricalLog b state.slot.1 state.slot.2 · HISTORICAL_ROOTS_SSZ_SIZE none)
    state.historicalRoots = some d.historicalRoots
  previousEpochAttestations : d.previousEpochAttestations =
    state.previousEpochAttestations.map fun p => diffAttestations p.1 p.2
  currentEpochAttestations : d.currentEpochAttestations =
    state.currentEpochAttestations.map fun p => diffAttestations p.1 p.2
  previousParticipation : d.previousParticipation =
    state.previousParticipation.map fun p => diffParticipationIter p.1 p.2
  currentParticipation : d.currentParticipation =
    state.currentParticipation.map fun p => diffParticipationIter p.1 p.2
  inactivityScores : d.inactivityScores =
    state.inactivityScores.map fun p => diffInactivity p.1 p.2
  currentSyncCommittee : d.currentSyncCommittee =
    state.currentSyncCommittee.map fun p => diffSyncCommittee p.1 p.2
  nextSyncCommittee : d.nextSyncCommittee =
    state.nextSyncCommittee.map fun p => diffSyncCommittee p.1 p.2
  historicalSummaries : mapPanic
    (diffHistoricalLog b state.slot.1 state.slot.2 · HISTORICAL_SUMMARIES_SSZ_SIZE
      (some state.capellaForkSlot))
    state.historicalSummaries = some d.historicalSummaries
  pendingDeposits : mapPanic
    (fun (p : List UInt8 × List UInt8) => diffQueue p.1 p.2 PENDING_DEPOSIT_SSZ_SIZE)
    state.pendingDeposits = some d.pendingDeposits
  pendingPartialWithdrawals : mapPanic
    (fun (p : List UInt8 × List UInt8) => diffQueue p.1 p.2 PARTIAL_WITHDRAWAL_SSZ_SIZE)
    state.pendingPartialWithdrawals = some d.pendingPartialWithdrawals
  pendingConsolidations : mapPanic
    (fun (p : List UInt8 × List UInt8) => diffQueue p.1 p.2 PENDING_CONSOLIDATION_SSZ_SIZE)
    state.pendingConsolidations = some d.pendingConsolidations

/-- **`create` encodes component by component**, and in a debug build checks the nine
presences. -/
theorem create_eq_some {V₁ V₂ : Type} [ValidatorSnapshot V₁] [ValidatorSnapshot V₂] {b : Build}
    {order : HashOrder} {state : DiffSource V₁ V₂} {d : BeaconStateDelta ForkName} :
    create b order state = some d ↔
      Created b order state d ∧ (b.debugAssertions = true → createAsserts d = true) := by
  unfold create
  simp only [Option.bind_eq_bind, Option.bind_eq_some_iff]
  constructor
  · rintro ⟨_, h₁, _, h₂, _, h₃, _, h₄, _, h₅, _, h₆, _, h₇, _, h₈, _, h₉, _, h₁₀, h⟩
    split at h
    · cases h
    · rename_i hasserts
      cases h
      refine ⟨⟨rfl, rfl, rfl, h₁, rfl, h₂, h₃, h₄, h₅, rfl, h₆, rfl, rfl, rfl, rfl, rfl, rfl, rfl,
        h₇, h₈, h₉, h₁₀⟩, fun hdebug => ?_⟩
      simpa [hdebug] using hasserts
  · rintro ⟨⟨hf, hs, hh, h₁, hv, h₂, h₃, h₄, h₅, he, h₆, hpa, hca, hpp, hcp, hi, hcs, hns, h₇, h₈,
      h₉, h₁₀⟩, hasserts⟩
    refine ⟨_, h₁, _, h₂, _, h₃, _, h₄, _, h₅, _, h₆, _, h₇, _, h₈, _, h₉, _, h₁₀, ?_⟩
    rw [← hf, ← hs, ← hh, ← hv, ← he, ← hpa, ← hca, ← hpp, ← hcp, ← hi, ← hcs, ← hns, if_neg]
    intro hpanic
    rw [Bool.and_eq_true] at hpanic
    rw [hasserts hpanic.1] at hpanic
    exact absurd hpanic.2 (by decide)

theorem isSome_mapPanic {α β : Type} {f : α → Option β} {o : Option α} {out : Option β}
    (h : mapPanic f o = some out) : out.isSome = o.isSome := by
  cases o with
  | none =>
    cases h
    rfl
  | some a =>
    obtain ⟨c, -, rfl⟩ := Option.map_eq_some_iff.1 h
    rfl

/-- A delta has the components its source has. -/
theorem Created.has {V₁ V₂ : Type} [ValidatorSnapshot V₁] [ValidatorSnapshot V₂] {b : Build}
    {order : HashOrder} {state : DiffSource V₁ V₂} {d : BeaconStateDelta ForkName}
    (h : Created b order state d) (field : OptionalField) : d.has field = state.has field := by
  cases field with
  | historicalRoots => exact isSome_mapPanic h.historicalRoots
  | previousEpochAttestations =>
    exact (congrArg Option.isSome h.previousEpochAttestations).trans Option.isSome_map
  | currentEpochAttestations =>
    exact (congrArg Option.isSome h.currentEpochAttestations).trans Option.isSome_map
  | previousParticipation =>
    exact (congrArg Option.isSome h.previousParticipation).trans Option.isSome_map
  | currentParticipation =>
    exact (congrArg Option.isSome h.currentParticipation).trans Option.isSome_map
  | inactivityScores => exact (congrArg Option.isSome h.inactivityScores).trans Option.isSome_map
  | currentSyncCommittee =>
    exact (congrArg Option.isSome h.currentSyncCommittee).trans Option.isSome_map
  | nextSyncCommittee => exact (congrArg Option.isSome h.nextSyncCommittee).trans Option.isSome_map
  | historicalSummaries => exact isSome_mapPanic h.historicalSummaries
  | pendingDeposits => exact isSome_mapPanic h.pendingDeposits
  | pendingPartialWithdrawals => exact isSome_mapPanic h.pendingPartialWithdrawals
  | pendingConsolidations => exact isSome_mapPanic h.pendingConsolidations

/-- The flags of a created delta hold no count, so their archive is the flags. -/
theorem map_archive_diffParticipationIter (r : Rkyv) {flags : Option ParticipationDiff}
    {o : Option (List UInt8 × List UInt8)}
    (h : flags = o.map fun p => diffParticipationIter p.1 p.2) :
    flags.map (·.archive r) = flags := by
  subst h
  rw [Option.map_map]
  rfl

/-- **The archive of a created delta** is the delta, up to the fork, when its common balances can
be counted. -/
theorem Created.archive_eq {V₁ V₂ : Type} [ValidatorSnapshot V₁] [ValidatorSnapshot V₂] {b : Build}
    {order : HashOrder} {state : DiffSource V₁ V₂} {d : BeaconStateDelta ForkName} (r : Rkyv)
    (h : Created b order state d)
    (hcommon : min state.balances.1.length state.balances.2.length < 2 ^ 32) :
    d.archive r = { d with fork := .ok d.fork } := by
  have hbal : d.balances.archive r = d.balances := by
    refine BalancesDiff.archive_of_lt r ?_
    rw [diffBalancesIter_len h.balances]
    exact hcommon
  rw [BeaconStateDelta.archive, hbal,
    map_archive_diffParticipationIter r h.previousParticipation,
    map_archive_diffParticipationIter r h.currentParticipation]

/-- The assertions of `create` look at the nine components that a fork adds, and not at the three
that a fork removes. -/
theorem createAsserts_iff {d : BeaconStateDelta ForkName} : createAsserts d = true ↔
    ∀ field, field ∉ [OptionalField.historicalRoots, .previousEpochAttestations,
      .currentEpochAttestations] → (d.has field = true ↔ field.InFork d.fork) := by
  have hiff : ∀ (present : Bool) (p : Prop) [Decidable p],
      (present == decide p) = true ↔ (present = true ↔ p) := by
    intro present p _
    rw [beq_iff_eq, Bool.eq_iff_iff, decide_eq_true_iff]
  simp only [createAsserts, Bool.and_eq_true, hiff]
  constructor
  · rintro ⟨⟨⟨⟨⟨⟨⟨⟨h₁, h₂⟩, h₃⟩, h₄⟩, h₅⟩, h₆⟩, h₇⟩, h₈⟩, h₉⟩ field hfield
    cases field with
    | historicalRoots | previousEpochAttestations | currentEpochAttestations => simp at hfield
    | previousParticipation => exact h₁
    | currentParticipation => exact h₂
    | inactivityScores => exact h₃
    | currentSyncCommittee => exact h₄
    | nextSyncCommittee => exact h₅
    | historicalSummaries => exact h₆
    | pendingDeposits => exact h₇
    | pendingPartialWithdrawals => exact h₈
    | pendingConsolidations => exact h₉
  · intro h
    exact ⟨⟨⟨⟨⟨⟨⟨⟨h .previousParticipation (by decide), h .currentParticipation (by decide)⟩,
      h .inactivityScores (by decide)⟩, h .currentSyncCommittee (by decide)⟩,
      h .nextSyncCommittee (by decide)⟩, h .historicalSummaries (by decide)⟩,
      h .pendingDeposits (by decide)⟩, h .pendingPartialWithdrawals (by decide)⟩,
      h .pendingConsolidations (by decide)⟩

/-! ## `apply` -/

/-- How `apply` ends, with the state it leaves. -/
inductive Outcome (S : Type) where
  | ok (state : S)
  | err (error : Error) (state : S)
  | panic (state : S)
deriving DecidableEq

/-- `validate_field!` -/
def validateField (field : String) (present : Bool) (fork deltaFork : ForkName) : Option Error :=
  if present && decide (deltaFork < fork) then some (.invalidFieldForFork field deltaFork)
  else none

/-- `validate_removed_field!` -/
def validateRemovedField (field : String) (present : Bool) (removedIn deltaFork : ForkName) :
    Option Error :=
  if present && decide (deltaFork ≥ removedIn) then some (.invalidFieldForFork field deltaFork)
  else none

/-- The twelve checks, the first failing one being returned. -/
def validateFields {F : Type} (d : BeaconStateDelta F) (deltaFork : ForkName) : Option Error :=
  validateField "previous_participation" d.previousParticipation.isSome .altair deltaFork <|>
  validateField "current_participation" d.currentParticipation.isSome .altair deltaFork <|>
  validateField "inactivity_scores" d.inactivityScores.isSome .altair deltaFork <|>
  validateField "current_sync_committee" d.currentSyncCommittee.isSome .altair deltaFork <|>
  validateField "next_sync_committee" d.nextSyncCommittee.isSome .altair deltaFork <|>
  validateField "historical_summaries" d.historicalSummaries.isSome .capella deltaFork <|>
  validateField "pending_deposits" d.pendingDeposits.isSome .electra deltaFork <|>
  validateField "pending_partial_withdrawals" d.pendingPartialWithdrawals.isSome .electra
    deltaFork <|>
  validateField "pending_consolidations" d.pendingConsolidations.isSome .electra deltaFork <|>
  validateRemovedField "previous_epoch_attestations" d.previousEpochAttestations.isSome .altair
    deltaFork <|>
  validateRemovedField "current_epoch_attestations" d.currentEpochAttestations.isSome .altair
    deltaFork <|>
  validateRemovedField "historical_roots" d.historicalRoots.isSome .capella deltaFork

/-- A component mutated in place through its accessor. -/
def onField {S α : Type} (get : S → α) (set : S → α → S) (run : α → Exec α α) (s : S) : Exec S S :=
  mapState (set s) (run (get s))

/-- `if let (Some(s), Some(d)) = (state.x_mut(), delta.x.as_ref()) { run(s, d) }` -/
def onBoth {α δ : Type} (run : α → δ → Exec α α) (delta : Option δ) :
    Option α → Exec (Option α) (Option α)
  | some s =>
    match delta with
    | some d => mapState some (run s d)
    | none => .ok (some s)
  | none => .ok none

section

variable {T V F : Type} [ValidatorMut V] [ValidatorMutTarget T V]

/-- Everything `apply` does after validation, in its order. -/
def applyComponents (b : Build) (d : BeaconStateDelta F) (state : DiffTarget T) :
    Exec (DiffTarget T) (DiffTarget T) := do
  let s := { state with scalarHeader := d.scalarHeader }
  let s ← onField (·.balances) (fun s x => { s with balances := x })
    (applyBalancesIter b · d.balances) s
  let s ← onField (·.validators) (fun s x => { s with validators := x })
    (applyValidatorsIter b · d.validators) s
  let s ← onField (·.blockRoots) (fun s x => { s with blockRoots := x })
    (applyRoots b d.baseSlot · d.blockRoots) s
  let s ← onField (·.stateRoots) (fun s x => { s with stateRoots := x })
    (applyRoots b d.baseSlot · d.stateRoots) s
  let s ← onField (·.randaoMixes) (fun s x => { s with randaoMixes := x })
    (applyRandao d.baseSlot · d.randaoMixes) s
  let s ← onField (·.slashings) (fun s x => { s with slashings := x })
    (applySlashings · d.slashings) s
  let s ← onField (·.eth1DataVotes) (fun s x => { s with eth1DataVotes := x })
    (fun x => .ok (applyEth1Votes x d.eth1DataVotes)) s
  let s ← onField (·.historicalRoots) (fun s x => { s with historicalRoots := x })
    (onBoth (fun x δ => .ok (applyHistoricalLog x δ)) d.historicalRoots) s
  let s ← onField (·.previousEpochAttestations)
    (fun s x => { s with previousEpochAttestations := x })
    (onBoth (fun x δ => .ok (applyAttestations x δ)) d.previousEpochAttestations) s
  let s ← onField (·.currentEpochAttestations)
    (fun s x => { s with currentEpochAttestations := x })
    (onBoth (fun x δ => .ok (applyAttestations x δ)) d.currentEpochAttestations) s
  let s ← onField (·.previousParticipation) (fun s x => { s with previousParticipation := x })
    (onBoth (applyParticipationIter b) d.previousParticipation) s
  let s ← onField (·.currentParticipation) (fun s x => { s with currentParticipation := x })
    (onBoth (applyParticipationIter b) d.currentParticipation) s
  let s ← onField (·.inactivityScores) (fun s x => { s with inactivityScores := x })
    (onBoth applyInactivity d.inactivityScores) s
  let s ← onField (·.currentSyncCommittee) (fun s x => { s with currentSyncCommittee := x })
    (onBoth (fun x δ => .ok (applySyncCommittee x δ)) d.currentSyncCommittee) s
  let s ← onField (·.nextSyncCommittee) (fun s x => { s with nextSyncCommittee := x })
    (onBoth (fun x δ => .ok (applySyncCommittee x δ)) d.nextSyncCommittee) s
  let s ← onField (·.historicalSummaries) (fun s x => { s with historicalSummaries := x })
    (onBoth (fun x δ => .ok (applyHistoricalLog x δ)) d.historicalSummaries) s
  let s ← onField (·.pendingDeposits) (fun s x => { s with pendingDeposits := x })
    (onBoth (applyQueue b · · PENDING_DEPOSIT_SSZ_SIZE) d.pendingDeposits) s
  let s ← onField (·.pendingPartialWithdrawals)
    (fun s x => { s with pendingPartialWithdrawals := x })
    (onBoth (applyQueue b · · PARTIAL_WITHDRAWAL_SSZ_SIZE) d.pendingPartialWithdrawals) s
  onField (·.pendingConsolidations) (fun s x => { s with pendingConsolidations := x })
    (onBoth (applyQueue b · · PENDING_CONSOLIDATION_SSZ_SIZE) d.pendingConsolidations) s

def apply (b : Build) (state : DiffTarget T) (d : ArchivedBeaconStateDelta) :
    Outcome (DiffTarget T) :=
  match d.fork with
  | .error e => .err (.malformedDelta ("failed to deserialize fork: " ++ e)) state
  | .ok deltaFork =>
    if state.fork ≠ deltaFork then .err (.forkMismatch state.fork deltaFork) state
    else
      match validateFields d deltaFork with
      | some e => .err e state
      | none =>
        match applyComponents b d state with
        | .ok state => .ok state
        | .error state => .panic state

end

/-! ## What the components do -/

theorem onField_eq_ok {S α : Type} {get : S → α} {set : S → α → S} {run : α → Exec α α} {s s' : S} :
    onField get set run s = .ok s' ↔ ∃ a, run (get s) = .ok a ∧ set s a = s' := by
  unfold onField
  cases run (get s) <;> simp

theorem onField_bind_eq_ok {S α β : Type} {get : S → α} {set : S → α → S} {run : α → Exec α α}
    {s : S} {k : S → Exec S β} {out : β} :
    (onField get set run s >>= k) = .ok out ↔ ∃ a, run (get s) = .ok a ∧ k (set s a) = .ok out := by
  unfold onField
  cases run (get s) <;> simp

section

variable {T V F : Type} [ValidatorMut V] [ValidatorMutTarget T V]

/-- Every component of `s'` is what its own applier makes of that component of `s`. -/
structure Applied (b : Build) (d : BeaconStateDelta F) (s s' : DiffTarget T) : Prop where
  fork : s'.fork = s.fork
  scalarHeader : s'.scalarHeader = d.scalarHeader
  balances : applyBalancesIter b s.balances d.balances = .ok s'.balances
  validators : applyValidatorsIter b s.validators d.validators = .ok s'.validators
  blockRoots : applyRoots b d.baseSlot s.blockRoots d.blockRoots = .ok s'.blockRoots
  stateRoots : applyRoots b d.baseSlot s.stateRoots d.stateRoots = .ok s'.stateRoots
  randaoMixes : applyRandao d.baseSlot s.randaoMixes d.randaoMixes = .ok s'.randaoMixes
  slashings : applySlashings s.slashings d.slashings = .ok s'.slashings
  eth1DataVotes : applyEth1Votes s.eth1DataVotes d.eth1DataVotes = s'.eth1DataVotes
  historicalRoots : onBoth (fun x δ => .ok (applyHistoricalLog x δ)) d.historicalRoots
    s.historicalRoots = .ok s'.historicalRoots
  previousEpochAttestations : onBoth (fun x δ => .ok (applyAttestations x δ))
    d.previousEpochAttestations s.previousEpochAttestations = .ok s'.previousEpochAttestations
  currentEpochAttestations : onBoth (fun x δ => .ok (applyAttestations x δ))
    d.currentEpochAttestations s.currentEpochAttestations = .ok s'.currentEpochAttestations
  previousParticipation : onBoth (applyParticipationIter b) d.previousParticipation
    s.previousParticipation = .ok s'.previousParticipation
  currentParticipation : onBoth (applyParticipationIter b) d.currentParticipation
    s.currentParticipation = .ok s'.currentParticipation
  inactivityScores : onBoth applyInactivity d.inactivityScores s.inactivityScores =
    .ok s'.inactivityScores
  currentSyncCommittee : onBoth (fun x δ => .ok (applySyncCommittee x δ)) d.currentSyncCommittee
    s.currentSyncCommittee = .ok s'.currentSyncCommittee
  nextSyncCommittee : onBoth (fun x δ => .ok (applySyncCommittee x δ)) d.nextSyncCommittee
    s.nextSyncCommittee = .ok s'.nextSyncCommittee
  historicalSummaries : onBoth (fun x δ => .ok (applyHistoricalLog x δ)) d.historicalSummaries
    s.historicalSummaries = .ok s'.historicalSummaries
  pendingDeposits : onBoth (applyQueue b · · PENDING_DEPOSIT_SSZ_SIZE) d.pendingDeposits
    s.pendingDeposits = .ok s'.pendingDeposits
  pendingPartialWithdrawals : onBoth (applyQueue b · · PARTIAL_WITHDRAWAL_SSZ_SIZE)
    d.pendingPartialWithdrawals s.pendingPartialWithdrawals = .ok s'.pendingPartialWithdrawals
  pendingConsolidations : onBoth (applyQueue b · · PENDING_CONSOLIDATION_SSZ_SIZE)
    d.pendingConsolidations s.pendingConsolidations = .ok s'.pendingConsolidations

/-- **The components are independent**: the sequence of in-place mutations returns iff each of
them does on the original component, and then the state holds all the results. -/
theorem applyComponents_eq_ok {b : Build} {d : BeaconStateDelta F} {s s' : DiffTarget T} :
    applyComponents b d s = .ok s' ↔ Applied b d s s' := by
  unfold applyComponents
  simp only [onField_bind_eq_ok, onField_eq_ok]
  constructor
  · rintro ⟨_, h₁, _, h₂, _, h₃, _, h₄, _, h₅, _, h₆, _, h₇, _, h₈, _, h₉, _, h₁₀, _, h₁₁, _, h₁₂,
      _, h₁₃, _, h₁₄, _, h₁₅, _, h₁₆, _, h₁₇, _, h₁₈, _, h₁₉, rfl⟩
    exact ⟨rfl, rfl, h₁, h₂, h₃, h₄, h₅, h₆, Except.ok.inj h₇, h₈, h₉, h₁₀, h₁₁, h₁₂, h₁₃, h₁₄,
      h₁₅, h₁₆, h₁₇, h₁₈, h₁₉⟩
  · rintro ⟨hf, hh, h₁, h₂, h₃, h₄, h₅, h₆, h₇, h₈, h₉, h₁₀, h₁₁, h₁₂, h₁₃, h₁₄, h₁₅, h₁₆, h₁₇,
      h₁₈, h₁₉⟩
    refine ⟨_, h₁, _, h₂, _, h₃, _, h₄, _, h₅, _, h₆, _, congrArg Except.ok h₇, _, h₈, _, h₉,
      _, h₁₀, _, h₁₁, _, h₁₂, _, h₁₃, _, h₁₄, _, h₁₅, _, h₁₆, _, h₁₇, _, h₁₈, _, h₁₉, ?_⟩
    rw [← hf, ← hh]

/-- The payload of every component can be applied to this state. -/
structure PayloadFits (b : Build) (d : BeaconStateDelta F) (s : DiffTarget T) : Prop where
  balances : BalancesFit b s.balances d.balances
  validators : ValidatorsFit b s.validators d.validators
  blockRoots : s.blockRoots ≠ [] ∧
    (b.overflowChecks = true → d.baseSlot.toNat + d.blockRoots.roots.length ≤ 2 ^ 64)
  stateRoots : s.stateRoots ≠ [] ∧
    (b.overflowChecks = true → d.baseSlot.toNat + d.stateRoots.roots.length ≤ 2 ^ 64)
  randaoMixes : s.randaoMixes ≠ []
  slashings : ∀ u ∈ d.slashings.updates, u.1.toNat < s.slashings.length
  previousParticipation : ∀ x, s.previousParticipation = some x →
    ∀ δ, d.previousParticipation = some δ → ParticipationFits b x.length δ
  currentParticipation : ∀ x, s.currentParticipation = some x →
    ∀ δ, d.currentParticipation = some δ → ParticipationFits b x.length δ
  inactivityScores : ∀ x, s.inactivityScores = some x →
    ∀ δ, d.inactivityScores = some δ → InactivityFits x.length δ

theorem onBoth_isOk {α δ : Type} {run : α → δ → Exec α α} {delta : Option δ} {st : Option α} :
    (∃ out, onBoth run delta st = .ok out) ↔
      ∀ x, st = some x → ∀ e, delta = some e → ∃ y, run x e = .ok y := by
  cases st with
  | none => exact ⟨fun _ x hx => (by cases hx), fun _ => ⟨none, rfl⟩⟩
  | some x =>
    cases delta with
    | none => exact ⟨fun _ _ _ e he => (by cases he), fun _ => ⟨some x, rfl⟩⟩
    | some e =>
      constructor
      · rintro ⟨out, hout⟩ _ ⟨⟩ _ ⟨⟩
        cases hrun : run x e with
        | ok y => exact ⟨y, rfl⟩
        | error y => simp [onBoth, hrun] at hout
      · intro h
        obtain ⟨y, hy⟩ := h x rfl e rfl
        exact ⟨some y, by rw [onBoth, hy, mapState_ok]⟩

/-- A component whose applier cannot panic. -/
theorem onBoth_total {α δ : Type} (run : α → δ → α) (delta : Option δ) (st : Option α) :
    ∃ out, onBoth (fun x e => .ok (run x e)) delta st = .ok out :=
  onBoth_isOk.2 fun x _ e _ => ⟨run x e, rfl⟩

/-- **When nothing panics**: iff every payload fits the component it goes to. -/
theorem applyComponents_isOk [LawfulValidatorMutTarget T] {b : Build} {d : BeaconStateDelta F}
    {s : DiffTarget T} : (∃ s', applyComponents b d s = .ok s') ↔ PayloadFits b d s := by
  constructor
  · rintro ⟨s', hrun⟩
    have happ := applyComponents_eq_ok.1 hrun
    have hpart : ∀ {delta : Option ParticipationDiff} {st out : Option (List UInt8)},
        onBoth (applyParticipationIter b) delta st = .ok out →
        ∀ x, st = some x → ∀ δ, delta = some δ → ParticipationFits b x.length δ :=
      fun hout x hx δ hδ => applyParticipationIter_isOk.1 (onBoth_isOk.1 ⟨_, hout⟩ x hx δ hδ)
    exact {
      balances := applyBalancesIter_isOk.1 ⟨_, happ.balances⟩
      validators := applyValidatorsIter_isOk.1 ⟨_, happ.validators⟩
      blockRoots := applyRoots_isOk.1 ⟨_, happ.blockRoots⟩
      stateRoots := applyRoots_isOk.1 ⟨_, happ.stateRoots⟩
      randaoMixes := applyRandao_isOk.1 ⟨_, happ.randaoMixes⟩
      slashings := applySlashings_isOk.1 ⟨_, happ.slashings⟩
      previousParticipation := hpart happ.previousParticipation
      currentParticipation := hpart happ.currentParticipation
      inactivityScores := fun x hx δ hδ =>
        applyInactivity_isOk.1 (onBoth_isOk.1 ⟨_, happ.inactivityScores⟩ x hx δ hδ) }
  · rintro ⟨hbal, hval, hblock, hstate, hrandao, hslash, hprev, hcur, hinact⟩
    have hpart : ∀ {delta : Option ParticipationDiff} {st : Option (List UInt8)},
        (∀ x, st = some x → ∀ δ, delta = some δ → ParticipationFits b x.length δ) →
        ∃ out, onBoth (applyParticipationIter b) delta st = .ok out :=
      fun h => onBoth_isOk.2 fun x hx δ hδ => applyParticipationIter_isOk.2 (h x hx δ hδ)
    have hqueue : ∀ (size : Nat) (delta : Option QueueDiff) (st : Option (List UInt8)),
        size < 2 ^ 32 → ∃ out, onBoth (applyQueue b · · size) delta st = .ok out :=
      fun _ _ _ hsize => onBoth_isOk.2 fun x _ δ _ => applyQueue_isOk b x δ hsize
    obtain ⟨balances, hbal⟩ := applyBalancesIter_isOk.2 hbal
    obtain ⟨validators, hval⟩ := applyValidatorsIter_isOk.2 hval
    obtain ⟨blockRoots, hblock⟩ := applyRoots_isOk.2 hblock
    obtain ⟨stateRoots, hstate⟩ := applyRoots_isOk.2 hstate
    obtain ⟨randaoMixes, hrandao⟩ := applyRandao_isOk.2 hrandao
    obtain ⟨slashings, hslash⟩ := applySlashings_isOk.2 hslash
    obtain ⟨historicalRoots, hhr⟩ := onBoth_total applyHistoricalLog d.historicalRoots s.historicalRoots
    obtain ⟨previousEpochAttestations, hpa⟩ := onBoth_total applyAttestations
      d.previousEpochAttestations s.previousEpochAttestations
    obtain ⟨currentEpochAttestations, hca⟩ := onBoth_total applyAttestations
      d.currentEpochAttestations s.currentEpochAttestations
    obtain ⟨previousParticipation, hprev⟩ := hpart hprev
    obtain ⟨currentParticipation, hcur⟩ := hpart hcur
    obtain ⟨inactivityScores, hinact⟩ := onBoth_isOk.2 fun x hx δ hδ =>
      applyInactivity_isOk.2 (hinact x hx δ hδ)
    obtain ⟨currentSyncCommittee, hcs⟩ := onBoth_total applySyncCommittee
      d.currentSyncCommittee s.currentSyncCommittee
    obtain ⟨nextSyncCommittee, hns⟩ := onBoth_total applySyncCommittee
      d.nextSyncCommittee s.nextSyncCommittee
    obtain ⟨historicalSummaries, hhs⟩ := onBoth_total applyHistoricalLog
      d.historicalSummaries s.historicalSummaries
    obtain ⟨pendingDeposits, hpd⟩ := hqueue PENDING_DEPOSIT_SSZ_SIZE
      d.pendingDeposits s.pendingDeposits (by decide)
    obtain ⟨pendingPartialWithdrawals, hpw⟩ := hqueue PARTIAL_WITHDRAWAL_SSZ_SIZE
      d.pendingPartialWithdrawals s.pendingPartialWithdrawals (by decide)
    obtain ⟨pendingConsolidations, hpc⟩ := hqueue PENDING_CONSOLIDATION_SSZ_SIZE
      d.pendingConsolidations s.pendingConsolidations (by decide)
    refine ⟨⟨s.fork, d.scalarHeader, balances, validators, blockRoots, stateRoots, randaoMixes,
      slashings, applyEth1Votes s.eth1DataVotes d.eth1DataVotes, historicalRoots,
      previousEpochAttestations, currentEpochAttestations, previousParticipation,
      currentParticipation, inactivityScores, currentSyncCommittee, nextSyncCommittee,
      historicalSummaries, pendingDeposits, pendingPartialWithdrawals, pendingConsolidations⟩, ?_⟩
    exact applyComponents_eq_ok.2 ⟨rfl, rfl, hbal, hval, hblock, hstate, hrandao, hslash, rfl, hhr,
      hpa, hca, hprev, hcur, hinact, hcs, hns, hhs, hpd, hpw, hpc⟩

end

/-! ## What `apply` accepts -/

/-- No component is present before its fork or after its removal. -/
def FieldsAllowed {F : Type} (d : BeaconStateDelta F) (fork : ForkName) : Prop :=
  ∀ field, d.has field = true → field.InFork fork

theorem validateField_eq_none {field : String} {present : Bool} {fork deltaFork : ForkName} :
    validateField field present fork deltaFork = none ↔ (present = true → fork ≤ deltaFork) := by
  rw [← ForkName.not_lt]
  cases present <;> simp [validateField]

theorem validateRemovedField_eq_none {field : String} {present : Bool}
    {removedIn deltaFork : ForkName} :
    validateRemovedField field present removedIn deltaFork = none ↔
      (present = true → deltaFork < removedIn) := by
  rw [← ForkName.not_le]
  cases present <;> simp [validateRemovedField]

/-- **No check fails** iff every component is allowed. -/
theorem validateFields_eq_none {F : Type} {d : BeaconStateDelta F} {fork : ForkName} :
    validateFields d fork = none ↔ FieldsAllowed d fork := by
  unfold validateFields
  simp only [Option.orElse_eq_orElse, Option.orElse_eq_or, Option.or_eq_none_iff,
    validateField_eq_none, validateRemovedField_eq_none]
  constructor
  · rintro ⟨h₁, h₂, h₃, h₄, h₅, h₆, h₇, h₈, h₉, h₁₀, h₁₁, h₁₂⟩ field
    cases field with
    | historicalRoots => exact h₁₂
    | previousEpochAttestations => exact h₁₀
    | currentEpochAttestations => exact h₁₁
    | previousParticipation => exact h₁
    | currentParticipation => exact h₂
    | inactivityScores => exact h₃
    | currentSyncCommittee => exact h₄
    | nextSyncCommittee => exact h₅
    | historicalSummaries => exact h₆
    | pendingDeposits => exact h₇
    | pendingPartialWithdrawals => exact h₈
    | pendingConsolidations => exact h₉
  · intro h
    exact ⟨h .previousParticipation, h .currentParticipation, h .inactivityScores,
      h .currentSyncCommittee, h .nextSyncCommittee, h .historicalSummaries, h .pendingDeposits,
      h .pendingPartialWithdrawals, h .pendingConsolidations, h .previousEpochAttestations,
      h .currentEpochAttestations, h .historicalRoots⟩

/-- Every error names a field and the fork it was validated against. -/
theorem validateFields_eq_some {F : Type} {d : BeaconStateDelta F} {fork : ForkName} {e : Error}
    (h : validateFields d fork = some e) : ∃ field, e = .invalidFieldForFork field fork := by
  have hfield : ∀ {field present since}, validateField field present since fork = some e →
      ∃ field, e = .invalidFieldForFork field fork := by
    intro field present since hf
    unfold validateField at hf
    split at hf
    · exact ⟨field, (Option.some.inj hf).symm⟩
    · cases hf
  have hremoved : ∀ {field present removedIn},
      validateRemovedField field present removedIn fork = some e →
      ∃ field, e = .invalidFieldForFork field fork := by
    intro field present removedIn hf
    unfold validateRemovedField at hf
    split at hf
    · exact ⟨field, (Option.some.inj hf).symm⟩
    · cases hf
  unfold validateFields at h
  simp only [Option.orElse_eq_orElse, Option.orElse_eq_or, Option.or_eq_some_iff] at h
  rcases h with h | ⟨-, h | ⟨-, h | ⟨-, h | ⟨-, h | ⟨-, h | ⟨-, h | ⟨-, h | ⟨-, h | ⟨-, h | ⟨-, h | ⟨-, h⟩⟩⟩⟩⟩⟩⟩⟩⟩⟩⟩
  all_goals first | exact hfield h | exact hremoved h

section

variable {T V : Type} [ValidatorMut V] [ValidatorMutTarget T V]

/-- **What `apply` accepts**: a delta of the state's fork with allowed components, whose
appliers all return. -/
theorem apply_eq_ok {b : Build} {s s' : DiffTarget T} {d : ArchivedBeaconStateDelta} :
    apply b s d = .ok s' ↔ d.fork = .ok s.fork ∧ FieldsAllowed d s.fork ∧ Applied b d s s' := by
  unfold apply
  rw [← applyComponents_eq_ok, ← validateFields_eq_none]
  cases hfork : d.fork with
  | error e => simp
  | ok deltaFork =>
    by_cases heq : s.fork = deltaFork
    · subst heq
      simp only [ne_eq, not_true, if_false]
      cases hval : validateFields d s.fork with
      | some e => simp
      | none =>
        cases hrun : applyComponents b d s with
        | ok out => simp
        | error out => simp
    · simp only [ne_eq, heq, not_false_iff, if_true]
      refine ⟨fun h => (by cases h), ?_⟩
      rintro ⟨hok, -⟩
      exact absurd (Except.ok.inj hok).symm heq

/-- **How `apply` ends on a delta of the state's fork**: a failed validation leaves the state
alone; otherwise it returns iff the payload fits. -/
theorem apply_of_fork [LawfulValidatorMutTarget T] {b : Build} {s : DiffTarget T}
    {d : ArchivedBeaconStateDelta} (hfork : d.fork = .ok s.fork) :
    (∃ e, validateFields d s.fork = some e ∧ apply b s d = .err e s) ∨
    (FieldsAllowed d s.fork ∧ PayloadFits b d s ∧ ∃ s', apply b s d = .ok s' ∧ Applied b d s s') ∨
    (FieldsAllowed d s.fork ∧ ¬PayloadFits b d s ∧ ∃ s', apply b s d = .panic s') := by
  unfold apply
  rw [hfork]
  simp only [ne_eq, not_true, if_false]
  cases hval : validateFields d s.fork with
  | some e => exact Or.inl ⟨e, rfl, rfl⟩
  | none =>
    have hallowed := validateFields_eq_none.1 hval
    refine Or.inr ?_
    by_cases hfit : PayloadFits b d s
    · obtain ⟨s', hrun⟩ := applyComponents_isOk.2 hfit
      refine Or.inl ⟨hallowed, hfit, s', ?_, applyComponents_eq_ok.1 hrun⟩
      simp only [hrun]
    · cases hrun : applyComponents b d s with
      | ok s' => exact absurd (applyComponents_isOk.1 ⟨s', hrun⟩) hfit
      | error s' => exact Or.inr ⟨hallowed, hfit, s', rfl⟩

end

end EthStateDiff
