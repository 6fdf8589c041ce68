import EthStateDiff.Chain
/-!
# The contract of `create` and `apply` (`lib.rs:372-851`, `error.rs`)

* `apply_complete_iff` — `apply` accepts complete deltas only: exactly when that holds.
* `create_apply_fields_iff` — a created delta passes the field validation: exactly when.
* `apply_atomic_iff` — `apply` returns, or rejects before it mutates: exactly when.
* `apply_participation_iff` — either representation of a participation delta: exactly when it
  survives `apply`.
-/

namespace EthStateDiff

open Rust ByteString

/-! ## Sample states -/

/-- A Phase 0 state without validators. -/
def phase0State : DiffTarget (List RawValidator) where
  fork := .phase0
  scalarHeader := []
  balances := []
  validators := []
  blockRoots := [filled 0]
  stateRoots := [filled 0]
  randaoMixes := [filled 0]
  slashings := [0]
  eth1DataVotes := []
  historicalRoots := some []
  previousEpochAttestations := some []
  currentEpochAttestations := some []
  previousParticipation := none
  currentParticipation := none
  inactivityScores := none
  currentSyncCommittee := none
  nextSyncCommittee := none
  historicalSummaries := none
  pendingDeposits := none
  pendingPartialWithdrawals := none
  pendingConsolidations := none

/-- A Phase 0 delta that changes nothing. -/
def phase0Delta : ArchivedBeaconStateDelta where
  fork := .ok .phase0
  baseSlot := 0
  scalarHeader := []
  balances := ⟨⟨[], 0⟩, 0, [], [], []⟩
  validators := ⟨[], []⟩
  blockRoots := ⟨[]⟩
  stateRoots := ⟨[]⟩
  randaoMixes := ⟨[]⟩
  slashings := ⟨[]⟩
  eth1DataVotes := .append []
  historicalRoots := some .unchanged
  previousEpochAttestations := some .unchanged
  currentEpochAttestations := some .unchanged
  previousParticipation := none
  currentParticipation := none
  inactivityScores := none
  currentSyncCommittee := none
  nextSyncCommittee := none
  historicalSummaries := none
  pendingDeposits := none
  pendingPartialWithdrawals := none
  pendingConsolidations := none

/-- An Altair transition inside slot 0 that still exposes the two Phase 0 attestation lists. -/
def altairSource : DiffSource RawValidator RawValidator where
  fork := .altair
  slot := (0, 0)
  capellaForkSlot := 0
  scalarHeader := []
  balances := ([], [])
  validators := ([], [])
  blockRoots := [filled 0]
  stateRoots := [filled 0]
  randaoMixes := [filled 0]
  slashings := ([0], [0])
  eth1DataVotes := ([], [])
  historicalRoots := some []
  previousEpochAttestations := some ([], [])
  currentEpochAttestations := some ([], [])
  previousParticipation := some ([], [])
  currentParticipation := some ([], [])
  inactivityScores := some ([], [])
  currentSyncCommittee := some ([], [])
  nextSyncCommittee := some ([], [])
  historicalSummaries := none
  pendingDeposits := none
  pendingPartialWithdrawals := none
  pendingConsolidations := none

/-- An Altair state without validators, except for the previous epoch's flags. -/
def altairState (flags : List UInt8) : DiffTarget (List RawValidator) :=
  { phase0State with
    fork := .altair
    previousEpochAttestations := none
    currentEpochAttestations := none
    previousParticipation := some flags
    currentParticipation := some []
    inactivityScores := some []
    currentSyncCommittee := some []
    nextSyncCommittee := some [] }

/-- An Altair delta that changes nothing, except for the previous epoch's flags. -/
def altairDelta (flags : ParticipationDiff) : ArchivedBeaconStateDelta :=
  { phase0Delta with
    fork := .ok .altair
    previousEpochAttestations := none
    currentEpochAttestations := none
    previousParticipation := some flags
    currentParticipation := some (.sparse [] [] [])
    inactivityScores := some (.sparse [] [] [])
    currentSyncCommittee := some .unchanged
    nextSyncCommittee := some .unchanged }

/-- What makes step 1 of the Electra chain of its step 0. -/
def joiningDelta : ArchivedBeaconStateDelta where
  fork := .ok .electra
  baseSlot := 8128
  scalarHeader := [1]
  balances := ⟨⟨[0b11], 1⟩, 1, [0], [], [33]⟩
  validators := ⟨[⟨0, .effectiveBalance, (toLe 1).val⟩], (RawValidator.encode (staking 1)).val⟩
  blockRoots := ⟨List.replicate 32 (filled 1)⟩
  stateRoots := ⟨List.replicate 32 (filled 1)⟩
  randaoMixes := ⟨List.replicate 2 (filled 1)⟩
  slashings := ⟨[(0, 1)]⟩
  eth1DataVotes := .append [1]
  historicalRoots := none
  previousEpochAttestations := none
  currentEpochAttestations := none
  previousParticipation := some (.sparse [0] [1] [1])
  currentParticipation := some (.sparse [] [] [1])
  inactivityScores := some (.sparse [0] [1] [1])
  currentSyncCommittee := some (.fullReplacement [1])
  nextSyncCommittee := some .unchanged
  historicalSummaries := some .unchanged
  pendingDeposits := some (.fifo 0 [])
  pendingPartialWithdrawals := some (.fifo 1 (List.replicate 24 1))
  pendingConsolidations := some (.fifo 1 (List.replicate 16 2))

set_option maxRecDepth 1000 in
example : apply Build.dev (joining 0).state joiningDelta = .ok (joining 1).state := rfl

section

variable {T V F : Type} [ValidatorMut V] [ValidatorMutTarget T V]

/-! ## Participation -/

/-- The two participation components. -/
inductive Epoch where
  | previous
  | current

def DiffTarget.participation (s : DiffTarget T) : Epoch → Option (List UInt8)
  | .previous => s.previousParticipation
  | .current => s.currentParticipation

def BeaconStateDelta.participation (d : BeaconStateDelta F) : Epoch → Option ParticipationDiff
  | .previous => d.previousParticipation
  | .current => d.currentParticipation

def DiffSource.participation {V₁ V₂ : Type} (state : DiffSource V₁ V₂) :
    Epoch → Option (List UInt8 × List UInt8)
  | .previous => state.previousParticipation
  | .current => state.currentParticipation

theorem participation_archive (r : Rkyv) (d : BeaconStateDelta ForkName) (epoch : Epoch) :
    (d.archive r).participation epoch = (d.participation epoch).map (·.archive r) := by
  cases epoch <;> rfl

theorem Created.participation {V₁ V₂ : Type} [ValidatorSnapshot V₁] [ValidatorSnapshot V₂]
    {b : Build} {order : HashOrder} {state : DiffSource V₁ V₂} {d : BeaconStateDelta ForkName}
    (h : Created b order state d) (epoch : Epoch) :
    d.participation epoch = (state.participation epoch).map fun p => diffParticipationIter p.1 p.2 := by
  cases epoch with
  | previous => exact h.previousParticipation
  | current => exact h.currentParticipation

theorem Applied.participation {b : Build} {d : BeaconStateDelta F} {s s' : DiffTarget T}
    (h : Applied b d s s') (epoch : Epoch) :
    onBoth (applyParticipationIter b) (d.participation epoch) (s.participation epoch) =
      .ok (s'.participation epoch) := by
  cases epoch with
  | previous => exact h.previousParticipation
  | current => exact h.currentParticipation

/-- **A participation delta of the slice encoder survives `apply`** exactly when the target has a
flag set, or there was nothing to change and the flags can be counted: `apply` runs the generic
applier, which skips `AllZeros`, and the slice applier relies on its count. -/
theorem apply_participation_iff (b : Build) (r : Rkyv) {s s' : DiffTarget T}
    {d : ArchivedBeaconStateDelta} (hok : apply b s d = .ok s') (epoch : Epoch)
    {base target : List UInt8} (hle : base.length ≤ target.length) (hmax : target.length < 2 ^ 63)
    (hs : s.participation epoch = some base)
    (hd : d.participation epoch = some ((diffParticipation base target).archive r)) :
    (s'.participation epoch = some target ∧
      applyParticipation b base ((diffParticipation base target).archive r) = .ok target) ↔
      (∃ v ∈ target, v ≠ 0) ∨ (base = target ∧ target.length < 2 ^ 32) := by
  obtain ⟨-, -, happ⟩ := apply_eq_ok.1 hok
  have hrun := happ.participation epoch
  rw [hs, hd, onBoth] at hrun
  have hiff : s'.participation epoch = some target ↔
      applyParticipationIter b base ((diffParticipation base target).archive r) = .ok target := by
    cases hout : applyParticipationIter b base ((diffParticipation base target).archive r) with
    | error x =>
      rw [hout] at hrun
      cases hrun
    | ok x =>
      rw [hout, mapState_ok] at hrun
      rw [← Except.ok.inj hrun]
      simp
  rw [hiff, applyParticipationIter_diffParticipation_iff b r hle hmax,
    applyParticipation_diffParticipation_iff b r hmax]
  constructor
  · rintro ⟨hset | rfl, ⟨-, hset'⟩ | ⟨hzero, hlt⟩⟩
    · exact Or.inl hset
    · exact Or.inl hset
    · exact Or.inl hset'
    · exact Or.inr ⟨rfl, hlt⟩
  · rintro (hset | ⟨rfl, hlt⟩)
    · exact ⟨Or.inl hset, Or.inl ⟨hle, hset⟩⟩
    · refine ⟨Or.inr rfl, ?_⟩
      by_cases hset : ∃ v ∈ base, v ≠ 0
      · exact Or.inl ⟨hle, hset⟩
      · refine Or.inr ⟨fun v hv => ?_, hlt⟩
        by_contra hne
        exact hset ⟨v, hv, hne⟩

/-- Flags that are set, and one that is not changed. -/
theorem apply_participation_flags_set :
    (altairState [1, 2]).participation .previous = some [1, 2] ∧
      applyParticipation Build.dev [0, 2] ((diffParticipation [0, 2] [1, 2]).archive .truncating) =
        .ok [1, 2] := by
  have hok : apply Build.dev (altairState [0, 2])
      (altairDelta ((diffParticipation [0, 2] [1, 2]).archive .truncating)) =
        .ok (altairState [1, 2]) := rfl
  exact (apply_participation_iff Build.dev .truncating hok .previous (by decide) (by decide) rfl
    rfl).2 (Or.inl ⟨1, by decide, by decide⟩)

/-- A flag that is cleared stays, under `Ok`; the slice applier clears it. -/
theorem apply_participation_zeros_lost :
    apply Build.dev (altairState [1])
        (altairDelta ((diffParticipation [1] [0]).archive .truncating)) = .ok (altairState [1]) ∧
      (altairState [1]).participation .previous ≠ some [0] ∧
      applyParticipation Build.dev [1] ((diffParticipation [1] [0]).archive .truncating) =
        .ok [0] :=
  ⟨rfl, by decide, rfl⟩

/-! ## Complete deltas -/

/-- Every component is present exactly when the fork has it. -/
def Complete (d : BeaconStateDelta F) (fork : ForkName) : Prop :=
  ∀ field, field ≠ .historicalRoots → (d.has field = true ↔ field.InFork fork)

/-- The delta lacks a component that the fork has. -/
def Lacking (d : BeaconStateDelta F) (fork : ForkName) : Prop :=
  ∃ field, field ≠ .historicalRoots ∧ field.InFork fork ∧ d.has field = false

/-- The state has storage for every component of the delta. -/
def Stored (d : BeaconStateDelta F) (s : DiffTarget T) : Prop :=
  ∀ field, d.has field = true → s.has field = true

/-- All-zero flags meet a state whose flags are those already. -/
def ZerosInPlace (d : BeaconStateDelta F) (s : DiffTarget T) : Prop :=
  ∀ epoch len flags, d.participation epoch = some (.allZeros len) →
    s.participation epoch = some flags → flags = List.replicate len 0

/-- If the delta has the component then the state's was turned from `st` into `out` by it. -/
def TookIn {α δ : Type} (run : α → δ → Exec α α) (delta : Option δ) (st out : Option α) : Prop :=
  ∀ e, delta = some e → ∃ x y, st = some x ∧ out = some y ∧ run x e = .ok y

/-- Every component that the delta has was applied. -/
structure Took (b : Build) (d : BeaconStateDelta F) (s s' : DiffTarget T) : Prop where
  scalarHeader : s'.scalarHeader = d.scalarHeader
  balances : applyBalancesIter b s.balances d.balances = .ok s'.balances
  validators : applyValidatorsIter b s.validators d.validators = .ok s'.validators
  blockRoots : applyRoots b d.baseSlot s.blockRoots d.blockRoots = .ok s'.blockRoots
  stateRoots : applyRoots b d.baseSlot s.stateRoots d.stateRoots = .ok s'.stateRoots
  randaoMixes : applyRandao d.baseSlot s.randaoMixes d.randaoMixes = .ok s'.randaoMixes
  slashings : applySlashings s.slashings d.slashings = .ok s'.slashings
  eth1DataVotes : applyEth1Votes s.eth1DataVotes d.eth1DataVotes = s'.eth1DataVotes
  historicalRoots : TookIn (fun x δ => .ok (applyHistoricalLog x δ)) d.historicalRoots
    s.historicalRoots s'.historicalRoots
  previousEpochAttestations : TookIn (fun x δ => .ok (applyAttestations x δ))
    d.previousEpochAttestations s.previousEpochAttestations s'.previousEpochAttestations
  currentEpochAttestations : TookIn (fun x δ => .ok (applyAttestations x δ))
    d.currentEpochAttestations s.currentEpochAttestations s'.currentEpochAttestations
  participation : ∀ epoch, TookIn (applyParticipation b) (d.participation epoch)
    (s.participation epoch) (s'.participation epoch)
  inactivityScores : TookIn applyInactivity d.inactivityScores s.inactivityScores
    s'.inactivityScores
  currentSyncCommittee : TookIn (fun x δ => .ok (applySyncCommittee x δ)) d.currentSyncCommittee
    s.currentSyncCommittee s'.currentSyncCommittee
  nextSyncCommittee : TookIn (fun x δ => .ok (applySyncCommittee x δ)) d.nextSyncCommittee
    s.nextSyncCommittee s'.nextSyncCommittee
  historicalSummaries : TookIn (fun x δ => .ok (applyHistoricalLog x δ)) d.historicalSummaries
    s.historicalSummaries s'.historicalSummaries
  pendingDeposits : TookIn (applyQueue b · · PENDING_DEPOSIT_SSZ_SIZE) d.pendingDeposits
    s.pendingDeposits s'.pendingDeposits
  pendingPartialWithdrawals : TookIn (applyQueue b · · PARTIAL_WITHDRAWAL_SSZ_SIZE)
    d.pendingPartialWithdrawals s.pendingPartialWithdrawals s'.pendingPartialWithdrawals
  pendingConsolidations : TookIn (applyQueue b · · PENDING_CONSOLIDATION_SSZ_SIZE)
    d.pendingConsolidations s.pendingConsolidations s'.pendingConsolidations

/-- **`apply` accepts complete deltas only**: what it accepts is of the state's fork, complete
and applied as a whole, and an incomplete delta or one that the state cannot store is an error. -/
structure AcceptsComplete (b : Build) (s : DiffTarget T) (d : ArchivedBeaconStateDelta) : Prop where
  accepted : ∀ s', apply b s d = .ok s' →
    d.fork = .ok s.fork ∧ Complete d s.fork ∧ Took b d s s'
  rejected : ∀ fork, d.fork = .ok fork → Lacking d fork ∨ ¬Stored d s →
    ∃ e s', apply b s d = .err e s'

theorem not_lacking_iff {d : BeaconStateDelta F} {fork : ForkName} (h : FieldsAllowed d fork) :
    ¬Lacking d fork ↔ Complete d fork := by
  constructor
  · intro hno field hfield
    refine ⟨h field, fun hin => ?_⟩
    by_contra hhas
    exact hno ⟨field, hfield, hin, by simpa using hhas⟩
  · rintro hcomplete ⟨field, hfield, hin, hhas⟩
    rw [(hcomplete field hfield).2 hin] at hhas
    cases hhas

theorem tookIn_iff {α δ : Type} {run : α → δ → Exec α α} {delta : Option δ} {st out : Option α}
    (h : onBoth run delta st = .ok out) :
    TookIn run delta st out ↔ (delta.isSome = true → st.isSome = true) := by
  cases delta with
  | none => exact ⟨fun _ h => (by cases h), fun _ _ h => (by cases h)⟩
  | some e =>
    cases st with
    | none =>
      refine ⟨fun htook => ?_, fun hst => (by cases hst rfl)⟩
      obtain ⟨x, -, hx, -⟩ := htook e rfl
      cases hx
    | some x =>
      refine ⟨fun _ _ => rfl, ?_⟩
      rintro - _ ⟨⟩
      obtain ⟨y, hy⟩ := onBoth_isOk.1 ⟨out, h⟩ x rfl e rfl
      rw [onBoth, hy] at h
      exact ⟨x, y, rfl, (Except.ok.inj h).symm, hy⟩

/-- The generic participation applier took the component in iff it did not skip it. -/
theorem tookIn_participation_iff {b : Build} {delta : Option ParticipationDiff}
    {st out : Option (List UInt8)} (h : onBoth (applyParticipationIter b) delta st = .ok out) :
    TookIn (applyParticipation b) delta st out ↔ (delta.isSome = true → st.isSome = true) ∧
      ∀ len flags, delta = some (.allZeros len) → st = some flags → flags = List.replicate len 0 := by
  cases delta with
  | none =>
    refine ⟨fun _ => ⟨fun h => (by cases h), fun len flags h => (by cases h)⟩, ?_⟩
    intro _ e he
    cases he
  | some e =>
    cases st with
    | none =>
      refine ⟨fun htook => ?_, fun hst => (by cases hst.1 rfl)⟩
      obtain ⟨x, -, hx, -⟩ := htook e rfl
      cases hx
    | some x =>
      obtain ⟨y, hy⟩ := onBoth_isOk.1 ⟨out, h⟩ x rfl e rfl
      rw [onBoth, hy] at h
      obtain rfl := Except.ok.inj h
      cases e with
      | allZeros len =>
        -- skipped: the flags are what they were
        obtain rfl := Except.ok.inj hy
        constructor
        · intro htook
          refine ⟨fun _ => rfl, ?_⟩
          rintro _ _ ⟨⟩ ⟨⟩
          obtain ⟨_, _, ⟨⟩, ⟨⟩, hrun⟩ := htook _ rfl
          exact (Except.ok.inj hrun).symm
        · rintro ⟨-, hzeros⟩ _ ⟨⟩
          exact ⟨x, x, rfl, rfl, congrArg Except.ok (hzeros len x rfl rfl).symm⟩
      | sparse sparseIndices newValues extension =>
        constructor
        · intro _
          refine ⟨fun _ => rfl, ?_⟩
          rintro _ _ ⟨⟩
        · rintro - _ ⟨⟩
          exact ⟨x, y, rfl, rfl, hy⟩

theorem took_iff {b : Build} {d : BeaconStateDelta F} {s s' : DiffTarget T}
    (h : Applied b d s s') : Took b d s s' ↔ Stored d s ∧ ZerosInPlace d s := by
  have hpart := fun epoch => tookIn_participation_iff (h.participation epoch)
  constructor
  · intro htook
    refine ⟨fun field => ?_, fun epoch => ((hpart epoch).1 (htook.participation epoch)).2⟩
    cases field with
    | historicalRoots => exact (tookIn_iff h.historicalRoots).1 htook.historicalRoots
    | previousEpochAttestations =>
      exact (tookIn_iff h.previousEpochAttestations).1 htook.previousEpochAttestations
    | currentEpochAttestations =>
      exact (tookIn_iff h.currentEpochAttestations).1 htook.currentEpochAttestations
    | previousParticipation => exact ((hpart .previous).1 (htook.participation .previous)).1
    | currentParticipation => exact ((hpart .current).1 (htook.participation .current)).1
    | inactivityScores => exact (tookIn_iff h.inactivityScores).1 htook.inactivityScores
    | currentSyncCommittee => exact (tookIn_iff h.currentSyncCommittee).1 htook.currentSyncCommittee
    | nextSyncCommittee => exact (tookIn_iff h.nextSyncCommittee).1 htook.nextSyncCommittee
    | historicalSummaries => exact (tookIn_iff h.historicalSummaries).1 htook.historicalSummaries
    | pendingDeposits => exact (tookIn_iff h.pendingDeposits).1 htook.pendingDeposits
    | pendingPartialWithdrawals =>
      exact (tookIn_iff h.pendingPartialWithdrawals).1 htook.pendingPartialWithdrawals
    | pendingConsolidations =>
      exact (tookIn_iff h.pendingConsolidations).1 htook.pendingConsolidations
  · rintro ⟨hst, hzeros⟩
    exact {
      scalarHeader := h.scalarHeader
      balances := h.balances
      validators := h.validators
      blockRoots := h.blockRoots
      stateRoots := h.stateRoots
      randaoMixes := h.randaoMixes
      slashings := h.slashings
      eth1DataVotes := h.eth1DataVotes
      historicalRoots := (tookIn_iff h.historicalRoots).2 (hst .historicalRoots)
      previousEpochAttestations :=
        (tookIn_iff h.previousEpochAttestations).2 (hst .previousEpochAttestations)
      currentEpochAttestations :=
        (tookIn_iff h.currentEpochAttestations).2 (hst .currentEpochAttestations)
      participation := fun epoch => (hpart epoch).2 ⟨by
        cases epoch with
        | previous => exact hst .previousParticipation
        | current => exact hst .currentParticipation, hzeros epoch⟩
      inactivityScores := (tookIn_iff h.inactivityScores).2 (hst .inactivityScores)
      currentSyncCommittee := (tookIn_iff h.currentSyncCommittee).2 (hst .currentSyncCommittee)
      nextSyncCommittee := (tookIn_iff h.nextSyncCommittee).2 (hst .nextSyncCommittee)
      historicalSummaries := (tookIn_iff h.historicalSummaries).2 (hst .historicalSummaries)
      pendingDeposits := (tookIn_iff h.pendingDeposits).2 (hst .pendingDeposits)
      pendingPartialWithdrawals :=
        (tookIn_iff h.pendingPartialWithdrawals).2 (hst .pendingPartialWithdrawals)
      pendingConsolidations := (tookIn_iff h.pendingConsolidations).2 (hst .pendingConsolidations) }

/-- A delta of another fork, or with a component its fork does not have, is an error. -/
theorem apply_rejects {b : Build} {s : DiffTarget T} {d : ArchivedBeaconStateDelta}
    (h : ¬(d.fork = .ok s.fork ∧ FieldsAllowed d s.fork)) : ∃ e, apply b s d = .err e s := by
  unfold apply
  cases hfork : d.fork with
  | error e => exact ⟨_, rfl⟩
  | ok deltaFork =>
    by_cases heq : s.fork = deltaFork
    · subst heq
      cases hval : validateFields d s.fork with
      | some e => exact ⟨e, by simp [hval]⟩
      | none => exact absurd ⟨hfork, validateFields_eq_none.1 hval⟩ h
    · exact ⟨.forkMismatch s.fork deltaFork, by simp only [ne_eq, heq, not_false_iff, if_true]⟩

/-- **Exactly when `apply` keeps to complete deltas**: it rejects the delta anyway, or the delta
is complete, the state has storage for all of it, and, unless a payload makes `apply` panic,
all-zero flags come with a state that has them already. -/
theorem apply_complete_iff [LawfulValidatorMutTarget T] (b : Build) (s : DiffTarget T)
    (d : ArchivedBeaconStateDelta) : AcceptsComplete b s d ↔
      ¬(d.fork = .ok s.fork ∧ FieldsAllowed d s.fork) ∨
      (Complete d s.fork ∧ Stored d s ∧ (PayloadFits b d s → ZerosInPlace d s)) := by
  by_cases hrej : d.fork = .ok s.fork ∧ FieldsAllowed d s.fork
  · obtain ⟨hfork, hallowed⟩ := hrej
    rw [or_iff_right (not_not.mpr ⟨hfork, hallowed⟩)]
    have hgood : Complete d s.fork → Stored d s → ∀ {fork}, d.fork = .ok fork →
        ¬(Lacking d fork ∨ ¬Stored d s) := by
      rintro hcomplete hstored fork hf hbad
      obtain rfl := Except.ok.inj (hf.symm.trans hfork)
      rcases hbad with hlack | hst
      · exact absurd hlack ((not_lacking_iff hallowed).2 hcomplete)
      · exact absurd hstored hst
    rcases apply_of_fork (b := b) hfork with
      ⟨e, he, -⟩ | ⟨-, hfit, s', hrun, happ⟩ | ⟨-, hfit, s', hrun⟩
    · exact absurd (he.symm.trans (validateFields_eq_none.2 hallowed)) (by simp)
    · -- accepted
      constructor
      · rintro ⟨hacc, -⟩
        obtain ⟨-, hcomplete, htook⟩ := hacc s' hrun
        obtain ⟨hstored, hzeros⟩ := (took_iff happ).1 htook
        exact ⟨hcomplete, hstored, fun _ => hzeros⟩
      · rintro ⟨hcomplete, hstored, hzeros⟩
        refine ⟨fun out hout => ?_, fun fork hf hbad => ?_⟩
        · obtain ⟨-, -, happ'⟩ := apply_eq_ok.1 hout
          exact ⟨hfork, hcomplete, (took_iff happ').2 ⟨hstored, hzeros hfit⟩⟩
        · exact (hgood hcomplete hstored hf hbad).elim
    · -- a panic is neither `Ok` nor an error
      have hno : ∀ e out, apply b s d ≠ .err e out := by
        intro e out herr
        rw [hrun] at herr
        cases herr
      constructor
      · rintro ⟨-, hrej⟩
        refine ⟨(not_lacking_iff hallowed).1 fun hlack => ?_, ?_, fun hf => absurd hf hfit⟩
        · obtain ⟨e, out, herr⟩ := hrej _ hfork (Or.inl hlack)
          exact hno e out herr
        · by_contra hst
          obtain ⟨e, out, herr⟩ := hrej _ hfork (Or.inr hst)
          exact hno e out herr
      · rintro ⟨hcomplete, hstored, -⟩
        refine ⟨fun out hout => ?_, fun fork hf hbad => ?_⟩
        · rw [hrun] at hout
          cases hout
        · exact (hgood hcomplete hstored hf hbad).elim
  · obtain ⟨e, herr⟩ := apply_rejects (b := b) hrej
    refine ⟨fun _ => Or.inl hrej, fun _ => ⟨fun s' hok => ?_, fun _ _ _ => ⟨e, s, herr⟩⟩⟩
    rw [herr] at hok
    cases hok

end

theorem apply_complete_joining : AcceptsComplete Build.dev (joining 0).state joiningDelta := by
  refine (apply_complete_iff Build.dev (joining 0).state joiningDelta).2
    (Or.inr ⟨fun field _ => ?_, fun field hfield => ?_, fun _ => ?_⟩)
  · show joiningDelta.has field = true ↔ field.InFork .electra
    cases field <;> decide
  · cases field <;> first | rfl | cases hfield
  · rintro epoch len flags h
    cases epoch <;> cases h

/-- A Phase 0 delta without the previous epoch's attestations is accepted. -/
theorem apply_incomplete_accepted : ¬AcceptsComplete Build.dev phase0State
    { phase0Delta with previousEpochAttestations := none } := by
  intro h
  have hcomplete := (h.accepted phase0State rfl).2.1 .previousEpochAttestations (by decide)
  exact absurd (hcomplete.2 (by decide)) (by decide)

section

variable {T V F : Type} [ValidatorMut V] [ValidatorMutTarget T V]

/-! ## Field presence in created deltas -/

/-- **The field validation of `apply`**, as its caller sees it. -/
theorem apply_invalidField_iff {b : Build} {s : DiffTarget T} {d : ArchivedBeaconStateDelta}
    (hfork : d.fork = .ok s.fork) :
    (∀ field fork s', apply b s d ≠ .err (.invalidFieldForFork field fork) s') ↔
      FieldsAllowed d s.fork := by
  unfold apply
  rw [← validateFields_eq_none, hfork]
  simp only [ne_eq, not_true, if_false]
  cases hval : validateFields d s.fork with
  | some e =>
    obtain ⟨field, rfl⟩ := validateFields_eq_some hval
    exact ⟨fun h => absurd rfl (h field s.fork s), fun h => (by cases h)⟩
  | none =>
    refine ⟨fun _ => rfl, fun _ field fork s' h => ?_⟩
    cases hrun : applyComponents b d s <;> simp only [hrun] at h <;> cases h

theorem has_archive (r : Rkyv) (d : BeaconStateDelta ForkName) (field : OptionalField) :
    (d.archive r).has field = d.has field := by
  cases field with
  | previousParticipation | currentParticipation => exact Option.isSome_map
  | _ => rfl

/-- **Exactly when a created delta passes the field validation**: the debug assertions of
`create` do not look at the three components that a fork removes, so a source must not expose
them by itself. -/
theorem create_apply_fields_iff {V₁ V₂ : Type} [ValidatorSnapshot V₁] [ValidatorSnapshot V₂]
    (b : Build) (hdebug : b.debugAssertions = true) (order : HashOrder) (source : DiffSource V₁ V₂)
    {d : BeaconStateDelta ForkName} (hd : create b order source = some d) (b' : Build) (r : Rkyv)
    (s : DiffTarget T) (hfork : s.fork = source.fork) :
    (∀ field fork s', apply b' s (d.archive r) ≠ .err (.invalidFieldForFork field fork) s') ↔
      (source.previousEpochAttestations.isSome = true → source.fork < .altair) ∧
      (source.currentEpochAttestations.isSome = true → source.fork < .altair) ∧
      (source.historicalRoots.isSome = true → source.fork < .capella) := by
  obtain ⟨hcreated, hchecked⟩ := create_eq_some.1 hd
  have hdfork : (d.archive r).fork = .ok s.fork := by
    rw [BeaconStateDelta.archive, hcreated.fork, hfork]
  have hasserts := createAsserts_iff.1 (hchecked hdebug)
  rw [apply_invalidField_iff hdfork, hfork, ← hcreated.fork]
  constructor
  · intro h
    have hremoved : ∀ field, source.has field = true → field.InFork d.fork := by
      intro field hfield
      refine h field ?_
      rw [has_archive, hcreated.has]
      exact hfield
    exact ⟨hremoved .previousEpochAttestations, hremoved .currentEpochAttestations,
      hremoved .historicalRoots⟩
  · rintro ⟨hprev, hcur, hroots⟩ field hfield
    rw [has_archive] at hfield
    by_cases hadded : field ∉ [OptionalField.historicalRoots, .previousEpochAttestations,
        .currentEpochAttestations]
    · exact (hasserts field hadded).1 hfield
    · rw [hcreated.has] at hfield
      rw [not_not, List.mem_cons, List.mem_cons, List.mem_singleton] at hadded
      rcases hadded with rfl | rfl | rfl
      · exact hroots hfield
      · exact hprev hfield
      · exact hcur hfield

end

theorem create_apply_fields_joining : ∃ d,
    create Build.dev ⟨id, fun _ => .refl _⟩ (source 0 (joining 0) (joining 1)) = some d ∧
      ∀ field fork s', apply Build.dev (joining 1).state (d.archive .truncating) ≠
        .err (.invalidFieldForFork field fork) s' := by
  obtain ⟨d, hd, -⟩ := (linked_joining (show 0 < 256 by decide)).reconstructs .truncating
    ⟨id, fun _ => .refl _⟩
  refine ⟨d, hd, ?_⟩
  refine (create_apply_fields_iff Build.dev rfl _ _ hd Build.dev .truncating (joining 1).state
    rfl).2 ⟨fun h => ?_, fun h => ?_, fun h => ?_⟩
  all_goals cases h

/-- In a debug build, `create` lets the attestation lists of an Altair source through. -/
theorem create_apply_fields_attestations : ∃ d,
    create Build.dev ⟨id, fun _ => .refl _⟩ altairSource = some d ∧
      apply Build.dev (altairState []) (d.archive .truncating) =
        .err (.invalidFieldForFork "previous_epoch_attestations" .altair) (altairState []) :=
  ⟨_, rfl, rfl⟩

section

variable {T V F : Type} [ValidatorMut V] [ValidatorMutTarget T V]

/-! ## Atomicity -/

/-- `Ok`, or an error that leaves the state as it was. -/
def Atomic {S : Type} (s : S) : Outcome S → Prop
  | .ok _ => True
  | .err _ s' => s' = s
  | .panic _ => False

/-- **Exactly when `apply` is atomic** on a delta of the state's fork: the field validation
rejects the delta, or every payload can be applied to this state. -/
theorem apply_atomic_iff [LawfulValidatorMutTarget T] (b : Build) (s : DiffTarget T)
    (d : ArchivedBeaconStateDelta) (hfork : d.fork = .ok s.fork) :
    Atomic s (apply b s d) ↔ ¬FieldsAllowed d s.fork ∨ PayloadFits b d s := by
  rcases apply_of_fork (b := b) hfork with
    ⟨e, he, hrun⟩ | ⟨-, hfit, s', hrun, -⟩ | ⟨hallowed, hfit, s', hrun⟩
  · have hno : ¬FieldsAllowed d s.fork := by
      rw [← validateFields_eq_none, he]
      simp
    rw [hrun]
    exact ⟨fun _ => Or.inl hno, fun _ => rfl⟩
  · rw [hrun]
    exact ⟨fun _ => Or.inr hfit, fun _ => trivial⟩
  · rw [hrun]
    refine ⟨fun h => h.elim, ?_⟩
    rintro (hno | hf)
    · exact hno hallowed
    · exact hfit hf

end

set_option maxRecDepth 2000 in
/-- The flags are grown from one to three, of which the first and the last are set. -/
theorem apply_atomic_joining : Atomic (joining 0).state (apply Build.dev (joining 0).state
    { joiningDelta with previousParticipation := some (.sparse [0, 2] [1, 1] [4]) }) := by
  have hfit : PayloadFits Build.dev
      { joiningDelta with previousParticipation := some (.sparse [0, 2] [1, 1] [4]) }
      (joining 0).state :=
    applyComponents_isOk.1
      ⟨{ (joining 1).state with previousParticipation := some [1, 0, 1, 4] }, by rfl⟩
  exact (apply_atomic_iff Build.dev (joining 0).state _ rfl).2 (Or.inr hfit)

/-- A patch value of the wrong width: `apply` panics with the scalar header already replaced. -/
theorem apply_patch_width_panics :
    let v : RawValidator := .decode ⟨List.replicate 121 0, rfl⟩
    let s := { phase0State with balances := [0], validators := [v] }
    let d := { phase0Delta with
      scalarHeader := [1]
      balances := ⟨⟨[0], 1⟩, 0, [], [], []⟩
      validators := ⟨[⟨0, .effectiveBalance, []⟩], []⟩ }
    d.fork = .ok s.fork ∧
      apply Build.dev s d = .panic { s with scalarHeader := [1] } ∧
      ¬Atomic s (apply Build.dev s d) :=
  ⟨rfl, rfl, fun h => h⟩

end EthStateDiff
