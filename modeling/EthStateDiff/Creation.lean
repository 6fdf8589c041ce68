import EthStateDiff.Contract
import EthStateDiff.QueueProofs
/-!
# When `create` panics (`lib.rs:372-658`)

`create` runs nineteen encoders and, in a debug build, nine assertions. Nine of the encoders can
panic; each of them returns under a condition on its own inputs.

* `diffBalancesIter_isSome`, … — when one encoder returns.
* `create_isSome` — when all of them do (`Encodable`).
* `create_panics_iff` — **exactly when `create` panics**, cause by cause.
-/

namespace EthStateDiff

open Rust ByteString Overwrite

/-! ## When an encoder returns -/

theorem diffRoots_isSome {baseSlot targetSlot : UInt64} {buffer : List (Bytes 32)} :
    (∃ d, diffRoots baseSlot targetSlot buffer = some d) ↔
      baseSlot ≤ targetSlot ∧ buffer ≠ [] ∧ targetSlot.toNat - baseSlot.toNat < 2 ^ 58 := by
  constructor
  · rintro ⟨d, hd⟩
    obtain ⟨hle, hne, hspan, -⟩ := diffRoots_eq_some.1 hd
    exact ⟨hle, hne, hspan⟩
  · rintro ⟨hle, hne, hspan⟩
    obtain ⟨roots, hroots⟩ := readRing_total hne
      (List.range' baseSlot.toNat (targetSlot.toNat - baseSlot.toNat))
    exact ⟨⟨roots⟩, diffRoots_eq_some.2 ⟨hle, hne, hspan, hroots⟩⟩

theorem diffRandao_isSome {baseSlot targetSlot : UInt64} {buffer : List (Bytes 32)} :
    (∃ d, diffRandao baseSlot targetSlot buffer = some d) ↔
      baseSlot ≤ targetSlot ∧ buffer ≠ [] ∧
        targetSlot.toNat / 32 + 1 - baseSlot.toNat / 32 < 2 ^ 58 := by
  constructor
  · rintro ⟨d, hd⟩
    obtain ⟨hle, hne, hspan, -⟩ := diffRandao_eq_some.1 hd
    exact ⟨hle, hne, hspan⟩
  · rintro ⟨hle, hne, hspan⟩
    obtain ⟨d, hd, -⟩ := diffRandao_reconstructs hle hspan rfl hne
    exact ⟨d, hd⟩

/-- The loop reads both rings at the base's positions. -/
theorem diffSlashingsLoop_isSome {base target : List UInt64} (hbase : base ≠ [])
    (hlen : base.length = target.length) : ∀ epochs : List Nat,
    ∃ updates, diffSlashingsLoop base target epochs = some updates := by
  intro epochs
  induction epochs with
  | nil => exact ⟨[], rfl⟩
  | cons epoch epochs ih =>
    obtain ⟨updates, hupdates⟩ := ih
    have hidx : epoch % base.length < base.length := Nat.mod_lt _ (List.length_pos_iff.2 hbase)
    have hidx' : epoch % base.length < target.length := by omega
    simp only [diffSlashingsLoop, List.getElem?_eq_getElem hidx, List.getElem?_eq_getElem hidx',
      hupdates, Option.bind_eq_bind, Option.bind_some]
    exact ⟨_, rfl⟩

theorem diffSlashings_isSome {baseSlot targetSlot : UInt64} {base target : List UInt64} :
    (∃ d, diffSlashings baseSlot targetSlot base target = some d) ↔
      baseSlot ≤ targetSlot ∧ base ≠ [] ∧ base.length = target.length := by
  constructor
  · rintro ⟨d, hd⟩
    unfold diffSlashings at hd
    split at hd
    · cases hd
    rename_i hlt
    split at hd
    · cases hd
    rename_i hne
    split at hd
    · cases hd
    split at hd
    · cases hd
    rename_i hlen
    exact ⟨UInt64.not_lt.mp hlt, hne, not_not.mp hlen⟩
  · rintro ⟨hle, hne, hlen⟩
    obtain ⟨updates, hupdates⟩ := diffSlashingsLoop_isSome hne hlen
      (List.range' (baseSlot.toNat / SLOTS_PER_EPOCH + 1)
        (targetSlot.toNat / SLOTS_PER_EPOCH - baseSlot.toNat / SLOTS_PER_EPOCH))
    refine ⟨⟨updates⟩, ?_⟩
    rw [diffSlashings, if_neg (UInt64.not_lt.mpr hle), if_neg hne,
      if_neg (ne_nil_of_length_eq hlen.symm hne), if_neg (not_not.mpr hlen)]
    simp only [hupdates, Option.bind_eq_bind, Option.bind_some]

/-- A log that is too short stops the encoder in every build: the assertion does, or the
subtraction, or the wrapped start lies past the end. -/
theorem diffHistoricalLog_isSome (b : Build) {baseSlot targetSlot : UInt64} {target : List UInt8}
    {size : Nat} {activation : Option UInt64} (hle : baseSlot ≤ targetSlot)
    (hmax : targetSlot.toNat < 2 ^ 64 - 1) (hlen : target.length < 2 ^ 64) (hsize : size ≤ 64) :
    (∃ d, diffHistoricalLog b baseSlot targetSlot target size activation = some d) ↔
      (periodEnds activation baseSlot.toNat targetSlot.toNat).card * size ≤ target.length := by
  have hnat := UInt64.le_iff_toNat_le.mp hle
  constructor
  · rintro ⟨d, hd⟩
    by_contra hshort
    have hcard := logCount_eq_card activation hnat
    obtain ⟨m, hm, hmn⟩ := calculateLogCount_eq b (by omega : baseSlot.toNat < 2 ^ 64 - 1) activation
    obtain ⟨n, hn, hnn⟩ := calculateLogCount_eq b hmax activation
    generalize (periodEnds activation baseSlot.toNat targetSlot.toNat).card = k at *
    have hmnle : m.toNat ≤ n.toNat := by omega
    have hk : (n - m).toNat = k := by
      rw [UInt64.toNat_sub_of_le _ _ (UInt64.le_iff_toNat_le.mpr hmnle)]
      omega
    have hcount : logCount activation targetSlot.toNat ≤ 2 ^ 51 := by
      cases activation with
      | none =>
        simp only [logCount]
        omega
      | some act =>
        simp only [logCount]
        omega
    have hk' : k ≤ 2 ^ 51 := by omega
    have hmul : k * size < 2 ^ 64 :=
      Nat.lt_of_le_of_lt (Nat.mul_le_mul hk' hsize) (by norm_num)
    have hne : ¬n - m = 0 := by
      intro h
      rw [h, UInt64.toNat_zero] at hk
      rw [← hk, Nat.zero_mul] at hshort
      exact hshort (Nat.zero_le _)
    simp only [diffHistoricalLog, hm, hn, b.subU64_of_le hmnle, Option.bind_eq_bind,
      Option.bind_some, if_neg hne, hk, b.mulUsize_of_lt hmul] at hd
    split at hd
    · cases hd
    · simp only [Option.bind_eq_some_iff] at hd
      obtain ⟨start, hstart, hd⟩ := hd
      rw [Build.subUsize, Build.arith_eq_some] at hstart
      have hwrap : start = target.length + 2 ^ 64 - k * size := by
        rw [← hstart.2]
        exact Nat.mod_eq_of_lt (by omega)
      rw [if_neg (by omega)] at hd
      cases hd
  · intro hlong
    rw [diffHistoricalLog_spec b hle hmax hlen hlong]
    split
    · exact ⟨_, rfl⟩
    · exact ⟨_, rfl⟩

theorem diffQueue_isSome {size : Nat} {base target : List UInt8} (hpos : 0 < size)
    (hsize : size < 2 ^ 32) : (∃ d, diffQueue base target size = some d) ↔
      (base ≠ [] → target ≠ [] → size ≤ target.length) := by
  have hnone : (∃ d, diffQueue base target size = some d) ↔ ¬diffQueue base target size = none := by
    rw [← ne_eq, Option.ne_none_iff_exists']
  rw [hnone, diffQueue_eq_none_iff hpos hsize]
  constructor
  · intro h hbase htarget
    by_contra hshort
    exact h ⟨hbase, List.length_pos_iff.2 htarget, by omega⟩
  · rintro h ⟨hbase, htarget, hshort⟩
    have := h hbase (List.length_pos_iff.1 htarget)
    omega

theorem mapPanic_isSome {α β : Type} {f : α → Option β} {o : Option α} :
    (∃ out, mapPanic f o = some out) ↔ ∀ a, o = some a → ∃ c, f a = some c := by
  cases o with
  | none => exact ⟨fun _ a ha => (by cases ha), fun _ => ⟨none, rfl⟩⟩
  | some a =>
    simp only [mapPanic, Option.map_eq_some_iff, Option.some.injEq, forall_eq']
    constructor
    · rintro ⟨_, c, hc, -⟩
      exact ⟨c, hc⟩
    · rintro ⟨c, hc⟩
      exact ⟨some c, c, hc, rfl⟩

/-! ## When `create` returns -/

/-- The components that a fork removes, which the debug assertions of `create` do not look at. -/
abbrev removedFields : List OptionalField :=
  [.historicalRoots, .previousEpochAttestations, .currentEpochAttestations]

/-- `target` has an item for every period end of the transition. -/
def LogCovers (activation : Option UInt64) (slots : UInt64 × UInt64) (size : Nat)
    (target : Option (List UInt8)) : Prop :=
  ∀ log, target = some log →
    (periodEnds activation slots.1.toNat slots.2.toNat).card * size ≤ log.length

/-- A queue that held something is now empty or begins with a whole item. -/
def QueueHeads (size : Nat) (queues : Option (List UInt8 × List UInt8)) : Prop :=
  ∀ q, queues = some q → q.1 ≠ [] → q.2 ≠ [] → size ≤ q.2.length

/-- Every encoder gets what it needs. -/
structure Encodable {V₁ V₂ : Type} (b : Build) (state : DiffSource V₁ V₂) : Prop where
  slots : state.slot.1 ≤ state.slot.2
  span : state.slot.2.toNat - state.slot.1.toNat < 2 ^ 58
  differences : DiffsFit b (state.balances.1.zip state.balances.2)
  blockRoots : state.blockRoots ≠ []
  stateRoots : state.stateRoots ≠ []
  randaoMixes : state.randaoMixes ≠ []
  slashings : state.slashings.1 ≠ [] ∧ state.slashings.1.length = state.slashings.2.length
  historicalRoots : LogCovers none state.slot HISTORICAL_ROOTS_SSZ_SIZE state.historicalRoots
  historicalSummaries : LogCovers (some state.capellaForkSlot) state.slot
    HISTORICAL_SUMMARIES_SSZ_SIZE state.historicalSummaries
  pendingDeposits : QueueHeads PENDING_DEPOSIT_SSZ_SIZE state.pendingDeposits
  pendingPartialWithdrawals : QueueHeads PARTIAL_WITHDRAWAL_SSZ_SIZE
    state.pendingPartialWithdrawals
  pendingConsolidations : QueueHeads PENDING_CONSOLIDATION_SSZ_SIZE state.pendingConsolidations
  present : b.debugAssertions = true → ∀ field, field ∉ removedFields →
    (state.has field = true ↔ field.InFork state.fork)

theorem create_isSome {V₁ V₂ : Type} [ValidatorSnapshot V₁] [ValidatorSnapshot V₂] (b : Build)
    (order : HashOrder) {state : DiffSource V₁ V₂} (hmax : state.slot.2.toNat < 2 ^ 64 - 1)
    (hroots : ∀ log, state.historicalRoots = some log → log.length < 2 ^ 64)
    (hsummaries : ∀ log, state.historicalSummaries = some log → log.length < 2 ^ 64) :
    (∃ d, create b order state = some d) ↔ Encodable b state := by
  have hlog : ∀ {activation : Option UInt64} {size : Nat} {target : Option (List UInt8)},
      state.slot.1 ≤ state.slot.2 → (∀ log, target = some log → log.length < 2 ^ 64) →
      size ≤ 64 →
      ((∃ out, mapPanic (diffHistoricalLog b state.slot.1 state.slot.2 · size activation) target =
        some out) ↔ LogCovers activation state.slot size target) := by
    intro activation size target hle hlen hsize
    rw [mapPanic_isSome]
    exact forall₂_congr fun log hlog =>
      diffHistoricalLog_isSome b hle hmax (hlen log hlog) hsize
  have hqueue : ∀ {size : Nat} {queues : Option (List UInt8 × List UInt8)}, 0 < size →
      size < 2 ^ 32 → ((∃ out, mapPanic (fun (p : List UInt8 × List UInt8) =>
        diffQueue p.1 p.2 size) queues = some out) ↔ QueueHeads size queues) := by
    intro size queues hpos hsize
    rw [mapPanic_isSome]
    exact forall₂_congr fun q _ => diffQueue_isSome hpos hsize
  constructor
  · rintro ⟨d, hd⟩
    obtain ⟨hcreated, hasserts⟩ := create_eq_some.1 hd
    obtain ⟨hle, hblock, hspan⟩ := diffRoots_isSome.1 ⟨_, hcreated.blockRoots⟩
    exact {
      slots := hle
      span := hspan
      differences := diffBalancesIter_isSome.1 ⟨_, hcreated.balances⟩
      blockRoots := hblock
      stateRoots := (diffRoots_isSome.1 ⟨_, hcreated.stateRoots⟩).2.1
      randaoMixes := (diffRandao_isSome.1 ⟨_, hcreated.randaoMixes⟩).2.1
      slashings := (diffSlashings_isSome.1 ⟨_, hcreated.slashings⟩).2
      historicalRoots := (hlog hle hroots (by decide)).1 ⟨_, hcreated.historicalRoots⟩
      historicalSummaries := (hlog hle hsummaries (by decide)).1 ⟨_, hcreated.historicalSummaries⟩
      pendingDeposits := (hqueue (by decide) (by decide)).1 ⟨_, hcreated.pendingDeposits⟩
      pendingPartialWithdrawals :=
        (hqueue (by decide) (by decide)).1 ⟨_, hcreated.pendingPartialWithdrawals⟩
      pendingConsolidations :=
        (hqueue (by decide) (by decide)).1 ⟨_, hcreated.pendingConsolidations⟩
      present := fun hdebug field hfield => by
        rw [← hcreated.has, ← hcreated.fork]
        exact createAsserts_iff.1 (hasserts hdebug) field hfield }
  · intro h
    obtain ⟨balances, hbal⟩ := (diffBalancesIter_isSome).2 h.differences
    -- the slots of the span bound its epochs
    have hspan := h.span
    obtain ⟨blockRoots, hblock⟩ := diffRoots_isSome.2 ⟨h.slots, h.blockRoots, h.span⟩
    obtain ⟨stateRoots, hstate⟩ := diffRoots_isSome.2 ⟨h.slots, h.stateRoots, h.span⟩
    obtain ⟨randaoMixes, hrandao⟩ :=
      diffRandao_isSome.2 ⟨h.slots, h.randaoMixes, by omega⟩
    obtain ⟨slashings, hslash⟩ := diffSlashings_isSome.2 ⟨h.slots, h.slashings⟩
    obtain ⟨historicalRoots, hhr⟩ := (hlog h.slots hroots (by decide)).2 h.historicalRoots
    obtain ⟨historicalSummaries, hhs⟩ :=
      (hlog h.slots hsummaries (by decide)).2 h.historicalSummaries
    obtain ⟨pendingDeposits, hpd⟩ := (hqueue (by decide) (by decide)).2 h.pendingDeposits
    obtain ⟨pendingPartialWithdrawals, hpw⟩ :=
      (hqueue (by decide) (by decide)).2 h.pendingPartialWithdrawals
    obtain ⟨pendingConsolidations, hpc⟩ :=
      (hqueue (by decide) (by decide)).2 h.pendingConsolidations
    have hcreated : Created b order state ⟨state.fork, state.slot.1, state.scalarHeader, balances,
        diffValidatorsIter state.validators.1 state.validators.2, blockRoots, stateRoots,
        randaoMixes, slashings, diffEth1Votes state.eth1DataVotes.1 state.eth1DataVotes.2,
        historicalRoots, _, _, _, _, _, _, _, historicalSummaries, pendingDeposits,
        pendingPartialWithdrawals, pendingConsolidations⟩ :=
      ⟨rfl, rfl, rfl, hbal, rfl, hblock, hstate, hrandao, hslash, rfl, hhr, rfl, rfl, rfl, rfl, rfl,
        rfl, rfl, hhs, hpd, hpw, hpc⟩
    refine ⟨_, create_eq_some.2 ⟨hcreated, fun hdebug => createAsserts_iff.2 fun field hfield => ?_⟩⟩
    rw [hcreated.has, hcreated.fork]
    exact h.present hdebug field hfield

/-- The ways in which `create` panics. -/
inductive CreatePanics {V₁ V₂ : Type} (b : Build) (state : DiffSource V₁ V₂) : Prop
  | slots (h : state.slot.2 < state.slot.1)
  | span (h : 2 ^ 58 ≤ state.slot.2.toNat - state.slot.1.toNat)
  | difference (hchecks : b.overflowChecks = true) (p : UInt64 × UInt64)
      (hp : p ∈ state.balances.1.zip state.balances.2) (hne : p.1 ≠ p.2)
      (h : ¬InI64 (p.2.toInt64.toInt - p.1.toInt64.toInt))
  | emptyRing (h : state.blockRoots = [] ∨ state.stateRoots = [] ∨ state.randaoMixes = [])
  | slashings (h : state.slashings.1 = [] ∨ state.slashings.1.length ≠ state.slashings.2.length)
  | shortRoots (log : List UInt8) (hlog : state.historicalRoots = some log)
      (h : log.length < (periodEnds none state.slot.1.toNat state.slot.2.toNat).card *
        HISTORICAL_ROOTS_SSZ_SIZE)
  | shortSummaries (log : List UInt8) (hlog : state.historicalSummaries = some log)
      (h : log.length < (periodEnds (some state.capellaForkSlot) state.slot.1.toNat
        state.slot.2.toNat).card * HISTORICAL_SUMMARIES_SSZ_SIZE)
  | headlessQueue (queues : Option (List UInt8 × List UInt8)) (size : Nat)
      (hqueue : (queues, size) ∈ [(state.pendingDeposits, PENDING_DEPOSIT_SSZ_SIZE),
        (state.pendingPartialWithdrawals, PARTIAL_WITHDRAWAL_SSZ_SIZE),
        (state.pendingConsolidations, PENDING_CONSOLIDATION_SSZ_SIZE)])
      (h : ¬QueueHeads size queues)
  | presence (hdebug : b.debugAssertions = true) (field : OptionalField)
      (hfield : field ∉ removedFields) (h : ¬(state.has field = true ↔ field.InFork state.fork))

theorem encodable_iff_not_panics {V₁ V₂ : Type} {b : Build} {state : DiffSource V₁ V₂} :
    Encodable b state ↔ ¬CreatePanics b state := by
  constructor
  · rintro h (hlt | hspan | ⟨hchecks, p, hp, hne, hbad⟩ | hring | hslash | ⟨log, hlog, hshort⟩ |
      ⟨log, hlog, hshort⟩ | ⟨queues, size, hqueue, hbad⟩ | ⟨hdebug, field, hfield, hbad⟩)
    · exact absurd h.slots (UInt64.not_le.mpr hlt)
    · exact absurd h.span (Nat.not_lt.mpr hspan)
    · exact hbad (h.differences hchecks p hp hne)
    · rcases hring with hring | hring | hring
      · exact h.blockRoots hring
      · exact h.stateRoots hring
      · exact h.randaoMixes hring
    · exact hslash.elim h.slashings.1 (absurd h.slashings.2)
    · exact absurd (h.historicalRoots log hlog) (Nat.not_le.mpr hshort)
    · exact absurd (h.historicalSummaries log hlog) (Nat.not_le.mpr hshort)
    · simp only [List.mem_cons, Prod.mk.injEq, List.not_mem_nil, or_false] at hqueue
      rcases hqueue with ⟨rfl, rfl⟩ | ⟨rfl, rfl⟩ | ⟨rfl, rfl⟩
      · exact hbad h.pendingDeposits
      · exact hbad h.pendingPartialWithdrawals
      · exact hbad h.pendingConsolidations
    · exact hbad (h.present hdebug field hfield)
  · intro h
    have hqueue : ∀ queues size, (queues, size) ∈ [(state.pendingDeposits, PENDING_DEPOSIT_SSZ_SIZE),
        (state.pendingPartialWithdrawals, PARTIAL_WITHDRAWAL_SSZ_SIZE),
        (state.pendingConsolidations, PENDING_CONSOLIDATION_SSZ_SIZE)] → QueueHeads size queues :=
      fun queues size hmem => by_contra fun hbad => h (.headlessQueue queues size hmem hbad)
    exact {
      slots := UInt64.not_lt.mp fun hlt => h (.slots hlt)
      span := Nat.not_le.mp fun hspan => h (.span hspan)
      differences := fun hchecks p hp hne => by_contra fun hbad => h (.difference hchecks p hp hne hbad)
      blockRoots := fun hring => h (.emptyRing (Or.inl hring))
      stateRoots := fun hring => h (.emptyRing (Or.inr (Or.inl hring)))
      randaoMixes := fun hring => h (.emptyRing (Or.inr (Or.inr hring)))
      slashings := ⟨fun hempty => h (.slashings (Or.inl hempty)),
        by_contra fun hlen => h (.slashings (Or.inr hlen))⟩
      historicalRoots := fun log hlog =>
        Nat.not_lt.mp fun hshort => h (.shortRoots log hlog hshort)
      historicalSummaries := fun log hlog =>
        Nat.not_lt.mp fun hshort => h (.shortSummaries log hlog hshort)
      pendingDeposits := hqueue _ _ (by simp)
      pendingPartialWithdrawals := hqueue _ _ (by simp)
      pendingConsolidations := hqueue _ _ (by simp)
      present := fun hdebug field hfield =>
        by_contra fun hbad => h (.presence hdebug field hfield hbad) }

/-- An Altair transition that does not expose the inactivity scores. -/
def scorelessSource : DiffSource RawValidator RawValidator :=
  { altairSource with inactivityScores := none }

end EthStateDiff
