import EthStateDiff.Frames
/-!
# What a delta may change (`lib.rs:694-851`)

A sparse delta lists the entries it rewrites. Whatever the state and the payload, and whether
`apply` returns, refuses the delta or panics half way, no other entry changes.

* `BeaconStateDelta.footprint` — the entries a delta lists.
* `leaves_balances_off`, … — one applier leaves the others alone.
* `apply_within` — one application; `applyAll_within` — **any run of applications**.
-/

namespace EthStateDiff

open Rust ByteString Overwrite

/-! ## What a delta lists -/

/-- The balances whose tag asks for something. -/
def BalancesDiff.written (d : BalancesDiff) : List Nat :=
  (List.range d.tags.tags.length).filter fun i => d.tags.tags[i]? != some SET_NO_CHANGE

theorem BalancesDiff.mem_written {d : BalancesDiff} {i : Nat} :
    i ∈ d.written ↔ ∃ tag, d.tags.tags[i]? = some tag ∧ tag ≠ SET_NO_CHANGE := by
  simp only [written, List.mem_filter, List.mem_range, bne_iff_ne]
  constructor
  · rintro ⟨hlt, hne⟩
    rw [List.getElem?_eq_getElem hlt] at hne ⊢
    exact ⟨_, rfl, fun h => hne (congrArg some h)⟩
  · rintro ⟨tag, htag, hne⟩
    rw [htag]
    exact ⟨(List.getElem?_eq_some_iff.mp htag).1, fun h => hne (Option.some.inj h)⟩

/-- The ring positions of the slots from the base slot on. -/
def RootsDiff.written (baseSlot : UInt64) (capacity : Nat) (d : RootsDiff) : List Nat :=
  (List.range d.roots.length).map fun k => (baseSlot.toNat + k) % 2 ^ 64 % capacity

/-- The ring positions of the epochs from the base epoch on. -/
def RandaoDiff.written (baseSlot : UInt64) (capacity : Nat) (d : RandaoDiff) : List Nat :=
  (List.range' (baseSlot.toNat / SLOTS_PER_EPOCH) d.mixes.length).map (· % capacity)

def SlashingsDiff.written (d : SlashingsDiff) : List Nat := d.updates.map fun u => u.1.toNat

/-- The flags that the gaps lead to. -/
def ParticipationDiff.written : ParticipationDiff → List Nat
  | .allZeros _ => []
  | .sparse sparseIndices newValues _ =>
    positions 0 ((varints sparseIndices).take newValues.length)

def InactivityDiff.written : InactivityDiff → List Nat
  | .allZeros _ => []
  | .sparse indices newValues _ => (indices.zip newValues).map fun p => p.1.toNat

/-- The scores that a delta may change: a reset replaces them all. -/
def InactivityDiff.Reaches : InactivityDiff → Nat → Prop
  | .allZeros _, _ => True
  | .sparse indices newValues extensions, i => i ∈ (sparse indices newValues extensions).written

/-- The byte at `j` of a registry lies in a field that the patch may rewrite. -/
def ValidatorPatch.Reaches (p : ValidatorPatch) (j : Nat) : Prop :=
  p.index.toNat = j / VALIDATOR_SSZ_SIZE ∧ p.field.Covers (j % VALIDATOR_SSZ_SIZE)

/-- The lists that a delta may rewrite in part. -/
inductive ListField where
  | balances
  | validators
  | blockRoots
  | stateRoots
  | randaoMixes
  | slashings
  | previousParticipation
  | currentParticipation
  | inactivityScores

/-- **The footprint of a delta** on a state: the places it lists. Of the state only the capacities
of its rings matter. -/
def BeaconStateDelta.footprint {F T : Type} (d : BeaconStateDelta F) (s : DiffTarget T) :
    ListField → Set Nat
  | .balances => {i | i ∈ d.balances.written}
  | .validators => {j | ∃ p ∈ d.validators.patches, p.Reaches j}
  | .blockRoots => {i | i ∈ d.blockRoots.written d.baseSlot s.blockRoots.length}
  | .stateRoots => {i | i ∈ d.stateRoots.written d.baseSlot s.stateRoots.length}
  | .randaoMixes => {i | i ∈ d.randaoMixes.written d.baseSlot s.randaoMixes.length}
  | .slashings => {i | i ∈ d.slashings.written}
  | .previousParticipation => {i | ∃ e ∈ d.previousParticipation, i ∈ e.written}
  | .currentParticipation => {i | ∃ e ∈ d.currentParticipation, i ∈ e.written}
  | .inactivityScores => {i | ∃ e ∈ d.inactivityScores, e.Reaches i}

/-! ## One applier -/

/-- The tags from the cursor on. -/
theorem leaves_foldlM_applyTag {b : Build} {d : BalancesDiff} {S : Set Nat} {old : List UInt64} :
    ∀ {tags : List UInt8} {st : ApplyState},
    (∀ k tag, tags[k]? = some tag → tag ≠ SET_NO_CHANGE → st.baseIdx + k ∈ S) →
    AgreeOff S st.target old →
    Leaves ApplyState.target (AgreeOff S · old) (tags.foldlM (applyTag b d) st) := by
  intro tags
  induction tags with
  | nil => exact fun _ h => h
  | cons tag tags ih =>
    intro st hat h
    have hhead : Leaves ApplyState.target (AgreeOff S · old) (applyTag b d st tag) :=
      leaves_applyTag h fun htag v => h.set (hat 0 tag rfl htag) v
    rw [List.foldlM_cons]
    refine hhead.step fun st' hst' h' => ih (fun k t hk ht => ?_) h'
    have hnext := hat (k + 1) t hk ht
    rw [applyTag_baseIdx hst', Nat.add_assoc, Nat.add_comm 1 k]
    exact hnext

theorem leaves_balances_off (b : Build) (balances : List UInt64) (d : BalancesDiff) :
    Leaves id (AgreeOff {i | i ∈ d.written} · balances) (applyBalancesIter b balances d) := by
  rw [applyBalancesIter_eq]
  split
  · exact .refl _ _
  · have hloop : Leaves ApplyState.target (AgreeOff {i | i ∈ d.written} · balances)
        (d.tags.tags.foldlM (applyTag b d) ⟨balances, d.targetValues, 0, 0⟩) := by
      refine leaves_foldlM_applyTag (fun k tag hk htag => ?_) (.refl _ _)
      rw [Nat.zero_add]
      exact BalancesDiff.mem_written.2 ⟨tag, hk, htag⟩
    exact hloop.step fun st _ h => h.append _

theorem leaves_roots_off (b : Build) (baseSlot : UInt64) (buffer : List (Bytes 32))
    (d : RootsDiff) : Leaves id (AgreeOff {i | i ∈ d.written baseSlot buffer.length} · buffer)
      (applyRoots b baseSlot buffer d) := by
  unfold applyRoots
  split
  · exact .refl _ _
  · refine leaves_applyRootsLoop (fun buf h k slot hk hslot root => h.set ?_ root) (.refl _ _)
    rw [Nat.zero_add] at hk
    rw [Build.addUsize, Build.arith_eq_some] at hslot
    obtain ⟨-, rfl⟩ := hslot
    exact List.mem_map.2 ⟨k, List.mem_range.2 hk, rfl⟩

theorem leaves_randao_off (baseSlot : UInt64) (buffer : List (Bytes 32)) (d : RandaoDiff) :
    Leaves id (AgreeOff {i | i ∈ d.written baseSlot buffer.length} · buffer)
      (applyRandao baseSlot buffer d) := by
  unfold applyRandao
  split
  · exact .refl _ _
  · rw [applyRandaoLoop_eq]
    exact leaves_writes (fun buf h w hw => h.set (mem_ringWrites hw) w.2) (.refl _ _)

theorem leaves_slashings_off (buffer : List UInt64) (d : SlashingsDiff) :
    Leaves id (AgreeOff {i | i ∈ d.written} · buffer) (applySlashings buffer d) := by
  refine leaves_writes (fun buf h w hw => h.set ?_ w.2) (.refl _ _)
  obtain ⟨u, hu, rfl⟩ := List.mem_map.1 hw
  exact List.mem_map.2 ⟨u, hu, rfl⟩

/-- The flags from the cursor on, as many as there are values. -/
theorem leaves_foldlM_applyFlag {b : Build} {raw : List UInt8} {S : Set Nat} {old : List UInt8} :
    ∀ {vals : List UInt8} {st : SparseState},
    (∀ i ∈ positions st.currentIdx ((varints (raw.drop st.cursor)).take vals.length), i ∈ S) →
    AgreeOff S st.target old →
    Leaves SparseState.target (AgreeOff S · old) (vals.foldlM (applyFlag b raw) st) := by
  intro vals
  induction vals with
  | nil => exact fun _ h => h
  | cons val vals ih =>
    intro st hat h
    rw [List.foldlM_cons]
    cases hruns : varints (raw.drop st.cursor) with
    | nil =>
      have hstep : applyFlag b raw st val = .error st.target := by
        rw [applyFlag, readVarint_of_nil b hruns]
        rfl
      rw [hstep]
      exact h
    | cons run rest =>
      obtain ⟨hread, hrest⟩ := readVarint_of_cons b hruns
      rw [hruns, List.length_cons, List.take_succ_cons, positions, List.forall_mem_cons] at hat
      have hhead : Leaves SparseState.target (AgreeOff S · old) (applyFlag b raw st val) := by
        refine leaves_applyFlag h (fun k => h.append _) fun gap cursor idx hgap hidx k => ?_
        rw [hread] at hgap
        split at hgap
        · obtain ⟨rfl, rfl⟩ := Prod.mk.inj (Option.some.inj hgap)
          rw [Build.addUsize, Build.arith_eq_some] at hidx
          obtain ⟨-, rfl⟩ := hidx
          exact (h.append _).set hat.1 val
        · cases hgap
      refine hhead.step fun st' hst' h' => ih ?_ h'
      obtain ⟨hok, hpanic⟩ := applyFlag_of_cons b val hruns
      by_cases hfit : GapFits b st.target.length st.currentIdx run
      · obtain ⟨target, hstep, -⟩ := hok hfit
        obtain rfl := Except.ok.inj (hst'.symm.trans hstep)
        rw [hrest]
        exact hat.2
      · obtain ⟨target, hstep⟩ := hpanic hfit
        rw [hst'] at hstep
        cases hstep

theorem leaves_participation_off (b : Build) (flags : List UInt8) (d : ParticipationDiff) :
    Leaves id (AgreeOff {i | i ∈ d.written} · flags) (applyParticipationIter b flags d) := by
  cases d with
  | allZeros len => exact AgreeOff.refl _ _
  | sparse sparseIndices newValues extension =>
    have hloop : Leaves SparseState.target
        (AgreeOff {i | i ∈ positions 0 ((varints sparseIndices).take newValues.length)} · flags)
        (newValues.foldlM (applyFlag b sparseIndices) ⟨flags, 0, 0⟩) :=
      leaves_foldlM_applyFlag (fun _ h => h) (.refl _ flags)
    exact hloop.step fun st _ h => leaves_pushes fun k => h.append _

theorem leaves_inactivity_off (scores : List UInt64) (d : InactivityDiff) :
    Leaves id (AgreeOff {i | d.Reaches i} · scores) (applyInactivity scores d) := by
  cases d with
  | allZeros len => exact fun _ _ h => absurd trivial h
  | sparse indices newValues extensions =>
    have hloop : Leaves id
        (AgreeOff {i | InactivityDiff.Reaches (.sparse indices newValues extensions) i} · scores)
        (((indices.zip newValues).map fun p => (p.1.toNat, p.2)).foldlM writeAt scores) := by
      refine leaves_writes (fun buf h w hw => h.set ?_ w.2) (.refl _ _)
      obtain ⟨p, hp, rfl⟩ := List.mem_map.1 hw
      exact List.mem_map.2 ⟨p, hp, rfl⟩
    exact hloop.step fun out _ h => h.append _

/-! ## The registry -/

theorem leaves_applyPatch_off {S : Set Nat} {old : List UInt8} {target : ByteValidatorTarget}
    {patch : ValidatorPatch} (hat : ∀ j, patch.Reaches j → j ∈ S)
    (h : AgreeOff S target.bytes old) :
    Leaves id (fun out => AgreeOff S out.bytes old) (applyPatch target patch) := by
  unfold applyPatch
  cases hget : ValidatorMutTarget.getMut target patch.index.toNat with
  | none => exact h
  | some v =>
    refine leaves_orPanic_bind h fun v' hv' => fun j hj hout => ?_
    refine (getElem?_writeBack hget fun hrec => ?_).trans (h j hj hout)
    exact getElem?_patchValidator hv' fun hcov => hout (hat j ⟨hrec.symm, hcov⟩)

theorem leaves_validators_off (b : Build) (target : ByteValidatorTarget) (d : ValidatorsDiff) :
    Leaves id (fun out => AgreeOff {j | ∃ p ∈ d.patches, p.Reaches j} out.bytes target.bytes)
      (applyValidatorsIter b target d) := by
  unfold applyValidatorsIter
  have hloop : Leaves id
      (fun out => AgreeOff {j | ∃ p ∈ d.patches, p.Reaches j} out.bytes target.bytes)
      (d.patches.foldlM applyPatch target) :=
    leaves_foldlM (fun _ h p hp => leaves_applyPatch_off (fun j hj => ⟨p, hp, hj⟩) h) (.refl _ _)
  refine hloop.step fun out _ hout => ?_
  split
  · exact hout
  · rw [leaves_ok, id, bytes_foldl_push]
    exact hout.append _

/-! ## One application -/

/-- The optional components that are bytes. -/
def DiffTarget.optionalBytes {T : Type} (s : DiffTarget T) : OptionalField → Option (List UInt8)
  | .historicalRoots => s.historicalRoots
  | .previousEpochAttestations => s.previousEpochAttestations
  | .currentEpochAttestations => s.currentEpochAttestations
  | .previousParticipation => s.previousParticipation
  | .currentParticipation => s.currentParticipation
  | .inactivityScores => none
  | .currentSyncCommittee => s.currentSyncCommittee
  | .nextSyncCommittee => s.nextSyncCommittee
  | .historicalSummaries => s.historicalSummaries
  | .pendingDeposits => s.pendingDeposits
  | .pendingPartialWithdrawals => s.pendingPartialWithdrawals
  | .pendingConsolidations => s.pendingConsolidations

/-- A list that both states have, or neither, with the same entries off `S`. -/
abbrev SameOff {α : Type} (S : Set Nat) (old new : Option (List α)) : Prop :=
  Option.Rel (fun l m => AgreeOff S m l) old new

theorem sameOff_refl {α : Type} (S : Set Nat) (o : Option (List α)) : SameOff S o o :=
  optionRel_refl (R := fun l m : List α => AgreeOff S m l) (AgreeOff.refl S) o

/-- **`s'` differs from `s` only within the footprint**, and in optional components that are
`listed`. -/
structure Within (footprint : ListField → Set Nat) (listed : OptionalField → Prop)
    (s s' : DiffTarget ByteValidatorTarget) : Prop where
  fork : s'.fork = s.fork
  balances : AgreeOff (footprint .balances) s'.balances s.balances
  validators : AgreeOff (footprint .validators) s'.validators.bytes s.validators.bytes
  blockRoots : AgreeOff (footprint .blockRoots) s'.blockRoots s.blockRoots
  stateRoots : AgreeOff (footprint .stateRoots) s'.stateRoots s.stateRoots
  randaoMixes : AgreeOff (footprint .randaoMixes) s'.randaoMixes s.randaoMixes
  slashings : AgreeOff (footprint .slashings) s'.slashings s.slashings
  previousParticipation : SameOff (footprint .previousParticipation) s.previousParticipation
    s'.previousParticipation
  currentParticipation : SameOff (footprint .currentParticipation) s.currentParticipation
    s'.currentParticipation
  inactivityScores : SameOff (footprint .inactivityScores) s.inactivityScores s'.inactivityScores
  bytes : ∀ field, ¬listed field → s'.optionalBytes field = s.optionalBytes field
  scores : ¬listed .inactivityScores → s'.inactivityScores = s.inactivityScores

theorem leaves_onBoth_off {α δ : Type} {run : List α → δ → Exec (List α) (List α)}
    {reach : δ → Set Nat} (hrun : ∀ l e, Leaves id (AgreeOff (reach e) · l) (run l e))
    (delta : Option δ) (st : Option (List α)) :
    Leaves id (SameOff {i | ∃ e ∈ delta, i ∈ reach e} st) (onBoth run delta st) := by
  cases st with
  | none => exact .none
  | some l =>
    cases delta with
    | none => exact sameOff_refl _ (some l)
    | some e =>
      refine leaves_mapState.2 ((hrun l e).mono fun m hm => .some (hm.mono fun i hi => ?_))
      exact ⟨e, rfl, hi⟩

/-- A component that the delta does not have is left alone. -/
theorem unlisted_of_remains {α δ : Type} {run : α → δ → Exec α α} {delta : Option δ}
    {old new : Option α} (h : Remains (onBoth run delta old) old new)
    (hdelta : ¬delta.isSome = true) : new = old := by
  have hrun : onBoth run delta old = .ok old := by
    cases delta with
    | none => cases old <;> rfl
    | some e => exact absurd rfl hdelta
  cases h with
  | untouched => rfl
  | finished h => exact (Except.ok.inj (hrun.symm.trans h)).symm
  | stopped h =>
    rw [hrun] at h
    cases h

/-- **One application stays within the delta's footprint.** -/
theorem apply_within (b : Build) (s : DiffTarget ByteValidatorTarget)
    (d : ArchivedBeaconStateDelta) :
    Within (d.footprint s) (fun field => d.has field = true) s (apply b s d).state := by
  have h := apply_pieces b s d
  exact {
    fork := h.fork
    balances := (leaves_balances_off b _ _).remains h.balances (.refl _ _)
    validators := (leaves_validators_off b _ _).remains h.validators (.refl _ _)
    blockRoots := (leaves_roots_off b _ _ _).remains h.blockRoots (.refl _ _)
    stateRoots := (leaves_roots_off b _ _ _).remains h.stateRoots (.refl _ _)
    randaoMixes := (leaves_randao_off _ _ _).remains h.randaoMixes (.refl _ _)
    slashings := (leaves_slashings_off _ _).remains h.slashings (.refl _ _)
    previousParticipation := (leaves_onBoth_off (leaves_participation_off b) _ _).remains
      h.previousParticipation (sameOff_refl _ _)
    currentParticipation := (leaves_onBoth_off (leaves_participation_off b) _ _).remains
      h.currentParticipation (sameOff_refl _ _)
    inactivityScores := (leaves_onBoth_off leaves_inactivity_off _ _).remains
      h.inactivityScores (sameOff_refl _ _)
    bytes := fun field hfield => by
      cases field with
      | historicalRoots => exact unlisted_of_remains h.historicalRoots hfield
      | previousEpochAttestations => exact unlisted_of_remains h.previousEpochAttestations hfield
      | currentEpochAttestations => exact unlisted_of_remains h.currentEpochAttestations hfield
      | previousParticipation => exact unlisted_of_remains h.previousParticipation hfield
      | currentParticipation => exact unlisted_of_remains h.currentParticipation hfield
      | inactivityScores => rfl
      | currentSyncCommittee => exact unlisted_of_remains h.currentSyncCommittee hfield
      | nextSyncCommittee => exact unlisted_of_remains h.nextSyncCommittee hfield
      | historicalSummaries => exact unlisted_of_remains h.historicalSummaries hfield
      | pendingDeposits => exact unlisted_of_remains h.pendingDeposits hfield
      | pendingPartialWithdrawals => exact unlisted_of_remains h.pendingPartialWithdrawals hfield
      | pendingConsolidations => exact unlisted_of_remains h.pendingConsolidations hfield
    scores := fun hfield => unlisted_of_remains h.inactivityScores hfield }

/-! ## Runs -/

theorem Within.refl (footprint : ListField → Set Nat) (listed : OptionalField → Prop)
    (s : DiffTarget ByteValidatorTarget) : Within footprint listed s s where
  fork := rfl
  balances := .refl _ _
  validators := .refl _ _
  blockRoots := .refl _ _
  stateRoots := .refl _ _
  randaoMixes := .refl _ _
  slashings := .refl _ _
  previousParticipation := sameOff_refl _ _
  currentParticipation := sameOff_refl _ _
  inactivityScores := sameOff_refl _ _
  bytes := fun _ _ => rfl
  scores := fun _ => rfl

theorem agreeOff_step {α : Type} {S S' : Set Nat} {new mid old : List α} (h : AgreeOff S' mid old)
    (h' : AgreeOff S new mid) (hsub : S' ⊆ S) : AgreeOff S new old :=
  (h'.trans h).mono (Set.union_subset (le_refl S) hsub)

theorem sameOff_step {α : Type} {S S' : Set Nat} {old mid new : Option (List α)}
    (h : SameOff S' old mid) (h' : SameOff S mid new) (hsub : S' ⊆ S) : SameOff S old new := by
  cases h with
  | none => exact h'
  | some hlm =>
    cases h' with
    | some hmn => exact .some (agreeOff_step hlm hmn hsub)

/-- A change within a smaller footprint, then one within the larger. -/
theorem Within.cons {footprint footprint' : ListField → Set Nat}
    {listed listed' : OptionalField → Prop} {s t u : DiffTarget ByteValidatorTarget}
    (h : Within footprint' listed' s t) (h' : Within footprint listed t u)
    (hsub : ∀ field, footprint' field ⊆ footprint field)
    (hlisted : ∀ field, listed' field → listed field) : Within footprint listed s u where
  fork := h'.fork.trans h.fork
  balances := agreeOff_step h.balances h'.balances (hsub _)
  validators := agreeOff_step h.validators h'.validators (hsub _)
  blockRoots := agreeOff_step h.blockRoots h'.blockRoots (hsub _)
  stateRoots := agreeOff_step h.stateRoots h'.stateRoots (hsub _)
  randaoMixes := agreeOff_step h.randaoMixes h'.randaoMixes (hsub _)
  slashings := agreeOff_step h.slashings h'.slashings (hsub _)
  previousParticipation := sameOff_step h.previousParticipation h'.previousParticipation (hsub _)
  currentParticipation := sameOff_step h.currentParticipation h'.currentParticipation (hsub _)
  inactivityScores := sameOff_step h.inactivityScores h'.inactivityScores (hsub _)
  bytes := fun field hno =>
    (h'.bytes field hno).trans (h.bytes field fun hl => hno (hlisted field hl))
  scores := fun hno => (h'.scores hno).trans (h.scores fun hl => hno (hlisted _ hl))

/-- Capacities never change, so a footprint is the same all along a run. -/
theorem Kept.footprint {F : Type} {s s' : DiffTarget ByteValidatorTarget} (h : Kept s s')
    (d : BeaconStateDelta F) : d.footprint s' = d.footprint s := by
  funext field
  cases field with
  | blockRoots => simp only [BeaconStateDelta.footprint, h.blockRoots]
  | stateRoots => simp only [BeaconStateDelta.footprint, h.stateRoots]
  | randaoMixes => simp only [BeaconStateDelta.footprint, h.randaoMixes]
  | _ => rfl

/-- What the deltas of a run list between them. -/
def runFootprint (s : DiffTarget ByteValidatorTarget)
    (calls : List (Build × ArchivedBeaconStateDelta)) (field : ListField) : Set Nat :=
  {i | ∃ call ∈ calls, i ∈ call.2.footprint s field}

/-- **A run of applications changes only what its deltas list**: a balance, a byte of a record, a
ring entry, a flag or a score that none of them lists is what it was, and so is an optional
component that none of them has. -/
theorem applyAll_within (s : DiffTarget ByteValidatorTarget)
    (calls : List (Build × ArchivedBeaconStateDelta)) :
    Within (runFootprint s calls) (fun field => ∃ call ∈ calls, call.2.has field = true) s
      (applyAll s calls) := by
  -- over the calls still to come, all of them among those of the run
  have key : ∀ (rest : List (Build × ArchivedBeaconStateDelta)) (t : DiffTarget ByteValidatorTarget),
      (∀ call ∈ rest, call ∈ calls) → Kept s t →
      Within (runFootprint s calls) (fun field => ∃ call ∈ calls, call.2.has field = true) t
        (applyAll t rest) := by
    intro rest
    induction rest with
    | nil => exact fun t _ _ => .refl _ _ t
    | cons call rest ih =>
      intro t hmem hkept
      obtain ⟨hcall, hrest⟩ := List.forall_mem_cons.1 hmem
      have hstep := apply_within call.1 t call.2
      have hnext := ih _ hrest (hkept.trans (apply_kept call.1 t call.2))
      refine hstep.cons hnext (fun field i hi => ?_) fun field hfield => ⟨call, hcall, hfield⟩
      rw [hkept.footprint] at hi
      exact ⟨call, hcall, hi⟩
  exact key calls s (fun _ h => h) (.refl s)

end EthStateDiff
