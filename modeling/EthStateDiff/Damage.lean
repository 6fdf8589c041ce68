import EthStateDiff.Chain
import EthStateDiff.Contract
import EthStateDiff.Footprints
import EthStateDiff.Lib.Lockstep
import EthStateDiff.Lib.Replay
/-!
# Replaying over a damaged snapshot (`lib.rs:694-851`)

An archive is a first state and deltas. If entries of the first state are damaged, every later state
is reconstructed from damaged entries. `apply` computes an entry from that entry and the delta, and
a record from that record and the delta; so damage stays where it is. Without overflow checks it
does not make `apply` panic either.

* `lockstep_applyTag`, `lockstep_applyPatch`, … — one turn of a loop, on the two states.
* `apply_damaged` — one application; `replay_damaged` — **a whole archive**.
-/

namespace EthStateDiff

open Rust ByteString Overwrite Replay

/-! ## Rings, slashings, scores -/

section

variable {D : Set Nat}

theorem lockstep_applyRootsLoop (b : Build) (baseSlot : UInt64) (capacity : Nat) :
    ∀ (i : Nat) (roots : List (Bytes 32)) {l m : List (Bytes 32)}, AlikeOff D l m →
      Lockstep (AlikeOff D) (applyRootsLoop b baseSlot capacity i roots l)
        (applyRootsLoop b baseSlot capacity i roots m)
  | _, [], _, _, h => lockstep_ok h
  | i, root :: roots, _, _, h => by
    rw [applyRootsLoop, applyRootsLoop]
    refine lockstep_orPanic_bind fun slot _ => ?_
    exact (h.writeAt fun _ => rfl).bind fun _ _ h =>
      lockstep_applyRootsLoop b baseSlot capacity (i + 1) roots h

theorem lockstep_applyRoots (b : Build) (baseSlot : UInt64) (d : RootsDiff) {l m : List (Bytes 32)}
    (h : AlikeOff D l m) :
    Lockstep (AlikeOff D) (applyRoots b baseSlot l d) (applyRoots b baseSlot m d) := by
  simp only [applyRoots, h.eq_nil_iff, h.length]
  split
  · exact lockstep_error _ _
  · exact lockstep_applyRootsLoop b baseSlot _ 0 d.roots h

theorem lockstep_applyRandao (baseSlot : UInt64) (d : RandaoDiff) {l m : List (Bytes 32)}
    (h : AlikeOff D l m) :
    Lockstep (AlikeOff D) (applyRandao baseSlot l d) (applyRandao baseSlot m d) := by
  simp only [applyRandao, h.eq_nil_iff, h.length, applyRandaoLoop_eq]
  split
  · exact lockstep_error _ _
  · exact h.writes _

theorem lockstep_applySlashings (d : SlashingsDiff) {l m : List UInt64} (h : AlikeOff D l m) :
    Lockstep (AlikeOff D) (applySlashings l d) (applySlashings m d) :=
  h.writes _

theorem lockstep_applyInactivity (d : InactivityDiff) {l m : List UInt64} (h : AlikeOff D l m) :
    Lockstep (AlikeOff D) (applyInactivity l d) (applyInactivity m d) := by
  cases d with
  | allZeros len => exact lockstep_ok (.refl _ _)
  | sparse indices newValues extensions =>
    exact (h.writes _).bind fun _ _ h => lockstep_ok (h.append extensions)

/-! ## Flags -/

/-- The two runs of the flag loop are at the same place. -/
structure FlagsAlike (D : Set Nat) (st st' : SparseState) : Prop where
  target : AlikeOff D st.target st'.target
  cursor : st'.cursor = st.cursor
  currentIdx : st'.currentIdx = st.currentIdx

theorem lockstep_applyFlag (b : Build) (raw : List UInt8) (val : UInt8) {st st' : SparseState}
    (h : FlagsAlike D st st') :
    Lockstep (FlagsAlike D) (applyFlag b raw st val) (applyFlag b raw st' val) := by
  unfold applyFlag
  rw [h.cursor, h.currentIdx, h.target.length]
  refine lockstep_orPanic_bind fun p _ => ?_
  refine lockstep_orPanic_bind fun idx _ => ?_
  refine (h.target.pushes _ _).bind fun _ _ hgrown => ?_
  refine (hgrown.writeAt fun _ => rfl).bind fun _ _ htarget => ?_
  exact lockstep_ok ⟨htarget, rfl, rfl⟩

theorem lockstep_applyParticipationIter (b : Build) (d : ParticipationDiff) {l m : List UInt8}
    (h : AlikeOff D l m) :
    Lockstep (AlikeOff D) (applyParticipationIter b l d) (applyParticipationIter b m d) := by
  cases d with
  | allZeros len => exact lockstep_ok h
  | sparse sparseIndices newValues extension =>
    have hloop : Lockstep (FlagsAlike D) (newValues.foldlM (applyFlag b sparseIndices) ⟨l, 0, 0⟩)
        (newValues.foldlM (applyFlag b sparseIndices) ⟨m, 0, 0⟩) :=
      Lockstep.foldlM (fun _ _ h val _ => lockstep_applyFlag b sparseIndices val h) ⟨h, rfl, rfl⟩
    exact hloop.bind fun _ _ h => h.target.pushes _ extension

/-! ## Balances -/

/-- The two runs of the balance loop are at the same place. -/
structure TagsAlike (D : Set Nat) (st st' : ApplyState) : Prop where
  target : AlikeOff D st.target st'.target
  targetIter : st'.targetIter = st.targetIter
  payloadCursor : st'.payloadCursor = st.payloadCursor
  baseIdx : st'.baseIdx = st.baseIdx

/-- A difference is added to the balance itself; every other tag ignores it. -/
theorem lockstep_applyTag {b : Build} (hb : b.overflowChecks = false) (d : BalancesDiff)
    (tag : UInt8) {st st' : ApplyState} (h : TagsAlike D st st') :
    Lockstep (TagsAlike D) (applyTag b d st tag) (applyTag b d st' tag) := by
  have hadd : ∀ x y : Int64, b.addI64 x y = some (x + y) := fun _ _ => b.arith_of_unchecked hb _ _
  unfold applyTag
  rw [h.targetIter, h.payloadCursor, h.baseIdx]
  split
  · exact lockstep_ok ⟨h.target, rfl, rfl, rfl⟩
  split
  · refine (h.target.writeAt fun _ => rfl).bind fun _ _ htarget => ?_
    exact lockstep_ok ⟨htarget, rfl, rfl, rfl⟩
  split
  · cases st.targetIter with
    | nil => exact lockstep_error _ _
    | cons v vs =>
      refine (h.target.writeAt fun _ => rfl).bind fun _ _ htarget => ?_
      exact lockstep_ok ⟨htarget, rfl, rfl, rfl⟩
  split
  · refine lockstep_orPanic_bind fun p _ => ?_
    refine lockstep_orPanic_bind fun diff _ => ?_
    by_cases hlt : st.baseIdx < st.target.length
    · have hlt' : st.baseIdx < st'.target.length := h.target.length ▸ hlt
      rw [List.getElem?_eq_getElem hlt, List.getElem?_eq_getElem hlt', orPanic_some, orPanic_some,
        ok_bind, ok_bind, hadd, hadd, orPanic_some, orPanic_some, ok_bind, ok_bind]
      refine (h.target.writeAt fun hout => ?_).bind fun _ _ htarget => ?_
      · -- outside the damage both runs read the same balance
        have hsame := h.target.off _ hout
        rw [List.getElem?_eq_getElem hlt, List.getElem?_eq_getElem hlt'] at hsame
        rw [Option.some.inj hsame]
      · exact lockstep_ok ⟨htarget, rfl, rfl, rfl⟩
    · rw [List.getElem?_eq_none (Nat.le_of_not_lt hlt)]
      exact lockstep_error _ _
  · exact lockstep_error _ _

theorem lockstep_applyBalancesIter {b : Build} (hb : b.overflowChecks = false) (d : BalancesDiff)
    {l m : List UInt64} (h : AlikeOff D l m) :
    Lockstep (AlikeOff D) (applyBalancesIter b l d) (applyBalancesIter b m d) := by
  unfold applyBalancesIter
  rw [h.length]
  split
  · exact lockstep_error _ _
  · rw [applyTagBytes_eq _ _ (Nat.zero_le _), applyTagBytes_eq _ _ (Nat.zero_le _)]
    have hloop : Lockstep (TagsAlike D)
        (((d.tags.data.flatMap unpack).take (d.tags.len - 0)).foldlM (applyTag b d)
          ⟨l, d.targetValues, 0, 0⟩)
        (((d.tags.data.flatMap unpack).take (d.tags.len - 0)).foldlM (applyTag b d)
          ⟨m, d.targetValues, 0, 0⟩) :=
      Lockstep.foldlM (fun _ _ h tag _ => lockstep_applyTag hb d tag h) ⟨h, rfl, rfl, rfl⟩
    exact hloop.bind fun _ _ h => lockstep_ok (h.target.append _)

/-! ## Registries -/

/-- The bytes of the records in `D`. -/
def recordBytes (D : Set Nat) : Set Nat := {j | j / VALIDATOR_SSZ_SIZE ∈ D}

/-- Registries that differ in the records of `D` only. -/
abbrev RecordsAlike (D : Set Nat) (l m : ByteValidatorTarget) : Prop :=
  AlikeOff (recordBytes D) l.bytes m.bytes

variable {l m : ByteValidatorTarget} {i : Nat}

/-- They have the same indices. -/
theorem RecordsAlike.getMut {v : ByteValidator} (h : RecordsAlike D l m) (hl : l.getMut i = some v) :
    ∃ w, m.getMut i = some w ∧ (i ∉ D → w = v) := by
  have hin := ByteValidatorTarget.getMut_isSome.1 (Option.isSome_of_mem hl)
  rw [← h.length] at hin
  obtain ⟨w, hm⟩ := Option.isSome_iff_exists.1 (ByteValidatorTarget.getMut_isSome.2 hin)
  refine ⟨w, hm, fun hout => Subtype.ext (List.ext_getElem? fun k => ?_)⟩
  by_cases hk : k < 121
  · rw [val_of_getMut hm, val_of_getMut hl, getElem?_slice (by omega), getElem?_slice (by omega)]
    refine h.off _ fun hbad => hout ?_
    have hrec : (i * 121 + k) / 121 = i := by omega
    exact hrec ▸ hbad
  · rw [List.getElem?_eq_none (by rw [w.property]; exact Nat.le_of_not_lt hk),
      List.getElem?_eq_none (by rw [v.property]; exact Nat.le_of_not_lt hk)]

theorem RecordsAlike.writeBack (h : RecordsAlike D l m) {v w v' w' : ByteValidator}
    (hl : l.getMut i = some v) (hm : m.getMut i = some w) (hsame : i ∉ D → w' = v') :
    RecordsAlike D (ValidatorMutTarget.writeBack l i v') (ValidatorMutTarget.writeBack m i w') := by
  refine ⟨?_, fun j hj => ?_⟩
  · rw [length_bytes_writeBack hl, length_bytes_writeBack hm, h.length]
  · rw [getElem?_bytes_writeBack hl, getElem?_bytes_writeBack hm]
    split
    · rename_i hrec
      rw [hsame (hrec ▸ hj)]
    · exact h.off j hj

/-- Whether a value can be read depends on the patch, not on the record. -/
theorem lockstep_applyPatch (patch : ValidatorPatch) (h : RecordsAlike D l m) :
    Lockstep (RecordsAlike D) (applyPatch l patch) (applyPatch m patch) := by
  unfold applyPatch
  cases hl : ValidatorMutTarget.getMut l patch.index.toNat with
  | none =>
    cases hm : ValidatorMutTarget.getMut m patch.index.toNat with
    | none => exact lockstep_ok h
    | some w =>
      obtain ⟨v, hv, -⟩ := RecordsAlike.getMut h.symm hm
      cases hl.symm.trans hv
  | some v =>
    obtain ⟨w, hm, hvw⟩ := RecordsAlike.getMut h hl
    have hm : ValidatorMutTarget.getMut m patch.index.toNat = some w := hm
    rw [hm]
    dsimp only
    cases hv : patchValidator v patch with
    | none => exact lockstep_error _ _
    | some v' =>
      obtain ⟨w', hw⟩ : ∃ w', patchValidator w patch = some w' :=
        patchValidator_isSome.2 (patchValidator_isSome.1 ⟨v', hv⟩)
      rw [hw]
      refine lockstep_ok (RecordsAlike.writeBack h hl hm fun hout => ?_)
      rw [hvw hout] at hw
      exact Option.some.inj (hw.symm.trans hv)

theorem lockstep_applyValidatorsIter (b : Build) (d : ValidatorsDiff) (h : RecordsAlike D l m) :
    Lockstep (RecordsAlike D) (applyValidatorsIter b l d) (applyValidatorsIter b m d) := by
  have hloop : Lockstep (RecordsAlike D) (d.patches.foldlM applyPatch l)
      (d.patches.foldlM applyPatch m) :=
    Lockstep.foldlM (fun _ _ h patch _ => lockstep_applyPatch patch h) h
  refine hloop.bind fun l m h => ?_
  split
  · exact lockstep_error _ _
  · refine lockstep_ok ?_
    show AlikeOff _ _ _
    rw [bytes_foldl_push, bytes_foldl_push]
    exact h.append _

end

/-! ## One application -/

section

variable {S α : Type} {R : S → S → Prop} {Q : α → α → Prop} {get : S → α} {set : S → α → S}
  {run : α → Exec α α} {s t : S}

theorem lockstep_onField (hrun : Lockstep Q (run (get s)) (run (get t)))
    (hset : ∀ a c, Q a c → R (set s a) (set t c)) :
    Lockstep R (onField get set run s) (onField get set run t) :=
  hrun.mapState hset

/-- A component that both states have in common. -/
theorem lockstep_onField_same (hget : get t = get s) (hset : ∀ a, R (set s a) (set t a)) :
    Lockstep R (onField get set run s) (onField get set run t) := by
  refine lockstep_onField (Q := fun a c => c = a) ?_ ?_
  · rw [hget]
    exact fun a ha => ⟨a, ha, rfl⟩
  · rintro _ a rfl
    exact hset a

end

/-- Two lists that both states have, or neither, and that differ on `D` only. -/
abbrev BothAlike {α : Type} (D : Set Nat) (o p : Option (List α)) : Prop :=
  Option.Rel (AlikeOff D) o p

theorem lockstep_onBoth {α δ : Type} {D : Set Nat} {run : List α → δ → Exec (List α) (List α)}
    (hrun : ∀ e {l m : List α}, AlikeOff D l m → Lockstep (AlikeOff D) (run l e) (run m e))
    (delta : Option δ) {o p : Option (List α)} (h : BothAlike D o p) :
    Lockstep (BothAlike D) (onBoth run delta o) (onBoth run delta p) := by
  cases h with
  | none => exact lockstep_ok .none
  | some hlm =>
    cases delta with
    | none => exact lockstep_ok (.some hlm)
    | some e => exact (hrun e hlm).mapState fun _ _ h => .some h

/-- **`t` is `s` with damage**: in the entries of `D`, of a registry in its records, and in the
scalar header. -/
structure Damaged (D : ListField → Set Nat) (s t : DiffTarget ByteValidatorTarget) : Prop where
  fork : t.fork = s.fork
  balances : AlikeOff (D .balances) s.balances t.balances
  validators : RecordsAlike (D .validators) s.validators t.validators
  blockRoots : AlikeOff (D .blockRoots) s.blockRoots t.blockRoots
  stateRoots : AlikeOff (D .stateRoots) s.stateRoots t.stateRoots
  randaoMixes : AlikeOff (D .randaoMixes) s.randaoMixes t.randaoMixes
  slashings : AlikeOff (D .slashings) s.slashings t.slashings
  eth1DataVotes : t.eth1DataVotes = s.eth1DataVotes
  previousParticipation : BothAlike (D .previousParticipation) s.previousParticipation
    t.previousParticipation
  currentParticipation : BothAlike (D .currentParticipation) s.currentParticipation
    t.currentParticipation
  inactivityScores : BothAlike (D .inactivityScores) s.inactivityScores t.inactivityScores
  historicalRoots : t.historicalRoots = s.historicalRoots
  previousEpochAttestations : t.previousEpochAttestations = s.previousEpochAttestations
  currentEpochAttestations : t.currentEpochAttestations = s.currentEpochAttestations
  currentSyncCommittee : t.currentSyncCommittee = s.currentSyncCommittee
  nextSyncCommittee : t.nextSyncCommittee = s.nextSyncCommittee
  historicalSummaries : t.historicalSummaries = s.historicalSummaries
  pendingDeposits : t.pendingDeposits = s.pendingDeposits
  pendingPartialWithdrawals : t.pendingPartialWithdrawals = s.pendingPartialWithdrawals
  pendingConsolidations : t.pendingConsolidations = s.pendingConsolidations

theorem bothAlike_refl {α : Type} (D : Set Nat) (o : Option (List α)) : BothAlike D o o :=
  optionRel_refl (AlikeOff.refl D) o

theorem Damaged.refl (D : ListField → Set Nat) (s : DiffTarget ByteValidatorTarget) :
    Damaged D s s where
  fork := rfl
  balances := .refl _ _
  validators := .refl _ _
  blockRoots := .refl _ _
  stateRoots := .refl _ _
  randaoMixes := .refl _ _
  slashings := .refl _ _
  eth1DataVotes := rfl
  previousParticipation := bothAlike_refl _ _
  currentParticipation := bothAlike_refl _ _
  inactivityScores := bothAlike_refl _ _
  historicalRoots := rfl
  previousEpochAttestations := rfl
  currentEpochAttestations := rfl
  currentSyncCommittee := rfl
  nextSyncCommittee := rfl
  historicalSummaries := rfl
  pendingDeposits := rfl
  pendingPartialWithdrawals := rfl
  pendingConsolidations := rfl

/-- Damage once the scalar header has been replaced. -/
structure Contained (D : ListField → Set Nat) (s t : DiffTarget ByteValidatorTarget) : Prop
    extends Damaged D s t where
  scalarHeader : t.scalarHeader = s.scalarHeader

section

variable {b : Build} {D : ListField → Set Nat} {s t : DiffTarget ByteValidatorTarget} {F : Type}

/-- **The nineteen mutations side by side.** -/
theorem lockstep_applyComponents (hb : b.overflowChecks = false) (d : BeaconStateDelta F)
    (h : Damaged D s t) :
    Lockstep (Contained D) (applyComponents b d s) (applyComponents b d t) := by
  unfold applyComponents
  have hu : Contained D { s with scalarHeader := d.scalarHeader }
      { t with scalarHeader := d.scalarHeader } := { h with scalarHeader := rfl }
  refine Lockstep.step (lockstep_onField (lockstep_applyBalancesIter hb _ hu.balances)
    fun _ _ h => { hu with balances := h }) fun _ _ hu => ?_
  refine Lockstep.step (lockstep_onField (lockstep_applyValidatorsIter b _ hu.validators)
    fun _ _ h => { hu with validators := h }) fun _ _ hu => ?_
  refine Lockstep.step (lockstep_onField (lockstep_applyRoots b _ _ hu.blockRoots)
    fun _ _ h => { hu with blockRoots := h }) fun _ _ hu => ?_
  refine Lockstep.step (lockstep_onField (lockstep_applyRoots b _ _ hu.stateRoots)
    fun _ _ h => { hu with stateRoots := h }) fun _ _ hu => ?_
  refine Lockstep.step (lockstep_onField (lockstep_applyRandao _ _ hu.randaoMixes)
    fun _ _ h => { hu with randaoMixes := h }) fun _ _ hu => ?_
  refine Lockstep.step (lockstep_onField (lockstep_applySlashings _ hu.slashings)
    fun _ _ h => { hu with slashings := h }) fun _ _ hu => ?_
  refine Lockstep.step (lockstep_onField_same hu.eth1DataVotes
    fun _ => { hu with eth1DataVotes := rfl }) fun _ _ hu => ?_
  refine Lockstep.step (lockstep_onField_same hu.historicalRoots
    fun _ => { hu with historicalRoots := rfl }) fun _ _ hu => ?_
  refine Lockstep.step (lockstep_onField_same hu.previousEpochAttestations
    fun _ => { hu with previousEpochAttestations := rfl }) fun _ _ hu => ?_
  refine Lockstep.step (lockstep_onField_same hu.currentEpochAttestations
    fun _ => { hu with currentEpochAttestations := rfl }) fun _ _ hu => ?_
  refine Lockstep.step (lockstep_onField
    (lockstep_onBoth (lockstep_applyParticipationIter b) _ hu.previousParticipation)
    fun _ _ h => { hu with previousParticipation := h }) fun _ _ hu => ?_
  refine Lockstep.step (lockstep_onField
    (lockstep_onBoth (lockstep_applyParticipationIter b) _ hu.currentParticipation)
    fun _ _ h => { hu with currentParticipation := h }) fun _ _ hu => ?_
  refine Lockstep.step (lockstep_onField (lockstep_onBoth lockstep_applyInactivity _ hu.inactivityScores)
    fun _ _ h => { hu with inactivityScores := h }) fun _ _ hu => ?_
  refine Lockstep.step (lockstep_onField_same hu.currentSyncCommittee
    fun _ => { hu with currentSyncCommittee := rfl }) fun _ _ hu => ?_
  refine Lockstep.step (lockstep_onField_same hu.nextSyncCommittee
    fun _ => { hu with nextSyncCommittee := rfl }) fun _ _ hu => ?_
  refine Lockstep.step (lockstep_onField_same hu.historicalSummaries
    fun _ => { hu with historicalSummaries := rfl }) fun _ _ hu => ?_
  refine Lockstep.step (lockstep_onField_same hu.pendingDeposits
    fun _ => { hu with pendingDeposits := rfl }) fun _ _ hu => ?_
  refine Lockstep.step (lockstep_onField_same hu.pendingPartialWithdrawals
    fun _ => { hu with pendingPartialWithdrawals := rfl }) fun _ _ hu => ?_
  exact lockstep_onField_same hu.pendingConsolidations
    fun _ => { hu with pendingConsolidations := rfl }

theorem state?_eq_some {o : Outcome (DiffTarget ByteValidatorTarget)} :
    o.state? = some s ↔ o = .ok s := by
  cases o <;> simp [Outcome.state?]

/-- **One application**: what takes the delta takes it damaged. -/
theorem apply_damaged (hb : b.overflowChecks = false) (h : Damaged D s t)
    (d : ArchivedBeaconStateDelta) {s' : DiffTarget ByteValidatorTarget}
    (hs : (apply b s d).state? = some s') :
    ∃ t', (apply b t d).state? = some t' ∧ Contained D s' t' := by
  obtain ⟨hfork, hfields, happlied⟩ := apply_eq_ok.1 (state?_eq_some.1 hs)
  obtain ⟨t', ht', hcontained⟩ :=
    lockstep_applyComponents hb d h s' (applyComponents_eq_ok.2 happlied)
  refine ⟨t', state?_eq_some.2 (apply_eq_ok.2 ⟨?_, ?_, applyComponents_eq_ok.1 ht'⟩), hcontained⟩
  · rw [hfork, h.fork]
  · rw [h.fork]
    exact hfields

/-- **Damage does not spread.** In builds without overflow checks an archive that is replayed over a
damaged first state passes through states that are damaged where the first one is: a balance, a
record, a ring entry, a slashing, a flag or a score that was right in the first state is right in
every later one, and so are all other components. With overflow checks a damaged balance may
panic. -/
theorem replay_damaged (hb : b.overflowChecks = false) (h : Damaged D s t)
    {deltas : List ArchivedBeaconStateDelta} {states : List (DiffTarget ByteValidatorTarget)}
    (hs : replay (fun s d => (apply b s d).state?) s deltas = some states) :
    ∃ states', replay (fun s d => (apply b s d).state?) t deltas = some states' ∧
      List.Forall₂ (Contained D) states states' :=
  replay_related (R := Damaged D) (Q := Contained D) (fun _ _ h => h.toDamaged)
    (fun _ _ h d _ hs => apply_damaged hb h d hs) deltas s t states h hs

end

/-- A Phase 0 state of two balances. -/
def twoBalances (x y : UInt64) : DiffTarget ByteValidatorTarget :=
  { phase0State with validators := ⟨[]⟩, balances := [x, y] }

/-- The delta of a slot in which both grow by one. -/
def growBoth : ArchivedBeaconStateDelta :=
  { phase0Delta with balances := ⟨⟨[0b1111], 2⟩, 1, [0, 0], [], []⟩ }

/-- The first balance should have been 32. -/
theorem replay_damaged_balance : ∃ s,
    replay (fun s d => (apply Build.release s d).state?) (twoBalances 99 40) [growBoth] = some [s] ∧
      s.balances[1]? = some 41 := by
  let D : ListField → Set Nat := fun field => {i | field = .balances ∧ i = 0}
  have hbalances : AlikeOff (D .balances) ([32, 40] : List UInt64) [99, 40] := by
    refine ⟨rfl, fun i hi => ?_⟩
    cases i with
    | zero => exact absurd ⟨rfl, rfl⟩ hi
    | succ i => rfl
  have hdamaged : Damaged D (twoBalances 32 40) (twoBalances 99 40) :=
    { Damaged.refl D (twoBalances 32 40) with balances := hbalances }
  have hsound : replay (fun s d => (apply Build.release s d).state?) (twoBalances 32 40) [growBoth] =
      some [twoBalances 33 41] := rfl
  obtain ⟨states, hreplay, hcontained⟩ := replay_damaged rfl hdamaged hsound
  cases hcontained with
  | cons hs hnil =>
    cases hnil
    refine ⟨_, hreplay, ?_⟩
    rw [hs.balances.off 1 (fun h => absurd h.2 (by decide))]
    rfl

example : (apply Build.dev (twoBalances 0x7fffffffffffffff 40) growBoth).state? = none := rfl

end EthStateDiff
