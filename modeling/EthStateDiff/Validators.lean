import EthStateDiff.Lib.Machine
import EthStateDiff.Types
/-!
# Validator deltas (`validators.rs`)

| here | there |
| --- | --- |
| `ValidatorSnapshot`, `ValidatorMut`, `ValidatorMutTarget` | validators.rs:146-204 |
| `diffValidators`, `diffValidatorsIter` | validators.rs:236, :271 |
| `diffValidatorsImpl`, `patchesFrom`, `recordPatches` | validators.rs:282, its loop, one turn |
| `runDiffValidators`, `runDiffValidatorsImpl`, `collectPatches` | the same with the `unwrap`s that may panic |
| `applyValidators`, `applyValidatorsIter` | validators.rs:401, :447 |
| `applyPatch`, `patchValidator` | one turn of its loop, its `match` |
| `ByteValidator`, `ByteValidatorTarget` | validators.rs:510-614 |

A mutable view borrowed from a collection is taken out by `getMut` and put back by `writeBack`:
no patch panics between two writes to one record.

* `runDiffValidatorsImpl_eq` — the encoder never panics.
* `partial_records_iff` — and so it does not reject a buffer that ends in a partial record.
* `SnapshotHom`, `MutHom`, `TargetHom` — a change of representation that the three interfaces
  cannot see.
* `diffValidatorsImpl_hom`, `applyValidatorsIter_hom` — encoder and applier cannot see it either.
-/

namespace EthStateDiff

open Rust ByteString

/-! ## Interfaces -/

class ValidatorSnapshot (V : Type) where
  withdrawalCredentials : V → Bytes 32
  effectiveBalance : V → UInt64
  isSlashed : V → Bool
  activationEligibilityEpoch : V → UInt64
  activationEpoch : V → UInt64
  exitEpoch : V → UInt64
  withdrawableEpoch : V → UInt64
  toSszBytes : V → List UInt8

class ValidatorMut (V : Type) where
  isSlashed : V → Bool
  setWithdrawalCredentials : V → Bytes 32 → V
  setEffectiveBalance : V → UInt64 → V
  setSlashed : V → Bool → V
  setActivationEligibilityEpoch : V → UInt64 → V
  setActivationEpoch : V → UInt64 → V
  setExitEpoch : V → UInt64 → V
  setWithdrawableEpoch : V → UInt64 → V

class ValidatorMutTarget (T : Type) (V : outParam Type) [ValidatorMut V] where
  getMut : T → Nat → Option V
  writeBack : T → Nat → V → T
  pushFromSsz : T → Bytes VALIDATOR_SSZ_SIZE → T

/-! ## Encoder -/

section

variable {V₁ V₂ : Type} [ValidatorSnapshot V₁] [ValidatorSnapshot V₂]

open ValidatorSnapshot

/-- The seven-way test that lets the loop `continue`. -/
def unchanged (b : V₁) (t : V₂) : Bool :=
  withdrawalCredentials b == withdrawalCredentials t
    && effectiveBalance b == effectiveBalance t
    && isSlashed b == isSlashed t
    && activationEligibilityEpoch b == activationEligibilityEpoch t
    && activationEpoch b == activationEpoch t
    && exitEpoch b == exitEpoch t
    && (!isSlashed t || withdrawableEpoch b == withdrawableEpoch t)

/-- The patches of one common record. -/
def recordPatches (index : UInt32) (b : V₁) (t : V₂) : List ValidatorPatch :=
  if unchanged b t then []
  else
    (if withdrawalCredentials b ≠ withdrawalCredentials t then
      [⟨index, .withdrawalCredentials, (withdrawalCredentials t).val⟩] else []) ++
    (if effectiveBalance b ≠ effectiveBalance t then
      [⟨index, .effectiveBalance, (toLe (effectiveBalance t)).val⟩] else []) ++
    (if isSlashed b ≠ isSlashed t then [⟨index, .slashed, [(isSlashed t).toUInt8]⟩] else []) ++
    (if activationEligibilityEpoch b ≠ activationEligibilityEpoch t then
      [⟨index, .activationEligibilityEpoch, (toLe (activationEligibilityEpoch t)).val⟩]
      else []) ++
    (if activationEpoch b ≠ activationEpoch t then
      [⟨index, .activationEpoch, (toLe (activationEpoch t)).val⟩] else []) ++
    (if exitEpoch b ≠ exitEpoch t then [⟨index, .exitEpoch, (toLe (exitEpoch t)).val⟩] else []) ++
    (if isSlashed t ∧ withdrawableEpoch b ≠ withdrawableEpoch t then
      [⟨index, .withdrawableEpochSlashed, (toLe (withdrawableEpoch t)).val⟩] else [])

/-- The loop over the common records, from record `i` on. -/
def patchesFrom : Nat → List (V₁ × V₂) → List ValidatorPatch
  | _, [] => []
  | i, (b, t) :: rest => recordPatches (UInt32.ofNat i) b t ++ patchesFrom (i + 1) rest

def diffValidatorsImpl (base : List V₁) (target : List V₂) : ValidatorsDiff :=
  let commonLen := min base.length target.length
  { patches := patchesFrom 0 (base.zip target)
    appendedValidators := (target.drop commonLen).flatMap toSszBytes }

def diffValidatorsIter (base : List V₁) (target : List V₂) : ValidatorsDiff :=
  diffValidatorsImpl base target

/-- The loop of `diff_validators_impl` with the `unwrap`s of its iterators: the patches of `n` more
records, and what is left of the target. -/
def collectPatches : Nat → Nat → List V₁ → List V₂ → Option (List ValidatorPatch × List V₂)
  | 0, _, _, target => some ([], target)
  | n + 1, i, base, target => do
    let b ← base.head?
    let t ← target.head?
    let (patches, rest) ← collectPatches n (i + 1) base.tail target.tail
    some (recordPatches (UInt32.ofNat i) b t ++ patches, rest)

/-- `diff_validators_impl` as it runs, panics included; `diffValidatorsImpl` is what it returns. -/
def runDiffValidatorsImpl (base : List V₁) (target : List V₂) : Option ValidatorsDiff := do
  let commonLen := min base.length target.length
  let (patches, rest) ← collectPatches commonLen 0 base target
  some { patches, appendedValidators := rest.flatMap toSszBytes }

theorem collectPatches_eq : ∀ (base : List V₁) (target : List V₂) (i : Nat),
    collectPatches (min base.length target.length) i base target =
      some (patchesFrom i (base.zip target), target.drop (min base.length target.length))
  | [], target, i => by
    rw [List.length_nil, Nat.zero_min]
    rfl
  | b :: base, [], i => by
    rw [List.length_nil, Nat.min_zero]
    rfl
  | b :: base, t :: target, i => by
    have ih := collectPatches_eq base target (i + 1)
    rw [List.length_cons, List.length_cons, Nat.add_min_add_right]
    simp only [collectPatches, List.head?_cons, List.tail_cons, ih, Option.bind_eq_bind,
      Option.bind_some, List.zip_cons_cons, patchesFrom, List.drop_succ_cons]

/-- **The encoder never panics**: its loop stops where the shorter iterator does. -/
theorem runDiffValidatorsImpl_eq (base : List V₁) (target : List V₂) :
    runDiffValidatorsImpl base target = some (diffValidatorsImpl base target) := by
  simp only [runDiffValidatorsImpl, collectPatches_eq, Option.bind_eq_bind, Option.bind_some]
  rfl

end

/-! ## Applier -/

section

variable {V : Type} [ValidatorMut V]

open ValidatorMut

/-- `match &patch.field`: the patched record, or a panic on a value of the wrong width. -/
def patchValidator (validator : V) (patch : ValidatorPatch) : Option V :=
  match patch.field with
  | .withdrawalCredentials => (tryInto 32 patch.value).map (setWithdrawalCredentials validator)
  | .effectiveBalance => (tryInto 8 patch.value).map fun v => setEffectiveBalance validator (ofLe v)
  | .slashed => patch.value[0]?.map fun v => setSlashed validator (v != 0)
  | .activationEligibilityEpoch =>
    (tryInto 8 patch.value).map fun v => setActivationEligibilityEpoch validator (ofLe v)
  | .activationEpoch => (tryInto 8 patch.value).map fun v => setActivationEpoch validator (ofLe v)
  | .exitEpoch => (tryInto 8 patch.value).map fun v =>
    let ee := ofLe v
    let validator := setExitEpoch validator ee
    -- deterministic reconstruction for non-slashed validators
    if !isSlashed validator then
      setWithdrawableEpoch validator (saturatingAdd ee MIN_VALIDATOR_WITHDRAWABILITY_DELAY)
    else validator
  | .withdrawableEpochSlashed =>
    (tryInto 8 patch.value).map fun v => setWithdrawableEpoch validator (ofLe v)

open ValidatorMutTarget

variable {T : Type} [ValidatorMutTarget T V]

/-- One patch; an index the collection does not have is skipped. -/
def applyPatch (target : T) (patch : ValidatorPatch) : Exec T T :=
  match getMut target patch.index.toNat with
  | none => .ok target
  | some validator => do
    let validator ← orPanic target (patchValidator validator patch)
    .ok (writeBack target patch.index.toNat validator)

theorem applyPatch_of_getMut {target : T} {patch : ValidatorPatch} {v v' : V}
    (hget : getMut target patch.index.toNat = some v) (h : patchValidator v patch = some v') :
    applyPatch target patch = .ok (writeBack target patch.index.toNat v') := by
  simp only [applyPatch, hget, h]
  rfl

def applyValidatorsIter (b : Build) (target : T) (d : ValidatorsDiff) : Exec T T := do
  let target ← d.patches.foldlM applyPatch target
  if b.debugAssertions && d.appendedValidators.length % VALIDATOR_SSZ_SIZE != 0 then .error target
  else .ok ((chunksExact VALIDATOR_SSZ_SIZE d.appendedValidators).foldl pushFromSsz target)

end

/-! ## Byte records and byte registries -/

/-- `ByteValidator` and `ByteValidatorMut`: one SSZ record. -/
abbrev ByteValidator := Bytes VALIDATOR_SSZ_SIZE

namespace ByteValidator

/-! The fields of a record end inside it. -/

theorem pubkey_le : 0 + 48 ≤ 121 := by decide
theorem withdrawalCredentials_le : 48 + 32 ≤ 121 := by decide
theorem effectiveBalance_le : 80 + 8 ≤ 121 := by decide
theorem slashed_le : 88 + 1 ≤ 121 := by decide
theorem activationEligibilityEpoch_le : 89 + 8 ≤ 121 := by decide
theorem activationEpoch_le : 97 + 8 ≤ 121 := by decide
theorem exitEpoch_le : 105 + 8 ≤ 121 := by decide
theorem withdrawableEpoch_le : 113 + 8 ≤ 121 := by decide

/-- `self.0[lo..hi]` of a record. -/
def field (v : ByteValidator) (lo n : Nat) (h : lo + n ≤ 121) : Bytes n :=
  ⟨slice v.val lo (lo + n), by
    have hlen : v.val.length = 121 := v.property
    rw [length_slice _ _ _ (by omega) (by omega)]
    omega⟩

/-- `self.0[lo..hi].copy_from_slice(x)` on a record. -/
def setField (v : ByteValidator) (lo : Nat) {n : Nat} (x : Bytes n) (h : lo + n ≤ 121) :
    ByteValidator :=
  ⟨splice v.val lo x.val, by
    have hlen : v.val.length = 121 := v.property
    rw [length_splice _ _ _ (by rw [x.property]; omega), hlen]⟩

/-- `self.0[88]`. -/
def slashedByte (v : ByteValidator) : UInt8 :=
  v.val.get ⟨88, by
    have hlen : v.val.length = 121 := v.property
    omega⟩

end ByteValidator

open ByteValidator

instance : ValidatorSnapshot ByteValidator where
  withdrawalCredentials v := v.field 48 32 withdrawalCredentials_le
  effectiveBalance v := ofLe (v.field 80 8 effectiveBalance_le)
  isSlashed v := v.slashedByte != 0
  activationEligibilityEpoch v := ofLe (v.field 89 8 activationEligibilityEpoch_le)
  activationEpoch v := ofLe (v.field 97 8 activationEpoch_le)
  exitEpoch v := ofLe (v.field 105 8 exitEpoch_le)
  withdrawableEpoch v := ofLe (v.field 113 8 withdrawableEpoch_le)
  toSszBytes v := v.val

instance : ValidatorMut ByteValidator where
  isSlashed v := v.slashedByte != 0
  setWithdrawalCredentials v x := v.setField 48 x withdrawalCredentials_le
  setEffectiveBalance v x := v.setField 80 (toLe x) effectiveBalance_le
  setSlashed v x := v.setField 88 (⟨[x.toUInt8], rfl⟩ : Bytes 1) slashed_le
  setActivationEligibilityEpoch v x := v.setField 89 (toLe x) activationEligibilityEpoch_le
  setActivationEpoch v x := v.setField 97 (toLe x) activationEpoch_le
  setExitEpoch v x := v.setField 105 (toLe x) exitEpoch_le
  setWithdrawableEpoch v x := v.setField 113 (toLe x) withdrawableEpoch_le

/-- `ByteValidatorTarget`: records one after the other in a `Vec<u8>`. -/
structure ByteValidatorTarget where
  bytes : List UInt8
deriving DecidableEq

/-- `ByteValidatorTarget::get_mut`; the products are checked. -/
def ByteValidatorTarget.getMut (target : ByteValidatorTarget) (index : Nat) :
    Option ByteValidator :=
  let start := index * VALIDATOR_SSZ_SIZE
  let stop := start + VALIDATOR_SSZ_SIZE
  if start ≥ 2 ^ 64 then none
  else if stop ≥ 2 ^ 64 then none
  else if stop > target.bytes.length then none
  else tryInto VALIDATOR_SSZ_SIZE (slice target.bytes start stop)

instance : ValidatorMutTarget ByteValidatorTarget ByteValidator where
  getMut := ByteValidatorTarget.getMut
  writeBack target index v := ⟨splice target.bytes (index * VALIDATOR_SSZ_SIZE) v.val⟩
  pushFromSsz target bytes := ⟨target.bytes ++ bytes.val⟩

def diffValidators (baseBytes targetBytes : List UInt8) : ValidatorsDiff :=
  diffValidatorsImpl (chunksExact VALIDATOR_SSZ_SIZE baseBytes)
    (chunksExact VALIDATOR_SSZ_SIZE targetBytes)

def applyValidators (b : Build) (base : List UInt8) (d : ValidatorsDiff) :
    Exec (List UInt8) (List UInt8) :=
  mapState ByteValidatorTarget.bytes (applyValidatorsIter b (⟨base⟩ : ByteValidatorTarget) d)

/-! ## Partial records -/

/-- `diff_validators` as it runs. -/
def runDiffValidators (baseBytes targetBytes : List UInt8) : Option ValidatorsDiff :=
  runDiffValidatorsImpl (chunksExact VALIDATOR_SSZ_SIZE baseBytes)
    (chunksExact VALIDATOR_SSZ_SIZE targetBytes)

/-- A buffer without its trailing partial record. -/
def wholeRecords (bytes : List UInt8) : List UInt8 :=
  bytes.take (bytes.length / VALIDATOR_SSZ_SIZE * VALIDATOR_SSZ_SIZE)

/-- What the documentation of `diff_validators` promises: a delta is returned for whole records
only, and a trailing partial record panics. -/
structure RejectsPartial (base target : List UInt8) : Prop where
  returns : ∀ d, runDiffValidators base target = some d →
    VALIDATOR_SSZ_SIZE ∣ base.length ∧ VALIDATOR_SSZ_SIZE ∣ target.length
  panics : ¬(VALIDATOR_SSZ_SIZE ∣ base.length ∧ VALIDATOR_SSZ_SIZE ∣ target.length) →
    runDiffValidators base target = none

/-- **Partial records are dropped**: the promise holds for whole records only, because any two
buffers have a delta, and it is the one of their whole records. -/
theorem partial_records_iff (base target : List UInt8) :
    (RejectsPartial base target ↔
      VALIDATOR_SSZ_SIZE ∣ base.length ∧ VALIDATOR_SSZ_SIZE ∣ target.length) ∧
    ∃ d, runDiffValidators base target = some d ∧
      runDiffValidators (wholeRecords base) (wholeRecords target) = some d := by
  have hrun : runDiffValidators base target = some (diffValidators base target) :=
    runDiffValidatorsImpl_eq _ _
  refine ⟨⟨fun h => h.returns _ hrun, fun h => ⟨fun _ _ => h, fun hnot => absurd h hnot⟩⟩,
    _, hrun, ?_⟩
  rw [← hrun, runDiffValidators, wholeRecords, wholeRecords, chunksExact_take (by decide),
    chunksExact_take (by decide)]
  rfl

/-- A registry of one validator whose last byte is missing gives the delta of an empty one. -/
theorem partial_records_dropped :
    runDiffValidators [] (List.replicate 120 0) = some ⟨[], []⟩ ∧
      ¬RejectsPartial [] (List.replicate 120 0) := by
  have hnone : chunksExact VALIDATOR_SSZ_SIZE (List.replicate 120 (0 : UInt8)) = [] := by
    apply List.eq_nil_of_length_eq_zero
    rw [length_chunksExact, List.length_replicate]
    rfl
  have hrun : runDiffValidators [] (List.replicate 120 0) = some ⟨[], []⟩ := by
    rw [runDiffValidators, hnone]
    rfl
  refine ⟨hrun, fun h => ?_⟩
  have hdvd := (h.returns _ hrun).2
  rw [List.length_replicate] at hdvd
  exact absurd hdvd (by decide)

/-! ## Changes of representation -/

/-- `e` keeps everything the encoder reads. -/
structure SnapshotHom {V W : Type} [ValidatorSnapshot V] [ValidatorSnapshot W] (e : V → W) :
    Prop where
  withdrawalCredentials (v : V) :
    ValidatorSnapshot.withdrawalCredentials (e v) = ValidatorSnapshot.withdrawalCredentials v
  effectiveBalance (v : V) :
    ValidatorSnapshot.effectiveBalance (e v) = ValidatorSnapshot.effectiveBalance v
  isSlashed (v : V) : ValidatorSnapshot.isSlashed (e v) = ValidatorSnapshot.isSlashed v
  activationEligibilityEpoch (v : V) : ValidatorSnapshot.activationEligibilityEpoch (e v) =
    ValidatorSnapshot.activationEligibilityEpoch v
  activationEpoch (v : V) :
    ValidatorSnapshot.activationEpoch (e v) = ValidatorSnapshot.activationEpoch v
  exitEpoch (v : V) : ValidatorSnapshot.exitEpoch (e v) = ValidatorSnapshot.exitEpoch v
  withdrawableEpoch (v : V) :
    ValidatorSnapshot.withdrawableEpoch (e v) = ValidatorSnapshot.withdrawableEpoch v
  toSszBytes (v : V) : ValidatorSnapshot.toSszBytes (e v) = ValidatorSnapshot.toSszBytes v

section

variable {V W V' W' : Type} [ValidatorSnapshot V] [ValidatorSnapshot W] [ValidatorSnapshot V']
  [ValidatorSnapshot W'] {e : V → W} {e' : V' → W'}

theorem recordPatches_hom (he : SnapshotHom e) (he' : SnapshotHom e') (index : UInt32) (b : V)
    (t : V') : recordPatches index (e b) (e' t) = recordPatches index b t := by
  unfold recordPatches unchanged
  rw [he.withdrawalCredentials, he'.withdrawalCredentials, he.effectiveBalance,
    he'.effectiveBalance, he.isSlashed, he'.isSlashed, he.activationEligibilityEpoch,
    he'.activationEligibilityEpoch, he.activationEpoch, he'.activationEpoch, he.exitEpoch,
    he'.exitEpoch, he.withdrawableEpoch, he'.withdrawableEpoch]

theorem patchesFrom_hom (he : SnapshotHom e) (he' : SnapshotHom e') :
    ∀ (i : Nat) (base : List V) (target : List V'),
    patchesFrom i ((base.map e).zip (target.map e')) = patchesFrom i (base.zip target)
  | _, [], _ => by simp [patchesFrom]
  | _, _ :: _, [] => by simp [patchesFrom]
  | i, b :: base, t :: target => by
    simp only [List.map_cons, List.zip_cons_cons, patchesFrom, recordPatches_hom he he']
    rw [patchesFrom_hom he he' (i + 1) base target]

/-- **The encoder cannot see a change of representation.** -/
theorem diffValidatorsImpl_hom (he : SnapshotHom e) (he' : SnapshotHom e') (base : List V)
    (target : List V') :
    diffValidatorsImpl (base.map e) (target.map e') = diffValidatorsImpl base target := by
  have hssz : (fun v => ValidatorSnapshot.toSszBytes (e' v)) =
      (ValidatorSnapshot.toSszBytes : V' → List UInt8) := funext he'.toSszBytes
  simp only [diffValidatorsImpl, patchesFrom_hom he he', List.length_map, ← List.map_drop,
    List.flatMap_map, hssz]

end

/-- `e` commutes with everything the applier does to a record. -/
structure MutHom {V W : Type} [ValidatorMut V] [ValidatorMut W] (e : V → W) : Prop where
  isSlashed (v : V) : ValidatorMut.isSlashed (e v) = ValidatorMut.isSlashed v
  setWithdrawalCredentials (v : V) (x : Bytes 32) :
    ValidatorMut.setWithdrawalCredentials (e v) x = e (ValidatorMut.setWithdrawalCredentials v x)
  setEffectiveBalance (v : V) (x : UInt64) :
    ValidatorMut.setEffectiveBalance (e v) x = e (ValidatorMut.setEffectiveBalance v x)
  setSlashed (v : V) (x : Bool) : ValidatorMut.setSlashed (e v) x = e (ValidatorMut.setSlashed v x)
  setActivationEligibilityEpoch (v : V) (x : UInt64) :
    ValidatorMut.setActivationEligibilityEpoch (e v) x =
      e (ValidatorMut.setActivationEligibilityEpoch v x)
  setActivationEpoch (v : V) (x : UInt64) :
    ValidatorMut.setActivationEpoch (e v) x = e (ValidatorMut.setActivationEpoch v x)
  setExitEpoch (v : V) (x : UInt64) :
    ValidatorMut.setExitEpoch (e v) x = e (ValidatorMut.setExitEpoch v x)
  setWithdrawableEpoch (v : V) (x : UInt64) :
    ValidatorMut.setWithdrawableEpoch (e v) x = e (ValidatorMut.setWithdrawableEpoch v x)

theorem patchValidator_hom {V W : Type} [ValidatorMut V] [ValidatorMut W] {e : V → W}
    (he : MutHom e) (v : V) (patch : ValidatorPatch) :
    patchValidator (e v) patch = (patchValidator v patch).map e := by
  unfold patchValidator
  split <;> rw [Option.map_map] <;> congr 1 <;> funext x <;>
    simp only [Function.comp_apply, he.isSlashed, he.setWithdrawalCredentials,
      he.setEffectiveBalance, he.setSlashed, he.setActivationEligibilityEpoch,
      he.setActivationEpoch, he.setExitEpoch, he.setWithdrawableEpoch]
  split <;> rfl

/-- `φ` represents one collection by another, record by record through `e`. -/
structure TargetHom {T U V W : Type} [ValidatorMut V] [ValidatorMut W] [ValidatorMutTarget T V]
    [ValidatorMutTarget U W] (φ : T → U) (e : V → W) : Prop where
  record : MutHom e
  getMut (t : T) (i : UInt32) : ValidatorMutTarget.getMut (φ t) i.toNat =
    (ValidatorMutTarget.getMut t i.toNat).map e
  writeBack (t : T) (i : UInt32) (v₀ v : V) : ValidatorMutTarget.getMut t i.toNat = some v₀ →
    ValidatorMutTarget.writeBack (φ t) i.toNat (e v) = φ (ValidatorMutTarget.writeBack t i.toNat v)

section

variable {T U V W : Type} [ValidatorMut V] [ValidatorMut W] [ValidatorMutTarget T V]
  [ValidatorMutTarget U W] {φ : T → U} {e : V → W}

theorem applyPatch_hom (h : TargetHom φ e) (t : T) (patch : ValidatorPatch) :
    applyPatch (φ t) patch = mapState φ (applyPatch t patch) := by
  unfold applyPatch
  rw [h.getMut]
  cases hget : ValidatorMutTarget.getMut t patch.index.toNat with
  | none => rfl
  | some v =>
    rw [Option.map_some]
    simp only [patchValidator_hom h.record]
    cases hpatch : patchValidator v patch with
    | none => rfl
    | some v' =>
      simp only [Option.map_some, orPanic_some, ok_bind, mapState_ok]
      rw [h.writeBack t _ v v' hget]

theorem foldl_pushFromSsz_hom {chunks : List (Bytes VALIDATOR_SSZ_SIZE)} :
    ∀ (_ : ∀ c ∈ chunks, ∀ t : T, ValidatorMutTarget.pushFromSsz (φ t) c =
      φ (ValidatorMutTarget.pushFromSsz t c)) (t : T),
    chunks.foldl ValidatorMutTarget.pushFromSsz (φ t) =
      φ (chunks.foldl ValidatorMutTarget.pushFromSsz t) := by
  induction chunks with
  | nil => exact fun _ _ => rfl
  | cons c chunks ih =>
    intro hpush t
    rw [List.foldl_cons, hpush c List.mem_cons_self]
    exact ih (fun c' hc' => hpush c' (List.mem_cons_of_mem _ hc')) _

/-- **The applier cannot see a change of representation**, panics included, when the records it
appends are represented too. -/
theorem applyValidatorsIter_hom (h : TargetHom φ e) (b : Build) (t : T) (d : ValidatorsDiff)
    (hpush : ∀ c ∈ chunksExact VALIDATOR_SSZ_SIZE d.appendedValidators, ∀ t : T,
      ValidatorMutTarget.pushFromSsz (φ t) c = φ (ValidatorMutTarget.pushFromSsz t c)) :
    applyValidatorsIter b (φ t) d = mapState φ (applyValidatorsIter b t d) := by
  unfold applyValidatorsIter
  rw [foldlM_mapState φ (applyPatch_hom h)]
  cases hrun : d.patches.foldlM applyPatch t with
  | error t' => rfl
  | ok t' =>
    rw [mapState_ok, ok_bind, ok_bind]
    by_cases hassert : (b.debugAssertions &&
        d.appendedValidators.length % VALIDATOR_SSZ_SIZE != 0) = true
    · rw [if_pos hassert, if_pos hassert]
      rfl
    · rw [if_neg hassert, if_neg hassert, foldl_pushFromSsz_hom hpush]
      rfl

end

/-! ## Panics -/

/-- The value has the width its field needs. -/
def ValidatorPatch.WidthOk (patch : ValidatorPatch) : Prop :=
  match patch.field with
  | .withdrawalCredentials => patch.value.length = 32
  | .slashed => patch.value ≠ []
  | _ => patch.value.length = 8

instance : DecidablePred ValidatorPatch.WidthOk
  | ⟨_, .withdrawalCredentials, value⟩ => inferInstanceAs (Decidable (value.length = 32))
  | ⟨_, .slashed, value⟩ => inferInstanceAs (Decidable (value ≠ []))
  | ⟨_, .effectiveBalance, value⟩ => inferInstanceAs (Decidable (value.length = 8))
  | ⟨_, .activationEligibilityEpoch, value⟩ => inferInstanceAs (Decidable (value.length = 8))
  | ⟨_, .activationEpoch, value⟩ => inferInstanceAs (Decidable (value.length = 8))
  | ⟨_, .exitEpoch, value⟩ => inferInstanceAs (Decidable (value.length = 8))
  | ⟨_, .withdrawableEpochSlashed, value⟩ => inferInstanceAs (Decidable (value.length = 8))

theorem patchValidator_isSome {V : Type} [ValidatorMut V] {v : V} {patch : ValidatorPatch} :
    (∃ v', patchValidator v patch = some v') ↔ patch.WidthOk := by
  obtain ⟨index, field, value⟩ := patch
  have hread : ∀ (n : Nat) (f : Bytes n → V), (∃ v', (tryInto n value).map f = some v') ↔
      value.length = n := by
    intro n f
    rw [← tryInto_isSome]
    cases tryInto n value <;> simp
  cases field with
  | slashed => cases value <;> simp [patchValidator, ValidatorPatch.WidthOk]
  | withdrawalCredentials => exact hread 32 _
  | _ => exact hread 8 _

/-- Writing a record back leaves the same indices in use. -/
class LawfulValidatorMutTarget (T : Type) {V : Type} [ValidatorMut V] [ValidatorMutTarget T V] :
    Prop where
  getMut_writeBack (t : T) (i j : Nat) (v₀ v : V) : ValidatorMutTarget.getMut t i = some v₀ →
    (ValidatorMutTarget.getMut (ValidatorMutTarget.writeBack t i v) j).isSome =
      (ValidatorMutTarget.getMut t j).isSome

theorem ByteValidatorTarget.getMut_isSome {target : ByteValidatorTarget} {i : Nat} :
    (target.getMut i).isSome ↔ i * VALIDATOR_SSZ_SIZE + VALIDATOR_SSZ_SIZE < 2 ^ 64 ∧
      i * VALIDATOR_SSZ_SIZE + VALIDATOR_SSZ_SIZE ≤ target.bytes.length := by
  simp only [getMut, VALIDATOR_SSZ_SIZE]
  split_ifs with h₁ h₂ h₃
  · exact ⟨fun h => (by cases h), fun h => absurd h.1 (by omega)⟩
  · exact ⟨fun h => (by cases h), fun h => absurd h.1 (by omega)⟩
  · exact ⟨fun h => (by cases h), fun h => absurd h.2 (by omega)⟩
  · rw [tryInto_isSome, length_slice _ _ _ (by omega) (by omega)]
    omega

instance : LawfulValidatorMutTarget ByteValidatorTarget where
  getMut_writeBack target i j v₀ v hget := by
    have hin := (ByteValidatorTarget.getMut_isSome.1 (Option.isSome_of_mem hget)).2
    have hlen := length_splice target.bytes v.val (i * VALIDATOR_SSZ_SIZE) (by rwa [v.property])
    show (ByteValidatorTarget.getMut ⟨splice target.bytes _ v.val⟩ j).isSome = (target.getMut j).isSome
    rw [Bool.eq_iff_iff, ByteValidatorTarget.getMut_isSome, ByteValidatorTarget.getMut_isSome, hlen]

section

variable {T V : Type} [ValidatorMut V] [ValidatorMutTarget T V]

/-- The payload of a validator delta can be applied to this registry. -/
def ValidatorsFit (b : Build) (target : T) (d : ValidatorsDiff) : Prop :=
  (∀ patch ∈ d.patches,
    (ValidatorMutTarget.getMut target patch.index.toNat).isSome = true → patch.WidthOk) ∧
  (b.debugAssertions = true → VALIDATOR_SSZ_SIZE ∣ d.appendedValidators.length)

theorem applyPatch_isOk {target : T} {patch : ValidatorPatch} :
    (∃ out, applyPatch target patch = .ok out) ↔
      ((ValidatorMutTarget.getMut target patch.index.toNat).isSome = true → patch.WidthOk) := by
  unfold applyPatch
  cases hget : ValidatorMutTarget.getMut target patch.index.toNat with
  | none => simp
  | some v =>
    simp only [Option.isSome_some, true_implies, ← patchValidator_isSome (v := v)]
    cases patchValidator v patch <;> simp

theorem isSome_getMut_applyPatch [LawfulValidatorMutTarget T] {target out : T}
    {patch : ValidatorPatch} (h : applyPatch target patch = .ok out) (j : Nat) :
    (ValidatorMutTarget.getMut out j).isSome = (ValidatorMutTarget.getMut target j).isSome := by
  unfold applyPatch at h
  split at h
  · cases h
    rfl
  · rename_i v₀ hget
    rw [bind_eq_ok] at h
    obtain ⟨v, -, h⟩ := h
    cases h
    exact LawfulValidatorMutTarget.getMut_writeBack _ _ _ v₀ v hget

theorem foldlM_applyPatch_isOk [LawfulValidatorMutTarget T] : ∀ (patches : List ValidatorPatch)
    (target : T), (∃ out, patches.foldlM applyPatch target = .ok out) ↔
      ∀ patch ∈ patches, (ValidatorMutTarget.getMut target patch.index.toNat).isSome = true →
        patch.WidthOk := by
  intro patches
  induction patches with
  | nil =>
    intro target
    simp [pure, Except.pure]
  | cons patch patches ih =>
    intro target
    rw [List.foldlM_cons, List.forall_mem_cons, ← applyPatch_isOk]
    cases hstep : applyPatch target patch with
    | error t => simp
    | ok out =>
      rw [ok_bind, ih out]
      simp only [isSome_getMut_applyPatch hstep]
      simp

/-- **When `apply_validators_iter` returns.** -/
theorem applyValidatorsIter_isOk [LawfulValidatorMutTarget T] {b : Build} {target : T}
    {d : ValidatorsDiff} :
    (∃ out, applyValidatorsIter b target d = .ok out) ↔ ValidatorsFit b target d := by
  rw [ValidatorsFit, ← foldlM_applyPatch_isOk, applyValidatorsIter]
  cases hrun : d.patches.foldlM applyPatch target with
  | error t => simp
  | ok out =>
    rw [ok_bind]
    by_cases hassert : (b.debugAssertions &&
        d.appendedValidators.length % VALIDATOR_SSZ_SIZE != 0) = true
    · rw [if_pos hassert]
      rw [Bool.and_eq_true, bne_iff_ne] at hassert
      constructor
      · rintro ⟨_, h⟩
        cases h
      · intro h
        exact absurd (Nat.mod_eq_zero_of_dvd (h.2 hassert.1)) hassert.2
    · rw [if_neg hassert]
      simp only [Bool.and_eq_true, bne_iff_ne, not_and, not_not] at hassert
      exact ⟨fun _ => ⟨⟨_, rfl⟩, fun hd => Nat.dvd_of_mod_eq_zero (hassert hd)⟩, fun _ => ⟨_, rfl⟩⟩

end

end EthStateDiff
