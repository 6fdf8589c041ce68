import EthStateDiff.PatchProofs
/-!
# What a validator delta reconstructs

The encoder and the applier on records: the patches of one record rebuild it up to its public key,
its `slashed` byte and its `withdrawable_epoch`, which are derived or left alone. The equivalence
of the APIs and the exact reconstruction condition follow for the byte buffers.

* `applyValidators_encode`, `applyValidators_enc` — the byte applier is the record applier.
* `byteValidators_equiv_native` — **the two APIs are equivalent.**
* `foldlM_recordPatches` — **what the patches of one record make of it** (`rebuild`).
* `applyValidatorsIter_diffValidatorsImpl` — what a whole delta makes of a registry.
* `diffValidators_reconstructs_iff` — **exactly when a byte registry comes back.**
-/

namespace EthStateDiff

open Rust ByteString RawValidator

/-! ## The two APIs -/

/-- A registry of raw records in one buffer. -/
def encRaw (rs : List RawValidator) : List UInt8 := join (rs.map encode)

theorem enc_eq_encRaw (vs : List Validator) :
    Validator.enc vs = encRaw (vs.map Validator.toRaw) := by
  rw [encRaw, List.map_map]
  rfl

theorem mapState_mapState {σ τ υ : Type} (φ : τ → σ) (ψ : υ → τ) (x : Exec υ υ) :
    mapState φ (mapState ψ x) = mapState (φ ∘ ψ) x := by
  cases x <;> rfl

theorem applyValidators_encode (b : Build) (rs : List RawValidator) (d : ValidatorsDiff) :
    applyValidators b (encRaw rs) d = mapState encRaw (applyValidatorsIter b rs d) := by
  have hflat := applyValidatorsIter_hom targetHom_flat b (rs.map encode) d
    fun c _ l => push_flat c l
  have hraw := applyValidatorsIter_hom (targetHom_map mutHom_encode) b rs d
    fun c _ l => push_encode c l
  show mapState _ (applyValidatorsIter b (flat (rs.map encode)) d) = _
  rw [hflat, hraw, mapState_mapState, mapState_mapState]
  rfl

theorem applyValidators_enc (b : Build) (vs : List Validator) (d : ValidatorsDiff)
    (hcanon : ∀ c ∈ chunksExact VALIDATOR_SSZ_SIZE d.appendedValidators,
      (decode c).slashed = 0 ∨ (decode c).slashed = 1) :
    applyValidators b (Validator.enc vs) d = mapState Validator.enc (applyValidatorsIter b vs d) := by
  have hnative := applyValidatorsIter_hom (targetHom_map mutHom_toRaw) b vs d
    fun c hc l => push_toRaw (hcanon c hc) l
  rw [enc_eq_encRaw, applyValidators_encode, hnative, mapState_mapState]
  exact congrArg (mapState · _) (funext fun vs => (enc_eq_encRaw vs).symm)

theorem diffValidators_encRaw (base target : List RawValidator) :
    diffValidators (encRaw base) (encRaw target) = diffValidatorsImpl base target := by
  rw [diffValidators, encRaw, encRaw, chunksExact_join (by decide), chunksExact_join (by decide)]
  exact diffValidatorsImpl_hom snapshotHom_encode snapshotHom_encode base target

theorem diffValidators_enc (base target : List Validator) :
    diffValidators (Validator.enc base) (Validator.enc target) = diffValidatorsIter base target := by
  rw [enc_eq_encRaw, enc_eq_encRaw, diffValidators_encRaw]
  exact diffValidatorsImpl_hom snapshotHom_toRaw snapshotHom_toRaw base target

/-- Correct value widths and complete canonical appended records. -/
structure ValidatorsDiff.WellFormed (d : ValidatorsDiff) : Prop where
  widths : ∀ patch ∈ d.patches, patch.WidthOk
  complete : VALIDATOR_SSZ_SIZE ∣ d.appendedValidators.length
  canonical : ∀ c ∈ chunksExact VALIDATOR_SSZ_SIZE d.appendedValidators,
    (decode c).slashed = 0 ∨ (decode c).slashed = 1

/-- **The byte API and the native API are equivalent**: the same delta from the same registries,
and the same registry from the same delta, whatever the order, repetition or range of its
patches. -/
theorem byteValidators_equiv_native (b : Build) :
    (∀ base target : List Validator,
      diffValidators (Validator.enc base) (Validator.enc target) = diffValidatorsIter base target) ∧
    (∀ (base : List Validator) (d : ValidatorsDiff), d.WellFormed →
      ∃ out, applyValidatorsIter b base d = .ok out ∧
        applyValidators b (Validator.enc base) d = .ok (Validator.enc out)) := by
  refine ⟨diffValidators_enc, fun base d hd => ?_⟩
  obtain ⟨out, hout⟩ := applyValidatorsIter_isOk.2
    (⟨fun patch hp _ => hd.widths patch hp, fun _ => hd.complete⟩ : ValidatorsFit b base d)
  exact ⟨out, hout, by rw [applyValidators_enc b base d hd.canonical, hout, mapState_ok]⟩

/-- A delta that exits record 0 twice over, slashes it and names a record that does not exist,
on a registry of one. -/
theorem byteValidators_equiv_native_patches :
    let v : Validator := Validator.ofRaw (decode ⟨List.replicate 121 0, by decide⟩)
    let d : ValidatorsDiff :=
      { patches := [⟨0, .exitEpoch, (toLe 5).val⟩, ⟨0, .slashed, [1]⟩,
          ⟨0, .exitEpoch, (toLe 6).val⟩, ⟨7, .effectiveBalance, (toLe 1).val⟩]
        appendedValidators := v.toSsz.val }
    ∃ out, applyValidatorsIter Build.dev [v] d = .ok out ∧
      applyValidators Build.dev (Validator.enc [v]) d = .ok (Validator.enc out) := by
  intro v d
  refine (byteValidators_equiv_native Build.dev).2 [v] d ⟨by decide, ⟨1, v.toSsz.property⟩, ?_⟩
  intro c hc
  have hchunks : chunksExact VALIDATOR_SSZ_SIZE d.appendedValidators = [v.toSsz] := by
    rw [← chunksExact_join (by decide) [v.toSsz]]
    simp [d]
  rw [hchunks, List.mem_singleton] at hc
  subst hc
  exact Or.inl (by rw [Validator.toSsz, decode_encode]; decide)

/-! ## One record -/

/-- What the patches from `b` to `t` make of `b`. -/
def rebuild (b t : RawValidator) : RawValidator where
  pubkey := b.pubkey
  withdrawalCredentials := t.withdrawalCredentials
  effectiveBalance := t.effectiveBalance
  slashed := if (b.slashed != 0) = (t.slashed != 0) then b.slashed else (t.slashed != 0).toUInt8
  activationEligibilityEpoch := t.activationEligibilityEpoch
  activationEpoch := t.activationEpoch
  exitEpoch := t.exitEpoch
  withdrawableEpoch :=
    if t.slashed != 0 then t.withdrawableEpoch
    else if b.exitEpoch = t.exitEpoch then b.withdrawableEpoch
    else saturatingAdd t.exitEpoch MIN_VALIDATOR_WITHDRAWABILITY_DELAY

theorem slashed_rebuild (b t : RawValidator) :
    ((rebuild b t).slashed != 0) = (t.slashed != 0) := by
  simp only [rebuild]
  split
  · assumption
  · exact Validator.toUInt8_ne_zero _

/-- The patches of a raw record, test by test. -/
theorem recordPatches_eq (index : UInt32) (b t : RawValidator) : recordPatches index b t =
    (if b.withdrawalCredentials ≠ t.withdrawalCredentials then
      [⟨index, .withdrawalCredentials, t.withdrawalCredentials.val⟩] else []) ++
    (if b.effectiveBalance ≠ t.effectiveBalance then
      [⟨index, .effectiveBalance, (toLe t.effectiveBalance).val⟩] else []) ++
    (if (b.slashed != 0) ≠ (t.slashed != 0) then
      [⟨index, .slashed, [(t.slashed != 0).toUInt8]⟩] else []) ++
    (if b.activationEligibilityEpoch ≠ t.activationEligibilityEpoch then
      [⟨index, .activationEligibilityEpoch, (toLe t.activationEligibilityEpoch).val⟩] else []) ++
    (if b.activationEpoch ≠ t.activationEpoch then
      [⟨index, .activationEpoch, (toLe t.activationEpoch).val⟩] else []) ++
    (if b.exitEpoch ≠ t.exitEpoch then [⟨index, .exitEpoch, (toLe t.exitEpoch).val⟩] else []) ++
    (if (t.slashed != 0) = true ∧ b.withdrawableEpoch ≠ t.withdrawableEpoch then
      [⟨index, .withdrawableEpochSlashed, (toLe t.withdrawableEpoch).val⟩] else []) := by
  rw [recordPatches_spec]
  simp only [fieldOrder, map_filter_cons, List.filter_nil, List.map_nil, List.append_nil,
    List.append_assoc]
  rfl

/-- One optional patch: it either sets the field, or the field needs no setting. -/
theorem foldlM_optional {V : Type} [ValidatorMut V] {c : Prop} [Decidable c] {patch : ValidatorPatch}
    {v : V} (v' : V) (hset : c → patchValidator v patch = some v') (hkeep : ¬c → v = v') :
    (if c then [patch] else []).foldlM patchValidator v = some v' := by
  by_cases h : c
  · rw [if_pos h, List.foldlM_cons, hset h]
    rfl
  · rw [if_neg h, hkeep h]
    rfl

section

variable (v : RawValidator) (index : UInt32)

theorem patch_withdrawalCredentials (x : Bytes 32) :
    patchValidator v ⟨index, .withdrawalCredentials, x.val⟩ =
      some { v with withdrawalCredentials := x } := by
  simp only [patchValidator, tryInto_val]
  rfl

theorem patch_effectiveBalance (x : UInt64) :
    patchValidator v ⟨index, .effectiveBalance, (toLe x).val⟩ =
      some { v with effectiveBalance := x } := by
  simp only [patchValidator, tryInto_val, Option.map_some, ofLe_toLe]
  rfl

theorem patch_slashed (x : Bool) :
    patchValidator v ⟨index, .slashed, [x.toUInt8]⟩ = some { v with slashed := x.toUInt8 } := by
  simp only [patchValidator, List.getElem?_cons_zero, Option.map_some, Validator.toUInt8_ne_zero]
  rfl

theorem patch_activationEligibilityEpoch (x : UInt64) :
    patchValidator v ⟨index, .activationEligibilityEpoch, (toLe x).val⟩ =
      some { v with activationEligibilityEpoch := x } := by
  simp only [patchValidator, tryInto_val, Option.map_some, ofLe_toLe]
  rfl

theorem patch_activationEpoch (x : UInt64) :
    patchValidator v ⟨index, .activationEpoch, (toLe x).val⟩ =
      some { v with activationEpoch := x } := by
  simp only [patchValidator, tryInto_val, Option.map_some, ofLe_toLe]
  rfl

/-- An exit also derives the withdrawable epoch, unless the record is slashed. -/
theorem patch_exitEpoch (x : UInt64) :
    patchValidator v ⟨index, .exitEpoch, (toLe x).val⟩ = some { v with
      exitEpoch := x
      withdrawableEpoch := if v.slashed != 0 then v.withdrawableEpoch
        else saturatingAdd x MIN_VALIDATOR_WITHDRAWABILITY_DELAY } := by
  have hstep : patchValidator v ⟨index, .exitEpoch, (toLe x).val⟩ =
      some (if !(v.slashed != 0) then { v with
          exitEpoch := x
          withdrawableEpoch := saturatingAdd x MIN_VALIDATOR_WITHDRAWABILITY_DELAY }
        else { v with exitEpoch := x }) := by
    simp only [patchValidator, tryInto_val, Option.map_some, ofLe_toLe]
    rfl
  rw [hstep]
  cases v.slashed != 0 <;> rfl

theorem patch_withdrawableEpochSlashed (x : UInt64) :
    patchValidator v ⟨index, .withdrawableEpochSlashed, (toLe x).val⟩ =
      some { v with withdrawableEpoch := x } := by
  simp only [patchValidator, tryInto_val, Option.map_some, ofLe_toLe]
  rfl

end

/-- What an exit leaves in `withdrawable_epoch`, before the last patch. -/
def exitWithdrawable (b t : RawValidator) : UInt64 :=
  if b.exitEpoch = t.exitEpoch then b.withdrawableEpoch
  else if t.slashed != 0 then b.withdrawableEpoch
  else saturatingAdd t.exitEpoch MIN_VALIDATOR_WITHDRAWABILITY_DELAY

/-- **The patches of one record**, in their order: the `Slashed` patch comes before `ExitEpoch`, so
an exit derives `withdrawable_epoch` by the target's slashed status, and
`WithdrawableEpochSlashed` comes after both. -/
theorem foldlM_recordPatches (index : UInt32) (b t : RawValidator) :
    (recordPatches index b t).foldlM patchValidator b = some (rebuild b t) := by
  have hslashed := slashed_rebuild b t
  rw [recordPatches_eq]
  simp only [List.foldlM_append, Option.bind_eq_bind]
  -- one field after the other becomes that of the rebuilt record
  let r₁ : RawValidator := { b with withdrawalCredentials := t.withdrawalCredentials }
  let r₂ : RawValidator := { r₁ with effectiveBalance := t.effectiveBalance }
  let r₃ : RawValidator := { r₂ with slashed := (rebuild b t).slashed }
  let r₄ : RawValidator := { r₃ with activationEligibilityEpoch := t.activationEligibilityEpoch }
  let r₅ : RawValidator := { r₄ with activationEpoch := t.activationEpoch }
  let r₆ : RawValidator := { r₅ with
    exitEpoch := t.exitEpoch, withdrawableEpoch := exitWithdrawable b t }
  rw [foldlM_optional r₁ (fun _ => patch_withdrawalCredentials b index _)
    (fun h => by simp only [r₁, ← not_not.mp h]), Option.bind_some]
  rw [foldlM_optional r₂ (fun _ => patch_effectiveBalance r₁ index _)
    (fun h => by simp only [r₂, ← not_not.mp h]; rfl), Option.bind_some]
  rw [foldlM_optional r₃
    (fun h => by
      rw [patch_slashed]
      simp only [r₃, rebuild, if_neg h])
    (fun h => by
      simp only [r₃, rebuild, if_pos (not_not.mp h)]
      rfl), Option.bind_some]
  rw [foldlM_optional r₄ (fun _ => patch_activationEligibilityEpoch r₃ index _)
    (fun h => by simp only [r₄, ← not_not.mp h]; rfl), Option.bind_some]
  rw [foldlM_optional r₅ (fun _ => patch_activationEpoch r₄ index _)
    (fun h => by simp only [r₅, ← not_not.mp h]; rfl), Option.bind_some]
  rw [foldlM_optional r₆
    (fun h => by
      rw [patch_exitEpoch]
      have hs : (r₅.slashed != 0) = (t.slashed != 0) := hslashed
      simp only [r₆, exitWithdrawable, if_neg h, hs]
      rfl)
    (fun h => by
      simp only [r₆, exitWithdrawable, ← not_not.mp h]
      rfl), Option.bind_some]
  refine foldlM_optional (rebuild b t) (fun h => ?_) (fun h => ?_)
  · have hlast : t.withdrawableEpoch = (rebuild b t).withdrawableEpoch := by
      simp only [rebuild, h.1, if_true]
    rw [patch_withdrawableEpochSlashed]
    exact congrArg some (RawValidator.ext rfl rfl rfl rfl rfl rfl rfl hlast)
  · have hlast : (rebuild b t).withdrawableEpoch = r₆.withdrawableEpoch := by
      simp only [rebuild, r₆, exitWithdrawable]
      cases hs : t.slashed != 0
      · rfl
      · have hsame : b.withdrawableEpoch = t.withdrawableEpoch := by
          by_contra hne
          exact h ⟨hs, hne⟩
        simp [hsame]
    exact RawValidator.ext rfl rfl rfl rfl rfl rfl rfl hlast.symm

/-! ## Whole registries -/

/-- Patches that all name one record of a list act on that record alone. -/
theorem foldlM_applyPatch_record {V : Type} [ValidatorMut V] [FromSsz V] (pre suf : List V) :
    ∀ {patches : List ValidatorPatch} {v v' : V}, (∀ p ∈ patches, p.index.toNat = pre.length) →
    patches.foldlM patchValidator v = some v' →
    patches.foldlM applyPatch (pre ++ v :: suf) = .ok (pre ++ v' :: suf) := by
  intro patches
  induction patches with
  | nil =>
    intro v v' _ h
    cases h
    rfl
  | cons p patches ih =>
    intro v v' hidx h
    rw [List.foldlM_cons, Option.bind_eq_bind, Option.bind_eq_some_iff] at h
    obtain ⟨v₁, h₁, h₂⟩ := h
    have hp := hidx p List.mem_cons_self
    have hget : (pre ++ v :: suf)[p.index.toNat]? = some v := by rw [hp]; simp
    have hback : ValidatorMutTarget.writeBack (pre ++ v :: suf) p.index.toNat v₁ =
        pre ++ v₁ :: suf := by
      show (pre ++ v :: suf).set p.index.toNat v₁ = _
      rw [hp]
      simp
    have hstep : applyPatch (pre ++ v :: suf) p = .ok (pre ++ v₁ :: suf) := by
      rw [applyPatch_of_getMut hget h₁, hback]
    rw [List.foldlM_cons, hstep, ok_bind]
    exact ih (fun q hq => hidx q (List.mem_cons_of_mem _ hq)) h₂

/-- **The loop over the common records**: record by record the base becomes the rebuilt registry,
and what lies behind the common records is left alone. -/
theorem foldlM_patchesFrom (suf : List RawValidator) : ∀ (pairs : List (RawValidator × RawValidator))
    (pre : List RawValidator), pre.length + pairs.length ≤ 2 ^ 32 →
    (patchesFrom pre.length pairs).foldlM applyPatch (pre ++ (pairs.map Prod.fst ++ suf)) =
      .ok (pre ++ (pairs.map (fun p => rebuild p.1 p.2) ++ suf)) := by
  intro pairs
  induction pairs with
  | nil =>
    intro pre _
    rfl
  | cons p pairs ih =>
    intro pre hmax
    obtain ⟨b, t⟩ := p
    rw [List.length_cons] at hmax
    have hidx : ∀ p ∈ recordPatches (UInt32.ofNat pre.length) b t, p.index.toNat = pre.length := by
      intro p hp
      rw [(mem_recordPatches.1 hp).1]
      exact UInt32.toNat_ofNat_of_lt' (show _ < 2 ^ 32 by omega)
    have hrecord := foldlM_applyPatch_record pre (pairs.map Prod.fst ++ suf) hidx
      (foldlM_recordPatches (UInt32.ofNat pre.length) b t)
    have ih := ih (pre ++ [rebuild b t]) (by simp; omega)
    rw [List.length_append, List.length_singleton] at ih
    rw [patchesFrom, List.foldlM_append, List.map_cons, List.cons_append, hrecord, ok_bind]
    simpa using ih

theorem foldl_pushFromSsz : ∀ (l : List RawValidator) (cs : List ByteValidator),
    cs.foldl ValidatorMutTarget.pushFromSsz l = l ++ cs.map decode
  | l, [] => by simp
  | l, c :: cs => by
    have hstep : ValidatorMutTarget.pushFromSsz l c = l ++ [decode c] := rfl
    rw [List.foldl_cons, hstep, foldl_pushFromSsz]
    simp

/-- **What a whole delta makes of a registry.** -/
theorem applyValidatorsIter_diffValidatorsImpl (b : Build) {base target : List RawValidator}
    (hmax : min base.length target.length ≤ 2 ^ 32) :
    applyValidatorsIter b base (diffValidatorsImpl base target) =
      .ok ((base.zip target).map (fun p => rebuild p.1 p.2) ++ base.drop target.length ++
        target.drop base.length) := by
  have hzip : (base.zip target).length ≤ 2 ^ 32 := by rwa [List.length_zip]
  have hrun := foldlM_patchesFrom (base.drop target.length) (base.zip target) [] (by simpa using hzip)
  rw [List.nil_append, map_fst_zip_append_drop, List.nil_append, List.length_nil] at hrun
  -- the appended bytes are the encoded records behind the common ones
  have hssz : ∀ l : List RawValidator, l.flatMap ValidatorSnapshot.toSszBytes = encRaw l := by
    intro l
    induction l with
    | nil => rfl
    | cons r l ih => rw [List.flatMap_cons, ih]; rfl
  have hdrop : target.drop (min base.length target.length) = target.drop base.length := by
    rcases Nat.le_total base.length target.length with hle | hle
    · rw [Nat.min_eq_left hle]
    · rw [Nat.min_eq_right hle, List.drop_length, List.drop_eq_nil_of_le hle]
  have hlen : (encRaw (target.drop base.length)).length % VALIDATOR_SSZ_SIZE = 0 := by
    rw [encRaw, length_join, Nat.mul_mod_left]
  simp only [applyValidatorsIter, diffValidatorsImpl, hrun, ok_bind, hssz, hdrop, hlen]
  rw [encRaw, chunksExact_join (by decide), foldl_pushFromSsz, List.map_map,
    decode_comp_encode, List.map_id]
  simp

/-! ## Exact reconstruction -/

/-- What a record must satisfy to be rebuilt: the public key is kept; the `slashed` byte is kept
or becomes 0 or 1; and an unslashed record's `withdrawable_epoch` is kept, or follows from a new
`exit_epoch`. -/
structure Rebuilds (b t : RawValidator) : Prop where
  pubkey : b.pubkey = t.pubkey
  sameStatus : (b.slashed != 0) = (t.slashed != 0) → b.slashed = t.slashed
  newStatus : (b.slashed != 0) ≠ (t.slashed != 0) → t.slashed = 0 ∨ t.slashed = 1
  withdrawable : (t.slashed != 0) = false → t.withdrawableEpoch =
    if t.exitEpoch = b.exitEpoch then b.withdrawableEpoch
    else saturatingAdd t.exitEpoch MIN_VALIDATOR_WITHDRAWABILITY_DELAY

theorem rebuild_eq_iff (b t : RawValidator) : rebuild b t = t ↔ Rebuilds b t := by
  have hbyte : (t.slashed != 0).toUInt8 = t.slashed ↔ t.slashed = 0 ∨ t.slashed = 1 := by
    constructor
    · intro h
      rw [← h]
      cases t.slashed != 0
      · exact Or.inl rfl
      · exact Or.inr rfl
    · rintro (h | h) <;> rw [h] <;> rfl
  constructor
  · intro h
    rw [RawValidator.ext_iff] at h
    obtain ⟨hp, -, -, hs, -, -, -, hw⟩ := h
    refine ⟨hp, fun hst => ?_, fun hst => ?_, fun hts => ?_⟩
    · simpa [rebuild, hst] using hs
    · rw [← hbyte]
      simpa only [rebuild, if_neg hst] using hs
    · simp only [rebuild, hts, Bool.false_eq_true, if_false] at hw
      rw [← hw]
      simp only [eq_comm]
  · rintro ⟨hp, hsame, hnew, hw⟩
    refine RawValidator.ext hp rfl rfl ?_ rfl rfl rfl ?_
    · by_cases hst : (b.slashed != 0) = (t.slashed != 0)
      · simpa [rebuild, hst] using hsame hst
      · simpa only [rebuild, if_neg hst] using hbyte.2 (hnew hst)
    · cases hts : t.slashed != 0
      · simp only [rebuild, hts, Bool.false_eq_true, if_false]
        rw [hw hts]
        simp only [eq_comm]
      · simp only [rebuild, hts, if_true]

theorem map_rebuild_eq_iff (base target : List RawValidator) :
    (base.zip target).map (fun p => rebuild p.1 p.2) ++ base.drop target.length ++
        target.drop base.length = target ↔
      base.length ≤ target.length ∧ ∀ p ∈ base.zip target, Rebuilds p.1 p.2 := by
  constructor
  · intro h
    have hlen := congrArg List.length h
    simp only [List.length_append, List.length_map, List.length_zip, List.length_drop] at hlen
    have hle : base.length ≤ target.length := by omega
    refine ⟨hle, fun p hp => ?_⟩
    rw [List.drop_eq_nil_of_le hle, List.append_nil] at h
    nth_rewrite 3 [← map_snd_zip_append_drop base target] at h
    rw [List.append_cancel_right_eq, List.map_inj_left] at h
    exact (rebuild_eq_iff p.1 p.2).1 (h p hp)
  · rintro ⟨hle, hall⟩
    have hmap : (base.zip target).map (fun p => rebuild p.1 p.2) =
        (base.zip target).map Prod.snd :=
      List.map_congr_left fun p hp => (rebuild_eq_iff p.1 p.2).2 (hall p hp)
    rw [List.drop_eq_nil_of_le hle, List.append_nil, hmap, map_snd_zip_append_drop]

/-- The records of a registry, as raw records. -/
def records (bytes : List UInt8) : List RawValidator :=
  (chunksExact VALIDATOR_SSZ_SIZE bytes).map decode

theorem encRaw_records {bytes : List UInt8} (h : VALIDATOR_SSZ_SIZE ∣ bytes.length) :
    encRaw (records bytes) = bytes := by
  rw [encRaw, records, List.map_map, encode_comp_decode, List.map_id,
    join_chunksExact (by decide) h]

theorem records_encRaw (rs : List RawValidator) : records (encRaw rs) = rs := by
  rw [records, encRaw, chunksExact_join (by decide), List.map_map, decode_comp_encode, List.map_id]

theorem encRaw_injective {rs ss : List RawValidator} (h : encRaw rs = encRaw ss) : rs = ss := by
  rw [← records_encRaw rs, h, records_encRaw]

/-- **A registry comes back** iff it does not shrink and every common record can be rebuilt. -/
theorem applyValidators_eq_iff (b : Build) {base target : List UInt8}
    (hbase : VALIDATOR_SSZ_SIZE ∣ base.length) (htarget : VALIDATOR_SSZ_SIZE ∣ target.length)
    (hmax : base.length / VALIDATOR_SSZ_SIZE < 2 ^ 32) :
    applyValidators b base (diffValidators base target) = .ok target ↔
      base.length ≤ target.length ∧ ∀ p ∈ (records base).zip (records target), Rebuilds p.1 p.2 := by
  have hlen : ∀ bytes : List UInt8, (records bytes).length = bytes.length / 121 := by
    intro bytes
    rw [records, List.length_map, length_chunksExact]
  have hmin : min (records base).length (records target).length ≤ 2 ^ 32 := by
    rw [hlen]
    exact (Nat.min_le_left _ _).trans hmax.le
  have hrun := applyValidatorsIter_diffValidatorsImpl b hmin
  have hle : (records base).length ≤ (records target).length ↔ base.length ≤ target.length := by
    rw [hlen, hlen]
    obtain ⟨m, hm⟩ := hbase
    obtain ⟨n, hn⟩ := htarget
    have hm' : base.length = 121 * m := hm
    have hn' : target.length = 121 * n := hn
    omega
  conv_lhs => rw [← encRaw_records hbase, ← encRaw_records htarget]
  rw [diffValidators_encRaw, applyValidators_encode, hrun, mapState_ok, Except.ok.injEq]
  constructor
  · intro h
    obtain ⟨hlen', hall⟩ := (map_rebuild_eq_iff _ _).1 (encRaw_injective h)
    exact ⟨hle.1 hlen', hall⟩
  · rintro ⟨hlen', hall⟩
    rw [(map_rebuild_eq_iff _ _).2 ⟨hle.2 hlen', hall⟩]

/-- **Exactly when a byte registry comes back**: it does not shrink, and at every common index
the public key and the status byte are kept, or the status changes to a canonical byte, and an
unslashed record's `withdrawable_epoch` is what the base or the new `exit_epoch` gives. -/
theorem diffValidators_reconstructs_iff (b : Build) {base target : List UInt8}
    (hbase : VALIDATOR_SSZ_SIZE ∣ base.length) (htarget : VALIDATOR_SSZ_SIZE ∣ target.length)
    (hmax : base.length / VALIDATOR_SSZ_SIZE < 2 ^ 32) :
    applyValidators b base (diffValidators base target) = .ok target ↔
      base.length ≤ target.length ∧
      ∀ (i : Nat) (r t : RawValidator), (records base)[i]? = some r → (records target)[i]? = some t →
        r.pubkey = t.pubkey ∧
        ((r.slashed != 0) = (t.slashed != 0) → r.slashed = t.slashed) ∧
        ((r.slashed != 0) ≠ (t.slashed != 0) → t.slashed = 0 ∨ t.slashed = 1) ∧
        ((t.slashed != 0) = false → t.withdrawableEpoch =
          if t.exitEpoch = r.exitEpoch then r.withdrawableEpoch
          else saturatingAdd t.exitEpoch 256) := by
  rw [applyValidators_eq_iff b hbase htarget hmax]
  refine and_congr_right fun _ => ⟨fun h i r t hr ht => ?_, fun h p hp => ?_⟩
  · have hp : (r, t) ∈ (records base).zip (records target) :=
      List.mem_of_getElem? (List.getElem?_zip_eq_some.2 ⟨hr, ht⟩)
    obtain ⟨hpub, hsame, hnew, hw⟩ := h _ hp
    exact ⟨hpub, hsame, hnew, hw⟩
  · obtain ⟨i, hi⟩ := List.getElem?_of_mem hp
    obtain ⟨hr, ht⟩ := List.getElem?_zip_eq_some.1 hi
    obtain ⟨hpub, hsame, hnew, hw⟩ := h i p.1 p.2 hr ht
    exact ⟨hpub, hsame, hnew, hw⟩

/-- A validator exits at epoch 5 and another one joins. -/
theorem diffValidators_reconstructs_exit :
    let r : RawValidator := decode ⟨List.replicate 121 0, by decide⟩
    let t : RawValidator := { r with exitEpoch := 5, withdrawableEpoch := 261 }
    applyValidators Build.dev (encRaw [r]) (diffValidators (encRaw [r]) (encRaw [t, r])) =
      .ok (encRaw [t, r]) := by
  intro r t
  have hdvd : ∀ rs : List RawValidator, VALIDATOR_SSZ_SIZE ∣ (encRaw rs).length := by
    intro rs
    rw [encRaw, length_join]
    exact Nat.dvd_mul_left _ _
  have hmax : (encRaw [r]).length / VALIDATOR_SSZ_SIZE < 2 ^ 32 := by
    rw [encRaw, length_join]
    decide
  refine (diffValidators_reconstructs_iff Build.dev (hdvd _) (hdvd _) hmax).2 ⟨?_, ?_⟩
  · rw [encRaw, encRaw, length_join, length_join]
    decide
  · intro i x y hx hy
    rw [records_encRaw] at hx hy
    match i with
    | 0 =>
      obtain rfl := Option.some.inj hx
      obtain rfl := Option.some.inj hy
      exact ⟨rfl, fun _ => rfl, fun h => absurd rfl h, fun _ => by decide⟩
    | i + 1 => simp at hx

end EthStateDiff
