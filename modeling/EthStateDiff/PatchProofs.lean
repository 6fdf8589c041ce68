import EthStateDiff.Registry
/-!
# What a validator delta holds

The encoder tests seven fields of every common record (`Differs`) and stores the target's value of
each that differs (`fieldValue`), in the order of `fieldOrder`. A delta is known exactly once it is
known which patches it holds and in which order (`ExactPatches`).

* `unchanged_iff` — the test that skips a record is the conjunction of the seven others.
* `recordPatches_spec` — one record's patches are those of its differing fields.
* `diffValidatorsImpl_exact` — **the delta is exact**, over any two snapshots of a registry.
-/

namespace EthStateDiff

open Rust ByteString

/-- The fields a record is patched in, in the order the encoder tests them. -/
def fieldOrder : List ValidatorField :=
  [.withdrawalCredentials, .effectiveBalance, .slashed, .activationEligibilityEpoch,
    .activationEpoch, .exitEpoch, .withdrawableEpochSlashed]

/-- The place of a field in that order. -/
def ValidatorField.rank : ValidatorField → Nat
  | .withdrawalCredentials => 0
  | .effectiveBalance => 1
  | .slashed => 2
  | .activationEligibilityEpoch => 3
  | .activationEpoch => 4
  | .exitEpoch => 5
  | .withdrawableEpochSlashed => 6

/-- The bytes a patch of the field carries. -/
def ValidatorField.width : ValidatorField → Nat
  | .withdrawalCredentials => 32
  | .slashed => 1
  | _ => 8

theorem mem_fieldOrder (f : ValidatorField) : f ∈ fieldOrder := by
  cases f <;> simp [fieldOrder]

theorem fieldOrder_ordered : fieldOrder.Pairwise fun f g => f.rank < g.rank := by
  simp [fieldOrder, ValidatorField.rank]

section

open ValidatorSnapshot

variable {V₁ V₂ : Type} [ValidatorSnapshot V₁] [ValidatorSnapshot V₂]

/-- The field of `t` as a patch stores it. -/
def fieldValue (t : V₂) : ValidatorField → List UInt8
  | .withdrawalCredentials => (withdrawalCredentials t).val
  | .effectiveBalance => (toLe (effectiveBalance t)).val
  | .slashed => [(isSlashed t).toUInt8]
  | .activationEligibilityEpoch => (toLe (activationEligibilityEpoch t)).val
  | .activationEpoch => (toLe (activationEpoch t)).val
  | .exitEpoch => (toLe (exitEpoch t)).val
  | .withdrawableEpochSlashed => (toLe (withdrawableEpoch t)).val

theorem length_fieldValue (t : V₂) (f : ValidatorField) : (fieldValue t f).length = f.width := by
  cases f with
  | withdrawalCredentials => exact (withdrawalCredentials t).property
  | effectiveBalance => exact (toLe (effectiveBalance t)).property
  | slashed => rfl
  | activationEligibilityEpoch => exact (toLe (activationEligibilityEpoch t)).property
  | activationEpoch => exact (toLe (activationEpoch t)).property
  | exitEpoch => exact (toLe (exitEpoch t)).property
  | withdrawableEpochSlashed => exact (toLe (withdrawableEpoch t)).property

/-- The seven tests. The withdrawable epoch counts only where the target is slashed. -/
def Differs (b : V₁) (t : V₂) : ValidatorField → Prop
  | .withdrawalCredentials => withdrawalCredentials b ≠ withdrawalCredentials t
  | .effectiveBalance => effectiveBalance b ≠ effectiveBalance t
  | .slashed => isSlashed b ≠ isSlashed t
  | .activationEligibilityEpoch => activationEligibilityEpoch b ≠ activationEligibilityEpoch t
  | .activationEpoch => activationEpoch b ≠ activationEpoch t
  | .exitEpoch => exitEpoch b ≠ exitEpoch t
  | .withdrawableEpochSlashed => isSlashed t = true ∧ withdrawableEpoch b ≠ withdrawableEpoch t

instance (b : V₁) (t : V₂) : DecidablePred (Differs b t)
  | .withdrawalCredentials => inferInstanceAs (Decidable (_ ≠ _))
  | .effectiveBalance => inferInstanceAs (Decidable (_ ≠ _))
  | .slashed => inferInstanceAs (Decidable (_ ≠ _))
  | .activationEligibilityEpoch => inferInstanceAs (Decidable (_ ≠ _))
  | .activationEpoch => inferInstanceAs (Decidable (_ ≠ _))
  | .exitEpoch => inferInstanceAs (Decidable (_ ≠ _))
  | .withdrawableEpochSlashed => inferInstanceAs (Decidable (_ ∧ _))

/-- **The early `continue` misses nothing**: it is taken exactly when none of the tests fires. -/
theorem unchanged_iff {b : V₁} {t : V₂} : unchanged b t = true ↔ ∀ f, ¬Differs b t f := by
  simp only [unchanged, Bool.and_eq_true, beq_iff_eq, Bool.or_eq_true, Bool.not_eq_true']
  constructor
  · rintro ⟨⟨⟨⟨⟨⟨h₁, h₂⟩, h₃⟩, h₄⟩, h₅⟩, h₆⟩, h₇⟩ f hf
    cases f with
    | withdrawalCredentials => exact hf h₁
    | effectiveBalance => exact hf h₂
    | slashed => exact hf h₃
    | activationEligibilityEpoch => exact hf h₄
    | activationEpoch => exact hf h₅
    | exitEpoch => exact hf h₆
    | withdrawableEpochSlashed =>
      rcases h₇ with h | h
      · rw [hf.1] at h
        cases h
      · exact hf.2 h
  · intro h
    have hlast : isSlashed t = false ∨ withdrawableEpoch b = withdrawableEpoch t := by
      by_contra hnot
      simp only [not_or, Bool.not_eq_false] at hnot
      exact h .withdrawableEpochSlashed hnot
    exact ⟨⟨⟨⟨⟨⟨not_not.mp (h .withdrawalCredentials), not_not.mp (h .effectiveBalance)⟩,
      not_not.mp (h .slashed)⟩, not_not.mp (h .activationEligibilityEpoch)⟩,
      not_not.mp (h .activationEpoch)⟩, not_not.mp (h .exitEpoch)⟩, hlast⟩

theorem map_filter_cons {α β : Type} (p : α → Prop) [DecidablePred p] (g : α → β) (a : α)
    (l : List α) : ((a :: l).filter fun x => decide (p x)).map g =
      (if p a then [g a] else []) ++ (l.filter fun x => decide (p x)).map g := by
  by_cases h : p a <;> simp [h]

/-- **One record**: a patch for each field that differs, in field order. -/
theorem recordPatches_spec (index : UInt32) (b : V₁) (t : V₂) :
    recordPatches index b t =
      (fieldOrder.filter fun f => decide (Differs b t f)).map fun f =>
        ⟨index, f, fieldValue t f⟩ := by
  unfold recordPatches
  by_cases hun : unchanged b t = true
  · have hnone : (fieldOrder.filter fun f => decide (Differs b t f)) = [] := by
      rw [List.filter_eq_nil_iff]
      intro f _
      simpa using unchanged_iff.1 hun f
    rw [if_pos hun, hnone]
    rfl
  · rw [if_neg hun]
    simp only [fieldOrder, map_filter_cons, List.filter_nil, List.map_nil, List.append_nil,
      List.append_assoc]
    rfl

theorem mem_recordPatches {index : UInt32} {b : V₁} {t : V₂} {p : ValidatorPatch} :
    p ∈ recordPatches index b t ↔
      p.index = index ∧ Differs b t p.field ∧ p.value = fieldValue t p.field := by
  rw [recordPatches_spec, List.mem_map]
  constructor
  · rintro ⟨f, hf, rfl⟩
    rw [List.mem_filter] at hf
    exact ⟨rfl, of_decide_eq_true hf.2, rfl⟩
  · rintro ⟨hindex, hdiff, hvalue⟩
    refine ⟨p.field, List.mem_filter.2 ⟨mem_fieldOrder _, decide_eq_true hdiff⟩, ?_⟩
    rw [← hindex, ← hvalue]

/-! ## The order of the patches -/

/-- By record, and within a record by field. -/
def PatchBefore (p q : ValidatorPatch) : Prop :=
  p.index < q.index ∨ p.index = q.index ∧ p.field.rank < q.field.rank

theorem recordPatches_ordered (index : UInt32) (b : V₁) (t : V₂) :
    (recordPatches index b t).Pairwise PatchBefore := by
  rw [recordPatches_spec, List.pairwise_map]
  refine (fieldOrder_ordered.filter _).imp ?_
  intro f g hfg
  exact Or.inr ⟨rfl, hfg⟩

/-- The patches of the loop are those of its records. -/
theorem mem_patchesFrom {p : ValidatorPatch} : ∀ {pairs : List (V₁ × V₂)} {i : Nat},
    p ∈ patchesFrom i pairs ↔
      ∃ k b t, pairs[k]? = some (b, t) ∧ p ∈ recordPatches (UInt32.ofNat (i + k)) b t := by
  intro pairs
  induction pairs with
  | nil =>
    intro i
    simp [patchesFrom]
  | cons pair pairs ih =>
    intro i
    obtain ⟨b, t⟩ := pair
    rw [patchesFrom, List.mem_append, ih]
    constructor
    · rintro (h | ⟨k, b', t', hk, h⟩)
      · exact ⟨0, b, t, rfl, h⟩
      · refine ⟨k + 1, b', t', hk, ?_⟩
        rw [show i + (k + 1) = i + 1 + k by omega]
        exact h
    · rintro ⟨k, b', t', hk, h⟩
      cases k with
      | zero =>
        simp only [List.getElem?_cons_zero, Option.some.injEq, Prod.mk.injEq] at hk
        obtain ⟨rfl, rfl⟩ := hk
        exact Or.inl h
      | succ k =>
        refine Or.inr ⟨k, b', t', hk, ?_⟩
        rw [show i + 1 + k = i + (k + 1) by omega]
        exact h

theorem patchesFrom_ordered : ∀ (pairs : List (V₁ × V₂)) (i : Nat), i + pairs.length ≤ 2 ^ 32 →
    (patchesFrom i pairs).Pairwise PatchBefore := by
  intro pairs
  induction pairs with
  | nil =>
    intro i _
    exact List.Pairwise.nil
  | cons pair pairs ih =>
    intro i hmax
    obtain ⟨b, t⟩ := pair
    rw [List.length_cons] at hmax
    refine List.pairwise_append.2 ⟨recordPatches_ordered _ b t, ih (i + 1) (by omega), ?_⟩
    intro p hp q hq
    -- a later record has the larger index
    obtain ⟨k, b', t', hk, hq⟩ := mem_patchesFrom.1 hq
    obtain ⟨hlt, -⟩ := List.getElem?_eq_some_iff.mp hk
    left
    rw [(mem_recordPatches.1 hp).1, (mem_recordPatches.1 hq).1, UInt32.lt_iff_toNat_lt,
      UInt32.toNat_ofNat_of_lt' (show i < 2 ^ 32 by omega),
      UInt32.toNat_ofNat_of_lt' (show i + 1 + k < 2 ^ 32 by omega)]
    omega

/-! ## The delta -/

/-- What the patches of two registries are: one for each field of a common record that differs,
holding the target's value at the field's width, and nothing else; strictly ordered by record and
field, so none of them twice. -/
structure ExactPatches (base : List V₁) (target : List V₂) (patches : List ValidatorPatch) :
    Prop where
  complete : ∀ i b t, base[i]? = some b → target[i]? = some t → ∀ f, Differs b t f →
    ∃! p, p ∈ patches ∧ p.index.toNat = i ∧ p.field = f
  sound : ∀ p ∈ patches, ∃ b t, base[p.index.toNat]? = some b ∧ target[p.index.toNat]? = some t ∧
    Differs b t p.field ∧ p.value = fieldValue t p.field ∧ p.value.length = p.field.width
  ordered : patches.Pairwise PatchBefore

/-- **The validator delta is exact**, its appended bytes are the target's other records, and a
record is skipped only if none of the seven tests would have emitted a patch. -/
theorem diffValidatorsImpl_exact {base : List V₁} {target : List V₂}
    (hmax : min base.length target.length ≤ 2 ^ 32) :
    ExactPatches base target (diffValidatorsImpl base target).patches ∧
      (diffValidatorsImpl base target).appendedValidators =
        ((target.drop (min base.length target.length)).map toSszBytes).flatten ∧
      ∀ (b : V₁) (t : V₂), unchanged b t = true → ∀ f, ¬Differs b t f := by
  have hmem : ∀ p, p ∈ patchesFrom 0 (base.zip target) ↔ ∃ b t, base[p.index.toNat]? = some b ∧
      target[p.index.toNat]? = some t ∧ Differs b t p.field ∧ p.value = fieldValue t p.field := by
    intro p
    rw [mem_patchesFrom]
    constructor
    · rintro ⟨k, b, t, hk, hp⟩
      obtain ⟨hlt, -⟩ := List.getElem?_eq_some_iff.mp hk
      rw [List.length_zip] at hlt
      obtain ⟨hindex, hdiff, hvalue⟩ := mem_recordPatches.1 hp
      have hnat : p.index.toNat = k := by
        rw [hindex, Nat.zero_add]
        exact UInt32.toNat_ofNat_of_lt' (show k < 2 ^ 32 by omega)
      obtain ⟨hb, ht⟩ := List.getElem?_zip_eq_some.1 hk
      rw [hnat]
      exact ⟨b, t, hb, ht, hdiff, hvalue⟩
    · rintro ⟨b, t, hb, ht, hdiff, hvalue⟩
      refine ⟨p.index.toNat, b, t, List.getElem?_zip_eq_some.2 ⟨hb, ht⟩, ?_⟩
      rw [Nat.zero_add, UInt32.ofNat_toNat]
      exact mem_recordPatches.2 ⟨rfl, hdiff, hvalue⟩
  refine ⟨⟨?_, ?_, ?_⟩, ?_, fun b t => unchanged_iff.1⟩
  · rintro i b t hb ht f hdiff
    have hlt : i < min base.length target.length := by
      have h₁ := (List.getElem?_eq_some_iff.mp hb).1
      have h₂ := (List.getElem?_eq_some_iff.mp ht).1
      omega
    have hnat : (UInt32.ofNat i).toNat = i :=
      UInt32.toNat_ofNat_of_lt' (show i < 2 ^ 32 by omega)
    refine ⟨⟨UInt32.ofNat i, f, fieldValue t f⟩, ⟨?_, hnat, rfl⟩, ?_⟩
    · exact (hmem _).2 ⟨b, t, by rw [hnat]; exact hb, by rw [hnat]; exact ht, hdiff, rfl⟩
    · rintro ⟨index, field, value⟩ ⟨hp, hindex, hfield⟩
      obtain ⟨b', t', -, ht', -, hvalue⟩ := (hmem _).1 hp
      simp only at hindex hfield ht' hvalue
      rw [hindex, ht, Option.some.injEq] at ht'
      rw [hvalue, hfield, ht', ← hindex, UInt32.ofNat_toNat]
  · rintro p hp
    obtain ⟨b, t, hb, ht, hdiff, hvalue⟩ := (hmem p).1 hp
    exact ⟨b, t, hb, ht, hdiff, hvalue, by rw [hvalue, length_fieldValue]⟩
  · exact patchesFrom_ordered _ 0 (by rw [List.length_zip]; omega)
  · rw [← List.flatMap_def]
    rfl

/-- A validator is slashed and given a later withdrawable epoch: two patches. -/
theorem diffValidatorsImpl_exact_slashed :
    let v : Validator := Validator.ofRaw (RawValidator.decode ⟨List.replicate 121 0, by decide⟩)
    let w : Validator := { v with slashed := true, withdrawableEpoch := 8 }
    (diffValidatorsImpl [v] [w]).patches =
        [⟨0, .slashed, [1]⟩, ⟨0, .withdrawableEpochSlashed, (toLe 8).val⟩] ∧
      ExactPatches [v] [w] (diffValidatorsImpl [v] [w]).patches := by
  intro v w
  have hmax : min [v].length [w].length ≤ 2 ^ 32 := by simp
  exact ⟨by rfl, (diffValidatorsImpl_exact hmax).1⟩

end

end EthStateDiff
