import EthStateDiff.Validators
/-!
# Validator registries, byte for byte

Three views of a registry, from the bottom up: the flat `Vec<u8>` of the byte API, the list of
its records with the `slashed` byte kept as it is (`RawValidator`), and the list of native records
(`Validator`). Each step up is a change of representation the encoder and the applier cannot see,
so a delta can be reasoned about on records.

* `encode_decode`, `decode_encode` — 121 bytes are the eight fields, and back.
* `targetHom_flat`, `push_flat` — a buffer of records is the list of its records.
* `mutHom_encode`, `mutHom_toRaw` — record by record, an encoded record is the raw one, and that
  one the native one.
-/

namespace EthStateDiff

open Rust ByteString

/-! ## The SSZ layout -/

/-- The eight fields of a record, the `slashed` byte as it stands in the buffer. -/
@[ext] structure RawValidator where
  pubkey : Bytes 48
  withdrawalCredentials : Bytes 32
  effectiveBalance : UInt64
  slashed : UInt8
  activationEligibilityEpoch : UInt64
  activationEpoch : UInt64
  exitEpoch : UInt64
  withdrawableEpoch : UInt64
deriving DecidableEq

namespace RawValidator

/-- The fields in the order of the canonical layout (validators.rs:75-86). -/
def parts (r : RawValidator) : List (List UInt8) :=
  [r.pubkey.val, r.withdrawalCredentials.val, (toLe r.effectiveBalance).val, [r.slashed],
    (toLe r.activationEligibilityEpoch).val, (toLe r.activationEpoch).val, (toLe r.exitEpoch).val,
    (toLe r.withdrawableEpoch).val]

/-- Where each field begins. -/
def offsets : List Nat := [0, 48, 80, 88, 89, 97, 105, 113]

theorem length_parts (r : RawValidator) : r.parts.map List.length = [48, 32, 8, 1, 8, 8, 8, 8] := by
  simp only [parts, List.map_cons, List.map_nil, r.pubkey.property,
    r.withdrawalCredentials.property, (toLe _).property, List.length_singleton]

def encode (r : RawValidator) : ByteValidator :=
  ⟨r.parts.flatten, by rw [List.length_flatten, length_parts]; rfl⟩

def decode (v : ByteValidator) : RawValidator where
  pubkey := v.field 0 48 ByteValidator.pubkey_le
  withdrawalCredentials := v.field 48 32 ByteValidator.withdrawalCredentials_le
  effectiveBalance := ofLe (v.field 80 8 ByteValidator.effectiveBalance_le)
  slashed := v.slashedByte
  activationEligibilityEpoch := ofLe (v.field 89 8 ByteValidator.activationEligibilityEpoch_le)
  activationEpoch := ofLe (v.field 97 8 ByteValidator.activationEpoch_le)
  exitEpoch := ofLe (v.field 105 8 ByteValidator.exitEpoch_le)
  withdrawableEpoch := ofLe (v.field 113 8 ByteValidator.withdrawableEpoch_le)

end RawValidator

namespace ByteValidator

theorem field_eq {v : ByteValidator} {pre post : List UInt8} {lo n : Nat} {x : Bytes n}
    (hv : v.val = pre ++ x.val ++ post) (hpre : pre.length = lo) (h : lo + n ≤ 121) :
    v.field lo n h = x := by
  apply Subtype.ext
  simp only [field, hv]
  exact slice_append_mid hpre (by rw [x.property])

theorem setField_eq {v w : ByteValidator} {pre post : List UInt8} {lo n : Nat} {x y : Bytes n}
    (hv : v.val = pre ++ x.val ++ post) (hw : w.val = pre ++ y.val ++ post)
    (hpre : pre.length = lo) (h : lo + n ≤ 121) : v.setField lo y h = w := by
  apply Subtype.ext
  simp only [setField, hv, hw]
  exact splice_append_mid hpre (by rw [x.property, y.property])

theorem slashedByte_eq {v : ByteValidator} {pre post : List UInt8} {x : UInt8}
    (hv : v.val = pre ++ [x] ++ post) (hpre : pre.length = 88) : v.slashedByte = x := by
  have hget : v.val[88]? = some x := by
    rw [hv, List.append_assoc, List.getElem?_append_right (by omega), hpre]
    rfl
  have hlen : v.val.length = 121 := v.property
  rw [List.getElem?_eq_getElem (by omega)] at hget
  exact Option.some.inj hget

end ByteValidator

namespace RawValidator

open ByteValidator

variable (r : RawValidator)

theorem flatten_split {α : Type} : ∀ {ls : List (List α)} {k : Nat} {x : List α}, ls[k]? = some x →
    ls.flatten = (ls.take k).flatten ++ x ++ (ls.drop (k + 1)).flatten
  | [], _, _, h => by simp at h
  | l :: ls, 0, x, h => by
    obtain rfl : l = x := by simpa using h
    simp
  | l :: ls, k + 1, x, h => by
    have hx : ls[k]? = some x := by simpa using h
    rw [List.flatten_cons, flatten_split hx]
    simp

theorem length_before {k off : Nat} (hoff : offsets[k]? = some off) :
    (r.parts.take k).flatten.length = off := by
  rw [List.length_flatten, List.map_take, length_parts]
  match k, hoff with
  | 0, h | 1, h | 2, h | 3, h | 4, h | 5, h | 6, h | 7, h => exact Option.some.inj h

/-- Reading field `k` of an encoded record. -/
theorem field_encode (k : Nat) {off n : Nat} (x : Bytes n) (hx : r.parts[k]? = some x.val)
    (hoff : offsets[k]? = some off) (h : off + n ≤ 121) : (encode r).field off n h = x :=
  field_eq (flatten_split hx) (length_before r hoff) h

/-- Overwriting field `k` of an encoded record. -/
theorem setField_encode {r : RawValidator} (r' : RawValidator) (k : Nat) {off n : Nat} (x y : Bytes n)
    (hx : r.parts[k]? = some x.val) (hy : r'.parts[k]? = some y.val)
    (hbefore : r'.parts.take k = r.parts.take k)
    (hafter : r'.parts.drop (k + 1) = r.parts.drop (k + 1)) (hoff : offsets[k]? = some off)
    (h : off + n ≤ 121) : (encode r).setField off y h = encode r' :=
  setField_eq (flatten_split hx)
    (by
      rw [← hbefore, ← hafter]
      exact flatten_split hy)
    (length_before r hoff) h

theorem decode_encode : decode (encode r) = r := by
  have hword : ∀ (k : Nat) {off : Nat} (x : UInt64), r.parts[k]? = some (toLe x).val →
      offsets[k]? = some off → ∀ h, ofLe ((encode r).field off 8 h) = x := by
    intro k off x hx hoff h
    rw [field_encode r k (toLe x) hx hoff, ofLe_toLe]
  apply RawValidator.ext
  · exact field_encode r 0 r.pubkey rfl rfl (by decide)
  · exact field_encode r 1 r.withdrawalCredentials rfl rfl (by decide)
  · exact hword 2 r.effectiveBalance rfl rfl _
  · have hx : r.parts[3]? = some [r.slashed] := rfl
    exact slashedByte_eq (flatten_split hx) (length_before r rfl)
  · exact hword 4 r.activationEligibilityEpoch rfl rfl _
  · exact hword 5 r.activationEpoch rfl rfl _
  · exact hword 6 r.exitEpoch rfl rfl _
  · exact hword 7 r.withdrawableEpoch rfl rfl _

/-- The eight slices of a record are the record. -/
theorem encode_decode (v : ByteValidator) : encode (decode v) = v := by
  have hlen : v.val.length = 121 := v.property
  have hslashed : [v.slashedByte] = slice v.val 88 89 := by
    rw [slice, List.drop_eq_getElem_cons (by omega)]
    rfl
  apply Subtype.ext
  show (decode v).parts.flatten = v.val
  have hparts : (decode v).parts = [slice v.val 0 48, slice v.val 48 80, slice v.val 80 88,
      slice v.val 88 89, slice v.val 89 97, slice v.val 97 105, slice v.val 105 113,
      slice v.val 113 121] := by
    simp only [parts, decode, toLe_ofLe, hslashed]
    rfl
  rw [hparts]
  simp only [List.flatten_cons, List.flatten_nil, List.append_nil]
  rw [slice_append_slice _ (by decide) (by decide), slice_append_slice _ (by decide) (by decide),
    slice_append_slice _ (by decide) (by decide), slice_append_slice _ (by decide) (by decide),
    slice_append_slice _ (by decide) (by decide), slice_append_slice _ (by decide) (by decide),
    slice_append_slice _ (by decide) (by decide), ← hlen, slice_zero_length]

theorem decode_comp_encode : decode ∘ encode = id := funext decode_encode
theorem encode_comp_decode : encode ∘ decode = id := funext encode_decode

end RawValidator

instance : ValidatorSnapshot RawValidator where
  withdrawalCredentials r := r.withdrawalCredentials
  effectiveBalance r := r.effectiveBalance
  isSlashed r := r.slashed != 0
  activationEligibilityEpoch r := r.activationEligibilityEpoch
  activationEpoch r := r.activationEpoch
  exitEpoch r := r.exitEpoch
  withdrawableEpoch r := r.withdrawableEpoch
  toSszBytes r := r.encode.val

instance : ValidatorMut RawValidator where
  isSlashed r := r.slashed != 0
  setWithdrawalCredentials r x := { r with withdrawalCredentials := x }
  setEffectiveBalance r x := { r with effectiveBalance := x }
  setSlashed r x := { r with slashed := x.toUInt8 }
  setActivationEligibilityEpoch r x := { r with activationEligibilityEpoch := x }
  setActivationEpoch r x := { r with activationEpoch := x }
  setExitEpoch r x := { r with exitEpoch := x }
  setWithdrawableEpoch r x := { r with withdrawableEpoch := x }

/-! ## Native records -/

/-- A native record: the eight fields, with a `bool` for `slashed`. -/
@[ext] structure Validator where
  pubkey : Bytes 48
  withdrawalCredentials : Bytes 32
  effectiveBalance : UInt64
  slashed : Bool
  activationEligibilityEpoch : UInt64
  activationEpoch : UInt64
  exitEpoch : UInt64
  withdrawableEpoch : UInt64
deriving DecidableEq

namespace Validator

/-- `slashed` as the byte 0 or 1. -/
def toRaw (v : Validator) : RawValidator where
  pubkey := v.pubkey
  withdrawalCredentials := v.withdrawalCredentials
  effectiveBalance := v.effectiveBalance
  slashed := v.slashed.toUInt8
  activationEligibilityEpoch := v.activationEligibilityEpoch
  activationEpoch := v.activationEpoch
  exitEpoch := v.exitEpoch
  withdrawableEpoch := v.withdrawableEpoch

/-- SSZ decoding of a canonical record. -/
def ofRaw (r : RawValidator) : Validator where
  pubkey := r.pubkey
  withdrawalCredentials := r.withdrawalCredentials
  effectiveBalance := r.effectiveBalance
  slashed := r.slashed != 0
  activationEligibilityEpoch := r.activationEligibilityEpoch
  activationEpoch := r.activationEpoch
  exitEpoch := r.exitEpoch
  withdrawableEpoch := r.withdrawableEpoch

def toSsz (v : Validator) : ByteValidator := v.toRaw.encode

/-- The canonical layout of a native registry. -/
def enc (vs : List Validator) : List UInt8 := join (vs.map toSsz)

theorem toUInt8_ne_zero (x : Bool) : (x.toUInt8 != 0) = x := by cases x <;> rfl

theorem toRaw_ofRaw {r : RawValidator} (h : r.slashed = 0 ∨ r.slashed = 1) :
    (ofRaw r).toRaw = r := by
  have hbyte : (r.slashed != 0).toUInt8 = r.slashed := by
    rcases h with h | h <;> rw [h] <;> rfl
  apply RawValidator.ext <;> first | rfl | exact hbyte

end Validator

instance : ValidatorSnapshot Validator where
  withdrawalCredentials v := v.withdrawalCredentials
  effectiveBalance v := v.effectiveBalance
  isSlashed v := v.slashed
  activationEligibilityEpoch v := v.activationEligibilityEpoch
  activationEpoch v := v.activationEpoch
  exitEpoch v := v.exitEpoch
  withdrawableEpoch v := v.withdrawableEpoch
  toSszBytes v := v.toSsz.val

instance : ValidatorMut Validator where
  isSlashed v := v.slashed
  setWithdrawalCredentials v x := { v with withdrawalCredentials := x }
  setEffectiveBalance v x := { v with effectiveBalance := x }
  setSlashed v x := { v with slashed := x }
  setActivationEligibilityEpoch v x := { v with activationEligibilityEpoch := x }
  setActivationEpoch v x := { v with activationEpoch := x }
  setExitEpoch v x := { v with exitEpoch := x }
  setWithdrawableEpoch v x := { v with withdrawableEpoch := x }

/-! ## Collections of records -/

/-- How a record type is built from complete SSZ bytes. -/
class FromSsz (V : Type) where
  fromSsz : ByteValidator → V

instance : FromSsz ByteValidator := ⟨id⟩
instance : FromSsz RawValidator := ⟨RawValidator.decode⟩
instance : FromSsz Validator := ⟨fun v => Validator.ofRaw (RawValidator.decode v)⟩

/-- A list of records as a validator collection. -/
instance {V : Type} [ValidatorMut V] [FromSsz V] : ValidatorMutTarget (List V) V where
  getMut l i := l[i]?
  writeBack l i v := l.set i v
  pushFromSsz l c := l ++ [FromSsz.fromSsz c]

instance {V : Type} [ValidatorMut V] [FromSsz V] : LawfulValidatorMutTarget (List V) where
  getMut_writeBack l i j v₀ v _ := by
    show ((l.set i v)[j]?).isSome = (l[j]?).isSome
    rw [Bool.eq_iff_iff, Option.isSome_iff_ne_none, Option.isSome_iff_ne_none, ne_eq, ne_eq,
      List.getElem?_eq_none_iff, List.getElem?_eq_none_iff, List.length_set]

/-- Lists are represented record by record. -/
theorem targetHom_map {V W : Type} [ValidatorMut V] [FromSsz V] [ValidatorMut W] [FromSsz W]
    {e : V → W} (he : MutHom e) : TargetHom (List.map e) e where
  record := he
  getMut _ _ := List.getElem?_map
  writeBack _ _ _ _ _ := List.map_set.symm

/-- The flat buffer of a list of records. -/
def flat (l : List ByteValidator) : ByteValidatorTarget := ⟨join l⟩

theorem getMut_flat (l : List ByteValidator) (i : UInt32) :
    (flat l).getMut i.toNat = l[i.toNat]? := by
  have hi := i.toNat_lt
  have hlen : (flat l).bytes.length = l.length * 121 := length_join l
  simp only [ByteValidatorTarget.getMut, VALIDATOR_SSZ_SIZE]
  rw [if_neg (by omega), if_neg (by omega)]
  by_cases h : i.toNat < l.length
  · rw [if_neg (by omega), List.getElem?_eq_getElem h, tryInto_eq_some]
    exact slice_join l _ h
  · rw [if_pos (by omega), List.getElem?_eq_none (by omega)]

theorem mutHom_id {V : Type} [ValidatorMut V] : MutHom (id : V → V) where
  isSlashed _ := rfl
  setWithdrawalCredentials _ _ := rfl
  setEffectiveBalance _ _ := rfl
  setSlashed _ _ := rfl
  setActivationEligibilityEpoch _ _ := rfl
  setActivationEpoch _ _ := rfl
  setExitEpoch _ _ := rfl
  setWithdrawableEpoch _ _ := rfl

/-- **The byte wrapper is the list of its records.** -/
theorem targetHom_flat : TargetHom flat (id : ByteValidator → ByteValidator) where
  record := mutHom_id
  getMut l i := by
    rw [Option.map_id]
    exact getMut_flat l i
  writeBack l i _ v h := by
    have hi : i.toNat < l.length := (List.getElem?_eq_some_iff.mp h).1
    exact congrArg ByteValidatorTarget.mk (splice_join l i.toNat hi v)

theorem push_flat (c : ByteValidator) (l : List ByteValidator) :
    ValidatorMutTarget.pushFromSsz (flat l) c = flat (ValidatorMutTarget.pushFromSsz l c) := by
  show (⟨join l ++ c.val⟩ : ByteValidatorTarget) = ⟨join (l ++ [c])⟩
  simp

/-! ## Records are represented by their bytes -/

open RawValidator

theorem slashedByte_encode (r : RawValidator) : r.encode.slashedByte = r.slashed := by
  have hx : r.parts[3]? = some [r.slashed] := rfl
  exact ByteValidator.slashedByte_eq (flatten_split hx) (length_before r rfl)

theorem snapshotHom_encode : SnapshotHom RawValidator.encode where
  withdrawalCredentials r := field_encode r 1 r.withdrawalCredentials rfl rfl (by decide)
  effectiveBalance r := congrArg RawValidator.effectiveBalance (decode_encode r)
  isSlashed r := congrArg (· != 0) (slashedByte_encode r)
  activationEligibilityEpoch r :=
    congrArg RawValidator.activationEligibilityEpoch (decode_encode r)
  activationEpoch r := congrArg RawValidator.activationEpoch (decode_encode r)
  exitEpoch r := congrArg RawValidator.exitEpoch (decode_encode r)
  withdrawableEpoch r := congrArg RawValidator.withdrawableEpoch (decode_encode r)
  toSszBytes _ := rfl

theorem mutHom_encode : MutHom RawValidator.encode where
  isSlashed r := congrArg (· != 0) (slashedByte_encode r)
  setWithdrawalCredentials r x := setField_encode { r with withdrawalCredentials := x } 1
    r.withdrawalCredentials x rfl rfl rfl rfl rfl (by decide)
  setEffectiveBalance r x := setField_encode { r with effectiveBalance := x } 2
    (toLe r.effectiveBalance) (toLe x) rfl rfl rfl rfl rfl (by decide)
  setSlashed r x := setField_encode { r with slashed := x.toUInt8 } 3
    (⟨[r.slashed], rfl⟩ : Bytes 1) ⟨[x.toUInt8], rfl⟩ rfl rfl rfl rfl rfl (by decide)
  setActivationEligibilityEpoch r x := setField_encode { r with activationEligibilityEpoch := x } 4
    (toLe r.activationEligibilityEpoch) (toLe x) rfl rfl rfl rfl rfl (by decide)
  setActivationEpoch r x := setField_encode { r with activationEpoch := x } 5
    (toLe r.activationEpoch) (toLe x) rfl rfl rfl rfl rfl (by decide)
  setExitEpoch r x := setField_encode { r with exitEpoch := x } 6
    (toLe r.exitEpoch) (toLe x) rfl rfl rfl rfl rfl (by decide)
  setWithdrawableEpoch r x := setField_encode { r with withdrawableEpoch := x } 7
    (toLe r.withdrawableEpoch) (toLe x) rfl rfl rfl rfl rfl (by decide)

theorem snapshotHom_toRaw : SnapshotHom Validator.toRaw where
  withdrawalCredentials _ := rfl
  effectiveBalance _ := rfl
  isSlashed v := Validator.toUInt8_ne_zero v.slashed
  activationEligibilityEpoch _ := rfl
  activationEpoch _ := rfl
  exitEpoch _ := rfl
  withdrawableEpoch _ := rfl
  toSszBytes _ := rfl

theorem mutHom_toRaw : MutHom Validator.toRaw where
  isSlashed v := Validator.toUInt8_ne_zero v.slashed
  setWithdrawalCredentials _ _ := rfl
  setEffectiveBalance _ _ := rfl
  setSlashed _ _ := rfl
  setActivationEligibilityEpoch _ _ := rfl
  setActivationEpoch _ _ := rfl
  setExitEpoch _ _ := rfl
  setWithdrawableEpoch _ _ := rfl

theorem push_encode (c : ByteValidator) (l : List RawValidator) :
    ValidatorMutTarget.pushFromSsz (l.map RawValidator.encode) c =
      (ValidatorMutTarget.pushFromSsz l c).map RawValidator.encode := by
  show l.map RawValidator.encode ++ [c] = (l ++ [decode c]).map RawValidator.encode
  rw [List.map_append, List.map_singleton, encode_decode]

theorem push_toRaw {c : ByteValidator} (hc : (decode c).slashed = 0 ∨ (decode c).slashed = 1)
    (l : List Validator) : ValidatorMutTarget.pushFromSsz (l.map Validator.toRaw) c =
      (ValidatorMutTarget.pushFromSsz l c).map Validator.toRaw := by
  show l.map Validator.toRaw ++ [decode c] = (l ++ [Validator.ofRaw (decode c)]).map Validator.toRaw
  rw [List.map_append, List.map_singleton, Validator.toRaw_ofRaw hc]

end EthStateDiff
