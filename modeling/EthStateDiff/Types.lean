import EthStateDiff.Lib.Bytes
/-!
# Delta representations (`types.rs`)

| here | there |
| --- | --- |
| `ValidatorsDiff`, `ValidatorPatch`, `ValidatorField` | types.rs:98-184 |
| `BalancesDiff` | types.rs:214-232 |
| `ParticipationDiff`, `InactivityDiff` | types.rs:240-292 |
| `RootsDiff`, `SlashingsDiff`, `RandaoDiff` | types.rs:302-340 |
| `Eth1DataVotesDiff`, `QueueDiff`, `SyncCommitteeDiff`, `HistoricalLogDiff`, `AttestationsDiff` | types.rs:347-436 |
| `BitTagVec` | types.rs:479-569 |

An archived delta has the fields of the delta. `rkyv` is not part of the repository: what it makes
of them is the parameter `Rkyv`.

* `tags_new`, `tags_set` — `BitTagVec` as the list of its tags.
* `ParticipationDiff.archive`, `BalancesDiff.archive` — the deltas that hold a `usize`.
-/

namespace EthStateDiff

open ByteString

def SLOTS_PER_EPOCH : Nat := 32
abbrev VALIDATOR_SSZ_SIZE : Nat := 121
def HISTORICAL_ROOTS_SSZ_SIZE : Nat := 32
def HISTORICAL_SUMMARIES_SSZ_SIZE : Nat := 64
def MIN_VALIDATOR_WITHDRAWABILITY_DELAY : UInt64 := 256

inductive ValidatorField where
  | withdrawalCredentials
  | effectiveBalance
  | slashed
  | activationEligibilityEpoch
  | activationEpoch
  | exitEpoch
  | withdrawableEpochSlashed
deriving DecidableEq, Repr

structure ValidatorPatch where
  index : UInt32
  field : ValidatorField
  value : List UInt8
deriving DecidableEq, Repr

structure ValidatorsDiff where
  patches : List ValidatorPatch
  appendedValidators : List UInt8
deriving DecidableEq, Repr

/-- Packed two-bit tags, four a byte. -/
structure BitTagVec where
  data : List UInt8
  len : Nat
deriving DecidableEq, Repr

structure BalancesDiff where
  tags : BitTagVec
  mode : Int64
  varintPayload : List UInt8
  targetValues : List UInt64
  appendedBalances : List UInt64
deriving DecidableEq

inductive ParticipationDiff where
  | allZeros (len : Nat)
  | sparse (sparseIndices newValues extension : List UInt8)
deriving DecidableEq, Repr

inductive InactivityDiff where
  | allZeros (len : UInt32)
  | sparse (indices : List UInt32) (newValues extensions : List UInt64)
deriving DecidableEq, Repr

structure RootsDiff where
  roots : List (Bytes 32)
deriving DecidableEq, Repr

structure SlashingsDiff where
  updates : List (UInt16 × UInt64)
deriving DecidableEq, Repr

structure RandaoDiff where
  mixes : List (Bytes 32)
deriving DecidableEq, Repr

inductive Eth1DataVotesDiff where
  | append (votes : List UInt8)
  | resetAndAppend (votes : List UInt8)
deriving DecidableEq, Repr

inductive QueueDiff where
  | fifo (consumedCount : UInt32) (appendedItems : List UInt8)
  | fullReplacement (queue : List UInt8)
deriving DecidableEq, Repr

inductive SyncCommitteeDiff where
  | unchanged
  | fullReplacement (committee : List UInt8)
deriving DecidableEq, Repr

inductive HistoricalLogDiff where
  | unchanged
  | append (items : List UInt8)
deriving DecidableEq, Repr

inductive AttestationsDiff where
  | unchanged
  | append (attestations : List UInt8)
  | fullReplacement (attestations : List UInt8)
deriving DecidableEq, Repr

/-! ## Archives -/

/-- What `rkyv` makes of the numbers of a delta. Integers of a fixed width, and arrays and vectors
that an archive has room for, come back as they went in; a `usize` is stored in four bytes, and one
that fits them comes back as well. -/
structure Rkyv where
  archiveUsize : Nat → Nat
  archiveUsize_lt (n : Nat) : archiveUsize n < 2 ^ 32
  archiveUsize_of_lt {n : Nat} : n < 2 ^ 32 → archiveUsize n = n

theorem Rkyv.archiveUsize_le (r : Rkyv) (n : Nat) : r.archiveUsize n ≤ n := by
  by_cases hn : n < 2 ^ 32
  · exact (r.archiveUsize_of_lt hn).le
  · exact (r.archiveUsize_lt n).le.trans (Nat.not_lt.mp hn)

/-- The cast to `u32`, which keeps the lower half. -/
def Rkyv.truncating : Rkyv where
  archiveUsize n := n % 2 ^ 32
  archiveUsize_lt n := Nat.mod_lt n (Nat.two_pow_pos 32)
  archiveUsize_of_lt := Nat.mod_eq_of_lt

def BitTagVec.archive (r : Rkyv) (v : BitTagVec) : BitTagVec :=
  { v with len := r.archiveUsize v.len }

def BalancesDiff.archive (r : Rkyv) (d : BalancesDiff) : BalancesDiff :=
  { d with tags := d.tags.archive r }

def ParticipationDiff.archive (r : Rkyv) : ParticipationDiff → ParticipationDiff
  | .allZeros len => .allZeros (r.archiveUsize len)
  | .sparse sparseIndices newValues extension => .sparse sparseIndices newValues extension

/-- Fewer than `2^32` tags are kept, whatever they are. -/
theorem BalancesDiff.archive_of_lt (r : Rkyv) {d : BalancesDiff} (h : d.tags.len < 2 ^ 32) :
    d.archive r = d := by
  rw [archive, BitTagVec.archive, r.archiveUsize_of_lt h]

/-! ## `BitTagVec` -/

def SET_NO_CHANGE : UInt8 := 0b00
def SET_TO_ZERO : UInt8 := 0b10
def SET_TO_DIFF : UInt8 := 0b11
def SET_TO_TARGET_VALUE : UInt8 := 0b01

/-- The tag in bits `2k`, `2k + 1` of a byte: `(byte >> (k * 2)) & 0b11`. -/
def tagOf (byte : UInt8) (k : Nat) : UInt8 := (byte >>> UInt8.ofNat (k * 2)) &&& 0b11

namespace BitTagVec

/-- `BitTagVec::new` (types.rs:505). -/
def new (len : Nat) : BitTagVec := ⟨List.replicate ((len + 3) / 4) 0, len⟩

/-- `BitTagVec::set` (types.rs:525): the tag is OR-ed into its byte. -/
def set (v : BitTagVec) (idx : Nat) (tag : UInt8) : Option BitTagVec :=
  if idx < v.len then
    match v.data[idx / 4]? with
    | some byte =>
      some { v with
        data := v.data.set (idx / 4) (byte ||| ((tag &&& 0b11) <<< UInt8.ofNat (idx % 4 * 2))) }
    | none => none
  else none

/-- `BitTagVec::get` (types.rs:555). -/
def get (v : BitTagVec) (idx : Nat) : Option UInt8 :=
  if idx < v.len then v.data[idx / 4]?.map (tagOf · (idx % 4)) else none

/-- `data.len() = ceil(len / 4)`. -/
def WF (v : BitTagVec) : Prop := v.data.length = (v.len + 3) / 4

end BitTagVec

/-- The four tags of a byte, in index order. -/
def unpack (byte : UInt8) : List UInt8 := [tagOf byte 0, tagOf byte 1, tagOf byte 2, tagOf byte 3]

@[simp] theorem length_unpack (byte : UInt8) : (unpack byte).length = 4 := rfl

theorem unpack_zero : unpack 0 = List.replicate 4 SET_NO_CHANGE := by decide

theorem getElem?_unpack (byte : UInt8) (k : Nat) (hk : k < 4) :
    (unpack byte)[k]? = some (tagOf byte k) := by
  match k, hk with
  | 0, _ | 1, _ | 2, _ | 3, _ => rfl

theorem getElem?_flatMap_unpack : ∀ (data : List UInt8) (k : Nat),
    (data.flatMap unpack)[k]? = data[k / 4]?.map (tagOf · (k % 4))
  | [], k => by simp
  | byte :: data, k => by
    rw [List.flatMap_cons]
    by_cases hk : k < 4
    · have h0 : k / 4 = 0 := by omega
      have h1 : k % 4 = k := by omega
      rw [List.getElem?_append_left (by simpa using hk), getElem?_unpack byte k hk, h0, h1]
      rfl
    · have h0 : k / 4 = (k - 4) / 4 + 1 := by omega
      have h1 : k % 4 = (k - 4) % 4 := by omega
      rw [List.getElem?_append_right (by simpa using hk), length_unpack,
        getElem?_flatMap_unpack data (k - 4), h0, h1, List.getElem?_cons_succ]

/-- OR-ing a tag in at position `r` is seen at position `r` and at no other. -/
theorem tagOf_or (byte tag : UInt8) {r s : Nat} (hr : r < 4) (hs : s < 4) :
    tagOf (byte ||| ((tag &&& 0b11) <<< UInt8.ofNat (r * 2))) s =
      if s = r then tagOf byte s ||| (tag &&& 0b11) else tagOf byte s := by
  have htag : ∀ t : UInt8, t.toNat < 4 → ∀ r s : Fin 4,
      ((t <<< UInt8.ofNat (r * 2)) >>> UInt8.ofNat (s * 2)) &&& 0b11 = if s = r then t else 0 := by
    intro t ht
    obtain rfl | rfl | rfl | rfl : t = 0 ∨ t = 1 ∨ t = 2 ∨ t = 3 := by
      simp only [← UInt8.toNat_inj]
      have : (0 : UInt8).toNat = 0 ∧ (1 : UInt8).toNat = 1 ∧ (2 : UInt8).toNat = 2 ∧
          (3 : UInt8).toNat = 3 := by decide
      omega
    all_goals decide
  have hlt : (tag &&& 0b11).toNat < 4 := by
    rw [UInt8.toNat_and]
    exact Nat.lt_of_le_of_lt Nat.and_le_right (by decide)
  have hbit := htag (tag &&& 0b11) hlt ⟨r, hr⟩ ⟨s, hs⟩
  simp only [Fin.mk.injEq] at hbit
  have hdistrib : ∀ a b c : UInt8, (a ||| b) &&& c = (a &&& c) ||| (b &&& c) := fun a b c => by
    apply UInt8.toNat_inj.mp
    simp [Nat.and_or_distrib_right]
  unfold tagOf
  rw [UInt8.shiftRight_or, hdistrib, hbit]
  split <;> simp

namespace BitTagVec

/-- The tags a walk over the bytes meets: four a byte, cut at `len`. -/
def tags (v : BitTagVec) : List UInt8 := (v.data.flatMap unpack).take v.len

theorem getElem?_tags (v : BitTagVec) (k : Nat) : v.tags[k]? = v.get k := by
  unfold tags get
  rw [List.getElem?_take, getElem?_flatMap_unpack]

theorem new_WF (n : Nat) : (new n).WF := by simp [WF, new]

theorem length_tags {v : BitTagVec} (h : v.WF) : v.tags.length = v.len := by
  have hlen : (v.data.flatMap unpack).length = v.data.length * 4 := by
    simp [List.length_flatMap]
  unfold WF at h
  rw [tags, List.length_take, hlen, h]
  omega

theorem tags_new (n : Nat) : (new n).tags = List.replicate n SET_NO_CHANGE := by
  have hlen := length_tags (new_WF n)
  apply List.ext_getElem?
  intro k
  rw [getElem?_tags]
  by_cases hk : k < n
  · have hb : k / 4 < (n + 3) / 4 := by omega
    have hz : ∀ r : Fin 4, tagOf 0 r = SET_NO_CHANGE := by decide
    simp only [get, new, hk, ↓reduceIte, List.getElem?_replicate, hb, Option.map_some]
    exact congrArg some (hz ⟨k % 4, Nat.mod_lt _ (by decide)⟩)
  · simp [get, new, hk]

/-- An archive that counts fewer tags has the first ones. -/
theorem tags_archive (r : Rkyv) (v : BitTagVec) :
    (v.archive r).tags = v.tags.take (r.archiveUsize v.len) := by
  show (v.data.flatMap unpack).take (r.archiveUsize v.len) =
    ((v.data.flatMap unpack).take v.len).take (r.archiveUsize v.len)
  rw [List.take_take, min_eq_left (r.archiveUsize_le v.len)]

/-- Setting tag `idx` succeeds inside the vector, keeps its shape and ORs into that one tag. -/
theorem set_spec {v : BitTagVec} (h : v.WF) {idx : Nat} (hidx : idx < v.len) (tag : UInt8) :
    ∃ v', v.set idx tag = some v' ∧ v'.WF ∧ v'.len = v.len ∧
      ∀ k, v'.get k = if k = idx then (v.get k).map (· ||| (tag &&& 0b11)) else v.get k := by
  have hbyte : idx / 4 < v.data.length := by
    unfold WF at h
    omega
  have hget : v.data[idx / 4]? = some v.data[idx / 4] := List.getElem?_eq_getElem hbyte
  refine ⟨⟨v.data.set (idx / 4) (v.data[idx / 4] ||| ((tag &&& 0b11) <<< UInt8.ofNat (idx % 4 * 2))),
    v.len⟩, by simp only [set, hidx, ↓reduceIte, hget], ?_, rfl, fun k => ?_⟩
  · simpa [WF] using h
  · unfold get
    by_cases hk : k < v.len
    · simp only [hk, ↓reduceIte]
      by_cases hsame : k / 4 = idx / 4
      · -- the tag read lies in the byte written
        rw [hsame, List.getElem?_set_self hbyte, hget]
        simp only [Option.map_some]
        rw [tagOf_or _ _ (Nat.mod_lt _ (by decide)) (Nat.mod_lt _ (by decide))]
        by_cases hki : k = idx
        · simp [hki]
        · have hmod : k % 4 ≠ idx % 4 := by omega
          simp [hki, hmod]
      · have hki : k ≠ idx := by
          rintro rfl
          exact hsame rfl
        rw [List.getElem?_set_ne (Ne.symm hsame)]
        simp [hki]
    · have hki : k ≠ idx := by omega
      simp [hk, hki]

/-- Setting a tag that was `SET_NO_CHANGE`. -/
theorem tags_set {v v' : BitTagVec} (h : v.WF) {idx : Nat} (hidx : idx < v.len) {tag : UInt8}
    (htag : tag &&& 0b11 = tag) (h0 : v.get idx = some SET_NO_CHANGE)
    (hset : v.set idx tag = some v') : v'.WF ∧ v'.len = v.len ∧ v'.tags = v.tags.set idx tag := by
  obtain ⟨v₁, hv₁, hwf, hlen, hg⟩ := set_spec h hidx tag
  obtain rfl : v' = v₁ := by
    rw [hset] at hv₁
    exact Option.some.inj hv₁
  refine ⟨hwf, hlen, List.ext_getElem? fun k => ?_⟩
  rw [getElem?_tags, hg k]
  by_cases hk : k = idx
  · subst hk
    rw [if_pos rfl, h0, List.getElem?_set_self (by rw [length_tags h]; exact hidx), htag]
    simp [SET_NO_CHANGE]
  · rw [if_neg hk, List.getElem?_set_ne (Ne.symm hk), getElem?_tags]

end BitTagVec

end EthStateDiff
