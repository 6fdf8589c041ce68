import EthStateDiff.Lib.Overwrite
import EthStateDiff.Lib.Tally
import EthStateDiff.Types
import EthStateDiff.Varint
/-!
# Balance deltas (`balances.rs`)

| here | there |
| --- | --- |
| `diffBalancesIter` | balances.rs:194 |
| `findMode` | balances.rs:380; the hash map's iteration order is a parameter (`HashOrder`) |
| `encode`, `encodeChange` | balances.rs:404, one turn of its loop |
| `applyBalancesIter` | balances.rs:270 |
| `applyTagBytes`, `applyBits`, `applyTag` | its byte loop, its bit loop, its `match tag` |
| `applyBalancesPlain` | nothing: what it is meant to do, entry by entry |

An iterator is the list of what it yields; a `ListMutTarget` is the list it stands for.

* `applyTagBytes_eq` — the byte loop with its fast path runs the plain loop over the tags.
* `applyBalancesIter_refines_plain` — so the applier does what `applyBalancesPlain` does.
* `findMode_fits` — the mode is an `i32` whatever the hash map's order.
-/

namespace EthStateDiff

open Rust Overwrite Tally

/-! ## Encoder -/

structure Change where
  idx : Nat
  diff : Int64
  target : UInt64
deriving DecidableEq

/-- `i32::try_from(d).is_ok()`. -/
def fitsI32 (d : Int64) : Bool := decide (-2 ^ 31 ≤ d.toInt ∧ d.toInt < 2 ^ 31)

/-- Pass 1 of `diff_balances_iter`, from index `i` on. -/
def collectChanges (b : Build) : Nat → List (UInt64 × UInt64) → Option (List Change)
  | _, [] => some []
  | i, (v1, v2) :: rest =>
    if v1 ≠ v2 then do
      let diff ← b.subI64 v2.toInt64 v1.toInt64
      let changes ← collectChanges b (i + 1) rest
      some (⟨i, diff, v2⟩ :: changes)
    else collectChanges b (i + 1) rest

/-- The order in which `FxHashMap::into_iter` yields the entries of a map: some permutation. -/
structure HashOrder where
  iter : List (Int64 × Nat) → List (Int64 × Nat)
  perm : ∀ entries, (iter entries).Perm entries

/-- `*freq_map.entry(diff).or_insert(0) += 1`, for each difference that fits an `i32`. -/
def freqMap (changes : List Change) : List (Int64 × Nat) :=
  changes.foldl (fun entries c => if fitsI32 c.diff then bump c.diff entries else entries) []

/-- `max_by_key(|&(_, count)| count)`: of equal counts the last one yielded. -/
def maxByCount : List (Int64 × Nat) → Option (Int64 × Nat)
  | [] => none
  | e :: entries => some (entries.foldl (lastMax Prod.snd) e)

def findMode (order : HashOrder) (changes : List Change) : Int64 :=
  ((maxByCount (order.iter (freqMap changes))).map Prod.fst).getD 0

/-- The growing `(tags, varint_payload, target_values)` of `encode`. -/
structure Encoded where
  tags : BitTagVec
  varintPayload : List UInt8
  targetValues : List UInt64

def encodeChange (b : Build) (mode : Int64) (acc : Encoded) (c : Change) : Option Encoded :=
  if c.target = 0 then do
    let tags ← acc.tags.set c.idx SET_TO_ZERO
    some { acc with tags }
  else if c.diff = c.target.toInt64 then do
    let tags ← acc.tags.set c.idx SET_TO_TARGET_VALUE
    some { acc with tags, targetValues := acc.targetValues ++ [c.target] }
  else if fitsI32 c.diff then do
    let tags ← acc.tags.set c.idx SET_TO_DIFF
    let corrected ← b.subI64 c.diff mode
    some { acc with
      tags, varintPayload := acc.varintPayload ++ writeVarint (zigzagEncode corrected) }
  else do
    let tags ← acc.tags.set c.idx SET_TO_TARGET_VALUE
    some { acc with tags, targetValues := acc.targetValues ++ [c.target] }

def encode (b : Build) (commonLen : Nat) (changes : List Change) (mode : Int64) : Option Encoded :=
  changes.foldlM (encodeChange b mode) ⟨BitTagVec.new commonLen, [], []⟩

def diffBalancesIter (b : Build) (order : HashOrder) (base target : List UInt64) :
    Option BalancesDiff := do
  let commonLen := min base.length target.length
  let changes ← collectChanges b 0 (base.zip target)
  let mode := findMode order changes
  let enc ← encode b commonLen changes mode
  some { tags := enc.tags, mode, varintPayload := enc.varintPayload,
         targetValues := enc.targetValues, appendedBalances := target.drop commonLen }

/-! ## Applier -/

/-- The locals of `apply_balances_iter` and the list it mutates. -/
structure ApplyState where
  target : List UInt64
  targetIter : List UInt64
  payloadCursor : Nat
  baseIdx : Nat

/-- `match tag { … }; base_idx += 1` (balances.rs:305-326). -/
def applyTag (b : Build) (d : BalancesDiff) (st : ApplyState) (tag : UInt8) :
    Exec (List UInt64) ApplyState :=
  if tag = SET_NO_CHANGE then .ok { st with baseIdx := st.baseIdx + 1 }
  else if tag = SET_TO_ZERO then do
    let target ← writeAt st.target (st.baseIdx, 0)
    .ok { st with target, baseIdx := st.baseIdx + 1 }
  else if tag = SET_TO_TARGET_VALUE then
    match st.targetIter with
    | [] => .error st.target
    | v :: vs => do
      let target ← writeAt st.target (st.baseIdx, v)
      .ok { st with target, targetIter := vs, baseIdx := st.baseIdx + 1 }
  else if tag = SET_TO_DIFF then do
    let (encoded, cursor) ← orPanic st.target (readVarint b d.varintPayload st.payloadCursor)
    let corrected := zigzagDecode encoded
    let diff ← orPanic st.target (b.addI64 corrected d.mode)
    let val ← orPanic st.target st.target[st.baseIdx]?
    let sum ← orPanic st.target (b.addI64 val.toInt64 diff)
    let target ← writeAt st.target (st.baseIdx, sum.toUInt64)
    .ok { st with target, payloadCursor := cursor, baseIdx := st.baseIdx + 1 }
  else .error st.target

/-- `for bit in 0..4`, which breaks once every tag is done. -/
def applyBits (b : Build) (d : BalancesDiff) (byte : UInt8) :
    List Nat → ApplyState → Exec (List UInt64) ApplyState
  | [], st => .ok st
  | bit :: bits, st =>
    if st.baseIdx ≥ d.tags.len then .ok st
    else do
      let st ← applyTag b d st (tagOf byte bit)
      applyBits b d byte bits st

/-- `for &tag_byte in delta.tags.data.iter()`, skipping four entries at a zero byte. -/
def applyTagBytes (b : Build) (d : BalancesDiff) :
    List UInt8 → ApplyState → Exec (List UInt64) ApplyState
  | [], st => .ok st
  | byte :: bytes, st =>
    if st.baseIdx ≥ d.tags.len then .ok st
    else if byte = 0 then
      applyTagBytes b d bytes { st with baseIdx := min (st.baseIdx + 4) d.tags.len }
    else do
      let st ← applyBits b d byte [0, 1, 2, 3] st
      applyTagBytes b d bytes st

def applyBalancesIter (b : Build) (target : List UInt64) (d : BalancesDiff) :
    Exec (List UInt64) (List UInt64) :=
  if b.debugAssertions && target.length != d.tags.len then .error target
  else do
    let st ← applyTagBytes b d d.tags.data ⟨target, d.targetValues, 0, 0⟩
    .ok (st.target ++ d.appendedBalances)

/-! ## The byte loop is the plain loop over the tags -/

variable {b : Build} {d : BalancesDiff}

theorem applyTag_baseIdx {st st' : ApplyState} {tag : UInt8} (h : applyTag b d st tag = .ok st') :
    st'.baseIdx = st.baseIdx + 1 := by
  unfold applyTag at h
  split at h
  · cases h
    rfl
  · split at h
    · simp only [bind_eq_ok, Except.ok.injEq] at h
      obtain ⟨_, _, rfl⟩ := h
      rfl
    · split at h
      · split at h
        · cases h
        · simp only [bind_eq_ok, Except.ok.injEq] at h
          obtain ⟨_, _, rfl⟩ := h
          rfl
      · split at h
        · simp only [bind_eq_ok, Except.ok.injEq] at h
          obtain ⟨⟨_, _⟩, _, _, _, _, _, _, _, _, _, rfl⟩ := h
          rfl
        · cases h

theorem foldlM_applyTag_baseIdx : ∀ {tags : List UInt8} {st st' : ApplyState},
    tags.foldlM (applyTag b d) st = .ok st' → st'.baseIdx = st.baseIdx + tags.length := by
  intro tags
  induction tags with
  | nil =>
    intro st st' h
    cases h
    rfl
  | cons tag tags ih =>
    intro st st' h
    rw [List.foldlM_cons, bind_eq_ok] at h
    obtain ⟨st₁, h₁, h₂⟩ := h
    rw [ih h₂, applyTag_baseIdx h₁, List.length_cons]
    omega

theorem foldlM_applyTag_noChange : ∀ (k : Nat) (st : ApplyState),
    (List.replicate k SET_NO_CHANGE).foldlM (applyTag b d) st =
      .ok { st with baseIdx := st.baseIdx + k }
  | 0, _ => rfl
  | k + 1, st => by
    have hstep : applyTag b d st SET_NO_CHANGE = .ok { st with baseIdx := st.baseIdx + 1 } := rfl
    rw [List.replicate_succ, List.foldlM_cons, hstep, ok_bind, foldlM_applyTag_noChange k]
    simp only [Except.ok.injEq, ApplyState.mk.injEq, true_and]
    omega

theorem applyBits_eq (byte : UInt8) : ∀ (bits : List Nat) (st : ApplyState),
    st.baseIdx ≤ d.tags.len → applyBits b d byte bits st =
      ((bits.map (tagOf byte)).take (d.tags.len - st.baseIdx)).foldlM (applyTag b d) st := by
  intro bits
  induction bits with
  | nil =>
    intro st _
    rw [List.map_nil, List.take_nil]
    rfl
  | cons bit bits ih =>
    intro st hle
    rw [applyBits]
    by_cases hdone : st.baseIdx ≥ d.tags.len
    · rw [if_pos hdone, show d.tags.len - st.baseIdx = 0 by omega]
      rfl
    · obtain ⟨n, hn⟩ : ∃ n, d.tags.len - st.baseIdx = n + 1 :=
        ⟨d.tags.len - st.baseIdx - 1, by omega⟩
      rw [if_neg hdone, hn, List.map_cons, List.take_succ_cons, List.foldlM_cons]
      cases htag : applyTag b d st (tagOf byte bit) with
      | error s => rfl
      | ok st₁ =>
        have hidx := applyTag_baseIdx htag
        rw [ok_bind, ok_bind, ih st₁ (by omega),
          show d.tags.len - st₁.baseIdx = n by omega]

/-- **The byte-skipping loop is the plain loop**: over the tags of the remaining bytes, cut off
at `tags.len`, whatever the unused bits of the last byte hold. -/
theorem applyTagBytes_eq : ∀ (bytes : List UInt8) (st : ApplyState), st.baseIdx ≤ d.tags.len →
    applyTagBytes b d bytes st =
      ((bytes.flatMap unpack).take (d.tags.len - st.baseIdx)).foldlM (applyTag b d) st := by
  intro bytes
  induction bytes with
  | nil =>
    intro st _
    rw [List.flatMap_nil, List.take_nil]
    rfl
  | cons byte bytes ih =>
    intro st hle
    rw [applyTagBytes, List.flatMap_cons, List.take_append, length_unpack, List.foldlM_append]
    by_cases hdone : st.baseIdx ≥ d.tags.len
    · rw [if_pos hdone, show d.tags.len - st.baseIdx = 0 by omega]
      rfl
    rw [if_neg hdone]
    by_cases hzero : byte = 0
    · -- four unchanged entries, clamped at the end
      subst hzero
      have hskip : st.baseIdx + min (d.tags.len - st.baseIdx) 4 = min (st.baseIdx + 4) d.tags.len := by
        omega
      rw [if_pos rfl, ih _ (Nat.min_le_right _ _), unpack_zero,
        List.take_replicate, foldlM_applyTag_noChange, ok_bind, hskip]
      congr 2
      simp only
      omega
    · rw [if_neg hzero, applyBits_eq byte _ st hle]
      have hbits : [0, 1, 2, 3].map (tagOf byte) = unpack byte := rfl
      rw [hbits]
      cases hfold : ((unpack byte).take (d.tags.len - st.baseIdx)).foldlM (applyTag b d) st with
      | error s => rfl
      | ok st₁ =>
        have hidx := foldlM_applyTag_baseIdx hfold
        rw [List.length_take, length_unpack] at hidx
        rw [ok_bind, ok_bind, ih st₁ (by omega)]
        congr 2
        omega

/-- `apply_balances_iter` as the plain loop over `BitTagVec::get(0), …`. -/
theorem applyBalancesIter_eq (target : List UInt64) : applyBalancesIter b target d =
    if b.debugAssertions && target.length != d.tags.len then .error target
    else (do
      let st ← d.tags.tags.foldlM (applyTag b d) ⟨target, d.targetValues, 0, 0⟩
      .ok (st.target ++ d.appendedBalances)) := by
  rw [applyBalancesIter, applyTagBytes_eq _ _ (Nat.zero_le _)]
  rfl

/-! ## The plain loop -/

/-- What the loop is meant to do at entry `i`: read its tag with `BitTagVec::get` and follow it. -/
def applyTagAt (b : Build) (d : BalancesDiff) (st : ApplyState) (i : Nat) :
    Exec (List UInt64) ApplyState := do
  let tag ← orPanic st.target (d.tags.get i)
  applyTag b d { st with baseIdx := i } tag

/-- `for i in 0..tags.len`, entry by entry: the abstract behaviour of `apply_balances_iter`. -/
def applyBalancesPlain (b : Build) (target : List UInt64) (d : BalancesDiff) :
    Exec (List UInt64) (List UInt64) := do
  let st ← (List.range d.tags.len).foldlM (applyTagAt b d) ⟨target, d.targetValues, 0, 0⟩
  .ok (st.target ++ d.appendedBalances)

/-- Walking the list of tags and asking for each tag by its index are the same loop. -/
theorem foldlM_applyTagAt (hwf : d.tags.WF) : ∀ (n : Nat) (st : ApplyState),
    st.baseIdx + n = d.tags.len → (List.range' st.baseIdx n).foldlM (applyTagAt b d) st =
      (d.tags.tags.drop st.baseIdx).foldlM (applyTag b d) st := by
  have hlen := BitTagVec.length_tags hwf
  intro n
  induction n with
  | zero =>
    intro st hend
    rw [List.drop_eq_nil_of_le (by omega)]
    rfl
  | succ n ih =>
    intro st hend
    have hlt : st.baseIdx < d.tags.tags.length := by omega
    have htag : d.tags.get st.baseIdx = some d.tags.tags[st.baseIdx] := by
      rw [← BitTagVec.getElem?_tags, List.getElem?_eq_getElem hlt]
    have hstep : applyTagAt b d st st.baseIdx = applyTag b d st d.tags.tags[st.baseIdx] := by
      rw [applyTagAt, htag, orPanic_some, ok_bind]
    rw [List.range'_succ, List.foldlM_cons, hstep, List.drop_eq_getElem_cons hlt, List.foldlM_cons]
    cases hst : applyTag b d st d.tags.tags[st.baseIdx] with
    | error s => rfl
    | ok st₁ =>
      have hidx := applyTag_baseIdx hst
      rw [ok_bind, ok_bind, ← hidx]
      exact ih st₁ (by omega)

/-- **The byte-skipping applier refines the plain one**: whatever the payload and the unused bits
of the last byte, the outcome is the same, down to what a panic leaves in the list. -/
theorem applyBalancesIter_refines_plain (b : Build) {target : List UInt64} {d : BalancesDiff}
    (hwf : d.tags.data.length = (d.tags.len + 3) / 4) (hlen : target.length = d.tags.len) :
    applyBalancesIter b target d = applyBalancesPlain b target d := by
  have hloop := foldlM_applyTagAt (b := b) hwf d.tags.len ⟨target, d.targetValues, 0, 0⟩
    (Nat.zero_add _)
  rw [List.drop_zero, ← List.range_eq_range'] at hloop
  have hassert : ¬(b.debugAssertions && target.length != d.tags.len) = true := by
    simp [hlen]
  rw [applyBalancesIter_eq, if_neg hassert, applyBalancesPlain, hloop]

/-- Five entries, so three unused pairs of bits in the second byte, all set; the third tag asks
for a value. -/
theorem applyBalancesIter_refines_plain_five :
    applyBalancesIter Build.dev [10, 20, 30, 40, 50]
      ⟨⟨[0b00010010, 0b11111110], 5⟩, 0, [], [7], [8]⟩ =
      applyBalancesPlain Build.dev [10, 20, 30, 40, 50]
        ⟨⟨[0b00010010, 0b11111110], 5⟩, 0, [], [7], [8]⟩ ∧
    applyBalancesIter Build.dev [10, 20, 30, 40, 50]
      ⟨⟨[0b00010010, 0b11111110], 5⟩, 0, [], [7], [8]⟩ = .ok [0, 20, 7, 40, 0, 8] :=
  ⟨applyBalancesIter_refines_plain Build.dev rfl rfl, by rfl⟩

/-! ## The mode -/

/-- The differences that `find_mode` counts. -/
def countedDiffs (changes : List Change) : List Int64 := (changes.map Change.diff).filter fitsI32

/-- **The map counts the differences that fit.** -/
theorem isTally_freqMap (changes : List Change) :
    IsTally (freqMap changes) (countedDiffs changes) := by
  -- over the changes done so far, latest first
  have key : ∀ (changes : List Change) (entries : List (Int64 × Nat)) (done : List Int64),
      IsTally entries done →
      IsTally (changes.foldl (fun entries c =>
        if fitsI32 c.diff then bump c.diff entries else entries) entries)
        ((countedDiffs changes).reverse ++ done) := by
    intro changes
    induction changes with
    | nil => exact fun _ _ h => h
    | cons c changes ih =>
      intro entries done h
      rw [List.foldl_cons]
      by_cases hfit : fitsI32 c.diff = true
      · simpa [countedDiffs, hfit] using ih _ _ (h.bump c.diff)
      · simpa [countedDiffs, hfit] using ih _ _ h
  have h := key changes [] [] isTally_nil
  rw [List.append_nil] at h
  exact h.of_perm (List.reverse_perm _)

theorem maxByCount_mem {entries : List (Int64 × Nat)} {e : Int64 × Nat}
    (h : maxByCount entries = some e) : e ∈ entries := by
  cases entries with
  | nil => cases h
  | cons x entries =>
    cases h
    exact (foldl_lastMax Prod.snd entries x).1

theorem findMode_fits (order : HashOrder) (changes : List Change) :
    fitsI32 (findMode order changes) = true := by
  unfold findMode
  cases h : maxByCount (order.iter (freqMap changes)) with
  | none => decide
  | some e =>
    have hmem := (order.perm _).mem_iff.mp (maxByCount_mem h)
    exact (List.mem_filter.1 (((isTally_freqMap changes).mem_iff e.1 e.2).1 hmem).1).2

end EthStateDiff
