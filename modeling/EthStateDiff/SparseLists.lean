import EthStateDiff.Lib.Overwrite
import EthStateDiff.Types
import EthStateDiff.Varint
/-!
# Participation flags and inactivity scores (`participation.rs`, `inactivity_scores.rs`)

| here | there |
| --- | --- |
| `diffParticipation`, `diffParticipationIter` | participation.rs:94, :159 |
| `applyParticipation`, `applyParticipationIter` | participation.rs:125, :227 |
| `applyFlag` | one turn of the loop at participation.rs:243 |
| `diffInactivity`, `applyInactivity` | inactivity_scores.rs:92, :169 |

* `applyParticipationIter_diffParticipationIter` — sparse flags come back through varint gaps.
* `applyParticipationIter_diffParticipation_iff` — the generic applier against the slice encoder:
  it does nothing for `AllZeros`.
* `applyParticipationIter_isOk`, `applyInactivity_isOk` — when an applier panics. The gaps of a
  delta are numbers, so they can ask for more flags than a `Vec` holds.
* `participation_round_trip_iff`, `inactivity_round_trip_iff` — exactly when the flags and the
  scores come back, whichever of the two lists is longer.
-/

namespace EthStateDiff

open Rust ByteString Overwrite

/-! ## Participation: encoders -/

/-- The loop of `diff_participation_iter` from index `i` on: the gap bytes and the new values. -/
def diffParticipationLoop : Nat → Nat → List (UInt8 × UInt8) → List UInt8 × List UInt8
  | _, _, [] => ([], [])
  | i, lastIdx, (v1, v2) :: rest =>
    if v1 ≠ v2 then
      let later := diffParticipationLoop (i + 1) i rest
      (writeVarint (UInt64.ofNat (i - lastIdx)) ++ later.1, v2 :: later.2)
    else diffParticipationLoop (i + 1) lastIdx rest

def diffParticipationIter (base target : List UInt8) : ParticipationDiff :=
  let commonLen := min base.length target.length
  let changed := diffParticipationLoop 0 0 (base.zip target)
  .sparse changed.1 changed.2 (target.drop commonLen)

def diffParticipation (base target : List UInt8) : ParticipationDiff :=
  if target.all (· == 0) then .allZeros target.length else diffParticipationIter base target

/-! ## Participation: appliers -/

/-- The locals of `apply_participation_iter` and the list it mutates. -/
structure SparseState where
  target : List UInt8
  cursor : Nat
  currentIdx : Nat

/-- `target.push(flag)` on a `Vec<u8>`. -/
abbrev pushFlag : List UInt8 → UInt8 → Exec (List UInt8) (List UInt8) := pushWithin isizeMax

def applyFlag (b : Build) (indicesRaw : List UInt8) (st : SparseState) (val : UInt8) :
    Exec (List UInt8) SparseState := do
  let (gap, cursor) ← orPanic st.target (readVarint b indicesRaw st.cursor)
  let currentIdx ← orPanic st.target (b.addUsize st.currentIdx gap.toNat)
  -- `while target.len() <= current_idx { target.push(0) }`
  let grown ← (List.replicate (currentIdx + 1 - st.target.length) 0).foldlM pushFlag st.target
  let target ← writeAt grown (currentIdx, val)
  .ok { target, cursor, currentIdx }

def applyParticipationIter (b : Build) (target : List UInt8) :
    ParticipationDiff → Exec (List UInt8) (List UInt8)
  | .allZeros _ => .ok target
  | .sparse sparseIndices newValues extension => do
    let st ← newValues.foldlM (applyFlag b sparseIndices) ⟨target, 0, 0⟩
    extension.foldlM pushFlag st.target

def applyParticipation (b : Build) (base : List UInt8) :
    ParticipationDiff → Exec (List UInt8) (List UInt8)
  | .allZeros len => .ok (List.replicate len 0)
  | .sparse sparseIndices newValues extension =>
    applyParticipationIter b base (.sparse sparseIndices newValues extension)

/-! ## Participation: round trip -/

/-- **One changed flag**: the next varint is the gap to it, and only it is rewritten. -/
theorem applyFlag_written (b : Build) {raw done rest pre : List UInt8} {last : Nat}
    (suf : List UInt8) (v w : UInt8) (hle : last ≤ pre.length) (hmax : pre.length < 2 ^ 64)
    (h : raw = done ++ (writeVarint (UInt64.ofNat (pre.length - last)) ++ rest)) :
    applyFlag b raw ⟨pre ++ v :: suf, done.length, last⟩ w =
      .ok ⟨pre ++ w :: suf, (done ++ writeVarint (UInt64.ofNat (pre.length - last))).length,
        pre.length⟩ := by
  have hgap : (UInt64.ofNat (pre.length - last)).toNat = pre.length - last :=
    UInt64.toNat_ofNat_of_lt' (show _ < 2 ^ 64 by omega)
  have hidx : b.addUsize last (pre.length - last) = some pre.length := by
    rw [b.addUsize_of_lt (by omega)]
    congr 1
    omega
  have hgrow : pre.length + 1 - (pre ++ v :: suf).length = 0 := by simp
  simp only [applyFlag, readVarint_written b h, orPanic_some, ok_bind, hgap, hidx, hgrow,
    List.replicate_zero, List.foldlM_nil, writeAt]
  rw [pure_bind, if_pos (by simp)]
  simp

/-- **The sparse loop inverts the encoder**: with `pre` already the target's, the common part is
turned into the target's flag by flag, the gap bytes are read to their end, and what the base has
beyond the target stays. -/
theorem foldlM_applyFlag_written (b : Build) (raw suf : List UInt8) :
    ∀ (pairs : List (UInt8 × UInt8)) (pre done : List UInt8) (last : Nat), last ≤ pre.length →
    pre.length + pairs.length < 2 ^ 64 →
    raw = done ++ (diffParticipationLoop pre.length last pairs).1 →
    ∃ idx, (diffParticipationLoop pre.length last pairs).2.foldlM (applyFlag b raw)
        ⟨pre ++ (pairs.map Prod.fst ++ suf), done.length, last⟩ =
      .ok ⟨pre ++ (pairs.map Prod.snd ++ suf), raw.length, idx⟩ := by
  intro pairs
  induction pairs with
  | nil =>
    intro pre done last _ _ h
    rw [h]
    exact ⟨last, by simp [diffParticipationLoop, pure, Except.pure]⟩
  | cons p pairs ih =>
    intro pre done last hle hmax h
    obtain ⟨v, w⟩ := p
    rw [List.length_cons] at hmax
    have hpre : (pre ++ [w]).length = pre.length + 1 := by simp
    by_cases hvw : v ≠ w
    · simp only [diffParticipationLoop, if_pos hvw] at h ⊢
      have hstep := applyFlag_written b (pairs.map Prod.fst ++ suf) v w hle (by omega) h
      obtain ⟨idx, hst⟩ := ih (pre ++ [w])
        (done ++ writeVarint (UInt64.ofNat (pre.length - last))) pre.length (by omega) (by omega)
        (by rw [hpre, List.append_assoc]; exact h)
      refine ⟨idx, ?_⟩
      rw [List.foldlM_cons, List.map_cons, List.cons_append, hstep, ok_bind]
      rw [hpre] at hst
      simpa using hst
    · simp only [diffParticipationLoop, if_neg hvw] at h ⊢
      obtain rfl : v = w := not_not.mp hvw
      obtain ⟨idx, hst⟩ := ih (pre ++ [v]) done last
        (by omega) (by omega) (by rw [hpre]; exact h)
      refine ⟨idx, ?_⟩
      rw [hpre] at hst
      simpa using hst

theorem foldlM_applyFlag_diffParticipationLoop (b : Build) (base : List UInt8)
    {target : List UInt8} (hmax : target.length < 2 ^ 64) :
    ∃ idx, (diffParticipationLoop 0 0 (base.zip target)).2.foldlM
        (applyFlag b (diffParticipationLoop 0 0 (base.zip target)).1) ⟨base, 0, 0⟩ =
      .ok ⟨(base.zip target).map Prod.snd ++ base.drop target.length,
        (diffParticipationLoop 0 0 (base.zip target)).1.length, idx⟩ := by
  have hzip : ([] : List UInt8).length + (base.zip target).length < 2 ^ 64 := by
    rw [List.length_nil, List.length_zip]
    omega
  obtain ⟨idx, hst⟩ := foldlM_applyFlag_written b
    (diffParticipationLoop 0 0 (base.zip target)).1 (base.drop target.length) (base.zip target)
    [] [] 0 (Nat.le_refl 0) hzip rfl
  rw [List.nil_append, List.nil_append, map_fst_zip_append_drop, List.length_nil] at hst
  exact ⟨idx, hst⟩

theorem applyParticipationIter_overlay (b : Build) {base target : List UInt8}
    (hmax : target.length < 2 ^ 63) :
    applyParticipationIter b base (diffParticipationIter base target) =
      .ok (overlay base target) := by
  obtain ⟨idx, hst⟩ := foldlM_applyFlag_diffParticipationLoop b base
    (show target.length < 2 ^ 64 by omega)
  simp only [diffParticipationIter, applyParticipationIter]
  rw [hst, ok_bind, overlay]
  refine foldlM_pushWithin_eq_ok.2 ⟨?_, rfl⟩
  -- what is appended ends where the target ends
  rw [← List.length_eq_zero_iff, List.length_drop, List.length_append, List.length_map,
    List.length_zip, List.length_drop, isizeMax]
  omega

theorem applyParticipationIter_diffParticipationIter (b : Build) {base target : List UInt8}
    (hle : base.length ≤ target.length) (hmax : target.length < 2 ^ 63) :
    applyParticipationIter b base (diffParticipationIter base target) = .ok target := by
  rw [applyParticipationIter_overlay b hmax, overlay_of_le hle]

theorem replicate_zero_of_all {α : Type} [BEq α] [LawfulBEq α] [OfNat α 0] {target : List α}
    (h : target.all (· == 0) = true) : List.replicate target.length 0 = target := by
  refine (List.eq_replicate_iff.2 ⟨rfl, fun v hv => ?_⟩).symm
  simpa using List.all_eq_true.mp h v hv

/-- An archived `AllZeros` stands for the target unless it has too many flags to be counted. -/
theorem applyParticipation_diffParticipation_iff (b : Build) (r : Rkyv) {base target : List UInt8}
    (hmax : target.length < 2 ^ 63) :
    applyParticipation b base ((diffParticipation base target).archive r) = .ok target ↔
      (base.length ≤ target.length ∧ ∃ v ∈ target, v ≠ 0) ∨
        ((∀ v ∈ target, v = 0) ∧ target.length < 2 ^ 32) := by
  have hall : (∀ v ∈ target, v = 0) ↔ target.all (· == 0) = true := by simp
  unfold diffParticipation
  by_cases hzero : target.all (· == 0) = true
  · have hno : ¬∃ v ∈ target, v ≠ 0 := by
      rintro ⟨v, hv, hne⟩
      exact hne (hall.2 hzero v hv)
    rw [if_pos hzero, hall, and_iff_right hzero, or_iff_right fun h => hno h.2,
      ParticipationDiff.archive, applyParticipation, Except.ok.injEq]
    constructor
    · intro h
      rw [← h, List.length_replicate]
      exact r.archiveUsize_lt _
    · intro hlt
      rw [r.archiveUsize_of_lt hlt, replicate_zero_of_all hzero]
  · have hset : ∃ v ∈ target, v ≠ 0 := by simpa using hzero
    have hrun : applyParticipation b base ((diffParticipationIter base target).archive r) =
        applyParticipationIter b base (diffParticipationIter base target) := rfl
    rw [if_neg hzero, hall, hrun, applyParticipationIter_overlay b hmax, Except.ok.injEq,
      overlay_eq_iff, and_iff_left hset, or_iff_left fun h => hzero h.1]

theorem applyFlag_length_le {b : Build} {raw : List UInt8} {st st' : SparseState} {val : UInt8}
    (h : applyFlag b raw st val = .ok st') : st.target.length ≤ st'.target.length := by
  simp only [applyFlag, bind_eq_ok, foldlM_pushWithin_eq_ok] at h
  obtain ⟨⟨gap, cursor⟩, -, idx, -, grown, ⟨-, rfl⟩, target, hwrite, h⟩ := h
  cases h
  unfold writeAt at hwrite
  split at hwrite
  · cases hwrite
    rw [List.length_set, List.length_append]
    omega
  · cases hwrite

theorem foldlM_applyFlag_length_le {b : Build} {raw : List UInt8} : ∀ {vals : List UInt8}
    {st st' : SparseState}, vals.foldlM (applyFlag b raw) st = .ok st' →
    st.target.length ≤ st'.target.length := by
  intro vals
  induction vals with
  | nil =>
    intro st st' h
    cases h
    exact Nat.le_refl _
  | cons val vals ih =>
    intro st st' h
    rw [List.foldlM_cons, bind_eq_ok] at h
    obtain ⟨st₁, h₁, h₂⟩ := h
    exact (applyFlag_length_le h₁).trans (ih h₂)

/-- A run that ends with a list as long as the one it began with never grew it on the way. -/
theorem foldlM_applyFlag_take {b : Build} {raw vals : List UInt8} {st st' : SparseState}
    (h : vals.foldlM (applyFlag b raw) st = .ok st') (hlen : st'.target.length = st.target.length)
    (k : Nat) : ∃ stk, (vals.take k).foldlM (applyFlag b raw) st = .ok stk ∧
      stk.target.length = st.target.length := by
  rw [← List.take_append_drop k vals, List.foldlM_append, bind_eq_ok] at h
  obtain ⟨stk, hk, hrest⟩ := h
  have h₁ := foldlM_applyFlag_length_le hk
  have h₂ := foldlM_applyFlag_length_le hrest
  exact ⟨stk, hk, by omega⟩

/-- **Participation, exactly, for both APIs.** Through the iterators the target comes back iff the
base is not the longer list; through the slices a target with a flag set then does, and one
without as long as its length can be archived. The applier's growth loop never runs on an
encoder's delta, and the gap bytes are read to their end. -/
theorem participation_round_trip_iff (b : Build) (r : Rkyv) {base target : List UInt8}
    (hmax : target.length < 2 ^ 63) :
    (applyParticipationIter b base ((diffParticipationIter base target).archive r) = .ok target ↔
      base.length ≤ target.length) ∧
    (∃ sparseIndices newValues extension,
      (diffParticipationIter base target).archive r =
        .sparse sparseIndices newValues extension ∧
      (∀ k, ∃ st, (newValues.take k).foldlM (applyFlag b sparseIndices) ⟨base, 0, 0⟩ = .ok st ∧
        st.target.length = base.length) ∧
      ∃ st, newValues.foldlM (applyFlag b sparseIndices) ⟨base, 0, 0⟩ = .ok st ∧
        st.cursor = sparseIndices.length) ∧
    (applyParticipation b base ((diffParticipation base target).archive r) = .ok target ↔
      (base.length ≤ target.length ∧ ∃ v ∈ target, v ≠ 0) ∨
        ((∀ v ∈ target, v = 0) ∧ target.length < 2 ^ 32)) := by
  have hiter : applyParticipationIter b base ((diffParticipationIter base target).archive r) =
      .ok target ↔ base.length ≤ target.length := by
    show applyParticipationIter b base (diffParticipationIter base target) = _ ↔ _
    rw [applyParticipationIter_overlay b hmax, Except.ok.injEq]
    exact overlay_eq_iff
  refine ⟨hiter, ?_, applyParticipation_diffParticipation_iff b r hmax⟩
  obtain ⟨idx, hrun⟩ := foldlM_applyFlag_diffParticipationLoop b base
    (show target.length < 2 ^ 64 by omega)
  have hlen : ((base.zip target).map Prod.snd ++ base.drop target.length).length =
      base.length := by
    rw [List.length_append, List.length_map, List.length_zip, List.length_drop]
    omega
  exact ⟨_, _, _, rfl, foldlM_applyFlag_take hrun hlen, _, hrun, rfl⟩

/-- The first flag and the last one change, so the first gap is zero. -/
theorem participation_round_trip_two_gaps :
    applyParticipationIter Build.dev [1, 1, 1]
        ((diffParticipationIter [1, 1, 1] [2, 1, 3, 4]).archive .truncating) = .ok [2, 1, 3, 4] ∧
      applyParticipation Build.dev [1, 1, 1]
        ((diffParticipation [1, 1, 1] [0, 0]).archive .truncating) = .ok [0, 0] :=
  ⟨(participation_round_trip_iff Build.dev .truncating (by simp)).1.2 (by simp),
    (participation_round_trip_iff Build.dev .truncating (by simp)).2.2.2 (Or.inr (by simp))⟩

/-- `2^32` cleared flags are archived as none. -/
theorem participation_zeros_truncated :
    ¬∀ (b : Build) (base target : List UInt8),
      (applyParticipation b base ((diffParticipation base target).archive .truncating) =
          .ok target ↔
        base.length ≤ target.length ∨ ∀ v ∈ target, v = 0) := by
  intro h
  have hzero : ∀ v ∈ List.replicate (2 ^ 32) (0 : UInt8), v = 0 := fun v => List.eq_of_mem_replicate
  have hlen : (List.replicate (2 ^ 32) (0 : UInt8)).length = 2 ^ 32 := List.length_replicate
  have hrun := (h Build.release [1] (List.replicate (2 ^ 32) 0)).2 (Or.inr hzero)
  rw [applyParticipation_diffParticipation_iff _ _ (by rw [hlen]; omega), hlen] at hrun
  rcases hrun with ⟨-, v, hv, hne⟩ | ⟨-, hlt⟩
  · exact hne (hzero v hv)
  · omega

/-- **The generic applier skips `AllZeros`**: what the slice encoder made of an all-zero target
is lost, unless the base was that target already. -/
theorem applyParticipationIter_diffParticipation_iff (b : Build) (r : Rkyv)
    {base target : List UInt8} (hle : base.length ≤ target.length) (hmax : target.length < 2 ^ 63) :
    applyParticipationIter b base ((diffParticipation base target).archive r) = .ok target ↔
      (∃ v ∈ target, v ≠ 0) ∨ base = target := by
  unfold diffParticipation
  by_cases hzero : target.all (· == 0) = true
  · have hno : ¬∃ v ∈ target, v ≠ 0 := by
      rintro ⟨v, hv, hne⟩
      exact hne (by simpa using List.all_eq_true.mp hzero v hv)
    rw [if_pos hzero, ParticipationDiff.archive, applyParticipationIter, Except.ok.injEq]
    exact ⟨Or.inr, fun h => h.resolve_left hno⟩
  · rw [if_neg hzero]
    refine ⟨fun _ => Or.inl ?_, fun _ => applyParticipationIter_diffParticipationIter b hle hmax⟩
    simpa using hzero

/-! ## Participation: panics -/

/-- The flags that a list of gaps leads to, from flag `idx` on. -/
def positions : Nat → List (List UInt8) → List Nat
  | _, [] => []
  | idx, run :: runs =>
    let idx := (idx + (varintValue run).toNat) % 2 ^ 64
    idx :: positions idx runs

/-- How many flags there are once the list was grown up to these. -/
def grownLen (len : Nat) (idxs : List Nat) : Nat := idxs.foldl (fun len idx => max len (idx + 1)) len

/-- What a gap must satisfy: in a build that checks shifts and sums it is short and leads to an
index, and in any build a list of `len` flags can be grown up to that. -/
def GapFits (b : Build) (len currentIdx : Nat) (run : List UInt8) : Prop :=
  (b.overflowChecks = true → run.length ≤ 10 ∧ currentIdx + (varintValue run).toNat < 2 ^ 64) ∧
    (currentIdx + (varintValue run).toNat) % 2 ^ 64 < max len isizeMax

theorem applyFlag_of_cons (b : Build) {raw run : List UInt8} {st : SparseState} (val : UInt8)
    {rest : List (List UInt8)} (h : varints (raw.drop st.cursor) = run :: rest) :
    (GapFits b st.target.length st.currentIdx run → ∃ target, applyFlag b raw st val =
      .ok ⟨target, st.cursor + run.length,
        (st.currentIdx + (varintValue run).toNat) % 2 ^ 64⟩ ∧
      target.length = max st.target.length ((st.currentIdx + (varintValue run).toNat) % 2 ^ 64 + 1)) ∧
    (¬GapFits b st.target.length st.currentIdx run →
      ∃ target, applyFlag b raw st val = .error target) := by
  obtain ⟨hread, -⟩ := readVarint_of_cons b h
  by_cases hchk : b.overflowChecks = true → run.length ≤ 10 ∧
      st.currentIdx + (varintValue run).toNat < 2 ^ 64
  · have hadd : b.addUsize st.currentIdx (varintValue run).toNat =
        some ((st.currentIdx + (varintValue run).toNat) % 2 ^ 64) :=
      b.arith_of_fits fun hc => by simpa using (hchk hc).2
    rw [if_pos fun hc => (hchk hc).1] at hread
    rw [GapFits, and_iff_right hchk]
    generalize (st.currentIdx + (varintValue run).toNat) % 2 ^ 64 = idx at hadd ⊢
    simp only [applyFlag, hread, orPanic_some, ok_bind, hadd, foldlM_pushWithin]
    -- the list is grown, or is full before that
    have hgrow : (List.replicate (idx + 1 - st.target.length) (0 : UInt8) = [] ∨
        st.target.length + (List.replicate (idx + 1 - st.target.length) (0 : UInt8)).length ≤
          isizeMax) ↔ idx < max st.target.length isizeMax := by
      rw [List.replicate_eq_nil_iff, List.length_replicate]
      omega
    refine ⟨fun hfit => ?_, fun hfit => ?_⟩
    · have hin : idx < (st.target ++ List.replicate (idx + 1 - st.target.length) 0).length := by
        rw [List.length_append, List.length_replicate]
        omega
      rw [if_pos (hgrow.2 hfit), ok_bind, writeAt, if_pos hin]
      refine ⟨_, rfl, ?_⟩
      rw [List.length_set, List.length_append, List.length_replicate]
      omega
    · rw [if_neg fun h => hfit (hgrow.1 h)]
      exact ⟨_, rfl⟩
  · refine ⟨fun hfit => absurd hfit.1 hchk, fun _ => ?_⟩
    -- the read panics, or the sum does
    have hchecks : b.overflowChecks = true := by
      by_contra hc
      exact hchk fun h => absurd h hc
    by_cases hlen : run.length ≤ 10
    · rw [if_pos fun _ => hlen] at hread
      have hadd : b.addUsize st.currentIdx (varintValue run).toNat = none := by
        have hbig : ¬st.currentIdx + (varintValue run).toNat < 2 ^ 64 := fun hlt =>
          hchk fun _ => ⟨hlen, hlt⟩
        rw [Build.addUsize, Build.arith, hchecks, decide_eq_false hbig]
        rfl
      simp only [applyFlag, hread, orPanic_some, ok_bind, hadd, orPanic_none, error_bind]
      exact ⟨_, rfl⟩
    · rw [if_neg fun hc => hlen (hc hchecks)] at hread
      simp only [applyFlag, hread, orPanic_none, error_bind]
      exact ⟨_, rfl⟩

/-- Enough gaps for `n` values, and in a build with overflow checks short ones whose sum is an
index; every flag they lead to is there, or can be. -/
def GapsFit (b : Build) (len currentIdx : Nat) (gaps : List (List UInt8)) (n : Nat) : Prop :=
  n ≤ gaps.length ∧
    (b.overflowChecks = true → (∀ run ∈ gaps.take n, run.length ≤ 10) ∧
      currentIdx + ((gaps.take n).map fun run => (varintValue run).toNat).sum < 2 ^ 64) ∧
    ∀ idx ∈ positions currentIdx (gaps.take n), idx < max len isizeMax

theorem gapsFit_cons {b : Build} {len currentIdx n : Nat} {run : List UInt8}
    {rest : List (List UInt8)} (hfit : GapFits b len currentIdx run) :
    GapsFit b len currentIdx (run :: rest) (n + 1) ↔
      GapsFit b (max len ((currentIdx + (varintValue run).toNat) % 2 ^ 64 + 1))
        ((currentIdx + (varintValue run).toNat) % 2 ^ 64) rest n := by
  obtain ⟨hchk, hroom⟩ := hfit
  -- growing a list within the limit does not change what it can be grown to
  have hlimit : max (max len ((currentIdx + (varintValue run).toNat) % 2 ^ 64 + 1)) isizeMax =
      max len isizeMax := by omega
  simp only [GapsFit, List.length_cons, Nat.add_le_add_iff_right, List.take_succ_cons, positions,
    List.map_cons, List.sum_cons, List.forall_mem_cons, hlimit]
  refine and_congr_right fun _ => and_congr (forall_congr' fun hc => ?_) (and_iff_right hroom)
  obtain ⟨hten, hlt⟩ := hchk hc
  rw [Nat.mod_eq_of_lt hlt, Nat.add_assoc, and_iff_right hten]

theorem foldlM_applyFlag_isOk (b : Build) (raw : List UInt8) : ∀ (vals : List UInt8)
    (st : SparseState), st.currentIdx < 2 ^ 64 →
    ((∃ st', vals.foldlM (applyFlag b raw) st = .ok st') ↔
      GapsFit b st.target.length st.currentIdx (varints (raw.drop st.cursor)) vals.length) := by
  intro vals
  induction vals with
  | nil =>
    intro st hidx
    exact ⟨fun _ => ⟨Nat.zero_le _, fun _ => ⟨by simp, by simpa using hidx⟩, by simp [positions]⟩,
      fun _ => ⟨st, rfl⟩⟩
  | cons val vals ih =>
    intro st hidx
    rw [List.foldlM_cons, List.length_cons]
    cases hruns : varints (raw.drop st.cursor) with
    | nil =>
      have hread := readVarint_of_nil b hruns
      simp [applyFlag, hread, GapsFit]
    | cons run rest =>
      obtain ⟨hok, hpanic⟩ := applyFlag_of_cons b val hruns
      by_cases hfit : GapFits b st.target.length st.currentIdx run
      · obtain ⟨target, hstep, hlen⟩ := hok hfit
        obtain ⟨-, hrest⟩ := readVarint_of_cons b hruns
        rw [hstep, ok_bind, ih _ (Nat.mod_lt _ (by decide)), hrest, hlen, gapsFit_cons hfit]
      · obtain ⟨target, hstep⟩ := hpanic hfit
        rw [hstep, error_bind]
        constructor
        · rintro ⟨_, h⟩
          cases h
        · rintro ⟨-, hchk, hroom⟩
          simp only [List.take_succ_cons, List.map_cons, List.sum_cons, positions] at hchk hroom
          refine absurd ⟨fun hc => ?_, hroom _ List.mem_cons_self⟩ hfit
          exact ⟨(hchk hc).1 run List.mem_cons_self, by have := (hchk hc).2; omega⟩

theorem foldlM_applyFlag_length (b : Build) (raw : List UInt8) : ∀ (vals : List UInt8)
    (st st' : SparseState), vals.foldlM (applyFlag b raw) st = .ok st' →
    st'.target.length = grownLen st.target.length
      (positions st.currentIdx ((varints (raw.drop st.cursor)).take vals.length)) := by
  intro vals
  induction vals with
  | nil =>
    intro st st' h
    cases h
    rfl
  | cons val vals ih =>
    intro st st' h
    rw [List.foldlM_cons, bind_eq_ok] at h
    obtain ⟨st₁, hstep, hrun⟩ := h
    cases hruns : varints (raw.drop st.cursor) with
    | nil =>
      rw [applyFlag, readVarint_of_nil b hruns] at hstep
      cases hstep
    | cons run rest =>
      obtain ⟨hok, hpanic⟩ := applyFlag_of_cons b val hruns
      by_cases hfit : GapFits b st.target.length st.currentIdx run
      · obtain ⟨target, hstep', hlen⟩ := hok hfit
        obtain rfl := Except.ok.inj (hstep.symm.trans hstep')
        obtain ⟨-, hrest⟩ := readVarint_of_cons b hruns
        rw [ih _ _ hrun, hrest, hlen]
        rfl
      · obtain ⟨target, hstep'⟩ := hpanic hfit
        cases hstep.symm.trans hstep'

/-- The payload of a participation delta can be applied to `len` flags. -/
def ParticipationFits (b : Build) (len : Nat) : ParticipationDiff → Prop
  | .allZeros _ => True
  | .sparse sparseIndices newValues extension =>
    GapsFit b len 0 (varints sparseIndices) newValues.length ∧
      (extension = [] ∨
        grownLen len (positions 0 ((varints sparseIndices).take newValues.length)) +
          extension.length ≤ isizeMax)

theorem applyParticipationIter_isOk {b : Build} {target : List UInt8} {d : ParticipationDiff} :
    (∃ out, applyParticipationIter b target d = .ok out) ↔
      ParticipationFits b target.length d := by
  cases d with
  | allZeros len => exact ⟨fun _ => trivial, fun _ => ⟨target, rfl⟩⟩
  | sparse sparseIndices newValues extension =>
    have h := foldlM_applyFlag_isOk b sparseIndices newValues ⟨target, 0, 0⟩ (Nat.two_pow_pos 64)
    have hlen := foldlM_applyFlag_length b sparseIndices newValues ⟨target, 0, 0⟩
    rw [List.drop_zero] at h hlen
    rw [ParticipationFits, ← h, applyParticipationIter]
    constructor
    · rintro ⟨out, hout⟩
      obtain ⟨st, hst, hext⟩ := bind_eq_ok.1 hout
      rw [← hlen st hst]
      exact ⟨⟨st, hst⟩, (foldlM_pushWithin_eq_ok.1 hext).1⟩
    · rintro ⟨⟨st, hst⟩, hext⟩
      rw [← hlen st hst] at hext
      exact ⟨_, bind_eq_ok.2 ⟨st, hst, foldlM_pushWithin_eq_ok.2 ⟨hext, rfl⟩⟩⟩

/-! ## Inactivity scores -/

/-- The loop of `diff_inactivity` from index `i` on. -/
def changedScores : Nat → List (UInt64 × UInt64) → List (UInt32 × UInt64)
  | _, [] => []
  | i, (v1, v2) :: rest =>
    if v1 ≠ v2 then (UInt32.ofNat i, v2) :: changedScores (i + 1) rest
    else changedScores (i + 1) rest

def diffInactivity (base target : List UInt64) : InactivityDiff :=
  let targetIsZero := target.all (· == 0)
  if targetIsZero && base.any (· != 0) then .allZeros (UInt32.ofNat target.length)
  else
    let commonLen := min base.length target.length
    let changed := changedScores 0 ((base.zip target).take commonLen)
    .sparse (changed.map Prod.fst) (changed.map Prod.snd) (target.drop commonLen)

def applyInactivity (base : List UInt64) : InactivityDiff → Exec (List UInt64) (List UInt64)
  | .allZeros len => .ok (List.replicate len.toNat 0)
  | .sparse indices newValues extensions => do
    let base ← ((indices.zip newValues).map fun p => (p.1.toNat, p.2)).foldlM writeAt base
    .ok (base ++ extensions)

/-- The payload of an inactivity delta can be applied to `len` scores. -/
def InactivityFits (len : Nat) : InactivityDiff → Prop
  | .allZeros _ => True
  | .sparse indices newValues _ => ∀ p ∈ indices.zip newValues, p.1.toNat < len

theorem applyInactivity_isOk {base : List UInt64} {d : InactivityDiff} :
    (∃ out, applyInactivity base d = .ok out) ↔ InactivityFits base.length d := by
  cases d with
  | allZeros len => exact ⟨fun _ => trivial, fun _ => ⟨_, rfl⟩⟩
  | sparse indices newValues extensions =>
    constructor
    · rintro ⟨out, hout⟩
      obtain ⟨base', hbase', -⟩ := bind_eq_ok.1 hout
      intro p hp
      exact (foldlM_writeAt_eq_ok.1 hbase').1 _ (List.mem_map_of_mem hp)
    · intro hfit
      refine ⟨_, bind_eq_ok.2 ⟨_, foldlM_writeAt_eq_ok.2 ⟨?_, rfl⟩, rfl⟩⟩
      rintro w hw
      obtain ⟨p, hp, rfl⟩ := List.mem_map.mp hw
      exact hfit p hp

theorem foldlM_changedScores (suf : List UInt64) : ∀ (pairs : List (UInt64 × UInt64))
    (pre : List UInt64), pre.length + pairs.length ≤ 2 ^ 32 →
    ((changedScores pre.length pairs).map fun p => (p.1.toNat, p.2)).foldlM writeAt
      (pre ++ (pairs.map Prod.fst ++ suf)) = .ok (pre ++ (pairs.map Prod.snd ++ suf)) := by
  intro pairs
  induction pairs with
  | nil =>
    intro pre _
    rfl
  | cons p pairs ih =>
    intro pre hmax
    obtain ⟨v, w⟩ := p
    rw [List.length_cons] at hmax
    have ih := ih (pre ++ [w]) (by simp; omega)
    have hpre : (pre ++ [w]).length = pre.length + 1 := by simp
    rw [hpre] at ih
    by_cases hvw : v ≠ w
    · have hidx : (UInt32.ofNat pre.length).toNat = pre.length :=
        UInt32.toNat_ofNat_of_lt' (show _ < 2 ^ 32 by omega)
      rw [changedScores, if_pos hvw, List.map_cons, List.map_cons, List.foldlM_cons, hidx, writeAt,
        if_pos (by simp), ok_bind]
      simpa using ih
    · obtain rfl : v = w := not_not.mp hvw
      rw [changedScores, if_neg hvw]
      simpa using ih

/-- **What `apply_inactivity` makes of an encoder's delta**: zeros when the scores were reset, and
the base overlaid with the target otherwise. -/
theorem applyInactivity_eq {base target : List UInt64} (hmax : target.length < 2 ^ 32) :
    applyInactivity base (diffInactivity base target) =
      .ok (if target.all (· == 0) && base.any (· != 0) then target else overlay base target) := by
  simp only [diffInactivity]
  by_cases hreset : (target.all (· == 0) && base.any (· != 0)) = true
  · rw [if_pos hreset, if_pos hreset, applyInactivity, UInt32.toNat_ofNat_of_lt' hmax]
    rw [Bool.and_eq_true] at hreset
    rw [replicate_zero_of_all hreset.1]
  · have hzip : (base.zip target).take (min base.length target.length) = base.zip target := by
      rw [← List.length_zip, List.take_length]
    have hfold := foldlM_changedScores (base.drop target.length) (base.zip target) []
      (by rw [List.length_nil, List.length_zip]; omega)
    rw [List.length_nil, List.nil_append, List.nil_append, map_fst_zip_append_drop] at hfold
    have hpairs : ((changedScores 0 (base.zip target)).map Prod.fst).zip
        ((changedScores 0 (base.zip target)).map Prod.snd) = changedScores 0 (base.zip target) := by
      rw [List.zip_map', List.map_id']
    rw [if_neg hreset, if_neg hreset, hzip, applyInactivity, hpairs, hfold, ok_bind, overlay]

theorem applyInactivity_diffInactivity {base target : List UInt64}
    (hle : base.length ≤ target.length) (hmax : target.length < 2 ^ 32) :
    applyInactivity base (diffInactivity base target) = .ok target := by
  rw [applyInactivity_eq hmax, overlay_of_le hle, ite_self]

/-- **Inactivity scores, exactly**: the delta of two lists always applies, and gives the target iff
the base is not the longer list or all its scores, one of them non-zero, were reset. -/
theorem inactivity_round_trip_iff {base target : List UInt64} (hmax : target.length < 2 ^ 32) :
    ∃ out, applyInactivity base (diffInactivity base target) = .ok out ∧
      (out = target ↔ base.length ≤ target.length ∨
        ((∀ v ∈ target, v = 0) ∧ ∃ v ∈ base, v ≠ 0)) := by
  refine ⟨_, applyInactivity_eq hmax, ?_⟩
  have hreset : ((∀ v ∈ target, v = 0) ∧ ∃ v ∈ base, v ≠ 0) ↔
      (target.all (· == 0) && base.any (· != 0)) = true := by simp
  rw [hreset]
  by_cases h : (target.all (· == 0) && base.any (· != 0)) = true
  · rw [if_pos h]
    exact ⟨fun _ => Or.inr h, fun _ => rfl⟩
  · rw [if_neg h, overlay_eq_iff, or_iff_left h]

/-- Two scores are dropped and the rest reset: the longer base comes back as the target. -/
theorem inactivity_round_trip_reset : ∃ out,
    applyInactivity [4, 0, 7] (diffInactivity [4, 0, 7] [0]) = .ok out ∧ out = [0] := by
  obtain ⟨out, hout, hiff⟩ := inactivity_round_trip_iff (show [(0 : UInt64)].length < 2 ^ 32 by simp)
  exact ⟨out, hout, hiff.2 (Or.inr ⟨by simp, 4, by simp⟩)⟩

end EthStateDiff
