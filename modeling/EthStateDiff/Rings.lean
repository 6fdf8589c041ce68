import EthStateDiff.Lib.Overwrite
import EthStateDiff.Types
/-!
# Ring-buffer deltas (`recent_roots.rs`, `randao_mixes.rs`, `slashings.rs`)

| here | there | window |
| --- | --- | --- |
| `diffRoots`, `applyRoots` | recent_roots.rs:118, :203 | slots `base..target` |
| `diffRandao`, `applyRandao` | randao_mixes.rs:128, :220 | epochs `base..=target` |
| `diffSlashings`, `applySlashings` | slashings.rs:137, :246 | epochs `base + 1..=target` |

All three read the window off the target ring and replay it over the base ring; they differ in
where the window begins and ends and in whether unchanged entries are stored. The theorem about
each says exactly which rings it reconstructs.

* `diffRoots_reconstructs`, `diffRandao_reconstructs`, `diffSlashings_reconstructs` — the target
  comes back iff the two rings agree outside the window.
* `diffRootsMachine_eq` — the slots of a root delta never overflow.
* `roots_capacity_overflow`, `randao_capacity_overflow` — transitions too long for a `Vec`.
* `roots_round_trip_iff`, `randao_round_trip_iff`, `slashings_round_trip_iff` — the round trips.
* `applyRoots_isOk`, `applyRandao_isOk`, `applySlashings_isOk` — when a replay panics.
-/

namespace EthStateDiff

open Rust ByteString Overwrite

/-! ## Recent roots -/

def diffRoots (baseSlot targetSlot : UInt64) (buffer : List (Bytes 32)) : Option RootsDiff :=
  if targetSlot < baseSlot then none
  else if buffer = [] then none
  else do
    let span := targetSlot.toNat - baseSlot.toNat
    let _ ← withCapacity 32 span
    let roots ← readRing buffer (List.range' baseSlot.toNat span)
    some { roots }

/-- The loop of `apply_roots`, from root `i` on. -/
def applyRootsLoop (b : Build) (baseSlot : UInt64) (capacity : Nat) :
    Nat → List (Bytes 32) → List (Bytes 32) → Exec (List (Bytes 32)) (List (Bytes 32))
  | _, [], buffer => .ok buffer
  | i, root :: roots, buffer => do
    let slot ← orPanic buffer (b.addUsize baseSlot.toNat i)
    let buffer ← writeAt buffer (slot % capacity, root)
    applyRootsLoop b baseSlot capacity (i + 1) roots buffer

def applyRoots (b : Build) (baseSlot : UInt64) (baseBuffer : List (Bytes 32)) (d : RootsDiff) :
    Exec (List (Bytes 32)) (List (Bytes 32)) :=
  if baseBuffer = [] then .error baseBuffer
  else applyRootsLoop b baseSlot baseBuffer.length 0 d.roots baseBuffer

theorem applyRootsLoop_eq (b : Build) (baseSlot : UInt64) (capacity : Nat) :
    ∀ (i : Nat) (roots buffer : List (Bytes 32)), baseSlot.toNat + i + roots.length ≤ 2 ^ 64 →
    applyRootsLoop b baseSlot capacity i roots buffer =
      (ringWrites capacity (List.range' (baseSlot.toNat + i) roots.length) roots).foldlM
        writeAt buffer
  | i, [], buffer, _ => rfl
  | i, root :: roots, buffer, h => by
    rw [List.length_cons] at h
    rw [applyRootsLoop, b.addUsize_of_lt (by omega), orPanic_some, ok_bind, List.length_cons,
      List.range'_succ, ringWrites, List.foldlM_cons]
    cases hw : writeAt buffer ((baseSlot.toNat + i) % capacity, root) with
    | error buf => rfl
    | ok buffer' =>
      rw [ok_bind, ok_bind, applyRootsLoop_eq b baseSlot capacity (i + 1) roots buffer' (by omega)]
      rfl

/-- With overflow checks a slot past `u64::MAX` ends the replay. -/
theorem applyRootsLoop_overflow {b : Build} (hb : b.overflowChecks = true) (baseSlot : UInt64)
    (capacity : Nat) : ∀ (i : Nat) (roots buffer : List (Bytes 32)), roots ≠ [] →
    2 ^ 64 < baseSlot.toNat + i + roots.length →
    ∀ out, applyRootsLoop b baseSlot capacity i roots buffer ≠ .ok out
  | i, [], _, hne, _ => absurd rfl hne
  | i, root :: roots, buffer, _, h => by
    intro out hout
    rw [List.length_cons] at h
    rw [applyRootsLoop, bind_eq_ok] at hout
    obtain ⟨slot, hslot, hout⟩ := hout
    have hlt : baseSlot.toNat + i < 2 ^ 64 := by
      rw [orPanic_eq_ok, Build.addUsize, Build.arith_eq_some] at hslot
      simpa using hslot.1 hb
    rw [bind_eq_ok] at hout
    obtain ⟨buffer', -, hout⟩ := hout
    have hne : roots ≠ [] := by
      rintro rfl
      simp only [List.length_nil] at h
      omega
    exact applyRootsLoop_overflow hb baseSlot capacity (i + 1) roots buffer' hne (by omega) out hout

theorem applyRootsLoop_wrapping {b : Build} (hb : b.overflowChecks = false) (baseSlot : UInt64)
    (capacity : Nat) (hcap : 0 < capacity) : ∀ (i : Nat) (roots buffer : List (Bytes 32)),
    buffer.length = capacity → ∃ out, applyRootsLoop b baseSlot capacity i roots buffer = .ok out
  | _, [], buffer, _ => ⟨buffer, rfl⟩
  | i, root :: roots, buffer, hlen => by
    have hadd : b.addUsize baseSlot.toNat i = some ((baseSlot.toNat + i) % 2 ^ 64) :=
      b.arith_of_fits (by simp [hb])
    have hpos : (baseSlot.toNat + i) % 2 ^ 64 % capacity < buffer.length := by
      rw [hlen]
      exact Nat.mod_lt _ hcap
    rw [applyRootsLoop, hadd, orPanic_some, ok_bind, writeAt, if_pos hpos, ok_bind]
    exact applyRootsLoop_wrapping hb baseSlot capacity hcap (i + 1) roots _
      (by rw [List.length_set, hlen])

theorem ringWrites_lt {α : Type} {cap : Nat} (hcap : 0 < cap) : ∀ {seqs : List Nat} {vals : List α},
    ∀ w ∈ ringWrites cap seqs vals, w.1 < cap
  | [], _, _, h => by simp [ringWrites] at h
  | _ :: _, [], _, h => by simp [ringWrites] at h
  | s :: seqs, v :: vals, w, h => by
    rcases List.mem_cons.mp h with rfl | h
    · exact Nat.mod_lt _ hcap
    · exact ringWrites_lt hcap w h

theorem foldlM_ringWrites {α : Type} {buffer : List α} (hne : buffer ≠ []) (seqs : List Nat)
    (vals : List α) : (ringWrites buffer.length seqs vals).foldlM writeAt buffer =
      .ok (writeAll buffer (ringWrites buffer.length seqs vals)) :=
  foldlM_writeAt_eq_ok.2 ⟨ringWrites_lt (List.length_pos_iff.2 hne), rfl⟩

theorem applyRoots_isOk {b : Build} {baseSlot : UInt64} {baseBuffer : List (Bytes 32)}
    {d : RootsDiff} : (∃ out, applyRoots b baseSlot baseBuffer d = .ok out) ↔
      baseBuffer ≠ [] ∧ (b.overflowChecks = true → baseSlot.toNat + d.roots.length ≤ 2 ^ 64) := by
  unfold applyRoots
  by_cases hne : baseBuffer = []
  · simp [hne]
  rw [if_neg hne]
  by_cases hfit : baseSlot.toNat + d.roots.length ≤ 2 ^ 64
  · rw [applyRootsLoop_eq b baseSlot _ 0 d.roots _ (by omega), foldlM_ringWrites hne]
    exact ⟨fun _ => ⟨hne, fun _ => hfit⟩, fun _ => ⟨_, rfl⟩⟩
  · cases hb : b.overflowChecks with
    | false =>
      have hok := applyRootsLoop_wrapping hb baseSlot baseBuffer.length (List.length_pos_iff.2 hne)
        0 d.roots baseBuffer rfl
      exact ⟨fun _ => ⟨hne, by simp⟩, fun _ => hok⟩
    | true =>
      have hroots : d.roots ≠ [] := by
        intro h
        have := baseSlot.toNat_lt
        rw [h, List.length_nil] at hfit
        omega
      refine ⟨?_, fun h => absurd (h.2 rfl) hfit⟩
      rintro ⟨out, hout⟩
      exact absurd hout (applyRootsLoop_overflow hb baseSlot _ 0 d.roots _ hroots (by omega) out)

/-- The most entries of 32 bytes that a `Vec` holds. -/
theorem withCapacity_roots {n : Nat} {u : Unit} : withCapacity 32 n = some u ↔ n < 2 ^ 58 := by
  rw [withCapacity_eq_some, isizeMax]
  omega

theorem diffRoots_eq_some {baseSlot targetSlot : UInt64} {buffer : List (Bytes 32)} {d : RootsDiff} :
    diffRoots baseSlot targetSlot buffer = some d ↔
      baseSlot ≤ targetSlot ∧ buffer ≠ [] ∧ targetSlot.toNat - baseSlot.toNat < 2 ^ 58 ∧
        readRing buffer (List.range' baseSlot.toNat (targetSlot.toNat - baseSlot.toNat)) =
          some d.roots := by
  unfold diffRoots
  by_cases hle : targetSlot < baseSlot
  · simp [hle, UInt64.not_le]
  · by_cases hne : buffer = []
    · simp [hne]
    · rw [if_neg hle, if_neg hne]
      simp only [Option.bind_eq_bind, Option.bind_eq_some_iff, withCapacity_roots,
        Option.some.injEq]
      constructor
      · rintro ⟨-, hspan, roots, hroots, rfl⟩
        exact ⟨UInt64.not_lt.mp hle, hne, hspan, hroots⟩
      · rintro ⟨-, -, hspan, hroots⟩
        exact ⟨(), hspan, _, hroots, rfl⟩

theorem length_readRing {α : Type} {buf vals : List α} {seqs : List Nat}
    (h : readRing buf seqs = some vals) : vals.length = seqs.length := by
  have := congrArg List.length (readRing_eq_some.1 h)
  simpa using this.symm

/-- **Root rings**: a target at or after the base is reconstructed iff the rings agree outside
the slots `base..target`. -/
theorem diffRoots_reconstructs (b : Build) {baseSlot targetSlot : UInt64}
    {base target : List (Bytes 32)} (hle : baseSlot ≤ targetSlot)
    (hspan : targetSlot.toNat - baseSlot.toNat < 2 ^ 58)
    (hlen : base.length = target.length) (hne : target ≠ []) :
    ∃ d, diffRoots baseSlot targetSlot target = some d ∧
      (applyRoots b baseSlot base d = .ok target ↔
        AgreeOff (ringWindow target.length baseSlot.toNat targetSlot.toNat) base target) := by
  have hbase := ne_nil_of_length_eq hlen hne
  have hnat : baseSlot.toNat ≤ targetSlot.toNat := UInt64.le_iff_toNat_le.mp hle
  have hmax := targetSlot.toNat_lt
  obtain ⟨roots, hroots⟩ := readRing_total hne
    (List.range' baseSlot.toNat (targetSlot.toNat - baseSlot.toNat))
  refine ⟨⟨roots⟩, diffRoots_eq_some.2 ⟨hle, hne, hspan, hroots⟩, ?_⟩
  have hcount : roots.length = targetSlot.toNat - baseSlot.toNat := by
    rw [length_readRing hroots, List.length_range']
  have happly : applyRoots b baseSlot base ⟨roots⟩ = .ok (writeAll base
      (ringWrites target.length (List.range' baseSlot.toNat (targetSlot.toNat - baseSlot.toNat))
        roots)) := by
    rw [applyRoots, if_neg hbase, applyRootsLoop_eq b baseSlot _ 0 roots base (by omega),
      foldlM_ringWrites hbase, hlen, Nat.add_zero, hcount]
  rw [happly, Except.ok.injEq, writeAll_ringWrites_iff hlen hroots,
    Nat.add_sub_of_le hnat]

/-- The root whose bytes are all `v`. -/
def filled (v : UInt8) : Bytes 32 := ⟨List.replicate 32 v, rfl⟩

/-- The loop of `diff_roots` in the machine's arithmetic: `n` more roots, from the `i`-th on. -/
def collectRoots (b : Build) (baseSlot : UInt64) (buffer : List (Bytes 32)) :
    Nat → Nat → Option (List (Bytes 32))
  | _, 0 => some []
  | i, n + 1 => do
    let slot ← b.addUsize baseSlot.toNat i
    let root ← buffer[slot % buffer.length]?
    let roots ← collectRoots b baseSlot buffer (i + 1) n
    some (root :: roots)

/-- `diff_roots` with every difference and sum as the machine computes it; `diffRoots` works on
exact numbers. -/
def diffRootsMachine (b : Build) (baseSlot targetSlot : UInt64) (buffer : List (Bytes 32)) :
    Option RootsDiff :=
  if targetSlot < baseSlot then none
  else if buffer = [] then none
  else do
    let span ← b.subU64 targetSlot baseSlot
    let _ ← withCapacity 32 span.toNat
    let roots ← collectRoots b baseSlot buffer 0 span.toNat
    some { roots }

theorem collectRoots_eq (b : Build) (baseSlot : UInt64) (buffer : List (Bytes 32)) :
    ∀ (n i : Nat), baseSlot.toNat + i + n ≤ 2 ^ 64 →
    collectRoots b baseSlot buffer i n =
      readRing buffer (List.range' (baseSlot.toNat + i) n) := by
  intro n
  induction n with
  | zero =>
    intro i _
    rfl
  | succ n ih =>
    intro i h
    rw [collectRoots, b.addUsize_of_lt (by omega), ih (i + 1) (by omega), List.range'_succ,
      readRing]
    rfl

/-- **No slot overflows in the encoder**: the machine computes the exact numbers. -/
theorem diffRootsMachine_eq (b : Build) (baseSlot targetSlot : UInt64)
    (buffer : List (Bytes 32)) :
    diffRootsMachine b baseSlot targetSlot buffer = diffRoots baseSlot targetSlot buffer := by
  unfold diffRootsMachine diffRoots
  by_cases hlt : targetSlot < baseSlot
  · rw [if_pos hlt, if_pos hlt]
  · have hle : baseSlot ≤ targetSlot := UInt64.not_lt.mp hlt
    have hnat : baseSlot.toNat ≤ targetSlot.toNat := UInt64.le_iff_toNat_le.mp hle
    have hmax := targetSlot.toNat_lt
    have hspan : (targetSlot - baseSlot).toNat = targetSlot.toNat - baseSlot.toNat :=
      UInt64.toNat_sub_of_le _ _ hle
    rw [if_neg hlt, if_neg hlt]
    split
    · rfl
    · rw [b.subU64_of_le hnat, Option.bind_eq_bind, Option.bind_some, hspan,
        collectRoots_eq b baseSlot buffer _ 0 (by omega)]
      rfl

/-- **Root rings, exactly**: the delta of two slots less than `2^58` apart holds one root for each
slot of `base..target`, none of which overflows. It gives the target iff the rings agree outside
those slots, and so over any base ring once they go all the way round. -/
theorem roots_round_trip_iff {baseSlot targetSlot : UInt64} {base target : List (Bytes 32)}
    (hle : baseSlot ≤ targetSlot) (hspan : targetSlot.toNat - baseSlot.toNat < 2 ^ 58)
    (hlen : base.length = target.length) (hne : target ≠ []) :
    ∃ d, (∀ b, diffRootsMachine b baseSlot targetSlot target = some d) ∧
      d.roots.length = targetSlot.toNat - baseSlot.toNat ∧
      (∀ i < d.roots.length, baseSlot.toNat + i < 2 ^ 64) ∧
      ∀ b, (∃ out, applyRoots b baseSlot base d = .ok out) ∧
        (applyRoots b baseSlot base d = .ok target ↔
          AgreeOff (ringWindow target.length baseSlot.toNat targetSlot.toNat) base target) ∧
        (target.length ≤ targetSlot.toNat - baseSlot.toNat →
          applyRoots b baseSlot base d = .ok target) := by
  have hnat : baseSlot.toNat ≤ targetSlot.toNat := UInt64.le_iff_toNat_le.mp hle
  have hmax := targetSlot.toNat_lt
  obtain ⟨d, hd, -⟩ := diffRoots_reconstructs Build.dev hle hspan hlen hne
  obtain ⟨-, -, -, hroots⟩ := diffRoots_eq_some.1 hd
  have hcount := length_readRing hroots
  rw [List.length_range'] at hcount
  refine ⟨d, fun b => by rw [diffRootsMachine_eq, hd], hcount, fun i hi => by omega, fun b => ?_⟩
  obtain ⟨d', hd', hiff⟩ := diffRoots_reconstructs b hle hspan hlen hne
  obtain rfl : d = d' := Option.some.inj (hd.symm.trans hd')
  refine ⟨applyRoots_isOk.2 ⟨ne_nil_of_length_eq hlen hne, fun _ => by omega⟩, hiff, fun hfull => ?_⟩
  exact hiff.2 (agreeOff_of_full (by omega))

/-- Slots 3, 4 and 5 on a four-entry ring: position 2 keeps the base's root. -/
theorem roots_round_trip_wrapped : ∃ d,
    diffRootsMachine Build.dev 3 6 [filled 8, filled 9, filled 1, filled 7] = some d ∧
    applyRoots Build.dev 3 (List.replicate 4 (filled 1)) d =
      .ok [filled 8, filled 9, filled 1, filled 7] := by
  have hlen : (List.replicate 4 (filled 1)).length =
      [filled 8, filled 9, filled 1, filled 7].length := rfl
  obtain ⟨d, hd, -, -, h⟩ := roots_round_trip_iff (show (3 : UInt64) ≤ 6 by decide) (by decide)
    hlen (by simp)
  refine ⟨d, hd _, (h _).2.1.2 ?_⟩
  rintro i hi hout
  match i, hi with
  | 0, _ => exact absurd ⟨4, by decide, by decide, rfl⟩ hout
  | 1, _ => exact absurd ⟨5, by decide, by decide, rfl⟩ hout
  | 2, _ => rfl
  | 3, _ => exact absurd ⟨3, by decide, by decide, rfl⟩ hout

/-- The roots of `2^58` slots do not fit a `Vec`: `diff_roots` panics, even on two rings that are
the same. -/
theorem roots_capacity_overflow :
    ¬∀ (b : Build) (baseSlot targetSlot : UInt64) (base target : List (Bytes 32)),
      baseSlot ≤ targetSlot → base.length = target.length → target ≠ [] →
      ((diffRootsMachine b baseSlot targetSlot target).map (applyRoots b baseSlot base) =
          some (.ok target) ↔
        AgreeOff (ringWindow target.length baseSlot.toNat targetSlot.toNat) base target) := by
  intro h
  have hround := (h Build.release 0 (2 ^ 58) [filled 0] [filled 0] (by decide) rfl (by simp)).2
    fun _ _ _ => rfl
  obtain ⟨d, hd, -⟩ := Option.map_eq_some_iff.1 hround
  rw [diffRootsMachine_eq] at hd
  exact absurd (diffRoots_eq_some.1 hd).2.2.1 (by decide)

/-! ## RANDAO mixes -/

def diffRandao (baseSlot targetSlot : UInt64) (targetBuffer : List (Bytes 32)) :
    Option RandaoDiff :=
  if targetSlot < baseSlot then none
  else if targetBuffer = [] then none
  else do
    let baseEpoch := baseSlot.toNat / SLOTS_PER_EPOCH
    let targetEpoch := targetSlot.toNat / SLOTS_PER_EPOCH
    let _ ← withCapacity 32 (targetEpoch + 1 - baseEpoch)
    let mixes ← readRing targetBuffer (List.range' baseEpoch (targetEpoch + 1 - baseEpoch))
    some { mixes }

/-- The loop of `apply_randao`. The epoch starts below `2^59` and no list of mixes is long enough
to carry it past `u64::MAX`. -/
def applyRandaoLoop (capacity : Nat) :
    Nat → List (Bytes 32) → List (Bytes 32) → Exec (List (Bytes 32)) (List (Bytes 32))
  | _, [], buffer => .ok buffer
  | currentEpoch, mix :: mixes, buffer => do
    let buffer ← writeAt buffer (currentEpoch % capacity, mix)
    applyRandaoLoop capacity (currentEpoch + 1) mixes buffer

def applyRandao (baseSlot : UInt64) (baseBuffer : List (Bytes 32)) (d : RandaoDiff) :
    Exec (List (Bytes 32)) (List (Bytes 32)) :=
  if baseBuffer = [] then .error baseBuffer
  else applyRandaoLoop baseBuffer.length (baseSlot.toNat / SLOTS_PER_EPOCH) d.mixes baseBuffer

theorem applyRandaoLoop_eq (capacity : Nat) : ∀ (epoch : Nat) (mixes buffer : List (Bytes 32)),
    applyRandaoLoop capacity epoch mixes buffer =
      (ringWrites capacity (List.range' epoch mixes.length) mixes).foldlM writeAt buffer
  | _, [], _ => rfl
  | epoch, mix :: mixes, buffer => by
    rw [applyRandaoLoop, List.length_cons, List.range'_succ, ringWrites, List.foldlM_cons]
    cases hw : writeAt buffer (epoch % capacity, mix) with
    | error buf => rfl
    | ok buffer' =>
      rw [ok_bind, ok_bind, applyRandaoLoop_eq capacity (epoch + 1) mixes buffer']

theorem applyRandao_isOk {baseSlot : UInt64} {baseBuffer : List (Bytes 32)} {d : RandaoDiff} :
    (∃ out, applyRandao baseSlot baseBuffer d = .ok out) ↔ baseBuffer ≠ [] := by
  unfold applyRandao
  by_cases hne : baseBuffer = []
  · simp [hne]
  · rw [if_neg hne, applyRandaoLoop_eq, foldlM_ringWrites hne]
    exact ⟨fun _ => hne, fun _ => ⟨_, rfl⟩⟩

theorem epoch_le {baseSlot targetSlot : UInt64} (hle : baseSlot ≤ targetSlot) :
    baseSlot.toNat / 32 ≤ targetSlot.toNat / 32 :=
  Nat.div_le_div_right (UInt64.le_iff_toNat_le.mp hle)

theorem diffRandao_eq_some {baseSlot targetSlot : UInt64} {buffer : List (Bytes 32)}
    {d : RandaoDiff} : diffRandao baseSlot targetSlot buffer = some d ↔
      baseSlot ≤ targetSlot ∧ buffer ≠ [] ∧
        targetSlot.toNat / 32 + 1 - baseSlot.toNat / 32 < 2 ^ 58 ∧
        readRing buffer (List.range' (baseSlot.toNat / 32)
          (targetSlot.toNat / 32 + 1 - baseSlot.toNat / 32)) = some d.mixes := by
  unfold diffRandao
  by_cases hle : targetSlot < baseSlot
  · simp [hle, UInt64.not_le]
  · by_cases hne : buffer = []
    · simp [hne]
    · rw [if_neg hle, if_neg hne]
      simp only [SLOTS_PER_EPOCH, Option.bind_eq_bind, Option.bind_eq_some_iff,
        withCapacity_roots, Option.some.injEq]
      constructor
      · rintro ⟨-, hspan, mixes, hmixes, rfl⟩
        exact ⟨UInt64.not_lt.mp hle, hne, hspan, hmixes⟩
      · rintro ⟨-, -, hspan, hmixes⟩
        exact ⟨(), hspan, _, hmixes, rfl⟩

theorem diffRandao_reconstructs {baseSlot targetSlot : UInt64} {base target : List (Bytes 32)}
    (hle : baseSlot ≤ targetSlot)
    (hspan : targetSlot.toNat / 32 + 1 - baseSlot.toNat / 32 < 2 ^ 58)
    (hlen : base.length = target.length) (hne : target ≠ []) :
    ∃ d, diffRandao baseSlot targetSlot target = some d ∧
      (applyRandao baseSlot base d = .ok target ↔
        AgreeOff (ringWindow target.length (baseSlot.toNat / 32) (targetSlot.toNat / 32 + 1))
          base target) := by
  have hbase := ne_nil_of_length_eq hlen hne
  have hepoch := epoch_le hle
  obtain ⟨mixes, hmixes⟩ := readRing_total hne
    (List.range' (baseSlot.toNat / 32) (targetSlot.toNat / 32 + 1 - baseSlot.toNat / 32))
  have hcount : mixes.length = targetSlot.toNat / 32 + 1 - baseSlot.toNat / 32 := by
    rw [length_readRing hmixes, List.length_range']
  refine ⟨⟨mixes⟩, diffRandao_eq_some.2 ⟨hle, hne, hspan, hmixes⟩, ?_⟩
  have happly : applyRandao baseSlot base ⟨mixes⟩ = .ok (writeAll base (ringWrites target.length
      (List.range' (baseSlot.toNat / 32) (targetSlot.toNat / 32 + 1 - baseSlot.toNat / 32))
      mixes)) := by
    rw [applyRandao, if_neg hbase, applyRandaoLoop_eq, foldlM_ringWrites hbase, hlen, hcount]
    rfl
  rw [happly, Except.ok.injEq, writeAll_ringWrites_iff hlen hmixes, Nat.add_sub_of_le (by omega)]

/-- **RANDAO rings, exactly**: over fewer than `2^58` epochs the target comes back iff the rings
agree outside the epochs `base..=target`. Inside one epoch that epoch's mix is rewritten and no
other; over as many epochs as the ring has entries any base ring will do. -/
theorem randao_round_trip_iff {baseSlot targetSlot : UInt64} {base target : List (Bytes 32)}
    (hle : baseSlot ≤ targetSlot)
    (hspan : targetSlot.toNat / 32 + 1 - baseSlot.toNat / 32 < 2 ^ 58)
    (hlen : base.length = target.length) (hne : target ≠ []) :
    ∃ d, diffRandao baseSlot targetSlot target = some d ∧
      (applyRandao baseSlot base d = .ok target ↔
        AgreeOff {i | ∃ e, baseSlot.toNat / 32 ≤ e ∧ e ≤ targetSlot.toNat / 32 ∧
          i = e % target.length} base target) ∧
      (baseSlot.toNat / 32 = targetSlot.toNat / 32 →
        ∃ mix, target[targetSlot.toNat / 32 % target.length]? = some mix ∧ d.mixes = [mix] ∧
          applyRandao baseSlot base d =
            .ok (base.set (targetSlot.toNat / 32 % target.length) mix)) ∧
      (target.length ≤ targetSlot.toNat / 32 - baseSlot.toNat / 32 →
        applyRandao baseSlot base d = .ok target) := by
  have hepoch := epoch_le hle
  obtain ⟨d, hd, hiff⟩ := diffRandao_reconstructs hle hspan hlen hne
  have hmixes := readRing_eq_some.1 (diffRandao_eq_some.1 hd).2.2.2
  have hwin : ringWindow target.length (baseSlot.toNat / 32) (targetSlot.toNat / 32 + 1) =
      {i | ∃ e, baseSlot.toNat / 32 ≤ e ∧ e ≤ targetSlot.toNat / 32 ∧ i = e % target.length} := by
    ext i
    simp only [ringWindow, Nat.lt_succ_iff, Set.mem_ofPred_eq]
  refine ⟨d, hd, by rw [← hwin]; exact hiff, fun hsame => ?_, fun hfull => ?_⟩
  · -- one epoch, one mix, one write
    rw [hsame, Nat.add_sub_cancel_left] at hmixes
    obtain ⟨mix, hmix⟩ : ∃ mix, d.mixes = [mix] := by
      have hone := congrArg List.length hmixes
      simpa [List.length_eq_one_iff] using hone.symm
    rw [hmix] at hmixes
    simp only [List.range'_one, List.map_cons, List.map_nil, List.cons.injEq, and_true] at hmixes
    have hpos : targetSlot.toNat / 32 % target.length < base.length := by
      rw [hlen]
      exact Nat.mod_lt _ (List.length_pos_iff.2 hne)
    refine ⟨mix, hmixes, hmix, ?_⟩
    simp only [applyRandao, if_neg (ne_nil_of_length_eq hlen hne), hmix, applyRandaoLoop,
      SLOTS_PER_EPOCH, hsame, hlen, writeAt, if_pos (hlen ▸ hpos), ok_bind]
  · exact hiff.2 (agreeOff_of_full (by omega))

/-- Slots 40 and 70 lie in epochs 1 and 2: on a four-entry ring positions 1 and 2 are rewritten. -/
theorem randao_round_trip_two_epochs : ∃ d,
    diffRandao 40 70 [filled 1, filled 8, filled 9, filled 1] = some d ∧
    applyRandao 40 (List.replicate 4 (filled 1)) d =
      .ok [filled 1, filled 8, filled 9, filled 1] := by
  have hlen : (List.replicate 4 (filled 1)).length =
      [filled 1, filled 8, filled 9, filled 1].length := rfl
  obtain ⟨d, hd, hiff, -⟩ := randao_round_trip_iff (show (40 : UInt64) ≤ 70 by decide) (by decide)
    hlen (by simp)
  refine ⟨d, hd, hiff.2 ?_⟩
  rintro i hi hout
  match i, hi with
  | 0, _ | 3, _ => rfl
  | 1, _ => exact absurd ⟨1, by decide, by decide, rfl⟩ hout
  | 2, _ => exact absurd ⟨2, by decide, by decide, rfl⟩ hout

/-- Slots `0` and `u64::MAX` span `2^59` epochs, whose mixes do not fit a `Vec`. -/
theorem randao_capacity_overflow :
    ¬∀ (baseSlot targetSlot : UInt64) (base target : List (Bytes 32)),
      baseSlot ≤ targetSlot → base.length = target.length → target ≠ [] →
      ((diffRandao baseSlot targetSlot target).map (applyRandao baseSlot base) =
          some (.ok target) ↔
        AgreeOff {i | ∃ e, baseSlot.toNat / 32 ≤ e ∧ e ≤ targetSlot.toNat / 32 ∧
          i = e % target.length} base target) := by
  intro h
  have hround := (h 0 0xffffffffffffffff [filled 1] [filled 1] (by decide) rfl (by simp)).2
    fun _ _ _ => rfl
  obtain ⟨d, hd, -⟩ := Option.map_eq_some_iff.1 hround
  exact absurd (diffRandao_eq_some.1 hd).2.2.1 (by decide)

/-! ## Slashings -/

/-- The `while` loop of `diff_slashings`, over the epochs it visits. -/
def diffSlashingsLoop (baseBuffer targetBuffer : List UInt64) :
    List Nat → Option (List (UInt16 × UInt64))
  | [] => some []
  | epoch :: epochs => do
    let idx := epoch % baseBuffer.length
    let baseVal ← baseBuffer[idx]?
    let targetVal ← targetBuffer[idx]?
    let updates ← diffSlashingsLoop baseBuffer targetBuffer epochs
    some (if baseVal ≠ targetVal then (UInt16.ofNat idx, targetVal) :: updates else updates)

def diffSlashings (baseSlot targetSlot : UInt64) (baseBuffer targetBuffer : List UInt64) :
    Option SlashingsDiff :=
  if targetSlot < baseSlot then none
  else if baseBuffer = [] then none
  else if targetBuffer = [] then none
  else if baseBuffer.length ≠ targetBuffer.length then none
  else do
    let baseEpoch := baseSlot.toNat / SLOTS_PER_EPOCH
    let targetEpoch := targetSlot.toNat / SLOTS_PER_EPOCH
    -- the counter is incremented before it is used
    let updates ← diffSlashingsLoop baseBuffer targetBuffer
      (List.range' (baseEpoch + 1) (targetEpoch - baseEpoch))
    some { updates }

/-- The write of one update: `base_buffer[idx] = val`. -/
def slashingWrite (u : UInt16 × UInt64) : Nat × UInt64 := (u.1.toNat, u.2)

def applySlashings (baseBuffer : List UInt64) (d : SlashingsDiff) :
    Exec (List UInt64) (List UInt64) :=
  (d.updates.map slashingWrite).foldlM writeAt baseBuffer

theorem applySlashings_isOk {baseBuffer : List UInt64} {d : SlashingsDiff} :
    (∃ out, applySlashings baseBuffer d = .ok out) ↔
      ∀ u ∈ d.updates, u.1.toNat < baseBuffer.length := by
  have h : (∃ out, applySlashings baseBuffer d = .ok out) ↔
      ∀ w ∈ d.updates.map slashingWrite, w.1 < baseBuffer.length := by
    constructor
    · rintro ⟨out, hout⟩
      exact (foldlM_writeAt_eq_ok.1 hout).1
    · intro hin
      exact ⟨_, foldlM_writeAt_eq_ok.2 ⟨hin, rfl⟩⟩
  rw [h, List.forall_mem_map]
  rfl

/-- What the loop records: target values at window positions, and every window position where
the rings differ. -/
theorem diffSlashingsLoop_spec {base target : List UInt64} (hlen : base.length = target.length)
    (hne : target ≠ []) (hcap : target.length ≤ 65536) : ∀ epochs : List Nat,
    ∃ updates, diffSlashingsLoop base target epochs = some updates ∧
      (∀ w ∈ updates.map slashingWrite, target[w.1]? = some w.2) ∧
      (∀ q ∈ (updates.map slashingWrite).map Prod.fst, q ∈ epochs.map (· % target.length)) ∧
      (∀ q ∈ epochs.map (· % target.length), base[q]? ≠ target[q]? →
        q ∈ (updates.map slashingWrite).map Prod.fst) := by
  intro epochs
  induction epochs with
  | nil =>
    exact ⟨[], rfl, by simp, by simp, by simp⟩
  | cons epoch epochs ih =>
    obtain ⟨updates, hupd, hval, hsub, hdiff⟩ := ih
    have hidx : epoch % target.length < target.length :=
      Nat.mod_lt _ (List.length_pos_iff.2 hne)
    have hb : base[epoch % target.length]? = some base[epoch % target.length] :=
      List.getElem?_eq_getElem (by omega)
    have ht : target[epoch % target.length]? = some target[epoch % target.length] :=
      List.getElem?_eq_getElem hidx
    have hfits : (UInt16.ofNat (epoch % target.length)).toNat = epoch % target.length :=
      UInt16.toNat_ofNat_of_lt' (show _ < 65536 by omega)
    by_cases hsame : base[epoch % target.length] = target[epoch % target.length]
    · -- unchanged entries are not recorded
      refine ⟨updates, by simp [diffSlashingsLoop, hlen, hupd, hidx, hsame], hval, ?_, ?_⟩
      · intro q hq
        exact List.mem_cons_of_mem _ (hsub q hq)
      · intro q hq hne'
        rcases List.mem_cons.mp hq with rfl | hq
        · exact absurd (by rw [hb, ht, hsame]) hne'
        · exact hdiff q hq hne'
    · refine ⟨(UInt16.ofNat (epoch % target.length), target[epoch % target.length]) :: updates,
        by simp [diffSlashingsLoop, hlen, hupd, hidx, hsame], ?_, ?_, ?_⟩
      · intro w hw
        rcases List.mem_cons.mp hw with rfl | hw
        · simp only [slashingWrite, hfits, ht]
        · exact hval w hw
      · intro q hq
        simp only [List.map_cons, List.mem_cons, slashingWrite, hfits] at hq ⊢
        rcases hq with rfl | hq
        · exact Or.inl rfl
        · exact Or.inr (hsub q hq)
      · intro q hq hne'
        simp only [List.map_cons, List.mem_cons, slashingWrite, hfits] at hq ⊢
        rcases hq with rfl | hq
        · exact Or.inl rfl
        · exact Or.inr (hdiff q hq hne')

theorem diffSlashings_reconstructs {baseSlot targetSlot : UInt64} {base target : List UInt64}
    (hle : baseSlot ≤ targetSlot) (hlen : base.length = target.length) (hne : target ≠ [])
    (hcap : target.length ≤ 65536) :
    ∃ d, diffSlashings baseSlot targetSlot base target = some d ∧
      (applySlashings base d = .ok target ↔
        AgreeOff (ringWindow target.length (baseSlot.toNat / 32 + 1) (targetSlot.toNat / 32 + 1))
          base target) := by
  have hbase := ne_nil_of_length_eq hlen hne
  have hepoch := epoch_le hle
  obtain ⟨updates, hupd, hval, hsub, hdiff⟩ := diffSlashingsLoop_spec hlen hne hcap
    (List.range' (baseSlot.toNat / 32 + 1) (targetSlot.toNat / 32 - baseSlot.toNat / 32))
  refine ⟨⟨updates⟩, ?_, ?_⟩
  · rw [diffSlashings, if_neg (UInt64.not_lt.mpr hle), if_neg hbase, if_neg hne,
      if_neg (by simpa using hlen)]
    simp only [SLOTS_PER_EPOCH, hupd, Option.bind_eq_bind, Option.bind_some]
  · have hin : ∀ w ∈ updates.map slashingWrite, w.1 < base.length := by
      intro w hw
      have hlt := (List.getElem?_eq_some_iff.mp (hval w hw)).1
      omega
    have happly : applySlashings base ⟨updates⟩ =
        .ok (writeAll base (updates.map slashingWrite)) := foldlM_writeAt_eq_ok.2 ⟨hin, rfl⟩
    have hwin : ringWindow target.length (baseSlot.toNat / 32 + 1) (targetSlot.toNat / 32 + 1) =
        {i | i ∈ (List.range' (baseSlot.toNat / 32 + 1)
          (targetSlot.toNat / 32 - baseSlot.toNat / 32)).map (· % target.length)} := by
      rw [map_mod_range'_eq_ringWindow]
      congr 1
      omega
    rw [happly, Except.ok.injEq, writeAll_eq_iff hlen hval, hwin]
    constructor
    · intro h
      exact h.mono hsub
    · -- off the recorded positions the rings agree inside the window too
      intro h i hi hmem
      by_cases hw : i ∈ (List.range' (baseSlot.toNat / 32 + 1)
          (targetSlot.toNat / 32 - baseSlot.toNat / 32)).map (· % target.length)
      · by_contra hneq
        exact hmem (hdiff i hw hneq)
      · exact h i hi hw

/-- **The slashing window is `base + 1..=target`**: inside one epoch, over several, or over more
epochs than the ring holds, the target comes back iff nothing outside those epochs changed. -/
theorem slashings_round_trip_iff {baseSlot targetSlot : UInt64} {base target : List UInt64}
    (hle : baseSlot ≤ targetSlot) (hlen : base.length = target.length) (hne : target ≠ [])
    (hcap : target.length ≤ 65536) :
    (diffSlashings baseSlot targetSlot base target).map (applySlashings base) = some (.ok target) ↔
      AgreeOff (ringWindow target.length (baseSlot.toNat / 32 + 1) (targetSlot.toNat / 32 + 1))
        base target := by
  obtain ⟨d, hd, hiff⟩ := diffSlashings_reconstructs hle hlen hne hcap
  rw [hd, Option.map_some, Option.some.injEq]
  exact hiff

theorem slashings_round_trip_two_epochs :
    (diffSlashings 31 64 [1, 2, 3, 4] [1, 20, 30, 4]).map (applySlashings [1, 2, 3, 4]) =
      some (.ok [1, 20, 30, 4]) ∧
    (diffSlashings 31 64 [1, 2, 3, 4] [10, 20, 30, 4]).map (applySlashings [1, 2, 3, 4]) ≠
      some (.ok [10, 20, 30, 4]) := by
  have hiff := slashings_round_trip_iff (show (31 : UInt64) ≤ 64 by decide)
    (show [1, 2, 3, 4].length = [1, 20, 30, 4].length by rfl) (by decide) (by decide)
  refine ⟨hiff.2 ?_, by decide⟩
  intro i hi hwin
  match i, hi with
  | 0, _ | 3, _ => rfl
  | 1, _ => exact absurd ⟨1, by decide, by decide, rfl⟩ hwin
  | 2, _ => exact absurd ⟨2, by decide, by decide, rfl⟩ hwin

/-- A slashing that lands in the base epoch after the base snapshot is lost: here slots 0 and 1
share epoch 0, whose entry grows from 0 to 5. -/
theorem slashings_base_epoch_lost :
    ¬∀ (baseSlot targetSlot : UInt64) (base target : List UInt64), baseSlot ≤ targetSlot →
      base.length = target.length → target ≠ [] → target.length ≤ 65536 →
      AgreeOff (ringWindow target.length (baseSlot.toNat / 32) (targetSlot.toNat / 32 + 1))
        base target →
      (diffSlashings baseSlot targetSlot base target).map (applySlashings base) =
        some (.ok target) := by
  intro h
  have hwin : AgreeOff (ringWindow 1 (0 / 32) (1 / 32 + 1)) [(0 : UInt64)] [5] := by
    intro i hi hnot
    obtain rfl : i = 0 := by simpa using hi
    exact absurd ⟨0, by decide, by decide, rfl⟩ hnot
  exact absurd (h 0 1 [0] [5] (by decide) rfl (by decide) (by decide) hwin) (by decide)

end EthStateDiff
