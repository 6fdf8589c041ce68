import EthStateDiff.Chain
import EthStateDiff.Lib.Checks
/-!
# Builds

The crate is tested in builds with overflow checks and debug assertions, and deployed in builds
without. A check only ever panics, so a result of the former is one of the latter: a created delta,
an applied state, an error and a whole replay.

* `keepsSome_readVarint`, … — one function of an encoder or an applier.
* `create_fewer_checks`, `apply_fewer_checks` — `create` and `apply`.
* `archive_fewer_checks` — **an archive** written in one build and read in another.
-/

namespace EthStateDiff

open Rust ByteString Overwrite Replay

variable {b b' : Build}

/-! ## Varints -/

theorem keepsSome_readVarintLoop (hb : b' ≤ b) : ∀ (bytes : List UInt8) (cursor : Nat)
    (val : UInt64) (shift : Nat),
    KeepsSome (readVarintLoop b bytes cursor val shift) (readVarintLoop b' bytes cursor val shift) := by
  intro bytes
  induction bytes with
  | nil => exact fun _ _ _ => .refl _
  | cons byte bytes ih =>
    intro cursor val shift
    refine (keepsSome_arith hb _ _).bind fun piece => ?_
    split
    · exact .refl _
    · exact ih _ _ _

theorem keepsSome_readVarint (hb : b' ≤ b) (buf : List UInt8) (cursor : Nat) :
    KeepsSome (readVarint b buf cursor) (readVarint b' buf cursor) :=
  keepsSome_readVarintLoop hb _ _ _ _

/-! ## Encoders -/

theorem keepsSome_collectChanges (hb : b' ≤ b) : ∀ (pairs : List (UInt64 × UInt64)) (i : Nat),
    KeepsSome (collectChanges b i pairs) (collectChanges b' i pairs) := by
  intro pairs
  induction pairs with
  | nil => exact fun _ => .refl _
  | cons p pairs ih =>
    intro i
    unfold collectChanges
    split
    · refine (keepsSome_arith hb _ _).bind fun _ => (ih (i + 1)).bind fun _ => .refl _
    · exact ih (i + 1)

theorem keepsSome_encodeChange (hb : b' ≤ b) (mode : Int64) (acc : Encoded) (c : Change) :
    KeepsSome (encodeChange b mode acc c) (encodeChange b' mode acc c) := by
  unfold encodeChange
  split
  · exact .refl _
  split
  · exact .refl _
  split
  · exact (KeepsSome.refl _).bind fun _ => (keepsSome_arith hb _ _).bind fun _ => .refl _
  · exact .refl _

theorem keepsSome_diffBalancesIter (hb : b' ≤ b) (order : HashOrder) (base target : List UInt64) :
    KeepsSome (diffBalancesIter b order base target) (diffBalancesIter b' order base target) :=
  (keepsSome_collectChanges hb _ 0).bind fun changes =>
    (KeepsSome.foldlM (keepsSome_encodeChange hb _) changes _).bind fun _ => .refl _

theorem keepsSome_calculateLogCount (hb : b' ≤ b) (slot : UInt64) (activation : Option UInt64) :
    KeepsSome (calculateLogCount b slot activation) (calculateLogCount b' slot activation) := by
  unfold calculateLogCount
  split
  · split
    · exact .refl _
    · exact (keepsSome_arith hb _ _).bind fun _ => .refl _
  · exact (keepsSome_arith hb _ _).bind fun _ => .refl _

theorem keepsSome_diffHistoricalLog (hb : b' ≤ b) (baseSlot targetSlot : UInt64)
    (target : List UInt8) (size : Nat) (activation : Option UInt64) :
    KeepsSome (diffHistoricalLog b baseSlot targetSlot target size activation)
      (diffHistoricalLog b' baseSlot targetSlot target size activation) := by
  refine (keepsSome_calculateLogCount hb _ _).bind fun _ =>
    (keepsSome_calculateLogCount hb _ _).bind fun _ => (keepsSome_arith hb _ _).bind fun _ => ?_
  split
  · exact .refl _
  · exact (keepsSome_arith hb _ _).bind fun _ =>
      keepsSome_assert hb _ ((keepsSome_arith hb _ _).bind fun _ => .refl _)

theorem keepsSome_mapPanic {α β : Type} {f g : α → Option β} (h : ∀ a, KeepsSome (f a) (g a))
    (o : Option α) : KeepsSome (mapPanic f o) (mapPanic g o) := by
  cases o with
  | none => exact .refl _
  | some a =>
    intro r hr
    obtain ⟨c, hc, hr⟩ := Option.map_eq_some_iff.1 hr
    exact Option.map_eq_some_iff.2 ⟨c, h a c hc, hr⟩

/-- **`create` returns what it returns with more checks.** -/
theorem create_fewer_checks {V₁ V₂ : Type} [ValidatorSnapshot V₁] [ValidatorSnapshot V₂]
    (hb : b' ≤ b) (order : HashOrder) (state : DiffSource V₁ V₂) :
    KeepsSome (create b order state) (create b' order state) := by
  intro d hd
  obtain ⟨h, hasserts⟩ := create_eq_some.1 hd
  refine create_eq_some.2 ⟨{ h with
    balances := keepsSome_diffBalancesIter hb order _ _ _ h.balances
    historicalRoots := ?_
    historicalSummaries := ?_ }, fun hdebug => hasserts (hb.2 hdebug)⟩
  · exact keepsSome_mapPanic (fun log => keepsSome_diffHistoricalLog hb _ _ log _ _) _ _
      h.historicalRoots
  · exact keepsSome_mapPanic (fun log => keepsSome_diffHistoricalLog hb _ _ log _ _) _ _
      h.historicalSummaries

/-! ## Appliers -/

theorem keeps_applyTag (hb : b' ≤ b) (d : BalancesDiff) (st : ApplyState) (tag : UInt8) :
    Keeps (applyTag b d st tag) (applyTag b' d st tag) := by
  unfold applyTag
  split
  · exact .refl _
  split
  · exact .refl _
  split
  · exact .refl _
  split
  · refine ((keepsSome_readVarint hb _ _).orPanic _).bind fun read => ?_
    refine ((keepsSome_arith hb _ _).orPanic _).bind fun diff => (Keeps.refl _).bind fun val => ?_
    exact ((keepsSome_arith hb _ _).orPanic _).bind fun _ => .refl _
  · exact .refl _

theorem keeps_applyBalancesIter (hb : b' ≤ b) (target : List UInt64) (d : BalancesDiff) :
    Keeps (applyBalancesIter b target d) (applyBalancesIter b' target d) := by
  rw [applyBalancesIter_eq, applyBalancesIter_eq]
  exact keeps_assert hb _ _ ((Keeps.foldlM (keeps_applyTag hb d) _ _).bind fun _ => .refl _)

theorem keeps_applyRootsLoop (hb : b' ≤ b) (baseSlot : UInt64) (capacity : Nat) :
    ∀ (roots : List (Bytes 32)) (i : Nat) (buffer : List (Bytes 32)),
    Keeps (applyRootsLoop b baseSlot capacity i roots buffer)
      (applyRootsLoop b' baseSlot capacity i roots buffer) := by
  intro roots
  induction roots with
  | nil => exact fun _ _ => .refl _
  | cons root roots ih =>
    intro i buffer
    exact ((keepsSome_arith hb _ _).orPanic _).bind fun _ => (Keeps.refl _).bind (ih (i + 1))

theorem keeps_applyRoots (hb : b' ≤ b) (baseSlot : UInt64) (buffer : List (Bytes 32))
    (d : RootsDiff) : Keeps (applyRoots b baseSlot buffer d) (applyRoots b' baseSlot buffer d) := by
  unfold applyRoots
  split
  · exact .refl _
  · exact keeps_applyRootsLoop hb _ _ _ _ _

theorem keeps_applyFlag (hb : b' ≤ b) (raw : List UInt8) (st : SparseState) (val : UInt8) :
    Keeps (applyFlag b raw st val) (applyFlag b' raw st val) :=
  ((keepsSome_readVarint hb _ _).orPanic _).bind fun _ =>
    ((keepsSome_arith hb _ _).orPanic _).bind fun _ => .refl _

theorem keeps_applyParticipationIter (hb : b' ≤ b) (target : List UInt8) (d : ParticipationDiff) :
    Keeps (applyParticipationIter b target d) (applyParticipationIter b' target d) := by
  cases d with
  | allZeros len => exact .refl _
  | sparse indices values extension =>
    exact (Keeps.foldlM (keeps_applyFlag hb indices) values _).bind fun _ => .refl _

theorem keeps_applyQueue (hb : b' ≤ b) (base : List UInt8) (d : QueueDiff) (size : Nat) :
    Keeps (applyQueue b base d size) (applyQueue b' base d size) := by
  cases d with
  | fifo consumed appended =>
    exact ((keepsSome_arith hb _ _).orPanic _).bind fun _ => .refl _
  | fullReplacement replacement => exact .refl _

theorem keeps_onBoth {α δ : Type} {run run' : α → δ → Exec α α} (h : ∀ a e, Keeps (run a e) (run' a e))
    (delta : Option δ) (st : Option α) : Keeps (onBoth run delta st) (onBoth run' delta st) := by
  cases st with
  | none => exact .refl _
  | some a =>
    cases delta with
    | none => exact .refl _
    | some e => exact (h a e).mapState some

section

variable {T V : Type} [ValidatorMut V] [ValidatorMutTarget T V]

theorem keeps_applyValidatorsIter (hb : b' ≤ b) (target : T) (d : ValidatorsDiff) :
    Keeps (applyValidatorsIter b target d) (applyValidatorsIter b' target d) :=
  (Keeps.refl _).bind fun target => keeps_assert hb _ target (.refl _)

theorem keeps_applyComponents (hb : b' ≤ b) {F : Type} (d : BeaconStateDelta F) (s : DiffTarget T) :
    Keeps (applyComponents b d s) (applyComponents b' d s) := by
  intro s' hrun
  have h := applyComponents_eq_ok.1 hrun
  exact applyComponents_eq_ok.2 { h with
    balances := keeps_applyBalancesIter hb _ _ _ h.balances
    validators := keeps_applyValidatorsIter hb _ _ _ h.validators
    blockRoots := keeps_applyRoots hb _ _ _ _ h.blockRoots
    stateRoots := keeps_applyRoots hb _ _ _ _ h.stateRoots
    previousParticipation :=
      keeps_onBoth (keeps_applyParticipationIter hb) _ _ _ h.previousParticipation
    currentParticipation :=
      keeps_onBoth (keeps_applyParticipationIter hb) _ _ _ h.currentParticipation
    pendingDeposits := keeps_onBoth (fun q e => keeps_applyQueue hb q e _) _ _ _ h.pendingDeposits
    pendingPartialWithdrawals :=
      keeps_onBoth (fun q e => keeps_applyQueue hb q e _) _ _ _ h.pendingPartialWithdrawals
    pendingConsolidations :=
      keeps_onBoth (fun q e => keeps_applyQueue hb q e _) _ _ _ h.pendingConsolidations }

/-- **`apply` ends as it ends with more checks**, unless one of them panics. -/
theorem apply_fewer_checks (hb : b' ≤ b) {s : DiffTarget T} {d : ArchivedBeaconStateDelta}
    (h : ∀ s', apply b s d ≠ .panic s') : apply b' s d = apply b s d := by
  unfold apply at h ⊢
  cases hfork : d.fork with
  | error e => rfl
  | ok deltaFork =>
    simp only [hfork] at h ⊢
    split
    · rfl
    · rename_i hsame
      rw [if_neg hsame] at h
      cases hfields : validateFields d deltaFork with
      | some e => rfl
      | none =>
        -- only the components see the build
        simp only [hfields] at h ⊢
        cases hrun : applyComponents b d s with
        | ok s' => rw [keeps_applyComponents hb d s s' hrun]
        | error s' =>
          rw [hrun] at h
          exact absurd rfl (h s')

/-! ## Archives -/

variable {V₁ V₂ S : Type} [ValidatorSnapshot V₁] [ValidatorSnapshot V₂]

/-- **An archive outlives its checks**: what one build writes of a chain, and what another one
replays of it from any state, is what builds without some of their checks write and replay. -/
theorem archive_fewer_checks {w w' r r' : Build} (hw : w' ≤ w) (hr : r' ≤ r) (rkyv : Rkyv)
    (order : HashOrder) (src : S → S → DiffSource V₁ V₂) (first : S) (later : List S)
    (deltas : List (BeaconStateDelta ForkName)) (x : DiffTarget T) (states : List (DiffTarget T)) :
    (diffAll (fun B T => create w order (src B T)) first later = some deltas →
      diffAll (fun B T => create w' order (src B T)) first later = some deltas) ∧
    (replay (fun s d => (apply r s (d.archive rkyv)).state?) x deltas = some states →
      replay (fun s d => (apply r' s (d.archive rkyv)).state?) x deltas = some states) := by
  refine ⟨diffAll_mono (fun B T d hd => create_fewer_checks hw order _ d hd) later first deltas,
    replay_mono (fun s d s' hs => ?_) deltas x states⟩
  have hok : ∀ s'', apply r s (d.archive rkyv) ≠ .panic s'' := by
    intro s'' hpanic
    rw [hpanic] at hs
    cases hs
  rw [apply_fewer_checks hr hok]
  exact hs

end

/-- An archive written and replayed in debug builds, and then in release builds. -/
theorem archive_fewer_checks_joining : ∃ deltas,
    diffAll (fun B T => create Build.release ⟨id, fun _ => .refl _⟩ (source 0 B T)) (joining 0)
      [joining 1, joining 2] = some deltas ∧
    replay (fun s d => (apply Build.release s (d.archive .truncating)).state?) (joining 0).state
      deltas = some [(joining 1).state, (joining 2).state] := by
  obtain ⟨deltas, hdeltas, hreplay⟩ := replay_joining .truncating ⟨id, fun _ => .refl _⟩
  obtain ⟨hwrite, hread⟩ := archive_fewer_checks (Build.release_le .dev) (Build.release_le .dev)
    .truncating ⟨id, fun _ => .refl _⟩ (source 0) (joining 0) [joining 1, joining 2] deltas
    (joining 0).state _
  exact ⟨deltas, hwrite hdeltas, hread hreplay⟩

end EthStateDiff
