import EthStateDiff.Chain
import EthStateDiff.Lib.Views
/-!
# Client storage (`lib.rs:311-370`, `lib.rs:853-952`)

`apply` never sees a `Vec` of balances: a client hands it any `ListMutTarget`, say a persistent
tree, of which it asks the length, one entry at a time and room for one more. The models of the
appliers work on lists; here they are once more as the source has them, over any such storage.

| here | there |
| --- | --- |
| `ListMutTarget` | lib.rs:904-920; an entry is read and written back, as through the `&mut` |
| `applyTagOn`, `applyBitsOn`, `applyTagBytesOn`, `applyBalancesIterOn` | balances.rs:270-338 |
| `pushFlagOn`, `growLoop`, `applyFlagOn`, `applyParticipationIterOn` | participation.rs:227-266 |
| `StoredTarget`, `applyComponentsOn`, `applyOn` | a `DiffTarget` and `apply`, lib.rs:694-851 |

* `ListView` — what a `ListMutTarget` documents: it stands for a list.
* `applyBalancesIterOn_view`, `applyParticipationIterOn_view` — one component.
* `applyOn_view` — **`apply` on any storage** is `apply` on the lists it stands for.
-/

namespace EthStateDiff

open Rust ByteString Overwrite

/-! ## The interface -/

class ListMutTarget (T : Type) (α : outParam Type) where
  len : T → Nat
  getMut : T → Nat → Option α
  writeBack : T → Nat → α → T
  push : T → α → T

/-- What `Vec` does. -/
@[reducible] def vecTarget (α : Type) : ListMutTarget (List α) α where
  len := List.length
  getMut target index := target[index]?
  writeBack target index value := target.set index value
  push target value := target ++ [value]

instance : ListMutTarget (List UInt64) UInt64 := vecTarget UInt64
instance : ListMutTarget (List UInt8) UInt8 := vecTarget UInt8

/-- The collection stands for a list, and its operations for those of a list. -/
structure ListView {T α : Type} [ListMutTarget T α] (view : T → List α) : Prop where
  len (t : T) : ListMutTarget.len t = (view t).length
  getMut (t : T) (i : Nat) : ListMutTarget.getMut t i = (view t)[i]?
  writeBack (t : T) (i : Nat) (v : α) : i < (view t).length →
    view (ListMutTarget.writeBack t i v) = (view t).set i v
  push (t : T) (v : α) : view (ListMutTarget.push t v) = view t ++ [v]

section

variable {T α : Type} [ListMutTarget T α] {view : T → List α}

open ListMutTarget

/-- `*target.get_mut(index).unwrap() = value` -/
def writeThrough (target : T) (index : Nat) (value : α) : Exec T T := do
  let _ ← orPanic target (getMut target index)
  .ok (writeBack target index value)

theorem writeThrough_view (h : ListView view) (t : T) (i : Nat) (v : α) :
    mapRun view view (writeThrough t i v) = writeAt (view t) (i, v) := by
  rw [writeThrough, h.getMut, writeAt]
  by_cases hlt : i < (view t).length
  · rw [List.getElem?_eq_getElem hlt, orPanic_some, ok_bind, mapRun_ok, h.writeBack t i v hlt,
      if_pos hlt]
  · rw [List.getElem?_eq_none (by omega), orPanic_none, error_bind, mapRun_error, if_neg hlt]

theorem foldl_push_view (h : ListView view) : ∀ (values : List α) (t : T),
    view (values.foldl push t) = view t ++ values := by
  intro values
  induction values with
  | nil =>
    intro t
    rw [List.foldl_nil, List.append_nil]
  | cons v values ih =>
    intro t
    rw [List.foldl_cons, ih, h.push, List.append_assoc, List.singleton_append]

end

/-! ## Balances -/

/-- The locals of `apply_balances_iter` and the collection it mutates. -/
structure ApplyStateOn (T : Type) where
  target : T
  targetIter : List UInt64
  payloadCursor : Nat
  baseIdx : Nat

def ApplyStateOn.seen {T : Type} (view : T → List UInt64) (st : ApplyStateOn T) : ApplyState :=
  ⟨view st.target, st.targetIter, st.payloadCursor, st.baseIdx⟩

@[simp] theorem ApplyStateOn.seen_baseIdx {T : Type} (view : T → List UInt64)
    (st : ApplyStateOn T) : (st.seen view).baseIdx = st.baseIdx := rfl

section

variable {T : Type} [ListMutTarget T UInt64] {view : T → List UInt64}

open ListMutTarget

def applyTagOn (b : Build) (d : BalancesDiff) (st : ApplyStateOn T) (tag : UInt8) :
    Exec T (ApplyStateOn T) :=
  if tag = SET_NO_CHANGE then .ok { st with baseIdx := st.baseIdx + 1 }
  else if tag = SET_TO_ZERO then do
    let target ← writeThrough st.target st.baseIdx 0
    .ok { st with target, baseIdx := st.baseIdx + 1 }
  else if tag = SET_TO_TARGET_VALUE then
    match st.targetIter with
    | [] => .error st.target
    | v :: vs => do
      let target ← writeThrough st.target st.baseIdx v
      .ok { st with target, targetIter := vs, baseIdx := st.baseIdx + 1 }
  else if tag = SET_TO_DIFF then do
    let read ← orPanic st.target (readVarint b d.varintPayload st.payloadCursor)
    let diff ← orPanic st.target (b.addI64 (zigzagDecode read.1) d.mode)
    let val ← orPanic st.target (getMut st.target st.baseIdx)
    let sum ← orPanic st.target (b.addI64 val.toInt64 diff)
    .ok { st with
      target := writeBack st.target st.baseIdx sum.toUInt64
      payloadCursor := read.2
      baseIdx := st.baseIdx + 1 }
  else .error st.target

def applyBitsOn (b : Build) (d : BalancesDiff) (byte : UInt8) :
    List Nat → ApplyStateOn T → Exec T (ApplyStateOn T)
  | [], st => .ok st
  | bit :: bits, st =>
    if st.baseIdx ≥ d.tags.len then .ok st
    else do
      let st ← applyTagOn b d st (tagOf byte bit)
      applyBitsOn b d byte bits st

def applyTagBytesOn (b : Build) (d : BalancesDiff) :
    List UInt8 → ApplyStateOn T → Exec T (ApplyStateOn T)
  | [], st => .ok st
  | byte :: bytes, st =>
    if st.baseIdx ≥ d.tags.len then .ok st
    else if byte = 0 then
      applyTagBytesOn b d bytes { st with baseIdx := min (st.baseIdx + 4) d.tags.len }
    else do
      let st ← applyBitsOn b d byte [0, 1, 2, 3] st
      applyTagBytesOn b d bytes st

def applyBalancesIterOn (b : Build) (target : T) (d : BalancesDiff) : Exec T T :=
  if b.debugAssertions && len target != d.tags.len then .error target
  else do
    let st ← applyTagBytesOn b d d.tags.data ⟨target, d.targetValues, 0, 0⟩
    .ok (d.appendedBalances.foldl push st.target)

/-- **One tag**, on any storage. -/
theorem applyTagOn_view (h : ListView view) (b : Build) (d : BalancesDiff) (st : ApplyStateOn T)
    (tag : UInt8) :
    mapRun view (ApplyStateOn.seen view) (applyTagOn b d st tag) = applyTag b d (st.seen view) tag := by
  unfold applyTagOn applyTag
  split
  · rfl
  split
  · exact mapRun_bind (writeThrough_view h _ _ _) fun _ => rfl
  split
  · obtain ⟨target, targetIter, payloadCursor, baseIdx⟩ := st
    cases targetIter with
    | nil => rfl
    | cons v vs => exact mapRun_bind (writeThrough_view h _ _ _) fun _ => rfl
  split
  · refine mapRun_bind (mapRun_orPanic view _ _) fun read => ?_
    refine mapRun_bind (mapRun_orPanic view _ _) fun diff => ?_
    rw [h.getMut]
    cases hget : (view st.target)[st.baseIdx]? with
    | none =>
      simp only [ApplyStateOn.seen, hget]
      rfl
    | some val =>
      -- the entry just read is there to be written
      have hlt := (List.getElem?_eq_some_iff.1 hget).1
      simp only [ApplyStateOn.seen, hget, orPanic_some, ok_bind]
      refine mapRun_bind (mapRun_orPanic view _ _) fun sum => ?_
      simp only [id_eq, writeAt, if_pos hlt, ok_bind, mapRun_ok, ApplyStateOn.seen,
        h.writeBack _ _ _ hlt]
  · rfl

theorem applyBitsOn_view (h : ListView view) (b : Build) (d : BalancesDiff) (byte : UInt8) :
    ∀ (bits : List Nat) (st : ApplyStateOn T),
    mapRun view (ApplyStateOn.seen view) (applyBitsOn b d byte bits st) =
      applyBits b d byte bits (st.seen view) := by
  intro bits
  induction bits with
  | nil => exact fun _ => rfl
  | cons bit bits ih =>
    intro st
    rw [applyBitsOn, applyBits, ApplyStateOn.seen_baseIdx]
    by_cases hdone : st.baseIdx ≥ d.tags.len
    · rw [if_pos hdone, if_pos hdone]
      rfl
    · rw [if_neg hdone, if_neg hdone]
      exact mapRun_bind (applyTagOn_view h b d st _) ih

theorem applyTagBytesOn_view (h : ListView view) (b : Build) (d : BalancesDiff) :
    ∀ (bytes : List UInt8) (st : ApplyStateOn T),
    mapRun view (ApplyStateOn.seen view) (applyTagBytesOn b d bytes st) =
      applyTagBytes b d bytes (st.seen view) := by
  intro bytes
  induction bytes with
  | nil => exact fun _ => rfl
  | cons byte bytes ih =>
    intro st
    rw [applyTagBytesOn, applyTagBytes, ApplyStateOn.seen_baseIdx]
    by_cases hdone : st.baseIdx ≥ d.tags.len
    · rw [if_pos hdone, if_pos hdone]
      rfl
    rw [if_neg hdone, if_neg hdone]
    by_cases hzero : byte = 0
    · rw [if_pos hzero, if_pos hzero]
      exact ih _
    · rw [if_neg hzero, if_neg hzero]
      exact mapRun_bind (applyBitsOn_view h b d byte _ st) ih

/-- **Balances on any storage.** -/
theorem applyBalancesIterOn_view (h : ListView view) (b : Build) (t : T) (d : BalancesDiff) :
    mapState view (applyBalancesIterOn b t d) = applyBalancesIter b (view t) d := by
  rw [mapState_eq_mapRun, applyBalancesIterOn, applyBalancesIter, h.len]
  split
  · rfl
  · refine mapRun_bind (applyTagBytesOn_view h b d _ _) fun st => ?_
    rw [mapRun_ok, foldl_push_view h]
    rfl

end

/-! ## Participation -/

/-- The locals of `apply_participation_iter` and the collection it mutates. -/
structure SparseStateOn (T : Type) where
  target : T
  cursor : Nat
  currentIdx : Nat

def SparseStateOn.seen {T : Type} (view : T → List UInt8) (st : SparseStateOn T) : SparseState :=
  ⟨view st.target, st.cursor, st.currentIdx⟩

section

variable {T : Type} [ListMutTarget T UInt8] {view : T → List UInt8}

open ListMutTarget

/-- `target.push(flag)`: flags are full where a `Vec<u8>` is. -/
def pushFlagOn (target : T) (flag : UInt8) : Exec T T :=
  if len target < isizeMax then .ok (push target flag) else .error target

/-- `while target.len() <= current_idx { target.push(0) }`; a round makes the collection one
longer, so `currentIdx + 1` of them are enough (`growLoop_view`). -/
def growLoop (currentIdx : Nat) : Nat → T → Exec T T
  | 0, target => .ok target
  | fuel + 1, target =>
    if len target ≤ currentIdx then do
      let target ← pushFlagOn target 0
      growLoop currentIdx fuel target
    else .ok target

def applyFlagOn (b : Build) (indicesRaw : List UInt8) (st : SparseStateOn T) (val : UInt8) :
    Exec T (SparseStateOn T) := do
  let read ← orPanic st.target (readVarint b indicesRaw st.cursor)
  let currentIdx ← orPanic st.target (b.addUsize st.currentIdx read.1.toNat)
  let grown ← growLoop currentIdx (currentIdx + 1) st.target
  let target ← writeThrough grown currentIdx val
  .ok { target, cursor := read.2, currentIdx }

def applyParticipationIterOn (b : Build) (target : T) : ParticipationDiff → Exec T T
  | .allZeros _ => .ok target
  | .sparse sparseIndices newValues extension => do
    let st ← newValues.foldlM (applyFlagOn b sparseIndices) ⟨target, 0, 0⟩
    extension.foldlM pushFlagOn st.target

theorem pushFlagOn_view (h : ListView view) (t : T) (flag : UInt8) :
    mapRun view view (pushFlagOn t flag) = pushFlag (view t) flag := by
  rw [pushFlagOn, pushFlag, pushWithin, h.len]
  split
  · rw [mapRun_ok, h.push]
  · rfl

theorem growLoop_view (h : ListView view) (currentIdx : Nat) : ∀ (fuel : Nat) (t : T),
    currentIdx + 1 - (view t).length ≤ fuel → mapRun view view (growLoop currentIdx fuel t) =
      (List.replicate (currentIdx + 1 - (view t).length) 0).foldlM pushFlag (view t) := by
  intro fuel
  induction fuel with
  | zero =>
    intro t hfuel
    rw [show currentIdx + 1 - (view t).length = 0 by omega]
    rfl
  | succ fuel ih =>
    intro t hfuel
    rw [growLoop, h.len]
    by_cases hle : (view t).length ≤ currentIdx
    · rw [if_pos hle, show currentIdx + 1 - (view t).length = currentIdx - (view t).length + 1 by omega,
        List.replicate_succ, List.foldlM_cons, pushFlagOn, pushFlag, pushWithin, h.len]
      by_cases hroom : (view t).length < isizeMax
      · have hlen : (view (push t 0)).length = (view t).length + 1 := by
          rw [h.push, List.length_append, List.length_singleton]
        rw [if_pos hroom, if_pos hroom, ok_bind, ok_bind, ih (push t 0) (by omega), hlen, h.push,
          Nat.add_sub_add_right]
      · rw [if_neg hroom, if_neg hroom]
        rfl
    · rw [if_neg hle, show currentIdx + 1 - (view t).length = 0 by omega]
      rfl

theorem applyFlagOn_view (h : ListView view) (b : Build) (raw : List UInt8) (st : SparseStateOn T)
    (val : UInt8) :
    mapRun view (SparseStateOn.seen view) (applyFlagOn b raw st val) =
      applyFlag b raw (st.seen view) val := by
  refine mapRun_bind (mapRun_orPanic view _ _) fun read => ?_
  refine mapRun_bind (mapRun_orPanic view _ _) fun currentIdx => ?_
  refine mapRun_bind (growLoop_view h _ _ _ (Nat.sub_le _ _)) fun grown => ?_
  exact mapRun_bind (writeThrough_view h _ _ _) fun target => rfl

/-- **Participation on any storage.** -/
theorem applyParticipationIterOn_view (h : ListView view) (b : Build) (t : T)
    (d : ParticipationDiff) :
    mapState view (applyParticipationIterOn b t d) = applyParticipationIter b (view t) d := by
  rw [mapState_eq_mapRun]
  cases d with
  | allZeros n => rfl
  | sparse indices values extension =>
    refine mapRun_bind (mapRun_foldlM (applyFlagOn_view h b indices) _ _) fun st => ?_
    exact mapRun_foldlM (pushFlagOn_view h) extension st.target

end

/-! ## `apply` on a client's state -/

/-- A `DiffTarget` whose lists are a client's: `TB` holds its balances, `TP` its participation
flags and `T` its validators. -/
structure StoredTarget (TB TP T : Type) where
  fork : ForkName
  scalarHeader : List UInt8
  balances : TB
  validators : T
  blockRoots : List (Bytes 32)
  stateRoots : List (Bytes 32)
  randaoMixes : List (Bytes 32)
  slashings : List UInt64
  eth1DataVotes : List UInt8
  historicalRoots : Option (List UInt8)
  previousEpochAttestations : Option (List UInt8)
  currentEpochAttestations : Option (List UInt8)
  previousParticipation : Option TP
  currentParticipation : Option TP
  inactivityScores : Option (List UInt64)
  currentSyncCommittee : Option (List UInt8)
  nextSyncCommittee : Option (List UInt8)
  historicalSummaries : Option (List UInt8)
  pendingDeposits : Option (List UInt8)
  pendingPartialWithdrawals : Option (List UInt8)
  pendingConsolidations : Option (List UInt8)

/-- What a client's storage stands for: lists of balances and of flags, and a registry `U`. -/
structure StateView (TB TP T U : Type) {V W : Type} [ListMutTarget TB UInt64]
    [ListMutTarget TP UInt8] [ValidatorMut V] [ValidatorMut W] [ValidatorMutTarget T V]
    [ValidatorMutTarget U W] where
  balances : TB → List UInt64
  participation : TP → List UInt8
  validators : T → U
  record : V → W
  listBalances : ListView balances
  listParticipation : ListView participation
  registry : TargetHom validators record
  pushFromSsz (t : T) (c : Bytes VALIDATOR_SSZ_SIZE) :
    ValidatorMutTarget.pushFromSsz (validators t) c = validators (ValidatorMutTarget.pushFromSsz t c)

def Outcome.map {S S' : Type} (f : S → S') : Outcome S → Outcome S'
  | .ok state => .ok (f state)
  | .err error state => .err error (f state)
  | .panic state => .panic (f state)

section

variable {TB TP T U V W F : Type} [ListMutTarget TB UInt64] [ListMutTarget TP UInt8]
  [ValidatorMut V] [ValidatorMut W] [ValidatorMutTarget T V] [ValidatorMutTarget U W]

def applyComponentsOn (b : Build) (d : BeaconStateDelta F) (state : StoredTarget TB TP T) :
    Exec (StoredTarget TB TP T) (StoredTarget TB TP T) := do
  let s := { state with scalarHeader := d.scalarHeader }
  let s ← onField (·.balances) (fun s x => { s with balances := x })
    (applyBalancesIterOn b · d.balances) s
  let s ← onField (·.validators) (fun s x => { s with validators := x })
    (applyValidatorsIter b · d.validators) s
  let s ← onField (·.blockRoots) (fun s x => { s with blockRoots := x })
    (applyRoots b d.baseSlot · d.blockRoots) s
  let s ← onField (·.stateRoots) (fun s x => { s with stateRoots := x })
    (applyRoots b d.baseSlot · d.stateRoots) s
  let s ← onField (·.randaoMixes) (fun s x => { s with randaoMixes := x })
    (applyRandao d.baseSlot · d.randaoMixes) s
  let s ← onField (·.slashings) (fun s x => { s with slashings := x })
    (applySlashings · d.slashings) s
  let s ← onField (·.eth1DataVotes) (fun s x => { s with eth1DataVotes := x })
    (fun x => .ok (applyEth1Votes x d.eth1DataVotes)) s
  let s ← onField (·.historicalRoots) (fun s x => { s with historicalRoots := x })
    (onBoth (fun x δ => .ok (applyHistoricalLog x δ)) d.historicalRoots) s
  let s ← onField (·.previousEpochAttestations)
    (fun s x => { s with previousEpochAttestations := x })
    (onBoth (fun x δ => .ok (applyAttestations x δ)) d.previousEpochAttestations) s
  let s ← onField (·.currentEpochAttestations)
    (fun s x => { s with currentEpochAttestations := x })
    (onBoth (fun x δ => .ok (applyAttestations x δ)) d.currentEpochAttestations) s
  let s ← onField (·.previousParticipation) (fun s x => { s with previousParticipation := x })
    (onBoth (applyParticipationIterOn b) d.previousParticipation) s
  let s ← onField (·.currentParticipation) (fun s x => { s with currentParticipation := x })
    (onBoth (applyParticipationIterOn b) d.currentParticipation) s
  let s ← onField (·.inactivityScores) (fun s x => { s with inactivityScores := x })
    (onBoth applyInactivity d.inactivityScores) s
  let s ← onField (·.currentSyncCommittee) (fun s x => { s with currentSyncCommittee := x })
    (onBoth (fun x δ => .ok (applySyncCommittee x δ)) d.currentSyncCommittee) s
  let s ← onField (·.nextSyncCommittee) (fun s x => { s with nextSyncCommittee := x })
    (onBoth (fun x δ => .ok (applySyncCommittee x δ)) d.nextSyncCommittee) s
  let s ← onField (·.historicalSummaries) (fun s x => { s with historicalSummaries := x })
    (onBoth (fun x δ => .ok (applyHistoricalLog x δ)) d.historicalSummaries) s
  let s ← onField (·.pendingDeposits) (fun s x => { s with pendingDeposits := x })
    (onBoth (applyQueue b · · PENDING_DEPOSIT_SSZ_SIZE) d.pendingDeposits) s
  let s ← onField (·.pendingPartialWithdrawals)
    (fun s x => { s with pendingPartialWithdrawals := x })
    (onBoth (applyQueue b · · PARTIAL_WITHDRAWAL_SSZ_SIZE) d.pendingPartialWithdrawals) s
  onField (·.pendingConsolidations) (fun s x => { s with pendingConsolidations := x })
    (onBoth (applyQueue b · · PENDING_CONSOLIDATION_SSZ_SIZE) d.pendingConsolidations) s

def applyOn (b : Build) (state : StoredTarget TB TP T) (d : ArchivedBeaconStateDelta) :
    Outcome (StoredTarget TB TP T) :=
  match d.fork with
  | .error e => .err (.malformedDelta ("failed to deserialize fork: " ++ e)) state
  | .ok deltaFork =>
    if state.fork ≠ deltaFork then .err (.forkMismatch state.fork deltaFork) state
    else
      match validateFields d deltaFork with
      | some e => .err e state
      | none =>
        match applyComponentsOn b d state with
        | .ok state => .ok state
        | .error state => .panic state

def StateView.state (view : StateView TB TP T U) (s : StoredTarget TB TP T) : DiffTarget U where
  fork := s.fork
  scalarHeader := s.scalarHeader
  balances := view.balances s.balances
  validators := view.validators s.validators
  blockRoots := s.blockRoots
  stateRoots := s.stateRoots
  randaoMixes := s.randaoMixes
  slashings := s.slashings
  eth1DataVotes := s.eth1DataVotes
  historicalRoots := s.historicalRoots
  previousEpochAttestations := s.previousEpochAttestations
  currentEpochAttestations := s.currentEpochAttestations
  previousParticipation := s.previousParticipation.map view.participation
  currentParticipation := s.currentParticipation.map view.participation
  inactivityScores := s.inactivityScores
  currentSyncCommittee := s.currentSyncCommittee
  nextSyncCommittee := s.nextSyncCommittee
  historicalSummaries := s.historicalSummaries
  pendingDeposits := s.pendingDeposits
  pendingPartialWithdrawals := s.pendingPartialWithdrawals
  pendingConsolidations := s.pendingConsolidations

/-- A component seen through `ψ`, in a state seen through `φ`. -/
theorem onField_view {S S' α β : Type} {φ : S → S'} {ψ : α → β} {get : S → α} {set : S → α → S}
    {get' : S' → β} {set' : S' → β → S'} {run : α → Exec α α} {run' : β → Exec β β} (s : S)
    (hget : get' (φ s) = ψ (get s)) (hset : ∀ a, φ (set s a) = set' (φ s) (ψ a))
    (hrun : mapState ψ (run (get s)) = run' (ψ (get s))) :
    mapState φ (onField get set run s) = onField get' set' run' (φ s) := by
  unfold onField
  rw [hget, ← hrun]
  cases run (get s) with
  | ok a => exact congrArg Except.ok (hset a)
  | error a => exact congrArg Except.error (hset a)

theorem onBoth_view {α β δ : Type} {ψ : α → β} {run : α → δ → Exec α α} {run' : β → δ → Exec β β}
    (h : ∀ a e, mapState ψ (run a e) = run' (ψ a) e) (delta : Option δ) (st : Option α) :
    mapState (Option.map ψ) (onBoth run delta st) = onBoth run' delta (st.map ψ) := by
  cases st with
  | none => rfl
  | some a =>
    cases delta with
    | none => rfl
    | some e =>
      rw [Option.map_some, onBoth, onBoth, ← h]
      cases run a e <;> rfl

theorem applyComponentsOn_view (view : StateView TB TP T U) (b : Build) (d : BeaconStateDelta F)
    (s : StoredTarget TB TP T) :
    mapState view.state (applyComponentsOn b d s) = applyComponents b d (view.state s) := by
  -- a component that clients keep as `Vec`s
  have hsame : ∀ {α : Type} {get : StoredTarget TB TP T → α}
      {set : StoredTarget TB TP T → α → StoredTarget TB TP T} {get' : DiffTarget U → α}
      {set' : DiffTarget U → α → DiffTarget U} {run : α → Exec α α} (s : StoredTarget TB TP T),
      get' (view.state s) = get s → (∀ a, view.state (set s a) = set' (view.state s) a) →
      mapState view.state (onField get set run s) = onField get' set' run (view.state s) :=
    fun s hget hset => onField_view (ψ := id) s hget hset (mapState_id _)
  refine mapState_bind (onField_view _ rfl (fun _ => rfl)
    (applyBalancesIterOn_view view.listBalances b _ _)) fun s => ?_
  refine mapState_bind (onField_view _ rfl (fun _ => rfl)
    (applyValidatorsIter_hom view.registry b _ _ fun c _ t => view.pushFromSsz t c).symm) fun s => ?_
  refine mapState_bind (hsame _ rfl fun _ => rfl) fun s => ?_
  refine mapState_bind (hsame _ rfl fun _ => rfl) fun s => ?_
  refine mapState_bind (hsame _ rfl fun _ => rfl) fun s => ?_
  refine mapState_bind (hsame _ rfl fun _ => rfl) fun s => ?_
  refine mapState_bind (hsame _ rfl fun _ => rfl) fun s => ?_
  refine mapState_bind (hsame _ rfl fun _ => rfl) fun s => ?_
  refine mapState_bind (hsame _ rfl fun _ => rfl) fun s => ?_
  refine mapState_bind (hsame _ rfl fun _ => rfl) fun s => ?_
  refine mapState_bind (onField_view _ rfl (fun _ => rfl)
    (onBoth_view (applyParticipationIterOn_view view.listParticipation b) _ _)) fun s => ?_
  refine mapState_bind (onField_view _ rfl (fun _ => rfl)
    (onBoth_view (applyParticipationIterOn_view view.listParticipation b) _ _)) fun s => ?_
  refine mapState_bind (hsame _ rfl fun _ => rfl) fun s => ?_
  refine mapState_bind (hsame _ rfl fun _ => rfl) fun s => ?_
  refine mapState_bind (hsame _ rfl fun _ => rfl) fun s => ?_
  refine mapState_bind (hsame _ rfl fun _ => rfl) fun s => ?_
  refine mapState_bind (hsame _ rfl fun _ => rfl) fun s => ?_
  refine mapState_bind (hsame _ rfl fun _ => rfl) fun s => ?_
  exact hsame _ rfl fun _ => rfl

end

/-! ## A storage that is no `Vec` -/

/-- Entries latest first. -/
structure Stack (α : Type) where
  entries : List α

instance (α : Type) : ListMutTarget (Stack α) α where
  len t := t.entries.length
  getMut t i := t.entries.reverse[i]?
  writeBack t i v := ⟨(t.entries.reverse.set i v).reverse⟩
  push t v := ⟨v :: t.entries⟩

theorem listView_stack (α : Type) : ListView fun t : Stack α => t.entries.reverse where
  len _ := List.length_reverse.symm
  getMut _ _ := rfl
  writeBack _ _ _ _ := List.reverse_reverse _
  push _ _ := List.reverse_cons

def stackView : StateView (Stack UInt64) (Stack UInt8) ByteValidatorTarget ByteValidatorTarget where
  balances t := t.entries.reverse
  participation t := t.entries.reverse
  validators := id
  record := id
  listBalances := listView_stack UInt64
  listParticipation := listView_stack UInt8
  registry := ⟨⟨fun _ => rfl, fun _ _ => rfl, fun _ _ => rfl, fun _ _ => rfl, fun _ _ => rfl,
    fun _ _ => rfl, fun _ _ => rfl, fun _ _ => rfl⟩, fun _ _ => (congrFun Option.map_id _).symm,
    fun _ _ _ _ _ => rfl⟩
  pushFromSsz _ _ := rfl

/-- A state on stacks. -/
def stacked (s : DiffTarget ByteValidatorTarget) :
    StoredTarget (Stack UInt64) (Stack UInt8) ByteValidatorTarget where
  fork := s.fork
  scalarHeader := s.scalarHeader
  balances := ⟨s.balances.reverse⟩
  validators := s.validators
  blockRoots := s.blockRoots
  stateRoots := s.stateRoots
  randaoMixes := s.randaoMixes
  slashings := s.slashings
  eth1DataVotes := s.eth1DataVotes
  historicalRoots := s.historicalRoots
  previousEpochAttestations := s.previousEpochAttestations
  currentEpochAttestations := s.currentEpochAttestations
  previousParticipation := s.previousParticipation.map fun flags => ⟨flags.reverse⟩
  currentParticipation := s.currentParticipation.map fun flags => ⟨flags.reverse⟩
  inactivityScores := s.inactivityScores
  currentSyncCommittee := s.currentSyncCommittee
  nextSyncCommittee := s.nextSyncCommittee
  historicalSummaries := s.historicalSummaries
  pendingDeposits := s.pendingDeposits
  pendingPartialWithdrawals := s.pendingPartialWithdrawals
  pendingConsolidations := s.pendingConsolidations

theorem state_stacked (s : DiffTarget ByteValidatorTarget) : stackView.state (stacked s) = s := by
  have hflags : ∀ flags : Option (List UInt8), (flags.map fun x => (⟨x.reverse⟩ : Stack UInt8)).map
      stackView.participation = flags := by
    intro flags
    cases flags <;> simp [stackView]
  simp only [StateView.state, stacked, hflags]
  simp [stackView]

end EthStateDiff
