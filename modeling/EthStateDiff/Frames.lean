import EthStateDiff.BeaconState
import EthStateDiff.Lib.Leaves
/-!
# What no application changes (`lib.rs:694-851`)

`apply` may return, refuse the delta or panic half way, and the delta may be anything. Whatever it
did, the state it leaves is one that the old state could have grown into (`Kept`), and so it is
after any number of applications.

| component | what is kept |
| --- | --- |
| rings, slashings | their capacity |
| balances, participation flags | never fewer |
| validators | never fewer bytes, and every public key |
| historical logs | what they held, as a prefix |
| optional components | that they are there, or not |

* `apply_pieces` — what `apply` leaves, component by component: none of them depends on another.
* `leaves_applyRoots`, … — one component, whether its applier returns or panics.
* `apply_kept` — one application; `applyAll_kept` — any run of applications.
-/

namespace EthStateDiff

open Rust ByteString Overwrite

/-! ## Components are independent -/

section

variable {T V F : Type} [ValidatorMut V] [ValidatorMutTarget T V]

/-- Every component of `s'` is that of `s`, or what its own applier made of that. -/
structure Pieces (b : Build) (d : BeaconStateDelta F) (s s' : DiffTarget T) : Prop where
  fork : s'.fork = s.fork
  balances : Remains (applyBalancesIter b s.balances d.balances) s.balances s'.balances
  validators : Remains (applyValidatorsIter b s.validators d.validators) s.validators s'.validators
  blockRoots : Remains (applyRoots b d.baseSlot s.blockRoots d.blockRoots) s.blockRoots s'.blockRoots
  stateRoots : Remains (applyRoots b d.baseSlot s.stateRoots d.stateRoots) s.stateRoots s'.stateRoots
  randaoMixes : Remains (applyRandao d.baseSlot s.randaoMixes d.randaoMixes) s.randaoMixes
    s'.randaoMixes
  slashings : Remains (applySlashings s.slashings d.slashings) s.slashings s'.slashings
  historicalRoots : Remains (onBoth (fun x δ => .ok (applyHistoricalLog x δ)) d.historicalRoots
    s.historicalRoots) s.historicalRoots s'.historicalRoots
  previousEpochAttestations : Remains (onBoth (fun x δ => .ok (applyAttestations x δ))
    d.previousEpochAttestations s.previousEpochAttestations) s.previousEpochAttestations
    s'.previousEpochAttestations
  currentEpochAttestations : Remains (onBoth (fun x δ => .ok (applyAttestations x δ))
    d.currentEpochAttestations s.currentEpochAttestations) s.currentEpochAttestations
    s'.currentEpochAttestations
  previousParticipation : Remains (onBoth (applyParticipationIter b) d.previousParticipation
    s.previousParticipation) s.previousParticipation s'.previousParticipation
  currentParticipation : Remains (onBoth (applyParticipationIter b) d.currentParticipation
    s.currentParticipation) s.currentParticipation s'.currentParticipation
  inactivityScores : Remains (onBoth applyInactivity d.inactivityScores s.inactivityScores)
    s.inactivityScores s'.inactivityScores
  currentSyncCommittee : Remains (onBoth (fun x δ => .ok (applySyncCommittee x δ))
    d.currentSyncCommittee s.currentSyncCommittee) s.currentSyncCommittee s'.currentSyncCommittee
  nextSyncCommittee : Remains (onBoth (fun x δ => .ok (applySyncCommittee x δ)) d.nextSyncCommittee
    s.nextSyncCommittee) s.nextSyncCommittee s'.nextSyncCommittee
  historicalSummaries : Remains (onBoth (fun x δ => .ok (applyHistoricalLog x δ))
    d.historicalSummaries s.historicalSummaries) s.historicalSummaries s'.historicalSummaries
  pendingDeposits : Remains (onBoth (applyQueue b · · PENDING_DEPOSIT_SSZ_SIZE) d.pendingDeposits
    s.pendingDeposits) s.pendingDeposits s'.pendingDeposits
  pendingPartialWithdrawals : Remains (onBoth (applyQueue b · · PARTIAL_WITHDRAWAL_SSZ_SIZE)
    d.pendingPartialWithdrawals s.pendingPartialWithdrawals) s.pendingPartialWithdrawals
    s'.pendingPartialWithdrawals
  pendingConsolidations : Remains (onBoth (applyQueue b · · PENDING_CONSOLIDATION_SSZ_SIZE)
    d.pendingConsolidations s.pendingConsolidations) s.pendingConsolidations
    s'.pendingConsolidations

theorem Pieces.of_eq (b : Build) (d : BeaconStateDelta F) {s s' : DiffTarget T}
    (h : s' = { s with scalarHeader := s'.scalarHeader, eth1DataVotes := s'.eth1DataVotes }) :
    Pieces b d s s' := by
  rw [h]
  exact ⟨rfl, .untouched, .untouched, .untouched, .untouched, .untouched, .untouched, .untouched,
    .untouched, .untouched, .untouched, .untouched, .untouched, .untouched, .untouched, .untouched,
    .untouched, .untouched, .untouched⟩

/-- The last of a sequence of mutations. -/
theorem leaves_onField {S α : Type} {get : S → α} {set : S → α → S} {run : α → Exec α α} {s : S}
    {Q : S → Prop} (hset : ∀ a, Remains (run (get s)) (get s) a → Q (set s a)) :
    Leaves id Q (onField get set run s) := by
  unfold onField
  cases hrun : run (get s) with
  | ok a => exact hset a (.finished hrun)
  | error a => exact hset a (.stopped hrun)

/-- A mutation that may be the last one. -/
theorem leaves_onField_step {S α : Type} {get : S → α} {set : S → α → S} {run : α → Exec α α}
    {s : S} {k : S → Exec S S} {Q : S → Prop}
    (hset : ∀ a, Remains (run (get s)) (get s) a → Q (set s a))
    (hk : ∀ a, Q (set s a) → Leaves id Q (k (set s a))) :
    Leaves id Q (onField get set run s >>= k) := by
  unfold onField
  cases hrun : run (get s) with
  | ok a => exact hk a (hset a (.finished hrun))
  | error a => exact hset a (.stopped hrun)

/-- **Nineteen mutations in a row**, each of which may be the last one. -/
theorem leaves_pieces (b : Build) (d : BeaconStateDelta F) (s : DiffTarget T) :
    Leaves id (Pieces b d s) (applyComponents b d s) := by
  unfold applyComponents
  have hu : Pieces b d s { s with scalarHeader := d.scalarHeader } := .of_eq b d rfl
  refine leaves_onField_step (fun _ h => { hu with balances := h }) fun _ hu => ?_
  refine leaves_onField_step (fun _ h => { hu with validators := h }) fun _ hu => ?_
  refine leaves_onField_step (fun _ h => { hu with blockRoots := h }) fun _ hu => ?_
  refine leaves_onField_step (fun _ h => { hu with stateRoots := h }) fun _ hu => ?_
  refine leaves_onField_step (fun _ h => { hu with randaoMixes := h }) fun _ hu => ?_
  refine leaves_onField_step (fun _ h => { hu with slashings := h }) fun _ hu => ?_
  refine leaves_onField_step (fun _ _ => { hu with }) fun _ hu => ?_
  refine leaves_onField_step (fun _ h => { hu with historicalRoots := h }) fun _ hu => ?_
  refine leaves_onField_step (fun _ h => { hu with previousEpochAttestations := h }) fun _ hu => ?_
  refine leaves_onField_step (fun _ h => { hu with currentEpochAttestations := h }) fun _ hu => ?_
  refine leaves_onField_step (fun _ h => { hu with previousParticipation := h }) fun _ hu => ?_
  refine leaves_onField_step (fun _ h => { hu with currentParticipation := h }) fun _ hu => ?_
  refine leaves_onField_step (fun _ h => { hu with inactivityScores := h }) fun _ hu => ?_
  refine leaves_onField_step (fun _ h => { hu with currentSyncCommittee := h }) fun _ hu => ?_
  refine leaves_onField_step (fun _ h => { hu with nextSyncCommittee := h }) fun _ hu => ?_
  refine leaves_onField_step (fun _ h => { hu with historicalSummaries := h }) fun _ hu => ?_
  refine leaves_onField_step (fun _ h => { hu with pendingDeposits := h }) fun _ hu => ?_
  refine leaves_onField_step (fun _ h => { hu with pendingPartialWithdrawals := h }) fun _ hu => ?_
  exact leaves_onField fun _ h => { hu with pendingConsolidations := h }

/-- The state an application leaves, however it ends. -/
def Outcome.state {S : Type} : Outcome S → S
  | .ok state => state
  | .err _ state => state
  | .panic state => state

/-- **One application**: accepted, refused or cut short by a panic. -/
theorem apply_pieces (b : Build) (s : DiffTarget T) (d : ArchivedBeaconStateDelta) :
    Pieces b d s (apply b s d).state := by
  have hrun := leaves_pieces b d s
  unfold apply
  cases d.fork with
  | error e => exact .of_eq b d rfl
  | ok deltaFork =>
    by_cases hfork : s.fork ≠ deltaFork
    · simp only [if_pos hfork]
      exact .of_eq b d rfl
    · simp only [if_neg hfork]
      cases validateFields d deltaFork with
      | some e => exact .of_eq b d rfl
      | none =>
        cases happ : applyComponents b d s with
        | ok out => exact hrun.of_ok happ
        | error out => exact hrun.of_error happ

end

/-! ## Lengths -/

theorem leaves_applyRootsLoop {b : Build} {baseSlot : UInt64} {capacity : Nat}
    {P : List (Bytes 32) → Prop} : ∀ {i : Nat} {roots buffer : List (Bytes 32)},
    (∀ buf, P buf → ∀ k slot, k < i + roots.length → b.addUsize baseSlot.toNat k = some slot →
      ∀ root, P (buf.set (slot % capacity) root)) → P buffer →
    Leaves id P (applyRootsLoop b baseSlot capacity i roots buffer)
  | _, [], _, _, h => h
  | i, root :: roots, buffer, hset, h => by
    rw [List.length_cons] at hset
    rw [applyRootsLoop]
    refine leaves_orPanic_bind h fun slot hslot => ?_
    refine (leaves_writeAt h (hset _ h i slot (by omega) hslot root)).step fun out _ hout => ?_
    exact leaves_applyRootsLoop (fun buf hbuf k slot hk => hset buf hbuf k slot (by omega)) hout

theorem leaves_applyRoots (b : Build) (baseSlot : UInt64) (buffer : List (Bytes 32))
    (d : RootsDiff) :
    Leaves id (fun out => out.length = buffer.length) (applyRoots b baseSlot buffer d) := by
  unfold applyRoots
  split
  · rfl
  · exact leaves_applyRootsLoop (fun _ h _ _ _ _ _ => by rw [List.length_set, h]) rfl

theorem leaves_applyRandao (baseSlot : UInt64) (buffer : List (Bytes 32)) (d : RandaoDiff) :
    Leaves id (fun out => out.length = buffer.length) (applyRandao baseSlot buffer d) := by
  unfold applyRandao
  split
  · rfl
  · rw [applyRandaoLoop_eq]
    exact leaves_writes (fun _ h _ _ => by rw [List.length_set, h]) rfl

theorem leaves_applySlashings (buffer : List UInt64) (d : SlashingsDiff) :
    Leaves id (fun out => out.length = buffer.length) (applySlashings buffer d) :=
  leaves_writes (fun _ h _ _ => by rw [List.length_set, h]) rfl

/-- One tag rewrites one balance at most: the one at the cursor. -/
theorem leaves_applyTag {b : Build} {d : BalancesDiff} {P : List UInt64 → Prop} {st : ApplyState}
    {tag : UInt8} (h : P st.target)
    (hset : tag ≠ SET_NO_CHANGE → ∀ v, P (st.target.set st.baseIdx v)) :
    Leaves ApplyState.target P (applyTag b d st tag) := by
  have hwrite : tag ≠ SET_NO_CHANGE → ∀ (v : UInt64) (f : List UInt64 → ApplyState),
      (∀ l, (f l).target = l) → Leaves ApplyState.target P
        (writeAt st.target (st.baseIdx, v) >>= fun l => .ok (f l)) := by
    intro htag v f hf
    refine (leaves_writeAt h (hset htag v)).step fun l _ hl => ?_
    rw [leaves_ok, hf]
    exact hl
  unfold applyTag
  split
  · exact h
  rename_i htag
  split
  · exact hwrite htag 0 _ fun _ => rfl
  split
  · cases hvalues : st.targetIter with
    | nil => exact h
    | cons v vs => exact hwrite htag v _ fun _ => rfl
  split
  · refine leaves_orPanic_bind h fun p _ => ?_
    refine leaves_orPanic_bind h fun diff _ => ?_
    refine leaves_orPanic_bind h fun val _ => ?_
    refine leaves_orPanic_bind h fun sum _ => ?_
    exact hwrite htag sum.toUInt64 _ fun _ => rfl
  · exact h

theorem leaves_applyTagBytes (b : Build) (d : BalancesDiff) (st : ApplyState)
    (hidx : st.baseIdx ≤ d.tags.len) : Leaves ApplyState.target
      (fun out => out.length = st.target.length) (applyTagBytes b d d.tags.data st) := by
  rw [applyTagBytes_eq _ _ hidx]
  exact leaves_foldlM (fun _ h _ _ => leaves_applyTag h fun _ _ => by rw [List.length_set, h]) rfl

theorem leaves_applyBalancesIter (b : Build) (balances : List UInt64) (d : BalancesDiff) :
    Leaves id (fun out => balances.length ≤ out.length) (applyBalancesIter b balances d) := by
  unfold applyBalancesIter
  split
  · exact Nat.le_refl _
  · refine (leaves_applyTagBytes b d ⟨balances, d.targetValues, 0, 0⟩ (Nat.zero_le _)).bind
      (fun _ h => h.ge) fun st _ hst => ?_
    rw [leaves_ok, id, List.length_append, hst]
    exact Nat.le_add_right _ _

/-- A flag is written, or the list grown up to it first. -/
theorem leaves_applyFlag {b : Build} {raw : List UInt8} {P : List UInt8 → Prop} {st : SparseState}
    {val : UInt8} (h : P st.target) (hgrow : ∀ k, P (st.target ++ List.replicate k 0))
    (hset : ∀ gap cursor idx, readVarint b raw st.cursor = some (gap, cursor) →
      b.addUsize st.currentIdx gap.toNat = some idx →
      ∀ k, P ((st.target ++ List.replicate k 0).set idx val)) :
    Leaves SparseState.target P (applyFlag b raw st val) := by
  unfold applyFlag
  refine leaves_orPanic_bind h fun p hp => ?_
  refine leaves_orPanic_bind h fun idx hidx => ?_
  have hpushes : Leaves id P
      ((List.replicate (idx + 1 - st.target.length) 0).foldlM pushFlag st.target) :=
    leaves_pushes fun k => by
      rw [List.take_replicate]
      exact hgrow _
  refine hpushes.step fun grown hgrown _ => ?_
  obtain ⟨-, rfl⟩ := foldlM_pushWithin_eq_ok.1 hgrown
  refine (leaves_writeAt (hgrow _) (hset p.1 p.2 idx hp hidx _)).step fun l _ hl => ?_
  exact hl

theorem leaves_applyParticipationIter (b : Build) (flags : List UInt8) (d : ParticipationDiff) :
    Leaves id (fun out => flags.length ≤ out.length) (applyParticipationIter b flags d) := by
  cases d with
  | allZeros len => exact Nat.le_refl _
  | sparse sparseIndices newValues extension =>
    have hstep : ∀ st : SparseState, flags.length ≤ st.target.length → ∀ val ∈ newValues,
        Leaves SparseState.target (fun out => flags.length ≤ out.length)
          (applyFlag b sparseIndices st val) := by
      intro st h val _
      have hgrow : ∀ k, flags.length ≤ (st.target ++ List.replicate k 0).length := by
        intro k
        rw [List.length_append]
        omega
      exact leaves_applyFlag h hgrow fun _ _ _ _ _ k => by
        rw [List.length_set]
        exact hgrow k
    refine (leaves_foldlM (P := fun out : List UInt8 => flags.length ≤ out.length) hstep
      (Nat.le_refl _)).step fun st _ hst => leaves_pushes fun k => ?_
    rw [List.length_append]
    exact Nat.le_trans hst (Nat.le_add_right _ _)

theorem isPrefix_applyHistoricalLog (log : List UInt8) (d : HistoricalLogDiff) :
    log <+: applyHistoricalLog log d := by
  cases d with
  | unchanged => exact List.prefix_refl _
  | append items => exact List.prefix_append _ _

/-! ## Public keys -/

/-- The registry did not shrink, and the first 48 bytes of every record are what they were. -/
structure RegistryKept (old new : List UInt8) : Prop where
  length : old.length ≤ new.length
  pubkeys : ∀ j < old.length, j % VALIDATOR_SSZ_SIZE < 48 → new[j]? = old[j]?

theorem RegistryKept.refl (l : List UInt8) : RegistryKept l l := ⟨Nat.le_refl _, fun _ _ _ => rfl⟩

theorem RegistryKept.trans {l m n : List UInt8} (h : RegistryKept l m) (h' : RegistryKept m n) :
    RegistryKept l n :=
  ⟨h.length.trans h'.length, fun j hj hkey =>
    (h'.pubkeys j (Nat.lt_of_lt_of_le hj h.length) hkey).trans (h.pubkeys j hj hkey)⟩

theorem RegistryKept.append (l m : List UInt8) : RegistryKept l (l ++ m) :=
  ⟨by rw [List.length_append]; omega, fun _ hj _ => List.getElem?_append_left hj⟩

/-- The bytes of a record from `lo` on, `n` of them. -/
def InField (lo n j : Nat) : Prop := lo ≤ j ∧ j < lo + n

/-- The bytes of a record that a patch may rewrite; an exit may derive the withdrawable epoch. -/
def ValidatorField.Covers : ValidatorField → Nat → Prop
  | .withdrawalCredentials => InField 48 32
  | .effectiveBalance => InField 80 8
  | .slashed => InField 88 1
  | .activationEligibilityEpoch => InField 89 8
  | .activationEpoch => InField 97 8
  | .exitEpoch => InField 105 16
  | .withdrawableEpochSlashed => InField 113 8

theorem ValidatorField.Covers.pubkey_lt {f : ValidatorField} {j : Nat} (h : f.Covers j) : 48 ≤ j := by
  cases f <;> exact Nat.le_trans (by decide) h.1

/-- A setter leaves the rest of the record alone. -/
theorem getElem?_setField {v : ByteValidator} {lo n j : Nat} (x : Bytes n) (h : lo + n ≤ 121)
    (hj : ¬InField lo n j) : (v.setField lo x h).val[j]? = v.val[j]? := by
  have hv : v.val.length = 121 := v.property
  rw [ByteValidator.setField, getElem?_splice (by rw [x.property]; omega), if_neg]
  rw [x.property]
  exact hj

/-- **A patch touches its field only.** -/
theorem getElem?_patchValidator {v v' : ByteValidator} {patch : ValidatorPatch}
    (h : patchValidator v patch = some v') {j : Nat} (hj : ¬patch.field.Covers j) :
    v'.val[j]? = v.val[j]? := by
  obtain ⟨index, field, value⟩ := patch
  cases field with
  | withdrawalCredentials =>
    obtain ⟨x, -, rfl⟩ := Option.map_eq_some_iff.1 h
    exact getElem?_setField x _ hj
  | slashed =>
    obtain ⟨x, -, rfl⟩ := Option.map_eq_some_iff.1 h
    exact getElem?_setField (⟨[(x != 0).toUInt8], rfl⟩ : Bytes 1) _ hj
  | exitEpoch =>
    obtain ⟨x, -, hx⟩ := Option.map_eq_some_iff.1 h
    have hexit : ∀ e : UInt64, (ValidatorMut.setExitEpoch v e).val[j]? = v.val[j]? :=
      fun e => getElem?_setField (toLe e) _ fun hin => hj ⟨hin.1, by have := hin.2; omega⟩
    rw [← hx, ← hexit (ofLe x)]
    dsimp only
    split
    · exact getElem?_setField (toLe _) _ fun hin => hj ⟨by have := hin.1; omega, hin.2⟩
    · rfl
  | effectiveBalance | activationEligibilityEpoch | activationEpoch | withdrawableEpochSlashed =>
    obtain ⟨x, -, rfl⟩ := Option.map_eq_some_iff.1 h
    exact getElem?_setField (toLe (ofLe x)) _ hj

theorem val_of_getMut {target : ByteValidatorTarget} {i : Nat} {v : ByteValidator}
    (hget : target.getMut i = some v) : v.val = slice target.bytes (i * 121) (i * 121 + 121) := by
  simp only [ByteValidatorTarget.getMut, VALIDATOR_SSZ_SIZE] at hget
  split_ifs at hget
  exact (tryInto_eq_some.1 hget).symm

theorem room_of_getMut {target : ByteValidatorTarget} {i : Nat} {v : ByteValidator}
    (hget : target.getMut i = some v) (v' : ByteValidator) :
    i * 121 + v'.val.length ≤ target.bytes.length := by
  have hin := (ByteValidatorTarget.getMut_isSome.1 (Option.isSome_of_mem hget)).2
  have hlen : v'.val.length = 121 := v'.property
  rw [hlen]
  exact hin

theorem length_bytes_writeBack {target : ByteValidatorTarget} {i : Nat} {v : ByteValidator}
    (hget : target.getMut i = some v) (v' : ByteValidator) :
    (ValidatorMutTarget.writeBack target i v').bytes.length = target.bytes.length :=
  length_splice _ _ _ (room_of_getMut hget v')

/-- Writing a record back replaces its bytes and no others. -/
theorem getElem?_bytes_writeBack {target : ByteValidatorTarget} {i : Nat} {v : ByteValidator}
    (hget : target.getMut i = some v) (v' : ByteValidator) (j : Nat) :
    (ValidatorMutTarget.writeBack target i v').bytes[j]? =
      if j / 121 = i then v'.val[j % 121]? else target.bytes[j]? := by
  have hlen : v'.val.length = 121 := v'.property
  show (splice target.bytes (i * 121) v'.val)[j]? = _
  rw [getElem?_splice (room_of_getMut hget v'), hlen]
  by_cases hrec : j / 121 = i
  · have hmod : j - i * 121 = j % 121 := by omega
    rw [if_pos (by omega), if_pos hrec, hmod]
  · rw [if_neg (by omega), if_neg hrec]

/-- What a record written back has in common with the old one, the registries have. -/
theorem getElem?_writeBack {target : ByteValidatorTarget} {i : Nat} {v v' : ByteValidator}
    (hget : target.getMut i = some v) {j : Nat}
    (hj : j / 121 = i → v'.val[j % 121]? = v.val[j % 121]?) :
    (ValidatorMutTarget.writeBack target i v').bytes[j]? = target.bytes[j]? := by
  rw [getElem?_bytes_writeBack hget]
  split
  · rename_i hrec
    have hback : i * 121 + j % 121 = j := by omega
    rw [hj hrec, val_of_getMut hget, getElem?_slice (by omega), hback]
  · rfl

theorem registryKept_writeBack {target : ByteValidatorTarget} {i : Nat} {v v' : ByteValidator}
    (hget : target.getMut i = some v) (hkey : ∀ j < 48, v'.val[j]? = v.val[j]?) :
    RegistryKept target.bytes (ValidatorMutTarget.writeBack target i v').bytes :=
  ⟨(length_bytes_writeBack hget v').ge, fun _ _ hj => getElem?_writeBack hget fun _ => hkey _ hj⟩

theorem leaves_applyPatch {old : List UInt8} {target : ByteValidatorTarget} {patch : ValidatorPatch}
    (h : RegistryKept old target.bytes) :
    Leaves id (fun out => RegistryKept old out.bytes) (applyPatch target patch) := by
  unfold applyPatch
  cases hget : ValidatorMutTarget.getMut target patch.index.toNat with
  | none => exact h
  | some v =>
    refine leaves_orPanic_bind h fun v' hv' => ?_
    exact h.trans (registryKept_writeBack hget fun j hj =>
      getElem?_patchValidator hv' fun hcov => absurd hcov.pubkey_lt (Nat.not_le.2 hj))

/-- New records go behind the old ones. -/
theorem bytes_foldl_push : ∀ (cs : List ByteValidator) (target : ByteValidatorTarget),
    (cs.foldl ValidatorMutTarget.pushFromSsz target).bytes = target.bytes ++ join cs
  | [], target => (List.append_nil _).symm
  | c :: cs, target => by
    rw [List.foldl_cons, bytes_foldl_push cs, join_cons, ← List.append_assoc]
    rfl

theorem leaves_applyValidatorsIter (b : Build) (target : ByteValidatorTarget) (d : ValidatorsDiff) :
    Leaves id (fun out => RegistryKept target.bytes out.bytes) (applyValidatorsIter b target d) := by
  unfold applyValidatorsIter
  refine (leaves_foldlM (fun _ h _ _ => leaves_applyPatch h) (RegistryKept.refl _)).bind
    (fun _ h => h) fun out _ hout => ?_
  split
  · exact hout
  · rw [leaves_ok, id, bytes_foldl_push]
    exact hout.trans (RegistryKept.append _ _)

/-! ## One application -/

theorem optionRel_refl {α : Type} {R : α → α → Prop} (h : ∀ a, R a a) :
    ∀ o, Option.Rel R o o
  | none => .none
  | some a => .some (h a)

theorem optionRel_trans {α : Type} {R : α → α → Prop} (h : ∀ a b c, R a b → R b c → R a c)
    {o p q : Option α} (h₁ : Option.Rel R o p) (h₂ : Option.Rel R p q) : Option.Rel R o q := by
  cases h₁ with
  | none => exact h₂
  | some hab =>
    cases h₂ with
    | some hbc => exact .some (h _ _ _ hab hbc)

theorem isSome_of_optionRel {α : Type} {R : α → α → Prop} {o p : Option α} (h : Option.Rel R o p) :
    p.isSome = o.isSome := by
  cases h <;> rfl

/-- The component exists in both states or in neither. -/
abbrev SamePresence {α : Type} (old new : Option α) : Prop := Option.Rel (fun _ _ => True) old new

theorem samePresence_refl {α : Type} (o : Option α) : SamePresence o o :=
  optionRel_refl (fun _ => trivial) o

theorem SamePresence.trans {α : Type} {o p q : Option α} (h₁ : SamePresence o p)
    (h₂ : SamePresence p q) : SamePresence o q :=
  optionRel_trans (fun _ _ _ _ _ => trivial) h₁ h₂

/-- The list, where there is one, did not get shorter. -/
abbrev NotShorter {α : Type} (old new : Option (List α)) : Prop :=
  Option.Rel (fun l m => l.length ≤ m.length) old new

theorem notShorter_refl {α : Type} (o : Option (List α)) : NotShorter o o :=
  optionRel_refl (fun l => Nat.le_refl l.length) o

theorem NotShorter.trans {α : Type} {o p q : Option (List α)} (h₁ : NotShorter o p)
    (h₂ : NotShorter p q) : NotShorter o q :=
  optionRel_trans (R := fun l m : List α => l.length ≤ m.length)
    (fun _ _ _ hlm hmn => Nat.le_trans hlm hmn) h₁ h₂

/-- The list, where there is one, begins with what it was. -/
abbrev Extended {α : Type} (old new : Option (List α)) : Prop := Option.Rel (· <+: ·) old new

theorem extended_refl {α : Type} (o : Option (List α)) : Extended o o :=
  optionRel_refl List.prefix_refl o

theorem Extended.trans {α : Type} {o p q : Option (List α)} (h₁ : Extended o p)
    (h₂ : Extended p q) : Extended o q :=
  optionRel_trans (fun _ _ _ hlm hmn => hlm.trans hmn) h₁ h₂

/-- **What `s'` keeps of `s`.** -/
structure Kept (s s' : DiffTarget ByteValidatorTarget) : Prop where
  fork : s'.fork = s.fork
  balances : s.balances.length ≤ s'.balances.length
  validators : RegistryKept s.validators.bytes s'.validators.bytes
  blockRoots : s'.blockRoots.length = s.blockRoots.length
  stateRoots : s'.stateRoots.length = s.stateRoots.length
  randaoMixes : s'.randaoMixes.length = s.randaoMixes.length
  slashings : s'.slashings.length = s.slashings.length
  historicalRoots : Extended s.historicalRoots s'.historicalRoots
  previousEpochAttestations : SamePresence s.previousEpochAttestations s'.previousEpochAttestations
  currentEpochAttestations : SamePresence s.currentEpochAttestations s'.currentEpochAttestations
  previousParticipation : NotShorter s.previousParticipation s'.previousParticipation
  currentParticipation : NotShorter s.currentParticipation s'.currentParticipation
  inactivityScores : SamePresence s.inactivityScores s'.inactivityScores
  currentSyncCommittee : SamePresence s.currentSyncCommittee s'.currentSyncCommittee
  nextSyncCommittee : SamePresence s.nextSyncCommittee s'.nextSyncCommittee
  historicalSummaries : Extended s.historicalSummaries s'.historicalSummaries
  pendingDeposits : SamePresence s.pendingDeposits s'.pendingDeposits
  pendingPartialWithdrawals : SamePresence s.pendingPartialWithdrawals s'.pendingPartialWithdrawals
  pendingConsolidations : SamePresence s.pendingConsolidations s'.pendingConsolidations

theorem Kept.refl (s : DiffTarget ByteValidatorTarget) : Kept s s where
  fork := rfl
  balances := Nat.le_refl _
  validators := RegistryKept.refl _
  blockRoots := rfl
  stateRoots := rfl
  randaoMixes := rfl
  slashings := rfl
  historicalRoots := extended_refl _
  previousEpochAttestations := samePresence_refl _
  currentEpochAttestations := samePresence_refl _
  previousParticipation := notShorter_refl _
  currentParticipation := notShorter_refl _
  inactivityScores := samePresence_refl _
  currentSyncCommittee := samePresence_refl _
  nextSyncCommittee := samePresence_refl _
  historicalSummaries := extended_refl _
  pendingDeposits := samePresence_refl _
  pendingPartialWithdrawals := samePresence_refl _
  pendingConsolidations := samePresence_refl _

theorem Kept.trans {s t u : DiffTarget ByteValidatorTarget} (h : Kept s t) (h' : Kept t u) :
    Kept s u where
  fork := h'.fork.trans h.fork
  balances := h.balances.trans h'.balances
  validators := h.validators.trans h'.validators
  blockRoots := h'.blockRoots.trans h.blockRoots
  stateRoots := h'.stateRoots.trans h.stateRoots
  randaoMixes := h'.randaoMixes.trans h.randaoMixes
  slashings := h'.slashings.trans h.slashings
  historicalRoots := h.historicalRoots.trans h'.historicalRoots
  previousEpochAttestations := h.previousEpochAttestations.trans h'.previousEpochAttestations
  currentEpochAttestations := h.currentEpochAttestations.trans h'.currentEpochAttestations
  previousParticipation := h.previousParticipation.trans h'.previousParticipation
  currentParticipation := h.currentParticipation.trans h'.currentParticipation
  inactivityScores := h.inactivityScores.trans h'.inactivityScores
  currentSyncCommittee := h.currentSyncCommittee.trans h'.currentSyncCommittee
  nextSyncCommittee := h.nextSyncCommittee.trans h'.nextSyncCommittee
  historicalSummaries := h.historicalSummaries.trans h'.historicalSummaries
  pendingDeposits := h.pendingDeposits.trans h'.pendingDeposits
  pendingPartialWithdrawals := h.pendingPartialWithdrawals.trans h'.pendingPartialWithdrawals
  pendingConsolidations := h.pendingConsolidations.trans h'.pendingConsolidations

/-- The optional components of a kept state are the old ones. -/
theorem Kept.has {s s' : DiffTarget ByteValidatorTarget} (h : Kept s s') (field : OptionalField) :
    s'.has field = s.has field := by
  cases field with
  | historicalRoots => exact isSome_of_optionRel h.historicalRoots
  | previousEpochAttestations => exact isSome_of_optionRel h.previousEpochAttestations
  | currentEpochAttestations => exact isSome_of_optionRel h.currentEpochAttestations
  | previousParticipation => exact isSome_of_optionRel h.previousParticipation
  | currentParticipation => exact isSome_of_optionRel h.currentParticipation
  | inactivityScores => exact isSome_of_optionRel h.inactivityScores
  | currentSyncCommittee => exact isSome_of_optionRel h.currentSyncCommittee
  | nextSyncCommittee => exact isSome_of_optionRel h.nextSyncCommittee
  | historicalSummaries => exact isSome_of_optionRel h.historicalSummaries
  | pendingDeposits => exact isSome_of_optionRel h.pendingDeposits
  | pendingPartialWithdrawals => exact isSome_of_optionRel h.pendingPartialWithdrawals
  | pendingConsolidations => exact isSome_of_optionRel h.pendingConsolidations

theorem leaves_onBoth {α δ : Type} {run : α → δ → Exec α α} {R : α → α → Prop} (hrefl : ∀ a, R a a)
    (hrun : ∀ a e, Leaves id (R a) (run a e)) (delta : Option δ) (st : Option α) :
    Leaves id (Option.Rel R st) (onBoth run delta st) := by
  cases st with
  | none => exact .none
  | some a =>
    cases delta with
    | none => exact .some (hrefl a)
    | some e => exact leaves_mapState.2 ((hrun a e).mono fun _ h => .some h)

/-- An optional component stays or is absent, whatever is done to it. -/
theorem leaves_presence {α δ : Type} (run : α → δ → Exec α α) (delta : Option δ) (st : Option α) :
    Leaves id (SamePresence st) (onBoth run delta st) := by
  refine leaves_onBoth (fun _ => trivial) (fun a e => ?_) delta st
  cases run a e <;> trivial

theorem leaves_extended (delta : Option HistoricalLogDiff) (st : Option (List UInt8)) :
    Leaves id (Extended st) (onBoth (fun x δ => .ok (applyHistoricalLog x δ)) delta st) :=
  leaves_onBoth (R := (· <+: ·)) List.prefix_refl
    (fun a e => leaves_ok.2 (isPrefix_applyHistoricalLog a e)) delta st

theorem leaves_notShorter (b : Build) (delta : Option ParticipationDiff) (st : Option (List UInt8)) :
    Leaves id (NotShorter st) (onBoth (applyParticipationIter b) delta st) :=
  leaves_onBoth (R := fun l m => l.length ≤ m.length) (fun l => Nat.le_refl l.length)
    (fun a e => leaves_applyParticipationIter b a e) delta st

/-- What every applier keeps, `apply` keeps. -/
theorem Pieces.kept {F : Type} {b : Build} {d : BeaconStateDelta F}
    {s s' : DiffTarget ByteValidatorTarget} (h : Pieces b d s s') : Kept s s' where
  fork := h.fork
  balances := (leaves_applyBalancesIter b _ _).remains h.balances (Nat.le_refl _)
  validators := (leaves_applyValidatorsIter b _ _).remains h.validators (RegistryKept.refl _)
  blockRoots := (leaves_applyRoots b _ _ _).remains h.blockRoots rfl
  stateRoots := (leaves_applyRoots b _ _ _).remains h.stateRoots rfl
  randaoMixes := (leaves_applyRandao _ _ _).remains h.randaoMixes rfl
  slashings := (leaves_applySlashings _ _).remains h.slashings rfl
  historicalRoots := (leaves_extended _ _).remains h.historicalRoots (extended_refl _)
  previousEpochAttestations :=
    (leaves_presence _ _ _).remains h.previousEpochAttestations (samePresence_refl _)
  currentEpochAttestations :=
    (leaves_presence _ _ _).remains h.currentEpochAttestations (samePresence_refl _)
  previousParticipation :=
    (leaves_notShorter b _ _).remains h.previousParticipation (notShorter_refl _)
  currentParticipation :=
    (leaves_notShorter b _ _).remains h.currentParticipation (notShorter_refl _)
  inactivityScores := (leaves_presence _ _ _).remains h.inactivityScores (samePresence_refl _)
  currentSyncCommittee :=
    (leaves_presence _ _ _).remains h.currentSyncCommittee (samePresence_refl _)
  nextSyncCommittee := (leaves_presence _ _ _).remains h.nextSyncCommittee (samePresence_refl _)
  historicalSummaries := (leaves_extended _ _).remains h.historicalSummaries (extended_refl _)
  pendingDeposits := (leaves_presence _ _ _).remains h.pendingDeposits (samePresence_refl _)
  pendingPartialWithdrawals :=
    (leaves_presence _ _ _).remains h.pendingPartialWithdrawals (samePresence_refl _)
  pendingConsolidations :=
    (leaves_presence _ _ _).remains h.pendingConsolidations (samePresence_refl _)

theorem apply_kept (b : Build) (s : DiffTarget ByteValidatorTarget) (d : ArchivedBeaconStateDelta) :
    Kept s (apply b s d).state := (apply_pieces b s d).kept

/-! ## Runs -/

/-- A run of applications, each in a build of its own, going on with whatever state the last one
left. -/
def applyAll (s : DiffTarget ByteValidatorTarget) (calls : List (Build × ArchivedBeaconStateDelta)) :
    DiffTarget ByteValidatorTarget :=
  calls.foldl (fun s call => (apply call.1 s call.2).state) s

/-- **Any run of applications** of any deltas keeps what a single one keeps: a state never changes
its fork or loses a component, no ring changes its capacity, no registry shrinks or rewrites a
public key, no historical log forgets. -/
theorem applyAll_kept (s : DiffTarget ByteValidatorTarget)
    (calls : List (Build × ArchivedBeaconStateDelta)) :
    Kept s (applyAll s calls) ∧ ∀ field, (applyAll s calls).has field = s.has field := by
  have hrun : ∀ (calls : List (Build × ArchivedBeaconStateDelta))
      (s : DiffTarget ByteValidatorTarget), Kept s (applyAll s calls) := by
    intro calls
    induction calls with
    | nil => exact Kept.refl
    | cons call calls ih => exact fun s => (apply_kept call.1 s call.2).trans (ih _)
  exact ⟨hrun calls s, (hrun calls s).has⟩

end EthStateDiff
