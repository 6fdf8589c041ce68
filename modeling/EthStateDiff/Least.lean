import EthStateDiff.Footprints
import EthStateDiff.Lib.Changes
import EthStateDiff.Links
/-!
# Created deltas list no more than they must (`lib.rs:512-851`)

What `create` lists of a sparse list are the positions that changed. A delta that does not list one
of them leaves it as it was, so whichever deltas carry one state to another, none lists less than
the one that `create` makes.

* `mem_written_diffBalancesIter`, … — what an encoder lists.
* `least_of_both` — an optional component.
* `created_lists_least` — **the created delta is the least**.
-/

namespace EthStateDiff

open Rust ByteString Overwrite Replay

/-! ## What the encoders list -/

/-- The tags of pairs name those that differ. -/
theorem mem_written_of_tags {d : BalancesDiff} {pairs : List (UInt64 × UInt64)}
    (htags : d.tags.tags = pairs.map pairTag) {i : Nat} :
    i ∈ d.written ↔ i ∈ changedFrom 0 pairs := by
  have htag : ∀ p : UInt64 × UInt64, pairTag p ≠ SET_NO_CHANGE ↔ p.1 ≠ p.2 := by
    intro p
    rcases pairTag_cases p with ⟨heq, h⟩ | ⟨hne, -, h⟩ | ⟨hne, -, -, h⟩ | ⟨hne, -, -, -, h⟩
    · rw [h]
      exact ⟨fun hno => absurd rfl hno, fun hno => absurd heq hno⟩
    all_goals
      rw [h]
      exact ⟨fun _ => hne, fun _ => by decide⟩
  rw [BalancesDiff.mem_written, mem_changedFrom, htags]
  simp only [List.getElem?_map, Option.map_eq_some_iff, Nat.zero_add]
  constructor
  · rintro ⟨_, ⟨p, hp, rfl⟩, hne⟩
    exact ⟨i, p, hp, (htag p).1 hne, rfl⟩
  · rintro ⟨_, p, hp, hne, rfl⟩
    exact ⟨_, ⟨p, hp, rfl⟩, (htag p).2 hne⟩

theorem mem_written_diffBalancesIter {b : Build} {order : HashOrder} {base target : List UInt64}
    {d : BalancesDiff} (hd : diffBalancesIter b order base target = some d) {i : Nat} :
    i ∈ d.written ↔ i ∈ changedFrom 0 (base.zip target) := by
  obtain ⟨d', hd', -, -, -, htags, -⟩ :=
    diffBalancesIter_spec b order (diffBalancesIter_isSome.1 ⟨d, hd⟩)
  obtain rfl := Option.some.inj (hd.symm.trans hd')
  exact mem_written_of_tags htags

theorem nodup_written (d : BalancesDiff) : d.written.Nodup := List.nodup_range.filter _

/-- A changed flag has its own gap in front of the others. -/
theorem varints_diffParticipationLoop_of_ne {v w : UInt8} (hvw : v ≠ w) (i last : Nat)
    (pairs : List (UInt8 × UInt8)) :
    varints (diffParticipationLoop i last ((v, w) :: pairs)).1 =
      writeVarint (UInt64.ofNat (i - last)) ::
        varints (diffParticipationLoop (i + 1) i pairs).1 := by
  simp only [diffParticipationLoop, if_pos hvw]
  exact SelfDelimiting.runs_append _ (isRun_writeVarint _)

/-- There is a gap for each value. -/
theorem length_varints_diffParticipationLoop : ∀ (pairs : List (UInt8 × UInt8)) (i last : Nat),
    (varints (diffParticipationLoop i last pairs).1).length =
      (diffParticipationLoop i last pairs).2.length := by
  intro pairs
  induction pairs with
  | nil => exact fun _ _ => rfl
  | cons p pairs ih =>
    intro i last
    obtain ⟨v, w⟩ := p
    by_cases hvw : v ≠ w
    · rw [varints_diffParticipationLoop_of_ne hvw, List.length_cons, ih]
      simp only [diffParticipationLoop, if_pos hvw, List.length_cons]
    · simp only [diffParticipationLoop, if_neg hvw]
      exact ih _ _

/-- The gaps of the loop lead to the flags that changed. -/
theorem positions_diffParticipationLoop : ∀ (pairs : List (UInt8 × UInt8)) (i last : Nat),
    last ≤ i → i + pairs.length ≤ 2 ^ 64 →
    positions last (varints (diffParticipationLoop i last pairs).1) = changedFrom i pairs := by
  intro pairs
  induction pairs with
  | nil => exact fun _ _ _ _ => rfl
  | cons p pairs ih =>
    intro i last hle hmax
    obtain ⟨v, w⟩ := p
    rw [List.length_cons] at hmax
    by_cases hvw : v ≠ w
    · have hgap : (UInt64.ofNat (i - last)).toNat = i - last :=
        UInt64.toNat_ofNat_of_lt' (show _ < 2 ^ 64 by omega)
      have hidx : (last + (i - last)) % 2 ^ 64 = i := by
        rw [Nat.mod_eq_of_lt (by omega)]
        omega
      rw [varints_diffParticipationLoop_of_ne hvw, positions, (writeVarint_spec _).2.2, hgap, hidx,
        ih (i + 1) i (by omega) (by omega), changedFrom, if_pos hvw]
    · simp only [diffParticipationLoop, changedFrom, if_neg hvw]
      exact ih (i + 1) last (by omega) (by omega)

theorem written_diffParticipationIter {base target : List UInt8} (hmax : target.length < 2 ^ 64) :
    (diffParticipationIter base target).written = changedFrom 0 (base.zip target) := by
  have hpos := positions_diffParticipationLoop (base.zip target) 0 0 (le_refl 0)
    (by rw [List.length_zip]; omega)
  have hlen := length_varints_diffParticipationLoop (base.zip target) 0 0
  rw [diffParticipationIter, ParticipationDiff.written, ← hlen, List.take_length, hpos]

theorem fst_changedScores : ∀ (pairs : List (UInt64 × UInt64)) (i : Nat),
    i + pairs.length ≤ 2 ^ 32 →
    (changedScores i pairs).map (fun p => p.1.toNat) = changedFrom i pairs := by
  intro pairs
  induction pairs with
  | nil => exact fun _ _ => rfl
  | cons p pairs ih =>
    intro i hmax
    obtain ⟨v, w⟩ := p
    rw [List.length_cons] at hmax
    have ih := ih (i + 1) (by omega)
    by_cases hvw : v ≠ w
    · have hidx : (UInt32.ofNat i).toNat = i :=
        UInt32.toNat_ofNat_of_lt' (show _ < 2 ^ 32 by omega)
      rw [changedScores, changedFrom, if_pos hvw, if_pos hvw, List.map_cons, hidx, ih]
    · rw [changedScores, changedFrom, if_neg hvw, if_neg hvw, ih]

/-- The changed scores, or none for a reset. -/
theorem written_diffInactivity {base target : List UInt64} (hmax : target.length < 2 ^ 32) :
    (diffInactivity base target).written =
      if target.all (· == 0) && base.any (· != 0) then [] else changedFrom 0 (base.zip target) := by
  simp only [diffInactivity]
  split
  · rfl
  · have hzip : (base.zip target).take (min base.length target.length) = base.zip target := by
      rw [← List.length_zip, List.take_length]
    rw [hzip, InactivityDiff.written, List.zip_map', List.map_map]
    exact fst_changedScores _ 0 (by rw [List.length_zip]; omega)

/-- The loop lists ring positions of its epochs, in their order, at which the rings differ. -/
theorem diffSlashingsLoop_listed {base target : List UInt64} (hcap : base.length ≤ 65536) :
    ∀ {epochs : List Nat} {updates : List (UInt16 × UInt64)},
    diffSlashingsLoop base target epochs = some updates →
    (updates.map fun u => u.1.toNat).Sublist (epochs.map (· % base.length)) ∧
      ∀ i ∈ updates.map fun u => u.1.toNat, i < base.length ∧ base[i]? ≠ target[i]? := by
  intro epochs
  induction epochs with
  | nil =>
    intro updates h
    cases h
    exact ⟨List.Sublist.slnil, by simp⟩
  | cons epoch epochs ih =>
    intro updates h
    simp only [diffSlashingsLoop, Option.bind_eq_bind, Option.bind_eq_some_iff,
      Option.some.injEq] at h
    obtain ⟨v, hv, w, hw, later, hlater, rfl⟩ := h
    obtain ⟨hsub, hdiff⟩ := ih hlater
    have hlt := (List.getElem?_eq_some_iff.mp hv).1
    have hfits : (UInt16.ofNat (epoch % base.length)).toNat = epoch % base.length :=
      UInt16.toNat_ofNat_of_lt' (show _ < 65536 by omega)
    by_cases hne : v ≠ w
    · rw [if_pos hne, List.map_cons, List.map_cons, hfits, List.forall_mem_cons]
      refine ⟨hsub.cons_cons _, ⟨hlt, ?_⟩, hdiff⟩
      rw [hv, hw]
      exact fun h => hne (Option.some.inj h)
    · rw [if_neg hne]
      exact ⟨hsub.cons _, hdiff⟩

theorem diffSlashings_listed {baseSlot targetSlot : UInt64} {base target : List UInt64}
    {d : SlashingsDiff} (hcap : target.length ≤ 65536)
    (hd : diffSlashings baseSlot targetSlot base target = some d) :
    (∀ i ∈ d.written, i < base.length ∧ base[i]? ≠ target[i]?) ∧
      (targetSlot.toNat / 32 ≤ baseSlot.toNat / 32 + target.length → d.written.Nodup) := by
  unfold diffSlashings at hd
  split_ifs at hd with _ _ _ hlen
  rw [not_not] at hlen
  simp only [SLOTS_PER_EPOCH, Option.bind_eq_bind, Option.bind_eq_some_iff, Option.some.injEq] at hd
  obtain ⟨updates, hloop, rfl⟩ := hd
  obtain ⟨hsub, hdiff⟩ := diffSlashingsLoop_listed (hlen ▸ hcap) hloop
  refine ⟨hdiff, fun hspan => hsub.nodup (nodup_ringPositions _ ?_)⟩
  omega

/-! ## The registry -/

/-- The bytes of a record that hold the field. -/
def ValidatorField.Holds : ValidatorField → Nat → Prop
  | .exitEpoch => InField 105 8
  | f => f.Covers

/-- A patch that may rewrite a byte of a field may rewrite all that a patch of the field may. -/
theorem ValidatorField.Covers.of_holds {f g : ValidatorField} {j k : Nat} (hf : f.Holds j)
    (hg : g.Covers j) (hk : f.Covers k) : g.Covers k := by
  cases f <;> cases g <;> simp only [Holds, Covers, InField] at hf hg hk ⊢ <;> omega

theorem field_congr {v w : ByteValidator} {lo n : Nat} {h : lo + n ≤ 121}
    (hsame : ∀ j, InField lo n j → v.val[j]? = w.val[j]?) : v.field lo n h = w.field lo n h := by
  have hlen : ∀ x : ByteValidator, (slice x.val lo (lo + n)).length = n := fun x =>
    (x.field lo n h).property
  apply Subtype.ext
  apply List.ext_getElem?
  intro k
  show (slice v.val lo (lo + n))[k]? = (slice w.val lo (lo + n))[k]?
  by_cases hk : k < n
  · rw [getElem?_slice (by omega), getElem?_slice (by omega)]
    exact hsame _ ⟨by omega, by omega⟩
  · rw [List.getElem?_eq_none (by rw [hlen]; omega), List.getElem?_eq_none (by rw [hlen]; omega)]

theorem slashedByte_congr {v w : ByteValidator} (hsame : v.val[88]? = w.val[88]?) :
    v.slashedByte = w.slashedByte := by
  have hget : ∀ x : ByteValidator, x.val[88]? = some x.slashedByte := by
    intro x
    have hlen : x.val.length = 121 := x.property
    exact List.getElem?_eq_getElem (show 88 < x.val.length by omega)
  rw [hget, hget, Option.some.injEq] at hsame
  exact hsame

/-- **A field that differs differs in one of its bytes.** -/
theorem exists_byte_of_differs {v w : ByteValidator} {f : ValidatorField} (h : Differs v w f) :
    ∃ j < 121, f.Holds j ∧ v.val[j]? ≠ w.val[j]? := by
  by_contra hno
  have hsame : ∀ j < 121, f.Holds j → v.val[j]? = w.val[j]? := by
    intro j hj hf
    by_contra hne
    exact hno ⟨j, hj, hf, hne⟩
  have hfield : ∀ {lo n : Nat} (hle : lo + n ≤ 121), f.Holds = InField lo n →
      v.field lo n hle = w.field lo n hle := by
    intro lo n hle hf
    refine field_congr fun j hj => hsame j ?_ (by rw [hf]; exact hj)
    have := hj.2
    omega
  cases f with
  | withdrawalCredentials => exact h (hfield _ rfl)
  | effectiveBalance => exact h (congrArg ofLe (hfield _ rfl))
  | slashed =>
    refine h ?_
    show (v.slashedByte != 0) = (w.slashedByte != 0)
    rw [slashedByte_congr (hsame 88 (by decide) ⟨by decide, by decide⟩)]
  | activationEligibilityEpoch => exact h (congrArg ofLe (hfield _ rfl))
  | activationEpoch => exact h (congrArg ofLe (hfield _ rfl))
  | exitEpoch => exact h (congrArg ofLe (hfield _ rfl))
  | withdrawableEpochSlashed => exact h.2 (congrArg ofLe (hfield _ rfl))

theorem getElem?_record {bytes : List UInt8} {v : ByteValidator} {k j : Nat}
    (hv : (chunksExact VALIDATOR_SSZ_SIZE bytes)[k]? = some v) (hj : j < 121) :
    v.val[j]? = bytes[k * 121 + j]? ∧ k * 121 + j < bytes.length := by
  obtain ⟨hlt, rfl⟩ := List.getElem?_eq_some_iff.mp hv
  rw [length_chunksExact] at hlt
  have hin : k * 121 + 121 ≤ bytes.length := by
    simp only [VALIDATOR_SSZ_SIZE] at hlt
    omega
  refine ⟨?_, by omega⟩
  rw [getElem_chunksExact]
  exact getElem?_slice (by simp only [VALIDATOR_SSZ_SIZE]; omega)

/-- **The patches of two registries** reach no byte that a delta with the same effect does not. -/
theorem validators_least {base target : List UInt8} {d' : ValidatorsDiff}
    (hmax : min (base.length / VALIDATOR_SSZ_SIZE) (target.length / VALIDATOR_SSZ_SIZE) ≤ 2 ^ 32)
    (h : AgreeOff {j | ∃ p ∈ d'.patches, p.Reaches j} target base) :
    ∀ j, (∃ p ∈ (diffValidators base target).patches, p.Reaches j) →
      ∃ p ∈ d'.patches, p.Reaches j := by
  rintro j ⟨p, hp, hindex, hcov⟩
  obtain ⟨k, v, w, hk, hp⟩ := mem_patchesFrom.1 hp
  obtain ⟨hpk, hdiff, -⟩ := mem_recordPatches.1 hp
  obtain ⟨hv, hw⟩ := List.getElem?_zip_eq_some.1 hk
  have hlt : k < 2 ^ 32 := by
    have h₁ := (List.getElem?_eq_some_iff.mp hv).1
    have h₂ := (List.getElem?_eq_some_iff.mp hw).1
    rw [length_chunksExact] at h₁ h₂
    omega
  rw [hpk, Nat.zero_add, UInt32.toNat_ofNat_of_lt' hlt] at hindex
  -- the other delta has a patch for the byte in which the field differs
  obtain ⟨i, hi, hholds, hne⟩ := exists_byte_of_differs hdiff
  obtain ⟨hvi, hin⟩ := getElem?_record hv hi
  obtain ⟨hwi, -⟩ := getElem?_record hw hi
  rw [hvi, hwi] at hne
  obtain ⟨q, hq, hqindex, hqcov⟩ := h.covers hin hne
  have hdiv : (k * 121 + i) / 121 = k := by omega
  have hmod : (k * 121 + i) % 121 = i := by omega
  simp only [VALIDATOR_SSZ_SIZE, hdiv, hmod] at hqindex hqcov
  exact ⟨q, hq, hqindex.trans hindex, ValidatorField.Covers.of_holds hholds hqcov hcov⟩

/-! ## Whole deltas -/

/-- The lists whose deltas name their entries by index. -/
inductive SparseField where
  | balances
  | slashings
  | previousParticipation
  | currentParticipation
  | inactivityScores

/-- The indices that a delta names. -/
def BeaconStateDelta.listed {F : Type} (d : BeaconStateDelta F) : SparseField → List Nat
  | .balances => d.balances.written
  | .slashings => d.slashings.written
  | .previousParticipation => d.previousParticipation.elim [] ParticipationDiff.written
  | .currentParticipation => d.currentParticipation.elim [] ParticipationDiff.written
  | .inactivityScores => d.inactivityScores.elim [] InactivityDiff.written

/-- An optional list: what is true of what one encoder lists is true of what the delta has. -/
theorem least_of_both {α δ : Type} {diff : List α → List α → δ}
    {run : List α → δ → Exec (List α) (List α)} {written : δ → List Nat}
    {base target : Option (List α)} {delta delta' : Option δ}
    (hdelta : delta = (both base target).map fun p => diff p.1 p.2)
    (hnodup : ∀ l m, target = some m → (written (diff l m)).Nodup)
    (hself : ∀ l, target = some l → written (diff l l) = [])
    (hleast : ∀ l m e, target = some m → run l e = .ok m → written (diff l m) ⊆ written e)
    (h : onBoth run delta' base = .ok target) :
    (delta.elim [] written).Nodup ∧ delta.elim [] written ⊆ delta'.elim [] written := by
  subst hdelta
  cases base with
  | none => exact ⟨List.nodup_nil, List.nil_subset _⟩
  | some l =>
    cases delta' with
    | none =>
      obtain rfl := Except.ok.inj h
      refine ⟨hnodup l l rfl, ?_⟩
      show written (diff l l) ⊆ []
      rw [hself l rfl]
      exact List.nil_subset _
    | some e =>
      cases hrun : run l e with
      | error m =>
        simp only [onBoth, hrun, mapState_error] at h
        cases h
      | ok m =>
        simp only [onBoth, hrun, mapState_ok, Except.ok.injEq] at h
        subst h
        exact ⟨hnodup l m rfl, hleast l m e rfl hrun⟩

theorem flags_least {b : Build} {base target : Option (List UInt8)}
    {delta delta' : Option ParticipationDiff} (hmax : ∀ l, target = some l → l.length < 2 ^ 63)
    (hdelta : delta = (both base target).map fun p => diffParticipationIter p.1 p.2)
    (h : onBoth (applyParticipationIter b) delta' base = .ok target) :
    (delta.elim [] ParticipationDiff.written).Nodup ∧
      delta.elim [] ParticipationDiff.written ⊆ delta'.elim [] ParticipationDiff.written := by
  have hmax : ∀ l, target = some l → l.length < 2 ^ 64 := fun l hl => by
    have := hmax l hl
    omega
  refine least_of_both hdelta (fun l m hm => ?_) (fun l hl => ?_) (fun l m e hm hrun => ?_) h
  · rw [written_diffParticipationIter (hmax m hm)]
    exact nodup_changedFrom _ 0
  · rw [written_diffParticipationIter (hmax l hl), changedFrom_self]
  · rw [written_diffParticipationIter (hmax m hm)]
    exact ((leaves_participation_off b l e).of_ok hrun).changed_subset

/-- A reset on either side lists nothing, and no reset gives scores that one would not. -/
theorem inactivity_least {base target : List UInt64} {e : InactivityDiff}
    (hmax : target.length < 2 ^ 32) (h : applyInactivity base e = .ok target) :
    (diffInactivity base target).written ⊆ e.written := by
  rw [written_diffInactivity hmax]
  split
  · exact List.nil_subset _
  · rename_i hreset
    cases e with
    | sparse indices newValues extensions =>
      exact ((leaves_inactivity_off base _).of_ok h).changed_subset
    | allZeros len =>
      obtain rfl := Except.ok.inj h
      -- all scores were zero before, too
      have hbase : ∀ v ∈ base, v = 0 := by
        intro v hv
        by_contra hne
        refine hreset ?_
        rw [Bool.and_eq_true]
        exact ⟨by simp, List.any_eq_true.2 ⟨v, hv, by simpa using hne⟩⟩
      intro i hi
      obtain ⟨ho, hn, hne⟩ := mem_changedFrom_zip.1 hi
      refine absurd ?_ hne
      rw [List.getElem?_eq_getElem ho, List.getElem?_eq_getElem hn,
        hbase _ (List.getElem_mem ho), List.getElem_replicate]

theorem scores_least {base target : Option (List UInt64)} {delta delta' : Option InactivityDiff}
    (hmax : ∀ l, target = some l → l.length < 2 ^ 32)
    (hdelta : delta = (both base target).map fun p => diffInactivity p.1 p.2)
    (h : onBoth applyInactivity delta' base = .ok target) :
    (delta.elim [] InactivityDiff.written).Nodup ∧
      delta.elim [] InactivityDiff.written ⊆ delta'.elim [] InactivityDiff.written := by
  refine least_of_both hdelta (fun l m hm => ?_) (fun l hl => ?_)
    (fun l m e hm hrun => inactivity_least (hmax m hm) hrun) h
  · rw [written_diffInactivity (hmax m hm)]
    split
    · exact List.nodup_nil
    · exact nodup_changedFrom _ 0
  · rw [written_diffInactivity (hmax l hl), changedFrom_self, ite_self]

/-- **No delta lists less than the created one.** Whatever delta carries one state to the other, in
whatever build, it names every index that the created delta names, and at least as many (where a
ring of slashings is not lapped), and every byte of the registry that a created patch may rewrite
is one that its patches may rewrite. -/
theorem created_lists_least {b b' : Build} {order : HashOrder} {capellaForkSlot : UInt64}
    {B T : Snapshot} {d : BeaconStateDelta ForkName} {d' : ArchivedBeaconStateDelta}
    (hindexed : Indexed T) (hd : create b order (source capellaForkSlot B T) = some d)
    (hcarries : apply b' B.state d' = .ok T.state) :
    (∀ field, d.listed field ⊆ d'.listed field) ∧
    (∀ field, (field = .slashings →
        T.slot.toNat / 32 ≤ B.slot.toNat / 32 + T.state.slashings.length) →
      (d.listed field).length ≤ (d'.listed field).length) ∧
    d.footprint B.state .validators ⊆ d'.footprint B.state .validators := by
  obtain ⟨hcreated, -⟩ := create_eq_some.1 hd
  obtain ⟨-, -, happlied⟩ := apply_eq_ok.1 hcarries
  have hslashings := diffSlashings_listed hindexed.slashings hcreated.slashings
  have hflags := flags_least hindexed.previousParticipation hcreated.previousParticipation
    happlied.previousParticipation
  have hflags' := flags_least hindexed.currentParticipation hcreated.currentParticipation
    happlied.currentParticipation
  have hscores := scores_least hindexed.inactivityScores hcreated.inactivityScores
    happlied.inactivityScores
  have hsub : ∀ field, d.listed field ⊆ d'.listed field := by
    intro field
    cases field with
    | balances =>
      intro i hi
      exact ((leaves_balances_off b' _ _).of_ok happlied.balances).changed_subset i
        ((mem_written_diffBalancesIter hcreated.balances).1 hi)
    | slashings =>
      intro i hi
      obtain ⟨hlt, hne⟩ := hslashings.1 i hi
      exact ((leaves_slashings_off _ _).of_ok happlied.slashings).covers hlt hne
    | previousParticipation => exact hflags.2
    | currentParticipation => exact hflags'.2
    | inactivityScores => exact hscores.2
  refine ⟨hsub, fun field hspan => ?_, ?_⟩
  · have hnodup : (d.listed field).Nodup := by
      cases field with
      | balances => exact nodup_written _
      | slashings => exact hslashings.2 (hspan rfl)
      | previousParticipation => exact hflags.1
      | currentParticipation => exact hflags'.1
      | inactivityScores => exact hscores.1
    exact (List.subperm_of_subset hnodup (hsub field)).length_le
  · have hcount := hindexed.recordCount
    rw [Set.subset_def]
    simp only [BeaconStateDelta.footprint, hcreated.validators]
    exact validators_least (by omega)
      ((leaves_validators_off b' _ _).of_ok happlied.validators)

set_option maxRecDepth 2000 in
/-- A delta that writes the slashing twice has the effect of the created one. That one names a
balance, the slashing, a flag and a score, and has a patch for the record. -/
theorem created_lists_least_padded : ∃ (d : BeaconStateDelta ForkName) (d' : ArchivedBeaconStateDelta),
    create Build.dev ⟨id, fun _ => .refl _⟩ (source 0 (joining 0) (joining 1)) = some d ∧
      d' = { d.archive .truncating with slashings := ⟨[(0, 7), (0, 1)]⟩ } ∧
      (d.listed .balances = [0] ∧ d.listed .slashings = [0] ∧
        d.listed .previousParticipation = [0] ∧ d.listed .inactivityScores = [0] ∧
        d.validators.patches = [⟨0, .effectiveBalance, (toLe 1).val⟩]) ∧
      (∀ field, d.listed field ⊆ d'.listed field) ∧
      (d.listed .slashings).length ≤ (d'.listed .slashings).length ∧
      d.footprint (joining 0).state .validators ⊆ d'.footprint (joining 0).state .validators := by
  obtain ⟨d, hd, hlisted, hpadded⟩ : ∃ d : BeaconStateDelta ForkName,
      create Build.dev ⟨id, fun _ => .refl _⟩ (source 0 (joining 0) (joining 1)) = some d ∧
        (d.listed .balances = [0] ∧ d.listed .slashings = [0] ∧
          d.listed .previousParticipation = [0] ∧ d.listed .inactivityScores = [0] ∧
          d.validators.patches = [⟨0, .effectiveBalance, (toLe 1).val⟩]) ∧
        apply Build.dev (joining 0).state
          { d.archive .truncating with slashings := ⟨[(0, 7), (0, 1)]⟩ } = .ok (joining 1).state :=
    ⟨_, rfl, ⟨rfl, rfl, rfl, rfl, rfl⟩, by rfl⟩
  obtain ⟨hsub, hlen, hfootprint⟩ :=
    created_lists_least (bounded_joining (by decide)).toIndexed hd hpadded
  exact ⟨d, _, hd, rfl, hlisted, hsub, hlen .slashings fun _ => by decide, hfootprint⟩

end EthStateDiff
