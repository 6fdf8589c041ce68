import EthStateDiff.Creation
/-!
# The mode of a balance delta (`balances.rs:372-404`)

`find_mode` picks an entry of a hash map, so two runs on the same states may choose different modes
and write different varints. Neither can be told from the other by what its delta does.

* `findMode_iff` — **the modes that can be chosen** are the most frequent `i32` differences.
* `applyBalancesIter_created` — what a delta does to any list of balances, mode or no mode.
* `create_order_unobservable` — so no state tells two orders of the hash map apart.
-/

namespace EthStateDiff

open Rust Overwrite Tally

/-! ## The most frequent difference -/

/-- A most frequent element, or `0` for want of any. -/
def IsMode (diffs : List Int64) (m : Int64) : Prop :=
  (m ∈ diffs ∧ ∀ k, diffs.count k ≤ diffs.count m) ∨ (diffs = [] ∧ m = 0)

theorem maxByCount_append {entries : List (Int64 × Nat)} {e : Int64 × Nat}
    (hmax : ∀ x ∈ entries, x.2 ≤ e.2) : maxByCount (entries ++ [e]) = some e := by
  cases entries with
  | nil => rfl
  | cons x entries =>
    rw [List.cons_append, maxByCount, foldl_lastMax_append Prod.snd entries hmax]

theorem findMode_of_nil (order : HashOrder) {changes : List Change}
    (h : countedDiffs changes = []) : findMode order changes = 0 := by
  have hnone : order.iter (freqMap changes) = [] := by
    refine List.eq_nil_iff_forall_not_mem.2 fun e he => ?_
    have hmem := (((isTally_freqMap changes).perm (order.perm _)).mem_iff e.1 e.2).1 he
    rw [h] at hmem
    exact absurd hmem.1 List.not_mem_nil
  rw [findMode, hnone]
  rfl

/-- Whatever the order of the map, the mode is a most frequent difference. -/
theorem findMode_isMode (order : HashOrder) (changes : List Change) :
    IsMode (countedDiffs changes) (findMode order changes) := by
  by_cases hnil : countedDiffs changes = []
  · exact Or.inr ⟨hnil, findMode_of_nil order hnil⟩
  · have htally := (isTally_freqMap changes).perm (order.perm _)
    obtain ⟨k, hk⟩ := List.exists_mem_of_ne_nil _ hnil
    unfold findMode
    cases hentries : order.iter (freqMap changes) with
    | nil =>
      rw [hentries] at htally
      exact absurd ((htally.mem_iff k _).2 ⟨hk, rfl⟩) List.not_mem_nil
    | cons e entries =>
      rw [hentries] at htally
      obtain ⟨hmem, hmax⟩ := foldl_lastMax Prod.snd entries e
      rw [maxByCount]
      exact Or.inl (htally.mostFrequent hmem hmax)

/-- An order that yields the entry of `m` last. -/
def lastOrder (m : Int64) : HashOrder where
  iter entries := entries.filter (fun e => !(e.1 == m)) ++ entries.filter (fun e => e.1 == m)
  perm entries := List.perm_append_comm.trans (List.filter_append_perm _ entries)

/-- **The modes that can be chosen** are exactly the most frequent of the differences that fit an
`i32`, and `0` where none does. -/
theorem findMode_iff {changes : List Change} {m : Int64} :
    (∃ order, findMode order changes = m) ↔ IsMode (countedDiffs changes) m := by
  constructor
  · rintro ⟨order, rfl⟩
    exact findMode_isMode order changes
  · rintro (⟨hmem, hmax⟩ | ⟨hnil, rfl⟩)
    · refine ⟨lastOrder m, ?_⟩
      have htally := isTally_freqMap changes
      have hentry := (htally.mem_iff m _).2 ⟨hmem, rfl⟩
      -- the entry of `m` is the last one, and no entry exceeds it
      obtain ⟨init, e, hlast⟩ : ∃ init e,
          (freqMap changes).filter (fun e => e.1 == m) = init ++ [e] :=
        (List.eq_nil_or_concat' _).resolve_left
          (List.ne_nil_of_mem (List.mem_filter.2 ⟨hentry, beq_self_eq_true m⟩))
      have he : e ∈ (freqMap changes).filter (fun e => e.1 == m) := by simp [hlast]
      obtain ⟨he, hkey⟩ := List.mem_filter.1 he
      obtain ⟨-, hcount⟩ := (htally.mem_iff e.1 e.2).1 he
      have hkey : e.1 = m := beq_iff_eq.1 hkey
      have hiter : (lastOrder m).iter (freqMap changes) =
          ((freqMap changes).filter (fun e => !(e.1 == m)) ++ init) ++ [e] := by
        simp only [lastOrder, hlast, List.append_assoc]
      have hle : ∀ x ∈ (freqMap changes).filter (fun e => !(e.1 == m)) ++ init, x.2 ≤ e.2 := by
        intro x hx
        have hx : x ∈ freqMap changes := by
          rcases List.mem_append.1 hx with hx | hx
          · exact (List.mem_filter.1 hx).1
          · have hx : x ∈ (freqMap changes).filter (fun e => e.1 == m) := by simp [hlast, hx]
            exact (List.mem_filter.1 hx).1
        rw [((htally.mem_iff x.1 x.2).1 hx).2, hcount, hkey]
        exact hmax x.1
      rw [findMode, hiter, maxByCount_append hle]
      exact hkey
    · exact ⟨lastOrder 0, findMode_of_nil _ hnil⟩

/-! ## A delta on any list -/

/-- What the entry of `e.1` at index `e.2` does to a list, the base or not: an unchanged one
nothing, a difference the addition of that difference, any other the target. -/
def entryStep (b : Build) (buf : List UInt64) (e : (UInt64 × UInt64) × Nat) :
    Exec (List UInt64) (List UInt64) :=
  if pairTag e.1 = SET_NO_CHANGE then .ok buf
  else if pairTag e.1 = SET_TO_DIFF then do
    let val ← orPanic buf buf[e.2]?
    let sum ← orPanic buf (b.addI64 val.toInt64 (diffOf e.1))
    writeAt buf (e.2, sum.toUInt64)
  else writeAt buf (e.2, e.1.2)

/-- **One tag of an encoder's delta**, on any list: the mode leaves no trace. -/
theorem applyTag_entryStep (b : Build) {d : BalancesDiff} (hmode : fitsI32 d.mode = true)
    (p : UInt64 × UInt64) (buf values : List UInt64) (i : Nat) {done rest : List UInt8}
    (h : d.varintPayload = done ++ (pairVarint d.mode p ++ rest)) :
    applyTag b d ⟨buf, pairValues p ++ values, done.length, i⟩ (pairTag p) =
      (entryStep b buf (p, i) >>= fun buf' =>
        .ok ⟨buf', values, (done ++ pairVarint d.mode p).length, i + 1⟩) := by
  unfold entryStep
  rcases pairTag_cases p with ⟨heq, htag⟩ | ⟨-, hzero, htag⟩ | ⟨-, -, -, htag⟩ |
    ⟨-, -, -, hfit, htag⟩
  · obtain ⟨-, hvar, hval⟩ := pair_of_eq heq d.mode
    rw [htag, hvar, hval, List.append_nil, List.nil_append]
    rfl
  · have hvar : pairVarint d.mode p = [] := by rw [pairVarint, htag]; rfl
    have hval : pairValues p = [] := by rw [pairValues, htag]; rfl
    rw [htag, hvar, hval, hzero, List.append_nil, List.nil_append]
    rfl
  · have hvar : pairVarint d.mode p = [] := by rw [pairVarint, htag]; rfl
    have hval : pairValues p = [p.2] := by rw [pairValues, htag]; rfl
    rw [htag, hvar, hval, List.append_nil, List.singleton_append]
    rfl
  · have hvar : pairVarint d.mode p = writeVarint (zigzagEncode (diffOf p - d.mode)) := by
      rw [pairVarint, htag]
      rfl
    have hval : pairValues p = [] := by rw [pairValues, htag]; rfl
    rw [hvar] at h
    -- the corrected difference and the mode add up exactly
    have hadd : b.addI64 (diffOf p - d.mode) d.mode = some (diffOf p) := by
      obtain ⟨hsub, -⟩ := corrected_range hfit hmode
      have hin : InI64 ((diffOf p - d.mode).toInt + d.mode.toInt) := by
        rw [hsub, Int.sub_add_cancel]
        exact inI64_toInt _
      rw [addI64_of_inI64 b fun _ => hin, Int64.sub_add_cancel]
    have hne : ¬SET_TO_DIFF = SET_NO_CHANGE := by decide
    rw [htag, hvar, hval, List.nil_append, if_neg hne, if_pos rfl]
    simp only [applyTag, readVarint_written b h, orPanic_some, ok_bind, zigzagDecode_zigzagEncode,
      hadd, bind_assoc]
    rfl

theorem foldlM_applyTag_entryStep (b : Build) {d : BalancesDiff} (hmode : fitsI32 d.mode = true)
    (values : List UInt64) (rest : List UInt8) :
    ∀ (pairs : List (UInt64 × UInt64)) (buf : List UInt64) (done : List UInt8) (i : Nat),
    d.varintPayload = done ++ (pairs.flatMap (pairVarint d.mode) ++ rest) →
    (pairs.map pairTag).foldlM (applyTag b d)
        ⟨buf, pairs.flatMap pairValues ++ values, done.length, i⟩ =
      ((pairs.zipIdx i).foldlM (entryStep b) buf >>= fun buf' => .ok ⟨buf', values,
        (done ++ pairs.flatMap (pairVarint d.mode)).length, i + pairs.length⟩) := by
  intro pairs
  induction pairs with
  | nil =>
    intro buf done i h
    simp [pure, Except.pure]
  | cons p pairs ih =>
    intro buf done i h
    rw [List.flatMap_cons, List.append_assoc] at h
    rw [List.map_cons, List.flatMap_cons, List.append_assoc, List.foldlM_cons,
      applyTag_entryStep b hmode p _ _ _ h, List.zipIdx_cons, List.foldlM_cons]
    cases hstep : entryStep b buf (p, i) with
    | error buf' => rfl
    | ok buf' =>
      rw [ok_bind, ok_bind, ok_bind, ih buf' _ (i + 1) (by rw [h, List.append_assoc]),
        List.length_cons, Nat.add_right_comm, ← Nat.add_assoc, List.flatMap_cons,
        List.append_assoc]

/-- An archive may count fewer tags than there are. -/
theorem tags_archive_diffBalancesIter {b : Build} (r : Rkyv) {order : HashOrder}
    {base target : List UInt64} {d : BalancesDiff}
    (hd : diffBalancesIter b order base target = some d) :
    (d.archive r).tags.tags =
      ((base.zip target).take (r.archiveUsize (min base.length target.length))).map pairTag := by
  obtain ⟨d', hd', -, -, hlen, htags, -⟩ :=
    diffBalancesIter_spec b order (diffBalancesIter_isSome.1 ⟨d, hd⟩)
  obtain rfl : d = d' := Option.some.inj (hd.symm.trans hd')
  rw [List.map_take, ← htags, ← hlen]
  exact d.tags.tags_archive r

/-- **What an archived delta of `base` and `target` does to any list of balances**, in any build
and whatever its mode is. -/
theorem applyBalancesIter_created {b b' : Build} (r : Rkyv) {order : HashOrder}
    {base target : List UInt64} {d : BalancesDiff}
    (hd : diffBalancesIter b order base target = some d) (buf : List UInt64) :
    applyBalancesIter b' buf (d.archive r) =
      if b'.debugAssertions && buf.length != r.archiveUsize (min base.length target.length) then
        .error buf
      else (do
        let buf' ← (((base.zip target).take
          (r.archiveUsize (min base.length target.length))).zipIdx).foldlM (entryStep b') buf
        .ok (buf' ++ target.drop (min base.length target.length))) := by
  have hfit := diffBalancesIter_isSome.1 ⟨d, hd⟩
  obtain ⟨d', hd', hmode, -, hlen, -, hvar, hval, happ⟩ := diffBalancesIter_spec b order hfit
  obtain rfl : d = d' := Option.some.inj (hd.symm.trans hd')
  have hpairs := tags_archive_diffBalancesIter r hd
  -- the pairs that the archive counts, and those whose payload is left over
  have hcut := List.take_append_drop (r.archiveUsize d.tags.len) (base.zip target)
  rw [← hlen] at hpairs ⊢
  generalize (base.zip target).take (r.archiveUsize d.tags.len) = pairs at hpairs hcut ⊢
  generalize (base.zip target).drop (r.archiveUsize d.tags.len) = others at hcut
  rw [← hcut, List.flatMap_append] at hvar hval
  have hrun := foldlM_applyTag_entryStep b' (d := d.archive r) hmode (others.flatMap pairValues)
    (others.flatMap (pairVarint d.mode)) pairs buf [] 0
    (by rw [List.nil_append]; exact hvar)
  rw [List.length_nil, ← hval] at hrun
  have hvalues : (d.archive r).targetValues = d.targetValues := rfl
  have hcount : (d.archive r).tags.len = r.archiveUsize d.tags.len := rfl
  have happended : (d.archive r).appendedBalances = d.appendedBalances := rfl
  rw [applyBalancesIter_eq, hpairs, hvalues, hcount, hrun, happended, happ, hlen]
  simp only [bind_assoc, ok_bind]

/-! ## Unobservable -/

section

variable {T V : Type} [ValidatorMut V] [ValidatorMutTarget T V]

/-- Of its balance delta, `apply` sees what that delta does. -/
theorem apply_congr_balances {b : Build} {d : ArchivedBeaconStateDelta} {balances : BalancesDiff}
    (h : ∀ buf, applyBalancesIter b buf balances = applyBalancesIter b buf d.balances)
    (s : DiffTarget T) : apply b s { d with balances } = apply b s d := by
  have hcomponents : ∀ s : DiffTarget T,
      applyComponents b { d with balances } s = applyComponents b d s := by
    intro s
    unfold applyComponents
    simp only [onField, h]
  unfold apply
  simp only [hcomponents]
  rfl

variable {V₁ V₂ : Type} [ValidatorSnapshot V₁] [ValidatorSnapshot V₂]

/-- The order of the hash map reaches the balance delta only. -/
theorem created_eq {b : Build} {order₁ order₂ : HashOrder} {state : DiffSource V₁ V₂}
    {d₁ d₂ : BeaconStateDelta ForkName} (h₁ : Created b order₁ state d₁)
    (h₂ : Created b order₂ state d₂) : d₂ = { d₁ with balances := d₂.balances } := by
  obtain ⟨⟩ := d₁
  obtain ⟨⟩ := d₂
  simp only [BeaconStateDelta.mk.injEq, true_and]
  exact ⟨h₂.fork.trans h₁.fork.symm, h₂.baseSlot.trans h₁.baseSlot.symm,
    h₂.scalarHeader.trans h₁.scalarHeader.symm, h₂.validators.trans h₁.validators.symm,
    Option.some.inj (h₂.blockRoots.symm.trans h₁.blockRoots),
    Option.some.inj (h₂.stateRoots.symm.trans h₁.stateRoots),
    Option.some.inj (h₂.randaoMixes.symm.trans h₁.randaoMixes),
    Option.some.inj (h₂.slashings.symm.trans h₁.slashings),
    h₂.eth1DataVotes.trans h₁.eth1DataVotes.symm,
    Option.some.inj (h₂.historicalRoots.symm.trans h₁.historicalRoots),
    h₂.previousEpochAttestations.trans h₁.previousEpochAttestations.symm,
    h₂.currentEpochAttestations.trans h₁.currentEpochAttestations.symm,
    h₂.previousParticipation.trans h₁.previousParticipation.symm,
    h₂.currentParticipation.trans h₁.currentParticipation.symm,
    h₂.inactivityScores.trans h₁.inactivityScores.symm,
    h₂.currentSyncCommittee.trans h₁.currentSyncCommittee.symm,
    h₂.nextSyncCommittee.trans h₁.nextSyncCommittee.symm,
    Option.some.inj (h₂.historicalSummaries.symm.trans h₁.historicalSummaries),
    Option.some.inj (h₂.pendingDeposits.symm.trans h₁.pendingDeposits),
    Option.some.inj (h₂.pendingPartialWithdrawals.symm.trans h₁.pendingPartialWithdrawals),
    Option.some.inj (h₂.pendingConsolidations.symm.trans h₁.pendingConsolidations)⟩

theorem create_some_of_order {b : Build} {order₁ : HashOrder} (order₂ : HashOrder)
    {state : DiffSource V₁ V₂} {d₁ : BeaconStateDelta ForkName}
    (h : create b order₁ state = some d₁) : ∃ d₂, create b order₂ state = some d₂ := by
  obtain ⟨hcreated, hasserts⟩ := create_eq_some.1 h
  obtain ⟨balances, hbal⟩ : ∃ balances,
      diffBalancesIter b order₂ state.balances.1 state.balances.2 = some balances :=
    diffBalancesIter_isSome.2 (diffBalancesIter_isSome.1 ⟨_, hcreated.balances⟩)
  exact ⟨{ d₁ with balances }, create_eq_some.2 ⟨{ hcreated with balances := hbal }, hasserts⟩⟩

/-- **The order of the hash map cannot be observed**: two deltas of one source, created under
different orders, do the same to every state, down to what an error or a panic leaves; and under
one order `create` panics iff it does under the other. -/
theorem create_order_unobservable (b b' : Build) (r : Rkyv) (order₁ order₂ : HashOrder)
    (state : DiffSource V₁ V₂) (s : DiffTarget T) :
    (create b order₁ state).map (fun d => apply b' s (d.archive r)) =
      (create b order₂ state).map (fun d => apply b' s (d.archive r)) := by
  cases h₁ : create b order₁ state with
  | none =>
    cases h₂ : create b order₂ state with
    | none => rfl
    | some d₂ =>
      obtain ⟨d₁, h₁'⟩ := create_some_of_order order₁ h₂
      rw [h₁] at h₁'
      cases h₁'
  | some d₁ =>
    obtain ⟨d₂, h₂⟩ := create_some_of_order order₂ h₁
    obtain ⟨hcreated₁, -⟩ := create_eq_some.1 h₁
    obtain ⟨hcreated₂, -⟩ := create_eq_some.1 h₂
    have hbal : ∀ buf, applyBalancesIter b' buf (d₂.balances.archive r) =
        applyBalancesIter b' buf (d₁.balances.archive r) := fun buf => by
      rw [applyBalancesIter_created r hcreated₂.balances,
        applyBalancesIter_created r hcreated₁.balances]
    rw [h₂, Option.map_some, Option.map_some, created_eq hcreated₁ hcreated₂]
    exact congrArg some (apply_congr_balances (d := d₁.archive r) hbal s).symm

end

end EthStateDiff
