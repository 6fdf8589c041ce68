import EthStateDiff.Links
/-!
# Dropping states from an archive (`README.md:127-147`)

An archive need not keep every state: a delta may as well span several slots, epochs or days. Here
is how a state evolves between two slots, however far apart, as the encoders rely on it: balances
and registries only grow, public keys stay, a slashed validator stays slashed, rings are written
slot by slot, and logs get their items at period ends.

* `Canonical` — what holds of one state; `Evolves` — of an earlier state and a later one.
* `Evolves.trans` — evolution composes, so it does not matter how far apart the two are.
* `carries_iff_follows` — a delta then carries one state to the other unless the votes were reset.
* `thinned_chain_reconstructs_iff` — **exactly which archives survive the dropping of states**.
-/

namespace EthStateDiff

open Rust ByteString Overwrite Replay

/-! ## One state -/

/-- A canonical status byte, and the `withdrawable_epoch` that an unslashed validator has. -/
structure CanonicalRecord (r : RawValidator) : Prop where
  status : r.slashed = 0 ∨ r.slashed = 1
  withdrawable : r.slashed = 0 →
    r.withdrawableEpoch = saturatingAdd r.exitEpoch MIN_VALIDATOR_WITHDRAWABILITY_DELAY

/-- The components of the fork, within the machine's bounds; whole items in the queues. No gap
between two slots is too long for a `Vec` of roots. -/
structure Canonical (S : Snapshot) : Prop extends Bounded S where
  slotRange : S.slot.toNat < 2 ^ 58
  present : ∀ field, S.state.has field = true ↔ field.InFork S.state.fork
  balances : ∀ v ∈ S.state.balances, v.toNat < 2 ^ 63
  registry : ∀ r ∈ EthStateDiff.records S.state.validators.bytes, CanonicalRecord r
  wholeDeposits : ∀ queue, S.state.pendingDeposits = some queue →
    PENDING_DEPOSIT_SSZ_SIZE ∣ queue.length
  wholePartialWithdrawals : ∀ queue, S.state.pendingPartialWithdrawals = some queue →
    PARTIAL_WITHDRAWAL_SSZ_SIZE ∣ queue.length
  wholeConsolidations : ∀ queue, S.state.pendingConsolidations = some queue →
    PENDING_CONSOLIDATION_SSZ_SIZE ∣ queue.length

/-! ## Two states -/

/-- Validators are appended; a record keeps its public key, and stays slashed once it is. -/
structure RegistryEvolves (base target : List UInt8) : Prop where
  grows : base.length ≤ target.length
  pubkey : ∀ p ∈ (records base).zip (records target), p.1.pubkey = p.2.pubkey
  slashed : ∀ p ∈ (records base).zip (records target), p.2.slashed = 0 → p.1.slashed = 0

/-- `T` is a later state than `B`. Header, votes, queues, attestations and sync committees are
free. -/
structure Evolves (capellaForkSlot : UInt64) (B T : Snapshot) : Prop where
  fork : T.state.fork = B.state.fork
  slots : B.slot ≤ T.slot
  present : ∀ field, B.state.has field = T.state.has field
  balances : B.state.balances.length ≤ T.state.balances.length
  validators : RegistryEvolves B.state.validators.bytes T.state.validators.bytes
  blockRoots : RingLinked B.slot.toNat T.slot.toNat B.state.blockRoots T.state.blockRoots
  stateRoots : RingLinked B.slot.toNat T.slot.toNat B.state.stateRoots T.state.stateRoots
  randaoMixes : RingLinked (B.slot.toNat / 32) (T.slot.toNat / 32 + 1) B.state.randaoMixes
    T.state.randaoMixes
  slashings : RingLinked (B.slot.toNat / 32 + 1) (T.slot.toNat / 32 + 1) B.state.slashings
    T.state.slashings
  historicalRoots : OnPair (LogGrows none B.slot.toNat T.slot.toNat HISTORICAL_ROOTS_SSZ_SIZE)
    B.state.historicalRoots T.state.historicalRoots
  previousParticipation : OnPair (fun b t => b.length ≤ t.length)
    B.state.previousParticipation T.state.previousParticipation
  currentParticipation : OnPair (fun b t => b.length ≤ t.length)
    B.state.currentParticipation T.state.currentParticipation
  inactivityScores : OnPair (fun b t => b.length ≤ t.length)
    B.state.inactivityScores T.state.inactivityScores
  historicalSummaries : OnPair (LogGrows (some capellaForkSlot) B.slot.toNat T.slot.toNat
    HISTORICAL_SUMMARIES_SSZ_SIZE) B.state.historicalSummaries T.state.historicalSummaries

/-- The votes were appended to, or reset and not yet as many again: what `diff_eth1_votes` can
tell apart. -/
def VotesFollow (B T : Snapshot) : Prop :=
  T.state.eth1DataVotes.length < B.state.eth1DataVotes.length ∨
    B.state.eth1DataVotes <+: T.state.eth1DataVotes

/-! ## Evolution composes -/

theorem length_records (bytes : List UInt8) : (records bytes).length = bytes.length / 121 := by
  rw [records, List.length_map, length_chunksExact]

theorem RegistryEvolves.trans {base mid target : List UInt8} (h₁ : RegistryEvolves base mid)
    (h₂ : RegistryEvolves mid target) : RegistryEvolves base target := by
  have hle : (records base).length ≤ (records mid).length := by
    rw [length_records, length_records]
    exact Nat.div_le_div_right h₁.grows
  refine ⟨h₁.grows.trans h₂.grows, ?_, ?_⟩
  · rintro ⟨x, z⟩ hp
    obtain ⟨y, hxy, hyz⟩ := exists_mem_zip_between hle hp
    exact (h₁.pubkey (x, y) hxy).trans (h₂.pubkey (y, z) hyz)
  · rintro ⟨x, z⟩ hp hz
    obtain ⟨y, hxy, hyz⟩ := exists_mem_zip_between hle hp
    exact h₁.slashed (x, y) hxy (h₂.slashed (y, z) hyz hz)

/-- Two windows inside a third. -/
theorem RingLinked.trans {α : Type} {lo hi lo' hi' : Nat} {base mid target : List α}
    (h₁ : RingLinked lo hi base mid) (h₂ : RingLinked lo' hi' mid target) (hlo : lo ≤ lo')
    (hhi : hi ≤ hi') : RingLinked lo hi' base target := by
  refine ⟨h₁.capacity.trans h₂.capacity, h₂.nonempty, ?_⟩
  have hoff := h₁.agree.trans h₂.agree
  rw [h₂.capacity] at hoff
  exact hoff.mono (Set.union_subset (ringWindow_mono (le_refl lo) hhi)
    (ringWindow_mono hlo (le_refl hi')))

/-- The period ends of two stretches of slots are those of the one and of the other. -/
theorem LogGrows.trans {activation : Option UInt64} {lo mid hi size : Nat}
    {base log target : List UInt8} (h₁ : LogGrows activation lo mid size base log)
    (h₂ : LogGrows activation mid hi size log target) (hlo : lo ≤ mid) (hhi : mid ≤ hi) :
    LogGrows activation lo hi size base target := by
  obtain ⟨items, rfl, hitems⟩ := h₁
  obtain ⟨items', rfl, hitems'⟩ := h₂
  have hcard : (periodEnds activation lo hi).card =
      (periodEnds activation lo mid).card + (periodEnds activation mid hi).card := by
    have h₁ := logCount_eq_card activation hlo
    have h₂ := logCount_eq_card activation hhi
    have h := logCount_eq_card activation (hlo.trans hhi)
    omega
  refine ⟨items ++ items', List.append_assoc _ _ _, ?_⟩
  rw [List.length_append, hitems, hitems', hcard, Nat.add_mul]

/-- A component that all three states have, or none. -/
theorem OnPair.trans {α : Type} {P Q R : α → α → Prop} {x y z : Option α} (h₁ : OnPair P x y)
    (h₂ : OnPair Q y z) (hsame : x.isSome = y.isSome) (hPQ : ∀ a b c, P a b → Q b c → R a c) :
    OnPair R x z := by
  rintro a c rfl rfl
  obtain ⟨b, rfl⟩ := Option.isSome_iff_exists.1 hsame.symm
  exact hPQ a b c (h₁ a b rfl rfl) (h₂ b c rfl rfl)

/-- **Evolution composes.** -/
theorem Evolves.trans {capellaForkSlot : UInt64} {B M T : Snapshot}
    (h₁ : Evolves capellaForkSlot B M) (h₂ : Evolves capellaForkSlot M T) :
    Evolves capellaForkSlot B T := by
  have hlo := UInt64.le_iff_toNat_le.1 h₁.slots
  have hhi := UInt64.le_iff_toNat_le.1 h₂.slots
  have hepochs := Nat.div_le_div_right (c := 32) hlo
  have hepochs' := Nat.div_le_div_right (c := 32) hhi
  exact {
    fork := h₂.fork.trans h₁.fork
    slots := UInt64.le_trans h₁.slots h₂.slots
    present := fun field => (h₁.present field).trans (h₂.present field)
    balances := h₁.balances.trans h₂.balances
    validators := h₁.validators.trans h₂.validators
    blockRoots := h₁.blockRoots.trans h₂.blockRoots hlo hhi
    stateRoots := h₁.stateRoots.trans h₂.stateRoots hlo hhi
    randaoMixes := h₁.randaoMixes.trans h₂.randaoMixes hepochs (by omega)
    slashings := h₁.slashings.trans h₂.slashings (by omega) (by omega)
    historicalRoots := h₁.historicalRoots.trans h₂.historicalRoots (h₁.present .historicalRoots)
      fun _ _ _ h h' => h.trans h' hlo hhi
    previousParticipation := h₁.previousParticipation.trans h₂.previousParticipation
      (h₁.present .previousParticipation) fun _ _ _ => Nat.le_trans
    currentParticipation := h₁.currentParticipation.trans h₂.currentParticipation
      (h₁.present .currentParticipation) fun _ _ _ => Nat.le_trans
    inactivityScores := h₁.inactivityScores.trans h₂.inactivityScores
      (h₁.present .inactivityScores) fun _ _ _ => Nat.le_trans
    historicalSummaries := h₁.historicalSummaries.trans h₂.historicalSummaries
      (h₁.present .historicalSummaries) fun _ _ _ h h' => h.trans h' hlo hhi }

instance (capellaForkSlot : UInt64) : Trans (Evolves capellaForkSlot) (Evolves capellaForkSlot)
    (Evolves capellaForkSlot) := ⟨Evolves.trans⟩

/-! ## What a delta carries -/

/-- A canonical record that stays slashed once it is can be rebuilt. -/
theorem CanonicalRecord.rebuilds {r s : RawValidator} (hr : CanonicalRecord r)
    (hs : CanonicalRecord s) (hpubkey : r.pubkey = s.pubkey)
    (hslashed : s.slashed = 0 → r.slashed = 0) : Rebuilds r s := by
  refine ⟨hpubkey, fun hsame => ?_, fun _ => hs.status, fun hzero => ?_⟩
  · rcases hr.status with hb | hb <;> rcases hs.status with ht | ht <;> rw [hb, ht] at hsame ⊢
    · cases hsame
    · cases hsame
  · have hzero : s.slashed = 0 := by simpa using hzero
    rw [hs.withdrawable hzero]
    split
    · rename_i hexit
      rw [hr.withdrawable (hslashed hzero), hexit]
    · rfl

/-- A queue of whole items that is not empty begins with one. -/
theorem size_le_of_whole {size : Nat} {queue : List UInt8} (h : size ∣ queue.length)
    (hne : queue ≠ []) : size ≤ queue.length :=
  Nat.le_of_dvd (List.length_pos_iff.2 hne) h

theorem both_eq_some {α : Type} {x y : Option α} {q : α × α} (h : both x y = some q) :
    x = some q.1 ∧ y = some q.2 := by
  cases x <;> cases y <;> cases h
  exact ⟨rfl, rfl⟩

section

variable {b : Build} {capellaForkSlot : UInt64} {B T : Snapshot}

/-- The encoders get what they need of an evolving state. -/
theorem Evolves.encodable (h : Evolves capellaForkSlot B T) (hB : Canonical B) (hT : Canonical T) :
    Encodable b (source capellaForkSlot B T) := by
  have hlog : ∀ {activation : Option UInt64} {size : Nat} {x y : Option (List UInt8)},
      x.isSome = y.isSome → OnPair (LogGrows activation B.slot.toNat T.slot.toNat size) x y →
      LogCovers activation (B.slot, T.slot) size y := by
    rintro activation size x y hsame hpair log rfl
    obtain ⟨base, rfl⟩ := Option.isSome_iff_exists.1 hsame
    obtain ⟨items, rfl, hitems⟩ := hpair base log rfl rfl
    rw [List.length_append, hitems]
    exact Nat.le_add_left _ _
  have hqueue : ∀ {size : Nat} {x y : Option (List UInt8)},
      (∀ queue, y = some queue → size ∣ queue.length) → QueueHeads size (both x y) :=
    fun hwhole q hq _ hne => size_le_of_whole (hwhole q.2 (both_eq_some hq).2) hne
  have hspan := hT.slotRange
  exact {
    slots := h.slots
    span := by
      show T.slot.toNat - B.slot.toNat < _
      omega
    differences := diffsFit_of_lt fun _ p hp =>
      ⟨hB.balances _ (List.of_mem_zip hp).1, hT.balances _ (List.of_mem_zip hp).2⟩
    blockRoots := h.blockRoots.nonempty
    stateRoots := h.stateRoots.nonempty
    randaoMixes := h.randaoMixes.nonempty
    slashings := ⟨ne_nil_of_length_eq h.slashings.capacity h.slashings.nonempty,
      h.slashings.capacity⟩
    historicalRoots := hlog (h.present .historicalRoots) h.historicalRoots
    historicalSummaries := hlog (h.present .historicalSummaries) h.historicalSummaries
    pendingDeposits := hqueue hT.wholeDeposits
    pendingPartialWithdrawals := hqueue hT.wholePartialWithdrawals
    pendingConsolidations := hqueue hT.wholeConsolidations
    present := fun _ field _ => by
      rw [has_source h.present]
      exact hT.present field }

/-- The appliers rebuild all of it but perhaps the votes. -/
theorem Evolves.restores (h : Evolves capellaForkSlot B T) (hB : Canonical B) (hT : Canonical T)
    (hvotes : VotesFollow B T) : Restores capellaForkSlot B T where
  fork := h.fork
  present := h.present
  allowed field := (hT.present field).1
  balances := h.balances
  validators := ⟨h.validators.grows, fun p hp =>
    (hB.registry _ (List.of_mem_zip hp).1).rebuilds (hT.registry _ (List.of_mem_zip hp).2)
      (h.validators.pubkey p hp) (h.validators.slashed p hp)⟩
  blockRoots := h.blockRoots
  stateRoots := h.stateRoots
  randaoMixes := h.randaoMixes
  slashings := h.slashings
  eth1DataVotes := hvotes
  historicalRoots := h.historicalRoots
  previousParticipation := h.previousParticipation
  currentParticipation := h.currentParticipation
  inactivityScores base target hb ht := Or.inl (h.inactivityScores base target hb ht)
  historicalSummaries := h.historicalSummaries
  pendingDeposits _ _ hb _ _ := hB.wholeDeposits _ hb
  pendingPartialWithdrawals _ _ hb _ _ := hB.wholePartialWithdrawals _ hb
  pendingConsolidations _ _ hb _ _ := hB.wholeConsolidations _ hb

/-- **A delta carries an evolving state** iff it can tell what became of the votes. -/
theorem carries_iff_follows (h : Evolves capellaForkSlot B T) (hB : Canonical B)
    (hT : Canonical T) : Carries b capellaForkSlot B T ↔ VotesFollow B T :=
  ⟨fun hcarries => hcarries.2.eth1DataVotes,
    fun hvotes => ⟨h.encodable hB hT, h.restores hB hT hvotes⟩⟩

end

/-! ## Thinning -/

/-- **Exactly which archives survive the dropping of states**: along a chain of evolving states,
any of them may be dropped, and what is left can be archived and replayed in every build iff each
delta left can tell what became of the votes. -/
theorem thinned_chain_reconstructs_iff (b : Build) (r : Rkyv) (order : HashOrder)
    (capellaForkSlot : UInt64) {states : List Snapshot} (hcanonical : ∀ S ∈ states, Canonical S)
    (hevolves : List.IsChain (Evolves capellaForkSlot) states) {first : Snapshot}
    {later : List Snapshot} (hsub : (first :: later).Sublist states) :
    (∃ deltas,
      diffAll (fun B T => create b order (source capellaForkSlot B T)) first later = some deltas ∧
      replay (fun s d => (apply b s (d.archive r)).state?) first.state deltas =
        some (later.map Snapshot.state)) ↔
      List.IsChain VotesFollow (first :: later) := by
  have hkept : ∀ S ∈ first :: later, Canonical S := fun S hS => hcanonical S (hsub.subset hS)
  have hcarries : List.IsChain (Carries b capellaForkSlot) (first :: later) ↔
      List.IsChain VotesFollow (first :: later) :=
    isChain_congr (E := Evolves capellaForkSlot) (P := Canonical)
      (fun _ _ hB hT h => carries_iff_follows h hB hT) hkept (hevolves.sublist hsub)
  rw [← hcarries]
  exact replay_diffAll_iff (fun _ _ hB hT => link_replays_iff b r order capellaForkSlot hB hT)
    first later fun S hS => (hkept S hS).toBounded

/-- The first state of the Electra chain, at slot `n` and with these votes. -/
def voting (n : Nat) (votes : List UInt8) : Snapshot where
  slot := UInt64.ofNat n
  state := { (joining 0).state with eth1DataVotes := votes }

theorem toNat_slot_voting {n : Nat} (hn : n < 8192) (votes : List UInt8) :
    (voting n votes).slot.toNat = n :=
  UInt64.toNat_ofNat_of_lt' (show n < 2 ^ 64 by omega)

theorem records_voting (n : Nat) (votes : List UInt8) :
    records (voting n votes).state.validators.bytes = [staking 0] := records_encRaw [staking 0]

theorem canonical_voting {n : Nat} (hn : n < 8192) (votes : List UInt8) :
    Canonical (voting n votes) where
  toBounded := { bounded_joining (n := 0) (by decide) with
    slot := by
      rw [toNat_slot_voting hn]
      omega }
  slotRange := by
    rw [toNat_slot_voting hn]
    omega
  present := has_joining 0
  balances := by
    intro v hv
    rw [show v = 32 from List.eq_of_mem_replicate hv]
    decide
  registry := by
    rw [records_voting]
    intro v hv
    rw [List.mem_singleton.1 hv]
    exact ⟨Or.inl rfl, fun _ => rfl⟩
  wholeDeposits := by
    rintro _ ⟨⟩
    decide
  wholePartialWithdrawals := by
    rintro _ ⟨⟩
    decide
  wholeConsolidations := by
    rintro _ ⟨⟩
    decide

theorem evolves_voting {m n : Nat} (hlt : m < n) (hn : n < 8192) (votes votes' : List UInt8) :
    Evolves 0 (voting m votes) (voting n votes') := by
  have hm := toNat_slot_voting (show m < 8192 by omega) votes
  have hn' := toNat_slot_voting hn votes'
  exact {
    fork := rfl
    slots := by
      rw [UInt64.le_iff_toNat_le, hm, hn']
      omega
    present := fun field => by cases field <;> rfl
    balances := le_refl _
    validators := by
      refine ⟨le_refl _, fun p hp => ?_, fun p hp _ => ?_⟩
      all_goals
        rw [records_voting, records_voting] at hp
        have hsame := List.mem_singleton.1 hp
      · rw [hsame]
      · rw [hsame]
        rfl
    blockRoots := ringLinked_singleton _ _ (by omega)
    stateRoots := ringLinked_singleton _ _ (by omega)
    randaoMixes := ringLinked_singleton _ _ (by omega)
    slashings := ⟨rfl, by simp [voting, joining], fun _ _ _ => rfl⟩
    historicalRoots := by
      rintro _ _ ⟨⟩
    previousParticipation := by
      rintro _ _ ⟨⟩ ⟨⟩
      exact le_refl _
    currentParticipation := by
      rintro _ _ ⟨⟩ ⟨⟩
      exact le_refl _
    inactivityScores := by
      rintro _ _ ⟨⟩ ⟨⟩
      exact le_refl _
    historicalSummaries := by
      rintro _ _ ⟨⟩ ⟨⟩
      refine ⟨[], (List.append_nil _).symm, ?_⟩
      rw [card_periodEnds (k := 0) (by omega)
        (by simp only [logCount, UInt64.toNat_zero]; omega)]
      rfl }

/-- The votes are reset at slot 2. Slot 1 may be dropped; without slot 2, slot 3 does not come
back. -/
theorem thinned_chain_reconstructs_voting :
    (∃ deltas,
      diffAll (fun B T => create Build.dev ⟨id, fun _ => .refl _⟩ (source 0 B T)) (voting 0 [1])
        [voting 2 [], voting 3 [2, 2]] = some deltas ∧
      replay (fun s d => (apply Build.dev s (d.archive .truncating)).state?) (voting 0 [1]).state
        deltas = some ([voting 2 [], voting 3 [2, 2]].map Snapshot.state)) ∧
    ¬∃ deltas,
      diffAll (fun B T => create Build.dev ⟨id, fun _ => .refl _⟩ (source 0 B T)) (voting 0 [1])
        [voting 3 [2, 2]] = some deltas ∧
      replay (fun s d => (apply Build.dev s (d.archive .truncating)).state?) (voting 0 [1]).state
        deltas = some ([voting 3 [2, 2]].map Snapshot.state) := by
  have hcanonical : ∀ S ∈ [voting 0 [1], voting 1 [1, 1], voting 2 [], voting 3 [2, 2]],
      Canonical S := by
    simp only [List.forall_mem_cons, List.not_mem_nil, false_imp_iff, implies_true, and_true]
    exact ⟨canonical_voting (by decide) _, canonical_voting (by decide) _,
      canonical_voting (by decide) _, canonical_voting (by decide) _⟩
  have hevolves : List.IsChain (Evolves 0)
      [voting 0 [1], voting 1 [1, 1], voting 2 [], voting 3 [2, 2]] := by
    simp only [List.isChain_cons_cons, List.isChain_singleton, and_true]
    exact ⟨evolves_voting (by decide) (by decide) _ _, evolves_voting (by decide) (by decide) _ _,
      evolves_voting (by decide) (by decide) _ _⟩
  constructor
  · refine (thinned_chain_reconstructs_iff Build.dev .truncating _ 0 hcanonical hevolves
      (by simp)).2 ?_
    simp only [List.isChain_cons_cons, List.isChain_singleton, and_true]
    exact ⟨Or.inl (by decide), Or.inr (by decide)⟩
  · rw [thinned_chain_reconstructs_iff Build.dev .truncating _ 0 hcanonical hevolves (by simp)]
    simp only [List.isChain_cons_cons, List.isChain_singleton, and_true, VotesFollow]
    decide

end EthStateDiff
