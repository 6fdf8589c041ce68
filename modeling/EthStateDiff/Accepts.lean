import EthStateDiff.Least
import EthStateDiff.Modes
/-!
# Which states a created delta applies to (`lib.rs:512-851`)

A delta is meant for the state it was created from. In a release build `apply` takes it for any
state of its fork that has the entries it lists and room for the flags it appends: nothing else in
it can make an applier panic.

* `foldlM_entryStep_isOk` — balances; `participationFits_created`, … — the other payloads.
* `created_applies_iff` — **exactly which states take a created delta**.
-/

namespace EthStateDiff

open Rust ByteString Overwrite

/-! ## Balances -/

/-- Without overflow checks an entry that changed is written, wherever there is such an entry. -/
theorem entryStep_of_ne {b : Build} (hb : b.overflowChecks = false) {p : UInt64 × UInt64}
    (hne : p.1 ≠ p.2) (buf : List UInt64) (i : Nat) :
    (i < buf.length → ∃ v, entryStep b buf (p, i) = .ok (buf.set i v)) ∧
      (¬i < buf.length → ∃ out, entryStep b buf (p, i) = .error out) := by
  have hwrite : ∀ v, (i < buf.length → writeAt buf (i, v) = .ok (buf.set i v)) ∧
      (¬i < buf.length → writeAt buf (i, v) = .error buf) := fun v =>
    ⟨fun hlt => if_pos hlt, fun hout => if_neg hout⟩
  have htag : pairTag p ≠ SET_NO_CHANGE := by
    rcases pairTag_cases p with ⟨heq, -⟩ | ⟨-, -, h⟩ | ⟨-, -, -, h⟩ | ⟨-, -, -, -, h⟩
    · exact absurd heq hne
    all_goals
      rw [h]
      decide
  unfold entryStep
  rw [if_neg htag]
  split
  · constructor
    · intro hlt
      have hadd : b.addI64 (buf[i]).toInt64 (diffOf p) = some ((buf[i]).toInt64 + diffOf p) :=
        b.arith_of_unchecked hb _ _
      simp only [List.getElem?_eq_getElem hlt, orPanic_some, ok_bind, hadd]
      exact ⟨_, (hwrite _).1 hlt⟩
    · intro hout
      simp only [List.getElem?_eq_none (Nat.le_of_not_lt hout), orPanic_none, error_bind]
      exact ⟨_, rfl⟩
  · exact ⟨fun hlt => ⟨_, (hwrite _).1 hlt⟩, fun hout => ⟨_, (hwrite _).2 hout⟩⟩

theorem foldlM_entryStep_isOk {b : Build} (hb : b.overflowChecks = false) :
    ∀ (pairs : List (UInt64 × UInt64)) (buf : List UInt64) (i : Nat),
    (∃ out, (pairs.zipIdx i).foldlM (entryStep b) buf = .ok out) ↔
      ∀ j ∈ changedFrom i pairs, j < buf.length := by
  intro pairs
  induction pairs with
  | nil => exact fun buf _ => ⟨fun _ _ h => (by cases h), fun _ => ⟨buf, rfl⟩⟩
  | cons p pairs ih =>
    intro buf i
    obtain ⟨v, w⟩ := p
    rw [List.zipIdx_cons, List.foldlM_cons, changedFrom]
    by_cases hvw : v ≠ w
    · obtain ⟨hok, hpanic⟩ := entryStep_of_ne hb (p := (v, w)) hvw buf i
      rw [if_pos hvw, List.forall_mem_cons]
      by_cases hlt : i < buf.length
      · obtain ⟨x, hstep⟩ := hok hlt
        rw [hstep, ok_bind, ih, List.length_set, and_iff_right hlt]
      · obtain ⟨out, hstep⟩ := hpanic hlt
        rw [hstep, error_bind]
        constructor
        · rintro ⟨_, h⟩
          cases h
        · exact fun h => absurd h.1 hlt
    · have htag : pairTag (v, w) = SET_NO_CHANGE := (pair_of_eq (not_not.mp hvw) 0).1
      have hstep : entryStep b buf ((v, w), i) = .ok buf := by
        rw [entryStep, if_pos htag]
      rw [if_neg hvw, hstep, ok_bind, ih]

theorem balancesFit_created {b b' : Build} (hb : b'.overflowChecks = false)
    (hb' : b'.debugAssertions = false) (r : Rkyv) {order : HashOrder} {base target : List UInt64}
    {d : BalancesDiff} (hd : diffBalancesIter b order base target = some d) (buf : List UInt64) :
    BalancesFit b' buf (d.archive r) ↔ ∀ i ∈ (d.archive r).written, i < buf.length := by
  have hrun : (∃ out, applyBalancesIter b' buf (d.archive r) = .ok out) ↔
      ∃ out, (((base.zip target).take (r.archiveUsize (min base.length target.length))).zipIdx).foldlM
        (entryStep b') buf = .ok out := by
    rw [applyBalancesIter_created r hd, hb', Bool.false_and, if_neg Bool.false_ne_true]
    constructor
    · rintro ⟨out, h⟩
      obtain ⟨buf', h, -⟩ := bind_eq_ok.1 h
      exact ⟨buf', h⟩
    · rintro ⟨buf', h⟩
      exact ⟨_, bind_eq_ok.2 ⟨buf', h, rfl⟩⟩
  rw [← applyBalancesIter_isOk, hrun, foldlM_entryStep_isOk hb]
  exact forall_congr' fun i =>
    imp_congr_left (mem_written_of_tags (tags_archive_diffBalancesIter r hd)).symm

/-! ## The other payloads -/

/-- There is room for the flags that are appended. -/
def ParticipationDiff.RoomIn (len : Nat) : ParticipationDiff → Prop
  | .allZeros _ => True
  | .sparse _ _ extension => extension = [] ∨ len + extension.length ≤ isizeMax

theorem le_grownLen : ∀ (idxs : List Nat) (len : Nat), len ≤ grownLen len idxs
  | [], len => le_refl len
  | idx :: idxs, len => (Nat.le_max_left len (idx + 1)).trans (le_grownLen idxs _)

theorem grownLen_le {n : Nat} : ∀ {idxs : List Nat} (len : Nat), (∀ idx ∈ idxs, idx < n) →
    grownLen len idxs ≤ max len n
  | [], len, _ => Nat.le_max_left len n
  | idx :: idxs, len, h => by
    obtain ⟨hidx, hidxs⟩ := List.forall_mem_cons.1 h
    have := grownLen_le (max len (idx + 1)) hidxs
    show grownLen (max len (idx + 1)) idxs ≤ _
    omega

/-- A created delta grows a list up to the flags that both states have, and then appends. -/
theorem participationFits_created {b : Build} (hb : b.overflowChecks = false)
    {base target : List UInt8} (hmax : target.length < 2 ^ 63) (len : Nat) :
    ParticipationFits b len (diffParticipationIter base target) ↔
      (diffParticipationIter base target).RoomIn len := by
  have hwritten : (diffParticipationIter base target).written = changedFrom 0 (base.zip target) :=
    written_diffParticipationIter (by omega)
  have hlt : ∀ idx ∈ changedFrom 0 (base.zip target), idx < min base.length target.length := by
    intro idx hidx
    obtain ⟨hbase, htarget, -⟩ := mem_changedFrom_zip.1 hidx
    omega
  rw [← hwritten] at hlt
  have hlow := le_grownLen (diffParticipationIter base target).written len
  have hhigh := grownLen_le len hlt
  have hroom : ∀ idx ∈ (diffParticipationIter base target).written, idx < max len isizeMax := by
    intro idx hidx
    have := hlt idx hidx
    rw [isizeMax]
    omega
  have hgaps : GapsFit b len 0 (varints (diffParticipationLoop 0 0 (base.zip target)).1)
      (diffParticipationLoop 0 0 (base.zip target)).2.length :=
    ⟨(length_varints_diffParticipationLoop _ 0 0).ge, fun hc => (by rw [hb] at hc; cases hc), hroom⟩
  refine (and_iff_right hgaps).trans (or_congr_right ?_)
  rw [List.length_drop]
  show grownLen len (diffParticipationIter base target).written + _ ≤ _ ↔ _
  rw [isizeMax]
  omega

theorem inactivityFits_iff {len : Nat} {d : InactivityDiff} :
    InactivityFits len d ↔ ∀ i ∈ d.written, i < len := by
  cases d with
  | allZeros n => exact ⟨fun _ _ h => (by cases h), fun _ => trivial⟩
  | sparse indices newValues extensions =>
    rw [InactivityFits, InactivityDiff.written, List.forall_mem_map]

theorem widthOk_of_mem {V₁ V₂ : Type} [ValidatorSnapshot V₁] [ValidatorSnapshot V₂]
    {base : List V₁} {target : List V₂} {p : ValidatorPatch}
    (hp : p ∈ (diffValidatorsIter base target).patches) : p.WidthOk := by
  obtain ⟨k, v, w, -, hp⟩ := mem_patchesFrom.1 hp
  obtain ⟨-, -, hvalue⟩ := mem_recordPatches.1 hp
  have hlen := length_fieldValue w p.field
  rw [← hvalue] at hlen
  obtain ⟨index, field, value⟩ := p
  cases field with
  | slashed =>
    rintro rfl
    cases hlen
  | _ => exact hlen

/-! ## The delta -/

section

variable {T V : Type} [ValidatorMut V] [ValidatorMutTarget T V]
variable {V₁ V₂ : Type} [ValidatorSnapshot V₁] [ValidatorSnapshot V₂]

/-- **What can be wrong with a created payload** in a release build. -/
theorem payloadFits_created {b : Build} (r : Rkyv) {order : HashOrder} {state : DiffSource V₁ V₂}
    {d : BeaconStateDelta ForkName} (hcreated : Created b order state d)
    (hflags : ∀ epoch p, state.participation epoch = some p → p.2.length < 2 ^ 63)
    (s : DiffTarget T) :
    PayloadFits Build.release (d.archive r) s ↔
      s.blockRoots ≠ [] ∧ s.stateRoots ≠ [] ∧ s.randaoMixes ≠ [] ∧
      (∀ i ∈ (d.archive r).listed .balances, i < s.balances.length) ∧
      (∀ i ∈ (d.archive r).listed .slashings, i < s.slashings.length) ∧
      (∀ scores, s.inactivityScores = some scores →
        ∀ i ∈ (d.archive r).listed .inactivityScores, i < scores.length) ∧
      ∀ epoch flags, s.participation epoch = some flags →
        ∀ e, (d.archive r).participation epoch = some e → e.RoomIn flags.length := by
  have hbalances : BalancesFit Build.release s.balances (d.balances.archive r) ↔
      ∀ i ∈ (d.archive r).listed .balances, i < s.balances.length :=
    balancesFit_created rfl rfl r hcreated.balances _
  have hslashings : (∀ u ∈ d.slashings.updates, u.1.toNat < s.slashings.length) ↔
      ∀ i ∈ (d.archive r).listed .slashings, i < s.slashings.length := by
    show _ ↔ ∀ i ∈ d.slashings.updates.map fun u => u.1.toNat, i < s.slashings.length
    rw [List.forall_mem_map]
  have hscores : (∀ scores, s.inactivityScores = some scores → ∀ e, d.inactivityScores = some e →
      InactivityFits scores.length e) ↔ ∀ scores, s.inactivityScores = some scores →
        ∀ i ∈ (d.archive r).listed .inactivityScores, i < scores.length := by
    refine forall_congr' fun scores => imp_congr_right fun _ => ?_
    show _ ↔ ∀ i ∈ d.inactivityScores.elim [] InactivityDiff.written, _
    cases d.inactivityScores with
    | none => exact ⟨fun _ i hi => absurd hi List.not_mem_nil, fun _ e he => by cases he⟩
    | some e =>
      rw [Option.elim_some, ← inactivityFits_iff]
      exact ⟨fun h => h e rfl, fun h _ he => Option.some.inj he ▸ h⟩
  have hroom : ∀ epoch len e, (d.archive r).participation epoch = some e →
      (ParticipationFits Build.release len e ↔ e.RoomIn len) := by
    intro epoch len e he
    rw [participation_archive, hcreated.participation, Option.map_map,
      Option.map_eq_some_iff] at he
    obtain ⟨p, hp, rfl⟩ := he
    exact participationFits_created rfl (hflags epoch p hp) len
  rw [← hslashings, ← hscores, ← hbalances]
  constructor
  · intro h
    refine ⟨h.blockRoots.1, h.stateRoots.1, h.randaoMixes, h.balances, h.slashings,
      h.inactivityScores, fun epoch flags hs e he => (hroom epoch _ e he).1 ?_⟩
    cases epoch with
    | previous => exact h.previousParticipation flags hs e he
    | current => exact h.currentParticipation flags hs e he
  · rintro ⟨hblock, hstate, hrandao, hbal, hslash, hinact, hfits⟩
    have hfits : ∀ epoch flags, s.participation epoch = some flags →
        ∀ e, (d.archive r).participation epoch = some e →
          ParticipationFits Build.release flags.length e :=
      fun epoch flags hs e he => (hroom epoch _ e he).2 (hfits epoch flags hs e he)
    exact {
      balances := hbal
      validators := by
        refine ⟨fun p hp _ => ?_, fun h => (by cases h)⟩
        have hp : p ∈ d.validators.patches := hp
        rw [hcreated.validators] at hp
        exact widthOk_of_mem hp
      blockRoots := ⟨hblock, fun h => (by cases h)⟩
      stateRoots := ⟨hstate, fun h => (by cases h)⟩
      randaoMixes := hrandao
      slashings := hslash
      previousParticipation := hfits .previous
      currentParticipation := hfits .current
      inactivityScores := hinact }

/-- **Exactly which states take a created delta** in a release build, whatever it was created from
and in whatever build: those of its fork, with rings to write to, that have every balance, slashing
and score its archive lists, and room for the flags it appends. Records that a registry lacks are
skipped, flags that a list lacks are added, and no other payload of a created delta can be wrong. -/
theorem created_applies_iff [LawfulValidatorMutTarget T] {b : Build} (r : Rkyv) {order : HashOrder}
    {state : DiffSource V₁ V₂} {d : BeaconStateDelta ForkName}
    (hd : create b order state = some d)
    (hflags : ∀ epoch p, state.participation epoch = some p → p.2.length < 2 ^ 63)
    (s : DiffTarget T) :
    (∃ s', apply Build.release s (d.archive r) = .ok s') ↔
      s.fork = d.fork ∧ FieldsAllowed d d.fork ∧
      s.blockRoots ≠ [] ∧ s.stateRoots ≠ [] ∧ s.randaoMixes ≠ [] ∧
      (∀ i ∈ (d.archive r).listed .balances, i < s.balances.length) ∧
      (∀ i ∈ (d.archive r).listed .slashings, i < s.slashings.length) ∧
      (∀ scores, s.inactivityScores = some scores →
        ∀ i ∈ (d.archive r).listed .inactivityScores, i < scores.length) ∧
      ∀ epoch flags, s.participation epoch = some flags →
        ∀ e, (d.archive r).participation epoch = some e → e.RoomIn flags.length := by
  have hfits := payloadFits_created r (create_eq_some.1 hd).1 hflags s
  have hallowed : FieldsAllowed (d.archive r) d.fork ↔ FieldsAllowed d d.fork :=
    forall_congr' fun field => by rw [has_archive]
  rw [← hfits, ← hallowed]
  constructor
  · rintro ⟨s', hs'⟩
    obtain ⟨hfork, hfields, happlied⟩ := apply_eq_ok.1 hs'
    have hfork : d.fork = s.fork := Except.ok.inj hfork
    rw [hfork]
    exact ⟨rfl, hfields, applyComponents_isOk.1 ⟨s', applyComponents_eq_ok.2 happlied⟩⟩
  · rintro ⟨hfork, hfields, hfit⟩
    obtain ⟨s', hs'⟩ := applyComponents_isOk.2 hfit
    rw [← hfork] at hfields
    exact ⟨s', apply_eq_ok.2
      ⟨congrArg Except.ok hfork.symm, hfields, applyComponents_eq_ok.1 hs'⟩⟩

end

set_option maxRecDepth 2000 in
/-- The delta of the first link lists a balance, the slashing and a score, and appends a flag to
either list: the state four steps later takes it. -/
theorem created_applies_iff_later : ∃ d s',
    create Build.dev ⟨id, fun _ => .refl _⟩ (source 0 (joining 0) (joining 1)) = some d ∧
      ((d.archive .truncating).listed .balances = [0] ∧
        (d.archive .truncating).listed .slashings = [0] ∧
        (d.archive .truncating).listed .inactivityScores = [0] ∧
        (d.archive .truncating).participation .previous = some (.sparse [0] [1] [1]) ∧
        (d.archive .truncating).participation .current = some (.sparse [] [] [1])) ∧
      apply Build.release (joining 5).state (d.archive .truncating) = .ok s' := by
  obtain ⟨d, hd, hlisted⟩ : ∃ d : BeaconStateDelta ForkName,
      create Build.dev ⟨id, fun _ => .refl _⟩ (source 0 (joining 0) (joining 1)) = some d ∧
        (d.archive .truncating).listed .balances = [0] ∧
        (d.archive .truncating).listed .slashings = [0] ∧
        (d.archive .truncating).listed .inactivityScores = [0] ∧
        (d.archive .truncating).participation .previous = some (.sparse [0] [1] [1]) ∧
        (d.archive .truncating).participation .current = some (.sparse [] [] [1]) :=
    ⟨_, rfl, rfl, rfl, rfl, rfl, rfl⟩
  obtain ⟨hbal, hslash, hscores, hprev, hcur⟩ := hlisted
  obtain ⟨hcreated, hasserts⟩ := create_eq_some.1 hd
  have hfork : d.fork = .electra := hcreated.fork
  have hhas : ∀ field, d.has field = (joining 1).state.has field := fun field =>
    (hcreated.has field).trans ((linked_joining (show 0 < 256 by decide)).has_source field)
  have hflags : ∀ epoch p, (source 0 (joining 0) (joining 1)).participation epoch = some p →
      p.2.length < 2 ^ 63 := by
    intro epoch p hp
    cases epoch <;> cases hp <;> decide
  obtain ⟨s', hs'⟩ := (created_applies_iff .truncating hd hflags (joining 5).state).2 (by
    refine ⟨hfork.symm, fun field hfield => ?_, by simp [joining], by simp [joining],
      by simp [joining], ?_, ?_, ?_, ?_⟩
    · rw [hhas] at hfield
      rw [hfork]
      exact (has_joining 1 field).1 hfield
    · rw [hbal]
      decide
    · rw [hslash]
      decide
    · rintro scores ⟨⟩
      rw [hscores]
      decide
    · rintro epoch flags hs e he
      cases epoch
      · cases hs
        cases hprev.symm.trans he
        exact Or.inr (by decide)
      · cases hs
        cases hcur.symm.trans he
        exact Or.inr (by decide))
  exact ⟨d, s', hd, ⟨hbal, hslash, hscores, hprev, hcur⟩, hs'⟩

end EthStateDiff
