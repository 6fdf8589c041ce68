import EthStateDiff.BeaconState
/-!
# Which error `apply` returns (`lib.rs:694-758`, `error.rs`)

| here | there |
| --- | --- |
| `OptionalField.ident` | `stringify!($field)` |
| `OptionalField.checked` | the order of the checks, lib.rs:735-758 |
| `OptionalField.check` | `validate_field!` and `validate_removed_field!` on one component |

* `validateFields_eq` — the twelve checks are one search through `checked`.
* `apply_err_iff` — **every error**: what it says, and what it says about the delta and the state.
-/

namespace EthStateDiff

namespace OptionalField

def ident : OptionalField → String
  | historicalRoots => "historical_roots"
  | previousEpochAttestations => "previous_epoch_attestations"
  | currentEpochAttestations => "current_epoch_attestations"
  | previousParticipation => "previous_participation"
  | currentParticipation => "current_participation"
  | inactivityScores => "inactivity_scores"
  | currentSyncCommittee => "current_sync_committee"
  | nextSyncCommittee => "next_sync_committee"
  | historicalSummaries => "historical_summaries"
  | pendingDeposits => "pending_deposits"
  | pendingPartialWithdrawals => "pending_partial_withdrawals"
  | pendingConsolidations => "pending_consolidations"

def checked : List OptionalField :=
  [previousParticipation, currentParticipation, inactivityScores, currentSyncCommittee,
    nextSyncCommittee, historicalSummaries, pendingDeposits, pendingPartialWithdrawals,
    pendingConsolidations, previousEpochAttestations, currentEpochAttestations, historicalRoots]

/-- The component is present and not one of the fork's. -/
def Offends {F : Type} (d : BeaconStateDelta F) (fork : ForkName) (field : OptionalField) : Prop :=
  d.has field = true ∧ ¬field.InFork fork

instance {F : Type} (d : BeaconStateDelta F) (fork : ForkName) :
    DecidablePred (Offends d fork) := fun _ => inferInstanceAs (Decidable (_ ∧ _))

def check {F : Type} (d : BeaconStateDelta F) (fork : ForkName) (field : OptionalField) :
    Option Error :=
  if Offends d fork field then some (.invalidFieldForFork field.ident fork) else none

end OptionalField

open Rust OptionalField

/-! ## Validation as a search -/

section

variable {F : Type} {d : BeaconStateDelta F} {deltaFork : ForkName}

/-- A component that a fork adds. -/
theorem validateField_eq_check (field : OptionalField) (since : ForkName)
    (h : field.InFork deltaFork ↔ since ≤ deltaFork) :
    validateField field.ident (d.has field) since deltaFork = check d deltaFork field := by
  unfold validateField check Offends
  simp only [h, ForkName.not_le, Bool.and_eq_true, decide_eq_true_eq]

/-- A component that a fork removes. -/
theorem validateRemovedField_eq_check (field : OptionalField) (removedIn : ForkName)
    (h : field.InFork deltaFork ↔ deltaFork < removedIn) :
    validateRemovedField field.ident (d.has field) removedIn deltaFork =
      check d deltaFork field := by
  unfold validateRemovedField check Offends
  simp only [h, ForkName.not_lt, Bool.and_eq_true, decide_eq_true_eq, ge_iff_le]

theorem findSome?_cons_eq_or {α β : Type} (f : α → Option β) (a : α) (l : List α) :
    (a :: l).findSome? f = (f a <|> l.findSome? f) := by
  rw [List.findSome?_cons]
  cases f a <;> rfl

/-- **The checks are one search**: the first offending component, in the order of `checked`. -/
theorem validateFields_eq (d : BeaconStateDelta F) (deltaFork : ForkName) :
    validateFields d deltaFork = checked.findSome? (check d deltaFork) := by
  have added : ∀ field since, (field.InFork deltaFork ↔ since ≤ deltaFork) →
      check d deltaFork field = validateField field.ident (d.has field) since deltaFork :=
    fun field since h => (validateField_eq_check field since h).symm
  have removed : ∀ field removedIn, (field.InFork deltaFork ↔ deltaFork < removedIn) →
      check d deltaFork field =
        validateRemovedField field.ident (d.has field) removedIn deltaFork :=
    fun field removedIn h => (validateRemovedField_eq_check field removedIn h).symm
  simp only [validateFields, checked, findSome?_cons_eq_or, List.findSome?_nil,
    added previousParticipation .altair Iff.rfl, added currentParticipation .altair Iff.rfl,
    added inactivityScores .altair Iff.rfl, added currentSyncCommittee .altair Iff.rfl,
    added nextSyncCommittee .altair Iff.rfl, added historicalSummaries .capella Iff.rfl,
    added pendingDeposits .electra Iff.rfl, added pendingPartialWithdrawals .electra Iff.rfl,
    added pendingConsolidations .electra Iff.rfl,
    removed previousEpochAttestations .altair Iff.rfl,
    removed currentEpochAttestations .altair Iff.rfl, removed historicalRoots .capella Iff.rfl,
    Option.orElse_eq_orElse, Option.orElse_eq_or, Option.or_none]
  rfl

/-- The first offending component. -/
theorem validateFields_eq_some_iff {e : Error} : validateFields d deltaFork = some e ↔
    ∃ before field after, checked = before ++ field :: after ∧ Offends d deltaFork field ∧
      (∀ other ∈ before, ¬Offends d deltaFork other) ∧
      e = .invalidFieldForFork field.ident deltaFork := by
  have hsome : ∀ field, check d deltaFork field = some e ↔
      Offends d deltaFork field ∧ e = .invalidFieldForFork field.ident deltaFork := by
    intro field
    unfold check
    split <;> simp_all [eq_comm]
  have hnone : ∀ field, check d deltaFork field = none ↔ ¬Offends d deltaFork field := by
    intro field
    unfold check
    split <;> simp_all
  rw [validateFields_eq, List.findSome?_eq_some_iff]
  simp only [hsome, hnone]
  constructor
  · rintro ⟨before, field, after, horder, ⟨hoffends, he⟩, hbefore⟩
    exact ⟨before, field, after, horder, hoffends, hbefore, he⟩
  · rintro ⟨before, field, after, horder, hoffends, hbefore, he⟩
    exact ⟨before, field, after, horder, ⟨hoffends, he⟩, hbefore⟩

end

/-! ## Errors -/

variable {T V : Type} [ValidatorMut V] [ValidatorMutTarget T V]

/-- What an error says: the fork did not decode; it decoded to another one than the state's; or it
is the state's, and of the components the delta has and the fork has not, in the order of the
checks, this is the first. -/
inductive Rejects (s : DiffTarget T) (d : ArchivedBeaconStateDelta) : Error → Prop
  | malformed (message : String) (hfork : d.fork = .error message) :
    Rejects s d (.malformedDelta ("failed to deserialize fork: " ++ message))
  | mismatch (deltaFork : ForkName) (hfork : d.fork = .ok deltaFork) (hne : s.fork ≠ deltaFork) :
    Rejects s d (.forkMismatch s.fork deltaFork)
  | field (before after : List OptionalField) (field : OptionalField)
    (hfork : d.fork = .ok s.fork) (horder : checked = before ++ field :: after)
    (hoffends : Offends d s.fork field) (hbefore : ∀ other ∈ before, ¬Offends d s.fork other) :
    Rejects s d (.invalidFieldForFork field.ident s.fork)

/-- **Every error `apply` returns**, in any build, says why, and leaves the state as it was; and
there is no other error. -/
theorem apply_err_iff (b : Build) (s s' : DiffTarget T) (d : ArchivedBeaconStateDelta) (e : Error) :
    apply b s d = .err e s' ↔ s' = s ∧ Rejects s d e := by
  unfold apply
  cases hfork : d.fork with
  | error message =>
    simp only [Outcome.err.injEq]
    constructor
    · rintro ⟨rfl, rfl⟩
      exact ⟨rfl, .malformed message hfork⟩
    · rintro ⟨rfl, hrej⟩
      cases hrej with
      | malformed _ h =>
        obtain rfl := Except.error.inj (hfork.symm.trans h)
        exact ⟨rfl, rfl⟩
      | mismatch _ h _ => cases hfork.symm.trans h
      | field _ _ _ h _ _ _ => cases hfork.symm.trans h
  | ok deltaFork =>
    by_cases hsame : s.fork = deltaFork
    · subst hsame
      simp only [ne_eq, not_true, if_false]
      cases hfields : validateFields d s.fork with
      | some e' =>
        simp only [Outcome.err.injEq]
        constructor
        · rintro ⟨rfl, rfl⟩
          obtain ⟨before, field, after, horder, hoffends, hbefore, rfl⟩ :=
            validateFields_eq_some_iff.1 hfields
          exact ⟨rfl, .field before after field hfork horder hoffends hbefore⟩
        · rintro ⟨rfl, hrej⟩
          cases hrej with
          | malformed _ h => cases hfork.symm.trans h
          | mismatch _ h hne => exact absurd (Except.ok.inj (hfork.symm.trans h)) hne
          | field before after field _ horder hoffends hbefore =>
            have h := validateFields_eq_some_iff.2
              ⟨before, field, after, horder, hoffends, hbefore, rfl⟩
            exact ⟨Option.some.inj (hfields.symm.trans h), rfl⟩
      | none =>
        have hnot : ¬Rejects s d e := by
          intro hrej
          cases hrej with
          | malformed _ h => cases hfork.symm.trans h
          | mismatch _ h hne => exact hne (Except.ok.inj (hfork.symm.trans h))
          | field before after field _ horder hoffends hbefore =>
            have h := validateFields_eq_some_iff.2
              ⟨before, field, after, horder, hoffends, hbefore, rfl⟩
            cases hfields.symm.trans h
        cases applyComponents b d s <;> simp [hnot]
    · simp only [ne_eq, hsame, not_false_iff, if_true, Outcome.err.injEq]
      constructor
      · rintro ⟨rfl, rfl⟩
        exact ⟨rfl, .mismatch deltaFork hfork hsame⟩
      · rintro ⟨rfl, hrej⟩
        cases hrej with
        | malformed _ h => cases hfork.symm.trans h
        | mismatch _ h _ =>
          obtain rfl := Except.ok.inj (hfork.symm.trans h)
          exact ⟨rfl, rfl⟩
        | field _ _ _ h _ _ _ => exact absurd (Except.ok.inj (hfork.symm.trans h)).symm hsame

end EthStateDiff
