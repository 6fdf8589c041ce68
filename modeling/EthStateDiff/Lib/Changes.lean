import EthStateDiff.Lib.Overwrite
/-!
# Where two lists differ

* `changedFrom` — the positions at which the pairs of a list differ, in order.
* `mem_changedFrom_zip` — for two lists side by side.
* `AgreeOff.changed_subset` — whatever turns one list into the other lists all of them.
-/

namespace Overwrite

variable {α : Type}

/-- The positions, from `i` on, of the pairs that differ. -/
def changedFrom [DecidableEq α] : Nat → List (α × α) → List Nat
  | _, [] => []
  | i, (v, w) :: pairs => if v ≠ w then i :: changedFrom (i + 1) pairs else changedFrom (i + 1) pairs

theorem mem_changedFrom [DecidableEq α] {j : Nat} : ∀ {pairs : List (α × α)} {i : Nat},
    j ∈ changedFrom i pairs ↔ ∃ k p, pairs[k]? = some p ∧ p.1 ≠ p.2 ∧ j = i + k := by
  intro pairs
  induction pairs with
  | nil => simp [changedFrom]
  | cons p pairs ih =>
    intro i
    obtain ⟨v, w⟩ := p
    have hcons : (∃ k p, ((v, w) :: pairs)[k]? = some p ∧ p.1 ≠ p.2 ∧ j = i + k) ↔
        (v ≠ w ∧ j = i) ∨ ∃ k p, pairs[k]? = some p ∧ p.1 ≠ p.2 ∧ j = i + 1 + k := by
      constructor
      · rintro ⟨k, p, hk, hne, rfl⟩
        cases k with
        | zero =>
          cases hk
          exact Or.inl ⟨hne, rfl⟩
        | succ k => exact Or.inr ⟨k, p, hk, hne, by omega⟩
      · rintro (⟨hne, rfl⟩ | ⟨k, p, hk, hne, rfl⟩)
        · exact ⟨0, (v, w), rfl, hne, rfl⟩
        · exact ⟨k + 1, p, hk, hne, by omega⟩
    rw [hcons, ← ih]
    by_cases hvw : v ≠ w
    · rw [changedFrom, if_pos hvw, List.mem_cons, and_iff_right hvw]
    · rw [changedFrom, if_neg hvw]
      exact ⟨Or.inr, fun h => h.resolve_left fun h => hvw h.1⟩

theorem nodup_changedFrom [DecidableEq α] : ∀ (pairs : List (α × α)) (i : Nat),
    (changedFrom i pairs).Nodup := by
  intro pairs
  induction pairs with
  | nil => exact fun _ => List.nodup_nil
  | cons p pairs ih =>
    intro i
    rw [changedFrom]
    split
    · refine List.nodup_cons.2 ⟨fun hmem => ?_, ih (i + 1)⟩
      obtain ⟨k, -, -, -, hk⟩ := mem_changedFrom.1 hmem
      omega
    · exact ih (i + 1)

/-- **The changed positions of two lists.** -/
theorem mem_changedFrom_zip [DecidableEq α] {old new : List α} {i : Nat} :
    i ∈ changedFrom 0 (old.zip new) ↔
      i < old.length ∧ i < new.length ∧ old[i]? ≠ new[i]? := by
  rw [mem_changedFrom]
  constructor
  · rintro ⟨k, ⟨v, w⟩, hk, hne, rfl⟩
    obtain ⟨hv, hw⟩ := List.getElem?_zip_eq_some.1 hk
    rw [Nat.zero_add, hv, hw]
    exact ⟨(List.getElem?_eq_some_iff.mp hv).1, (List.getElem?_eq_some_iff.mp hw).1,
      fun h => hne (Option.some.inj h)⟩
  · rintro ⟨ho, hn, hne⟩
    rw [List.getElem?_eq_getElem ho, List.getElem?_eq_getElem hn] at hne
    refine ⟨i, (old[i], new[i]), ?_, fun h => hne (congrArg some h), (Nat.zero_add i).symm⟩
    exact List.getElem?_zip_eq_some.2
      ⟨List.getElem?_eq_getElem ho, List.getElem?_eq_getElem hn⟩

theorem changedFrom_self [DecidableEq α] (l : List α) : changedFrom 0 (l.zip l) = [] := by
  rw [List.eq_nil_iff_forall_not_mem]
  intro i hi
  exact (mem_changedFrom_zip.1 hi).2.2 rfl

/-- Lists that agree off `s` differ only in `s`. -/
theorem AgreeOff.covers {s : Set Nat} {old new : List α} (h : AgreeOff s new old) {i : Nat}
    (hi : i < old.length) (hne : old[i]? ≠ new[i]?) : i ∈ s := by
  by_contra hout
  exact hne (h i hi hout).symm

theorem AgreeOff.changed_subset [DecidableEq α] {s : Set Nat} {old new : List α}
    (h : AgreeOff s new old) : ∀ i ∈ changedFrom 0 (old.zip new), i ∈ s := by
  intro i hi
  obtain ⟨ho, -, hne⟩ := mem_changedFrom_zip.1 hi
  exact h.covers ho hne

/-- No two of at most `cap` consecutive numbers share a ring position. -/
theorem nodup_ringPositions {cap n : Nat} (lo : Nat) (h : n ≤ cap) :
    ((List.range' lo n).map (· % cap)).Nodup := by
  have hinj : ∀ x y, x ≤ y → y < x + cap → x % cap = y % cap → x = y := by
    intro x y hle hlt hmod
    have hdvd := (Nat.modEq_iff_dvd' hle).1 hmod
    have hzero := Nat.eq_zero_of_dvd_of_lt hdvd (by omega)
    omega
  refine List.Nodup.map_on (fun x hx y hy hmod => ?_) List.nodup_range'
  rw [List.mem_range'_1] at hx hy
  rcases Nat.le_total x y with hle | hle
  · exact hinj x y hle (by omega) hmod
  · exact (hinj y x hle (by omega) hmod.symm).symm

end Overwrite
