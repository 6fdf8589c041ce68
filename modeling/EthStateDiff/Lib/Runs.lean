import Mathlib.Tactic
/-!
# Self-delimiting streams

A stream in which some elements close an item (`last`) falls into runs: every run ends at its
only closing element. A reader that stops after a closing element reads the runs one by one,
whatever follows them; a trailing run that is never closed cannot be read.

* `runs_append` — a closed run in front of a stream is its first run.
* `runs_eq_cons` — and the other way round: what the first run of a stream leaves of it.
-/

namespace SelfDelimiting

variable {α : Type} (last : α → Bool)

/-- The closed runs of a stream, in order. -/
def runs : List α → List (List α)
  | [] => []
  | a :: l =>
    if last a then [a] :: runs l
    else match runs l with
      | [] => []
      | r :: rs => (a :: r) :: rs

/-- A list that is one closed run. -/
def IsRun (r : List α) : Prop := ∃ init a, r = init ++ [a] ∧ last a = true ∧ ∀ x ∈ init, last x = false

variable {last}

theorem runs_append : ∀ {r : List α} (rest : List α), IsRun last r →
    runs last (r ++ rest) = r :: runs last rest
  | [], _, ⟨init, a, h, _, _⟩ => by simp at h
  | x :: r, rest, ⟨[], a, h, ha, _⟩ => by
    simp only [List.nil_append, List.cons.injEq] at h
    obtain ⟨rfl, rfl⟩ := h
    simp [runs, ha]
  | x :: r, rest, ⟨y :: init, a, h, ha, hi⟩ => by
    simp only [List.cons_append, List.cons.injEq] at h
    obtain ⟨rfl, rfl⟩ := h
    have hx : last x = false := hi x List.mem_cons_self
    have ih := runs_append (r := init ++ [a]) rest
      ⟨init, a, rfl, ha, fun z hz => hi z (List.mem_cons_of_mem _ hz)⟩
    rw [List.cons_append, runs, hx, ih]
    rfl

/-- The first run of a stream is a run, and the other runs are those of what follows it. -/
theorem runs_eq_cons : ∀ {l : List α} {r : List α} {rs : List (List α)},
    runs last l = r :: rs → IsRun last r ∧ ∃ rest, l = r ++ rest ∧ runs last rest = rs
  | [], _, _, h => by simp [runs] at h
  | a :: l, r, rs, h => by
    rw [runs] at h
    by_cases ha : last a = true
    · rw [if_pos ha] at h
      simp only [List.cons.injEq] at h
      obtain ⟨rfl, rfl⟩ := h
      exact ⟨⟨[], a, rfl, ha, by simp⟩, l, rfl, rfl⟩
    · rw [if_neg ha] at h
      cases hl : runs last l with
      | nil => simp [hl] at h
      | cons r' rs' =>
        rw [hl] at h
        simp only [List.cons.injEq] at h
        obtain ⟨rfl, rfl⟩ := h
        obtain ⟨⟨init, z, rfl, hz, hi⟩, rest, rfl, hrest⟩ := runs_eq_cons hl
        refine ⟨⟨a :: init, z, rfl, hz, ?_⟩, rest, rfl, hrest⟩
        intro x hx
        rcases List.mem_cons.mp hx with rfl | hx
        · simpa using ha
        · exact hi x hx

theorem IsRun.ne_nil {r : List α} (h : IsRun last r) : r ≠ [] := by
  obtain ⟨init, a, rfl, _, _⟩ := h
  simp

end SelfDelimiting
