import Mathlib.Data.List.Count
import Mathlib.Data.List.Nodup
/-!
# Tallies

A tally of a list is an association list with every element that occurs, once, beside the number
of its occurrences. Its entry of greatest count is a most frequent element; which one, where
several are, depends on the order of the entries only.

* `foldl_lastMax` — a scan for the last maximum finds one.
* `foldl_lastMax_append` — and any maximum, were it the last entry.
* `IsTally.bump` — counting one more occurrence keeps a tally.
* `IsTally.mostFrequent` — an entry of greatest count is a most frequent element.
-/

namespace Tally

/-! ## Last maximum -/

section

variable {α : Type} (f : α → Nat)

/-- The scan that lets a later entry win a tie. -/
def lastMax (best x : α) : α := if f best ≤ f x then x else best

theorem le_lastMax (best x : α) : f best ≤ f (lastMax f best x) ∧ f x ≤ f (lastMax f best x) := by
  unfold lastMax
  split <;> omega

/-- **A scan for the last maximum** ends at an entry that no entry exceeds. -/
theorem foldl_lastMax : ∀ (l : List α) (a : α), l.foldl (lastMax f) a ∈ a :: l ∧
    ∀ x ∈ a :: l, f x ≤ f (l.foldl (lastMax f) a) := by
  intro l
  induction l with
  | nil =>
    intro a
    simp
  | cons y l ih =>
    intro a
    obtain ⟨hmem, hmax⟩ := ih (lastMax f a y)
    obtain ⟨ha, hy⟩ := le_lastMax f a y
    have hbest := hmax _ List.mem_cons_self
    rw [List.foldl_cons]
    constructor
    · rcases List.mem_cons.1 hmem with h | h
      · rw [h, lastMax]
        split <;> simp
      · exact List.mem_cons_of_mem _ (List.mem_cons_of_mem _ h)
    · intro x hx
      simp only [List.mem_cons] at hx
      rcases hx with rfl | rfl | hx
      · exact Nat.le_trans ha hbest
      · exact Nat.le_trans hy hbest
      · exact hmax x (List.mem_cons_of_mem _ hx)

/-- A last entry that none exceeds wins. -/
theorem foldl_lastMax_append (l : List α) {a e : α} (hmax : ∀ x ∈ a :: l, f x ≤ f e) :
    (l ++ [e]).foldl (lastMax f) a = e := by
  rw [List.foldl_append, List.foldl_cons, List.foldl_nil, lastMax,
    if_pos (hmax _ (foldl_lastMax f l a).1)]

end

/-! ## Tallies -/

variable {κ : Type} [DecidableEq κ]

/-- `entries` lists the elements of `xs` with their counts. -/
structure IsTally (entries : List (κ × Nat)) (xs : List κ) : Prop where
  nodup : (entries.map Prod.fst).Nodup
  mem_iff : ∀ k n, (k, n) ∈ entries ↔ k ∈ xs ∧ n = xs.count k

theorem isTally_nil : IsTally ([] : List (κ × Nat)) [] := ⟨by simp, by simp⟩

theorem IsTally.perm {entries entries' : List (κ × Nat)} {xs : List κ} (h : IsTally entries xs)
    (hperm : entries'.Perm entries) : IsTally entries' xs :=
  ⟨(hperm.map _).nodup_iff.2 h.nodup, fun k n => hperm.mem_iff.trans (h.mem_iff k n)⟩

theorem IsTally.of_perm {entries : List (κ × Nat)} {xs ys : List κ} (h : IsTally entries xs)
    (hperm : xs.Perm ys) : IsTally entries ys :=
  ⟨h.nodup, fun k n => by rw [h.mem_iff, hperm.mem_iff, hperm.count_eq]⟩

theorem IsTally.key_mem {entries : List (κ × Nat)} {xs : List κ} (h : IsTally entries xs) {k : κ} :
    k ∈ entries.map Prod.fst ↔ k ∈ xs := by
  rw [List.mem_map]
  constructor
  · rintro ⟨⟨k, n⟩, he, rfl⟩
    exact ((h.mem_iff k n).1 he).1
  · intro hk
    exact ⟨(k, xs.count k), (h.mem_iff _ _).2 ⟨hk, rfl⟩, rfl⟩

/-- One more `k`: its entry is counted up, or a new one put last. -/
def bump (k : κ) : List (κ × Nat) → List (κ × Nat)
  | [] => [(k, 1)]
  | (k', n) :: entries => if k' = k then (k', n + 1) :: entries else (k', n) :: bump k entries

theorem keys_bump (k : κ) : ∀ entries : List (κ × Nat), (bump k entries).map Prod.fst =
    if k ∈ entries.map Prod.fst then entries.map Prod.fst else entries.map Prod.fst ++ [k] := by
  intro entries
  induction entries with
  | nil => rfl
  | cons e entries ih =>
    obtain ⟨k', n⟩ := e
    by_cases heq : k' = k
    · simp [bump, heq]
    · rw [bump, if_neg heq, List.map_cons, ih]
      simp only [List.map_cons, List.mem_cons, Ne.symm heq, false_or]
      split <;> rfl

/-- The other entries stay. -/
theorem mem_bump_of_ne {k k' : κ} (hne : k' ≠ k) {n : Nat} : ∀ {entries : List (κ × Nat)},
    (k', n) ∈ bump k entries ↔ (k', n) ∈ entries := by
  intro entries
  induction entries with
  | nil => simp [bump, hne]
  | cons e entries ih =>
    obtain ⟨k₁, m⟩ := e
    by_cases heq : k₁ = k
    · subst heq
      simp [bump, hne]
    · rw [bump, if_neg heq, List.mem_cons, List.mem_cons, ih]

/-- The entry of `k` is counted up. -/
theorem mem_bump_self {k : κ} {n : Nat} : ∀ {entries : List (κ × Nat)},
    (entries.map Prod.fst).Nodup → ((k, n) ∈ bump k entries ↔
      (∃ m, (k, m) ∈ entries ∧ n = m + 1) ∨ k ∉ entries.map Prod.fst ∧ n = 1) := by
  intro entries
  induction entries with
  | nil => simp [bump]
  | cons e entries ih =>
    obtain ⟨k', m⟩ := e
    intro hnodup
    rw [List.map_cons, List.nodup_cons] at hnodup
    obtain ⟨hnot, hrest⟩ := hnodup
    by_cases heq : k' = k
    · -- the only entry of `k`
      subst heq
      have hnone : ∀ m', (k', m') ∉ entries := fun m' h => hnot (List.mem_map.2 ⟨_, h, rfl⟩)
      simp [bump, hnone]
    · rw [bump, if_neg heq, List.mem_cons, ih hrest]
      simp [Ne.symm heq]

/-- **One more occurrence.** -/
theorem IsTally.bump {entries : List (κ × Nat)} {xs : List κ} (h : IsTally entries xs) (k : κ) :
    IsTally (bump k entries) (k :: xs) := by
  refine ⟨?_, fun k' n => ?_⟩
  · rw [keys_bump]
    split
    · exact h.nodup
    · rename_i hnot
      exact h.nodup.append (List.nodup_singleton k) (by simpa using hnot)
  · by_cases heq : k' = k
    · subst heq
      rw [mem_bump_self h.nodup, h.key_mem, List.count_cons_self]
      constructor
      · rintro (⟨m, hm, rfl⟩ | ⟨hnot, rfl⟩)
        · exact ⟨List.mem_cons_self, by rw [((h.mem_iff _ _).1 hm).2]⟩
        · exact ⟨List.mem_cons_self, by rw [List.count_eq_zero.2 hnot]⟩
      · rintro ⟨-, rfl⟩
        by_cases hmem : k' ∈ xs
        · exact Or.inl ⟨_, (h.mem_iff _ _).2 ⟨hmem, rfl⟩, rfl⟩
        · exact Or.inr ⟨hmem, by rw [List.count_eq_zero.2 hmem]⟩
    · rw [mem_bump_of_ne heq, h.mem_iff, List.mem_cons, List.count_cons_of_ne (Ne.symm heq)]
      simp [heq]

/-- **An entry of greatest count** is a most frequent element. -/
theorem IsTally.mostFrequent {entries : List (κ × Nat)} {xs : List κ} (h : IsTally entries xs)
    {e : κ × Nat} (he : e ∈ entries) (hmax : ∀ x ∈ entries, x.2 ≤ e.2) :
    e.1 ∈ xs ∧ ∀ k, xs.count k ≤ xs.count e.1 := by
  obtain ⟨hmem, hcount⟩ := (h.mem_iff e.1 e.2).1 he
  refine ⟨hmem, fun k => ?_⟩
  by_cases hk : k ∈ xs
  · have hle := hmax (k, xs.count k) ((h.mem_iff _ _).2 ⟨hk, rfl⟩)
    rw [← hcount]
    exact hle
  · rw [List.count_eq_zero.2 hk]
    exact Nat.zero_le _

end Tally
