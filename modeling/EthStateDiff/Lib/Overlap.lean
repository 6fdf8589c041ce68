import Mathlib.Order.Bounds.Basic
import Mathlib.Tactic
/-!
# First-in first-out overlaps

A queue that loses items at its front and gains items at its back begins with what was left of
it. To find out how many items left, `firstFit` tries one candidate: the first item of the old
queue equal to the head of the new one.

* `Overlap.getElem?_eq_head?` — every candidate worth trying holds the new head.
* `firstFit_isLeast` — what `firstFit` finds is the least number of items that can have left.
* `not_overlap_of_firstFit` — among distinct items it misses nothing.

A queue that such steps, or a replacement of the whole queue, are run on:

* `run_suffix` — what waits in the end is the end of all that ever waited.
-/

namespace Fifo

variable {α : Type} {base tgt : List α} {k : Nat}

/-- After `k` items left, `base` still has some, and `tgt` begins with them. -/
def Overlap (base tgt : List α) (k : Nat) : Prop := k < base.length ∧ base.drop k <+: tgt

theorem Overlap.getElem?_eq_head? (h : Overlap base tgt k) : base[k]? = tgt.head? := by
  obtain ⟨hlt, rest, rfl⟩ := h
  rw [List.drop_eq_getElem_cons hlt, List.cons_append, List.head?_cons,
    List.getElem?_eq_getElem hlt]

/-- The first occurrence of the new head in the old queue, if all that follows it is still there. -/
def firstFit [DecidableEq α] (base : List α) : List α → Option Nat
  | [] => none
  | head :: tail =>
    (base.findIdx? fun item => decide (item = head)).filter fun k =>
      decide (base.drop k <+: head :: tail)

section

variable [DecidableEq α]

theorem firstFit_overlap (h : firstFit base tgt = some k) : Overlap base tgt k := by
  cases tgt with
  | nil => cases h
  | cons head tail =>
    rw [firstFit, Option.filter_eq_some_iff] at h
    obtain ⟨hfind, hpre⟩ := h
    exact ⟨(List.findIdx?_eq_some_iff_getElem.mp hfind).1, of_decide_eq_true hpre⟩

/-- No overlap begins before the first occurrence of the head. -/
theorem le_of_overlap {head : α} {tail : List α} {i : Nat}
    (hfind : (base.findIdx? fun item => decide (item = head)) = some i)
    (h : Overlap base (head :: tail) k) : i ≤ k := by
  have hget := h.getElem?_eq_head?
  obtain ⟨hlt, hk⟩ := List.getElem?_eq_some_iff.mp hget
  by_contra hki
  have hbefore := (List.findIdx?_eq_some_iff_getElem.mp hfind).2.2 k (by omega)
  simp [hk] at hbefore

/-- **Minimal**: fewer items cannot have left. -/
theorem firstFit_isLeast (h : firstFit base tgt = some k) : IsLeast {k | Overlap base tgt k} k := by
  refine ⟨firstFit_overlap h, ?_⟩
  rintro k' hk'
  cases tgt with
  | nil => cases h
  | cons head tail =>
    rw [firstFit, Option.filter_eq_some_iff] at h
    exact le_of_overlap h.1 hk'

/-- **Complete** among distinct items: the head occurs once, so there is no second candidate. -/
theorem not_overlap_of_firstFit (hdistinct : base.Nodup) (h : firstFit base tgt = none) :
    ¬Overlap base tgt k := by
  intro hk
  have hget := hk.getElem?_eq_head?
  cases tgt with
  | nil =>
    have hlt := hk.1
    rw [List.getElem?_eq_getElem hlt] at hget
    cases hget
  | cons head tail =>
    obtain ⟨hlt, hhead⟩ := List.getElem?_eq_some_iff.mp hget
    rw [firstFit, Option.filter_eq_none_iff] at h
    cases hfind : base.findIdx? fun item => decide (item = head) with
    | none =>
      have hall := List.findIdx?_eq_none_iff.mp hfind base[k] (List.getElem_mem hlt)
      simp [hhead] at hall
    | some i =>
      obtain ⟨hi, hi', -⟩ := List.findIdx?_eq_some_iff_getElem.mp hfind
      have hsame : base[i] = base[k] := by
        rw [hhead]
        simpa using hi'
      obtain rfl : i = k := (List.Nodup.getElem_inj_iff hdistinct).1 hsame
      exact h i hfind (decide_eq_true hk.2)

end

/-! ## Runs -/

inductive Op (α : Type) where
  | pass (consumed : Nat) (appended : List α)
  | replace (items : List α)

def Op.step (queue : List α) : Op α → List α
  | pass consumed appended => queue.drop consumed ++ appended
  | replace items => items

/-- What the operation brings in. -/
def Op.incoming : Op α → List α
  | pass _ appended => appended
  | replace items => items

def run (queue : List α) (ops : List (Op α)) : List α := ops.foldl Op.step queue

theorem Op.step_suffix (queue : List α) (op : Op α) : op.step queue <:+ queue ++ op.incoming := by
  cases op with
  | pass consumed appended =>
    refine ⟨queue.take consumed, ?_⟩
    rw [Op.step, Op.incoming, ← List.append_assoc, List.take_append_drop]
  | replace items => exact List.suffix_append queue items

/-- **Nothing overtakes**: items leave in the order in which they waited and came in, none of them
twice, and all that came in after the last to leave still wait. -/
theorem run_suffix (queue : List α) (ops : List (Op α)) :
    run queue ops <:+ queue ++ ops.flatMap Op.incoming := by
  induction ops generalizing queue with
  | nil => exact (List.append_nil queue).symm ▸ List.suffix_refl queue
  | cons op ops ih =>
    obtain ⟨left, hleft⟩ := op.step_suffix queue
    have hrest : op.step queue ++ ops.flatMap Op.incoming <:+
        queue ++ (op :: ops).flatMap Op.incoming := by
      refine ⟨left, ?_⟩
      rw [List.flatMap_cons, ← List.append_assoc, hleft, List.append_assoc]
    exact (ih (op.step queue)).trans hrest

end Fifo
