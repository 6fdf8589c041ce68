import Mathlib.Tactic
/-!
# Cells that are written many times

A history is a list of writes `(cell, value)`, oldest first. Writing to a cell either replaces what
it holds or joins the value to it; an array is meant to do the first, and packed bits that are set
but never cleared do the second. The join is any semilattice operation.

* `foldl_absorbs` — a join has absorbed everything that was joined.
* `joined_eq_latest_iff` — **the two cells agree** iff the last value absorbs all values before it.
-/

namespace Cells

/-! ## Joins -/

section

variable {α : Type} (op : α → α → α) [Std.Associative op]

/-- What absorbs every part absorbs the join. -/
theorem foldl_absorbed {b : α} : ∀ {l : List α} {a : α}, op a b = b → (∀ x ∈ l, op x b = b) →
    op (l.foldl op a) b = b := by
  intro l
  induction l with
  | nil => exact fun ha _ => ha
  | cons x l ih =>
    intro a ha h
    have hx : op (op a x) b = b :=
      calc op (op a x) b = op a (op x b) := Std.Associative.assoc a x b
        _ = b := by rw [h x List.mem_cons_self, ha]
    exact ih hx fun y hy => h y (List.mem_cons_of_mem _ hy)

variable [Std.Commutative op] [Std.IdempotentOp op]

/-- **A join absorbs** every value that went into it. -/
theorem foldl_absorbs {x : α} : ∀ {l : List α} (a : α), x ∈ l →
    op x (l.foldl op a) = l.foldl op a := by
  intro l
  induction l with
  | nil =>
    rintro a h
    cases h
  | cons y l ih =>
    rintro a h
    rw [List.foldl_cons]
    rcases List.mem_cons.mp h with rfl | h
    · have hcomm : op a x = op x a := Std.Commutative.comm a x
      have hassoc : op (op x x) a = op x (op x a) := Std.Associative.assoc x x a
      have hidem : op x x = x := Std.IdempotentOp.idempotent x
      have habsorb : op x (op a x) = op a x := by rw [hcomm, ← hassoc, hidem]
      calc op x (l.foldl op (op a x)) = l.foldl op (op x (op a x)) := List.foldl_assoc.symm
        _ = l.foldl op (op a x) := by rw [habsorb]
    · exact ih _ h

end

/-! ## Cells -/

section

variable {κ α : Type} [DecidableEq κ]

/-- The values written to cell `k`, oldest first. -/
def writesTo (k : κ) (history : List (κ × α)) : List α :=
  (history.filter fun w => w.1 = k).map Prod.snd

theorem writesTo_cons (k : κ) (w : κ × α) (history : List (κ × α)) :
    writesTo k (w :: history) =
      if w.1 = k then w.2 :: writesTo k history else writesTo k history := by
  by_cases h : w.1 = k <;> simp [writesTo, h]

theorem mem_writesTo {k : κ} {x : α} {history : List (κ × α)} :
    x ∈ writesTo k history ↔ (k, x) ∈ history := by
  simp [writesTo]

/-- What the cell holds at the end, if a write replaces what it held. -/
def latest (init : α) (k : κ) (history : List (κ × α)) : α :=
  (writesTo k history).getLast?.getD init

/-- What it holds if a write joins the value to it. -/
def joined (op : α → α → α) (init : α) (k : κ) (history : List (κ × α)) : α :=
  (writesTo k history).foldl op init

@[simp] theorem joined_nil (op : α → α → α) (init : α) (k : κ) : joined op init k [] = init := rfl

theorem joined_cons (op : α → α → α) (init : α) (k : κ) (w : κ × α) (history : List (κ × α)) :
    joined op init k (w :: history) =
      joined op (if w.1 = k then op init w.2 else init) k history := by
  by_cases h : w.1 = k <;> simp [joined, writesTo_cons, h]

variable {op : α → α → α} [Std.Associative op] [Std.Commutative op] [Std.IdempotentOp op]

/-- **Joining is replacing** iff the last value written absorbs every value before it. -/
theorem joined_eq_latest_iff {init : α} (hinit : ∀ x, op init x = x) (k : κ)
    (history : List (κ × α)) : joined op init k history = latest init k history ↔
      ∀ x, (k, x) ∈ history → op x (latest init k history) = latest init k history := by
  constructor
  · rintro h x hx
    rw [← h]
    exact foldl_absorbs op _ (mem_writesTo.2 hx)
  · intro h
    cases hlast : (writesTo k history).getLast? with
    | none =>
      rw [joined, latest, List.getLast?_eq_none_iff.mp hlast]
      rfl
    | some last =>
      have hlatest : latest init k history = last := by rw [latest, hlast, Option.getD_some]
      rw [hlatest] at h ⊢
      -- each of the two values absorbs the other
      have hmem : last ∈ writesTo k history := List.mem_of_getLast? hlast
      have habsorbs : op last (joined op init k history) = joined op init k history :=
        foldl_absorbs op _ hmem
      have habsorbed : op (joined op init k history) last = last :=
        foldl_absorbed op (hinit last) fun x hx => h x (mem_writesTo.1 hx)
      calc joined op init k history = op last (joined op init k history) := habsorbs.symm
        _ = op (joined op init k history) last := Std.Commutative.comm _ _
        _ = last := habsorbed

end

end Cells
