import EthStateDiff.Lib.Overwrite
/-!
# What a run leaves behind

Code that mutates a buffer in place leaves it in some state whether it returns or panics. `Leaves`
is a postcondition for both ways to end: of the state returned (`view` says which part of a result
that is) and of the state a panic leaves. There is one rule for each construct.

* `Leaves.bind`, `Leaves.step`, `leaves_orPanic_bind` — sequencing.
* `leaves_foldlM` — **the loop rule**: what every turn keeps, the loop keeps.
* `leaves_writeAt`, `leaves_writes` — writes inside a buffer; `leaves_pushes` — pushes at its end.
* `Remains` — what becomes of a part that is mutated somewhere in a sequence.
-/

namespace Rust

variable {σ τ α β : Type}

/-- `P` holds of what the run leaves, however it ends. -/
def Leaves (view : α → σ) (P : σ → Prop) : Exec σ α → Prop
  | .ok a => P (view a)
  | .error s => P s

@[simp] theorem leaves_ok {view : α → σ} {P : σ → Prop} {a : α} :
    Leaves view P (.ok a) ↔ P (view a) := Iff.rfl

@[simp] theorem leaves_error {view : α → σ} {P : σ → Prop} {s : σ} :
    Leaves view P (.error s) ↔ P s := Iff.rfl

theorem Leaves.of_ok {view : α → σ} {P : σ → Prop} {x : Exec σ α} {a : α} (h : Leaves view P x)
    (hx : x = .ok a) : P (view a) := by
  rw [hx] at h
  exact h

theorem Leaves.of_error {view : α → σ} {P : σ → Prop} {x : Exec σ α} {s : σ} (h : Leaves view P x)
    (hx : x = .error s) : P s := by
  rw [hx] at h
  exact h

theorem Leaves.mono {view : α → σ} {P Q : σ → Prop} {x : Exec σ α} (h : Leaves view P x)
    (hPQ : ∀ s, P s → Q s) : Leaves view Q x := by
  cases x with
  | ok a => exact hPQ _ h
  | error s => exact hPQ _ h

theorem Leaves.bind {view : α → σ} {view' : β → σ} {P Q : σ → Prop} {x : Exec σ α}
    {f : α → Exec σ β} (hx : Leaves view P x) (hPQ : ∀ s, P s → Q s)
    (hf : ∀ a, x = .ok a → P (view a) → Leaves view' Q (f a)) : Leaves view' Q (x >>= f) := by
  cases x with
  | ok a => exact hf a rfl hx
  | error s => exact hPQ s hx

/-- A sequence that keeps one property. -/
theorem Leaves.step {view : α → σ} {view' : β → σ} {P : σ → Prop} {x : Exec σ α}
    {f : α → Exec σ β} (hx : Leaves view P x)
    (hf : ∀ a, x = .ok a → P (view a) → Leaves view' P (f a)) : Leaves view' P (x >>= f) :=
  hx.bind (fun _ h => h) hf

/-- An operand that panics leaves the buffer as it is. -/
theorem leaves_orPanic_bind {view : β → σ} {P : σ → Prop} {buf : σ} {o : Option α}
    {f : α → Exec σ β} (hbuf : P buf) (hf : ∀ a, o = some a → Leaves view P (f a)) :
    Leaves view P (orPanic buf o >>= f) := by
  cases o with
  | none => exact hbuf
  | some a => exact hf a rfl

theorem leaves_mapState {P : σ → Prop} {φ : τ → σ} {x : Exec τ τ} :
    Leaves id P (mapState φ x) ↔ Leaves id (fun t => P (φ t)) x := by
  cases x <;> rfl

/-- **The loop rule.** -/
theorem leaves_foldlM {view : β → σ} {P : σ → Prop} {f : β → α → Exec σ β} :
    ∀ {l : List α} {s : β}, (∀ s, P (view s) → ∀ a ∈ l, Leaves view P (f s a)) → P (view s) →
      Leaves view P (l.foldlM f s) := by
  intro l
  induction l with
  | nil => exact fun _ hs => hs
  | cons a l ih =>
    intro s step hs
    rw [List.foldlM_cons]
    refine (step s hs a List.mem_cons_self).step fun t _ ht => ?_
    exact ih (fun u hu x hx => step u hu x (List.mem_cons_of_mem _ hx)) ht

/-! ## Writes -/

open Overwrite

/-- A write either changes one entry or panics. -/
theorem leaves_writeAt {P : List α → Prop} {buf : List α} {w : Nat × α} (hbuf : P buf)
    (hset : P (buf.set w.1 w.2)) : Leaves id P (writeAt buf w) := by
  unfold writeAt
  split
  · exact hset
  · exact hbuf

/-- **Writes keep what every single write keeps.** -/
theorem leaves_writes {P : List α → Prop} {ws : List (Nat × α)} {buf : List α}
    (hset : ∀ buf, P buf → ∀ w ∈ ws, P (buf.set w.1 w.2)) (hbuf : P buf) :
    Leaves id P (ws.foldlM writeAt buf) :=
  leaves_foldlM (fun _ h w hw => leaves_writeAt h (hset _ h w hw)) hbuf

/-- Pushed values are there from the first one on, as far as they fit. -/
theorem leaves_pushes {P : List α → Prop} {limit : Nat} {vals buf : List α}
    (h : ∀ k, P (buf ++ vals.take k)) : Leaves id P (vals.foldlM (pushWithin limit) buf) := by
  rw [foldlM_pushWithin]
  split
  · have hall := h vals.length
    rwa [List.take_length] at hall
  · exact h _

/-! ## One part of a larger state -/

/-- What may become of `old` where a sequence of mutations comes to `x`, stops there, or stops
before it. -/
inductive Remains (x : Exec α α) (old : α) : α → Prop
  | untouched : Remains x old old
  | finished {a : α} : x = .ok a → Remains x old a
  | stopped {a : α} : x = .error a → Remains x old a

theorem Leaves.remains {P : α → Prop} {x : Exec α α} {old new : α} (h : Leaves id P x)
    (hnew : Remains x old new) (hold : P old) : P new := by
  cases hnew with
  | untouched => exact hold
  | finished hx => exact h.of_ok hx
  | stopped hx => exact h.of_error hx

end Rust
