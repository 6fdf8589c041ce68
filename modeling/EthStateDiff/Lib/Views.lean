import EthStateDiff.Lib.Machine
/-!
# Runs through a view

`mapState` shows a run that ends in its own buffer through a change of representation of that
buffer. A loop ends in more: `mapRun` changes what a run returns and what a panic leaves.

* `mapRun_bind`, `mapRun_orPanic`, `mapRun_foldlM` — sequences, panics, loops.
-/

namespace Rust

variable {σ τ α β γ δ : Type} {φ : τ → σ} {ψ : α → β} {χ : γ → δ}

def mapRun (φ : τ → σ) (ψ : α → β) : Exec τ α → Exec σ β
  | .ok a => .ok (ψ a)
  | .error t => .error (φ t)

@[simp] theorem mapRun_ok (φ : τ → σ) (ψ : α → β) (a : α) : mapRun φ ψ (.ok a) = .ok (ψ a) := rfl

@[simp] theorem mapRun_error (φ : τ → σ) (ψ : α → β) (t : τ) :
    mapRun φ ψ (.error t) = .error (φ t) := rfl

theorem mapState_eq_mapRun (φ : τ → σ) (x : Exec τ τ) : mapState φ x = mapRun φ φ x := by
  cases x <;> rfl

/-- A sequence whose parts are seen as the parts of another is seen as that. -/
theorem mapRun_bind {x : Exec τ α} {y : Exec σ β} {f : α → Exec τ γ} {g : β → Exec σ δ}
    (hx : mapRun φ ψ x = y) (hf : ∀ a, mapRun φ χ (f a) = g (ψ a)) :
    mapRun φ χ (x >>= f) = (y >>= g) := by
  subst hx
  cases x with
  | ok a => exact hf a
  | error t => rfl

theorem mapRun_orPanic (φ : τ → σ) (t : τ) (o : Option α) :
    mapRun φ id (orPanic t o) = orPanic (φ t) o := by
  cases o <;> rfl

/-- A loop whose every step is seen as a step of another is seen as that. -/
theorem mapRun_foldlM {f : α → γ → Exec τ α} {g : β → γ → Exec σ β}
    (step : ∀ a c, mapRun φ ψ (f a c) = g (ψ a) c) :
    ∀ (l : List γ) (a : α), mapRun φ ψ (l.foldlM f a) = l.foldlM g (ψ a) := by
  intro l
  induction l with
  | nil => exact fun _ => rfl
  | cons c l ih =>
    intro a
    rw [List.foldlM_cons, List.foldlM_cons]
    exact mapRun_bind (step a c) ih

theorem mapState_bind {x : Exec τ τ} {y : Exec σ σ} {f : τ → Exec τ τ} {g : σ → Exec σ σ}
    (hx : mapState φ x = y) (hf : ∀ t, mapState φ (f t) = g (φ t)) :
    mapState φ (x >>= f) = (y >>= g) := by
  simp only [mapState_eq_mapRun] at hx hf ⊢
  exact mapRun_bind hx hf

theorem mapState_id (x : Exec τ τ) : mapState id x = x := by
  cases x <;> rfl

end Rust
