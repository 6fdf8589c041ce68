import EthStateDiff.Lib.Machine
/-!
# Fewer checks

A check turns results into panics and never changes one: whatever a build returns, a build without
some of its checks returns. `Keeps` says so of two runs, and each way to put runs together keeps it.

* `keepsSome_arith`, `keeps_assert` — the two kinds of check.
* `Keeps.bind`, `Keeps.foldlM`, `Keeps.mapState` — sequences, loops, components.
-/

namespace Rust

/-! ## Builds -/

/-- `b' ≤ b`: every check of `b'` is one of `b`. -/
instance : LE Build := ⟨fun b' b => (b'.overflowChecks = true → b.overflowChecks = true) ∧
  (b'.debugAssertions = true → b.debugAssertions = true)⟩

theorem Build.release_le (b : Build) : Build.release ≤ b :=
  ⟨fun h => (by cases h), fun h => (by cases h)⟩

/-! ## Results -/

section

variable {α β : Type} {b b' : Build}

/-- `y` has every result of `x`. -/
def KeepsSome (x y : Option α) : Prop := ∀ a, x = some a → y = some a

theorem KeepsSome.refl (x : Option α) : KeepsSome x x := fun _ h => h

theorem KeepsSome.bind {x y : Option α} {f g : α → Option β} (h : KeepsSome x y)
    (hfg : ∀ a, KeepsSome (f a) (g a)) : KeepsSome (x >>= f) (y >>= g) := by
  intro r hr
  obtain ⟨a, ha, hr⟩ := Option.bind_eq_some_iff.1 hr
  exact Option.bind_eq_some_iff.2 ⟨a, h a ha, hfg a r hr⟩

theorem KeepsSome.foldlM {f g : β → α → Option β} (h : ∀ s a, KeepsSome (f s a) (g s a)) :
    ∀ (l : List α) (s : β), KeepsSome (l.foldlM f s) (l.foldlM g s) := by
  intro l
  induction l with
  | nil => exact fun s => KeepsSome.refl _
  | cons a l ih =>
    intro s
    rw [List.foldlM_cons, List.foldlM_cons]
    exact (h s a).bind ih

/-- A checked operation. -/
theorem keepsSome_arith (hb : b' ≤ b) (fits : Bool) (wrapped : α) :
    KeepsSome (b.arith fits wrapped) (b'.arith fits wrapped) := by
  intro r hr
  obtain ⟨hfits, hw⟩ := b.arith_eq_some.1 hr
  exact b'.arith_eq_some.2 ⟨fun hc => hfits (hb.1 hc), hw⟩

/-- A `debug_assert!` of a function without a state. -/
theorem keepsSome_assert (hb : b' ≤ b) (fails : Bool) {x y : Option α} (h : KeepsSome x y) :
    KeepsSome (if b.debugAssertions && fails then none else x)
      (if b'.debugAssertions && fails then none else y) := by
  intro r hr
  split at hr
  · cases hr
  · rename_i hpass
    rw [if_neg, h r hr]
    rw [Bool.and_eq_true] at hpass ⊢
    exact fun hc => hpass ⟨hb.2 hc.1, hc.2⟩

end

/-! ## Runs -/

section

variable {σ τ α β : Type} {b b' : Build}

/-- `y` ends in every result in which `x` ends. -/
def Keeps (x y : Exec σ α) : Prop := ∀ a, x = .ok a → y = .ok a

theorem Keeps.refl (x : Exec σ α) : Keeps x x := fun _ h => h

theorem Keeps.bind {x y : Exec σ α} {f g : α → Exec σ β} (h : Keeps x y)
    (hfg : ∀ a, Keeps (f a) (g a)) : Keeps (x >>= f) (y >>= g) := by
  intro r hr
  obtain ⟨a, ha, hr⟩ := bind_eq_ok.1 hr
  exact bind_eq_ok.2 ⟨a, h a ha, hfg a r hr⟩

theorem Keeps.foldlM {f g : β → α → Exec σ β} (h : ∀ s a, Keeps (f s a) (g s a)) :
    ∀ (l : List α) (s : β), Keeps (l.foldlM f s) (l.foldlM g s) := by
  intro l
  induction l with
  | nil => exact fun s => Keeps.refl _
  | cons a l ih =>
    intro s
    rw [List.foldlM_cons, List.foldlM_cons]
    exact (h s a).bind ih

theorem KeepsSome.orPanic {x y : Option α} (h : KeepsSome x y) (buf : σ) :
    Keeps (orPanic buf x) (orPanic buf y) := by
  intro a ha
  rw [orPanic_eq_ok] at ha ⊢
  exact h a ha

theorem Keeps.mapState {x y : Exec τ τ} (h : Keeps x y) (φ : τ → σ) :
    Keeps (mapState φ x) (mapState φ y) := by
  intro r hr
  cases x with
  | error s => cases hr
  | ok a =>
    rw [h a rfl]
    exact hr

/-- A `debug_assert!`. -/
theorem keeps_assert (hb : b' ≤ b) (fails : Bool) (s : σ) {x y : Exec σ α} (h : Keeps x y) :
    Keeps (if b.debugAssertions && fails then .error s else x)
      (if b'.debugAssertions && fails then .error s else y) := by
  intro r hr
  split at hr
  · cases hr
  · rename_i hpass
    rw [if_neg, h r hr]
    rw [Bool.and_eq_true] at hpass ⊢
    exact fun hc => hpass ⟨hb.2 hc.1, hc.2⟩

end

end Rust
