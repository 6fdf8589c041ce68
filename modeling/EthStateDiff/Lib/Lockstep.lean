import EthStateDiff.Lib.Overwrite
/-!
# Two runs of the same code

The same code runs on two buffers that differ somewhere. `Lockstep Q x y` says that the second run
returns whenever the first one does, and that `Q` then holds of what the two return; there is one
rule for each construct.

* `Lockstep.bind`, `lockstep_orPanic_bind`, `Lockstep.foldlM` — sequences, operands, **loops**.
* `AlikeOff` — two buffers of one length that differ on a set only.
* `AlikeOff.writeAt`, `AlikeOff.writes`, `AlikeOff.pushes` — writes and pushes keep them alike.
-/

namespace Rust

variable {σ τ α β γ δ : Type}

def Lockstep (Q : α → β → Prop) (x : Exec σ α) (y : Exec τ β) : Prop :=
  ∀ a, x = .ok a → ∃ b, y = .ok b ∧ Q a b

theorem lockstep_ok {Q : α → β → Prop} {a : α} {b : β} (h : Q a b) :
    Lockstep Q (.ok a : Exec σ α) (.ok b : Exec τ β) := by
  rintro _ ⟨⟩
  exact ⟨b, rfl, h⟩

theorem lockstep_error {Q : α → β → Prop} (s : σ) (y : Exec τ β) :
    Lockstep Q (.error s : Exec σ α) y := by
  rintro _ ⟨⟩

theorem Lockstep.bind {P : α → β → Prop} {Q : γ → δ → Prop} {x : Exec σ α} {y : Exec τ β}
    {f : α → Exec σ γ} {g : β → Exec τ δ} (h : Lockstep P x y)
    (hfg : ∀ a b, P a b → Lockstep Q (f a) (g b)) : Lockstep Q (x >>= f) (y >>= g) := by
  intro c hc
  obtain ⟨a, ha, hc⟩ := bind_eq_ok.1 hc
  obtain ⟨b, hb, hab⟩ := h a ha
  obtain ⟨d, hd, hcd⟩ := hfg a b hab c hc
  exact ⟨d, bind_eq_ok.2 ⟨b, hb, hd⟩, hcd⟩

/-- A sequence that keeps one relation. -/
theorem Lockstep.step {R : α → β → Prop} {x : Exec σ α} {y : Exec τ β} {f : α → Exec σ α}
    {g : β → Exec τ β} (h : Lockstep R x y) (hfg : ∀ a b, R a b → Lockstep R (f a) (g b)) :
    Lockstep R (x >>= f) (y >>= g) := h.bind hfg

/-- An operand that does not depend on the buffers. -/
theorem lockstep_orPanic_bind {Q : γ → δ → Prop} {s : σ} {t : τ} {o : Option α}
    {f : α → Exec σ γ} {g : α → Exec τ δ} (hfg : ∀ a, o = some a → Lockstep Q (f a) (g a)) :
    Lockstep Q (orPanic s o >>= f) (orPanic t o >>= g) := by
  cases o with
  | none => exact lockstep_error _ _
  | some a => exact hfg a rfl

/-- **The loop rule**: the loops stay in step if their bodies do. -/
theorem Lockstep.foldlM {R : β → γ → Prop} {f : β → α → Exec σ β} {g : γ → α → Exec τ γ} :
    ∀ {l : List α} {s : β} {t : γ}, (∀ s t, R s t → ∀ a ∈ l, Lockstep R (f s a) (g t a)) →
      R s t → Lockstep R (l.foldlM f s) (l.foldlM g t) := by
  intro l
  induction l with
  | nil => exact fun _ h => lockstep_ok h
  | cons a l ih =>
    intro s t step h
    rw [List.foldlM_cons, List.foldlM_cons]
    refine (step s t h a List.mem_cons_self).bind fun s' t' h' => ?_
    exact ih (fun u v huv x hx => step u v huv x (List.mem_cons_of_mem _ hx)) h'

theorem Lockstep.mapState {P : α → β → Prop} {Q : γ → δ → Prop} {x : Exec α α} {y : Exec β β}
    {φ : α → γ} {ψ : β → δ} (h : Lockstep P x y) (hPQ : ∀ a b, P a b → Q (φ a) (ψ b)) :
    Lockstep Q (mapState φ x) (mapState ψ y) := by
  intro c hc
  cases x with
  | error s => cases hc
  | ok a =>
    obtain rfl := Except.ok.inj hc
    obtain ⟨b, rfl, hab⟩ := h a rfl
    exact ⟨ψ b, rfl, hPQ a b hab⟩

end Rust

/-! ## Buffers that differ on a set -/

namespace Overwrite

open Rust

variable {α : Type} {D : Set Nat} {l m : List α}

structure AlikeOff (D : Set Nat) (l m : List α) : Prop where
  length : m.length = l.length
  off : ∀ i, i ∉ D → m[i]? = l[i]?

theorem AlikeOff.refl (D : Set Nat) (l : List α) : AlikeOff D l l := ⟨rfl, fun _ _ => rfl⟩

theorem AlikeOff.symm (h : AlikeOff D l m) : AlikeOff D m l :=
  ⟨h.length.symm, fun i hi => (h.off i hi).symm⟩

theorem AlikeOff.eq_nil_iff (h : AlikeOff D l m) : m = [] ↔ l = [] := by
  rw [← List.length_eq_zero_iff, h.length, List.length_eq_zero_iff]

theorem AlikeOff.append (h : AlikeOff D l m) (rest : List α) :
    AlikeOff D (l ++ rest) (m ++ rest) := by
  refine ⟨by rw [List.length_append, List.length_append, h.length], fun i hi => ?_⟩
  by_cases hlt : i < l.length
  · rw [List.getElem?_append_left hlt, List.getElem?_append_left (h.length ▸ hlt), h.off i hi]
  · have hm : m.length ≤ i := by
      rw [h.length]
      omega
    rw [List.getElem?_append_right hm, List.getElem?_append_right (by omega), h.length]

/-- The two runs write the same value, unless to a place where the buffers may differ. -/
theorem AlikeOff.set (h : AlikeOff D l m) {i : Nat} {v w : α} (hvw : i ∉ D → w = v) :
    AlikeOff D (l.set i v) (m.set i w) := by
  refine ⟨by rw [List.length_set, List.length_set, h.length], fun j hj => ?_⟩
  rw [List.getElem?_set, List.getElem?_set, h.length]
  split
  · rename_i hij
    subst hij
    rw [hvw hj]
  · exact h.off j hj

theorem AlikeOff.writeAt (h : AlikeOff D l m) {i : Nat} {v w : α} (hvw : i ∉ D → w = v) :
    Lockstep (AlikeOff D) (writeAt l (i, v)) (writeAt m (i, w)) := by
  unfold Overwrite.writeAt
  rw [h.length]
  split
  · exact lockstep_ok (h.set hvw)
  · exact lockstep_error _ _

/-- **The same writes** keep two buffers alike. -/
theorem AlikeOff.writes (h : AlikeOff D l m) (ws : List (Nat × α)) :
    Lockstep (AlikeOff D) (ws.foldlM Overwrite.writeAt l) (ws.foldlM Overwrite.writeAt m) :=
  Lockstep.foldlM (fun _ _ h _ _ => h.writeAt fun _ => rfl) h

/-- Both runs have the same room. -/
theorem AlikeOff.pushes (h : AlikeOff D l m) (limit : Nat) (vals : List α) :
    Lockstep (AlikeOff D) (vals.foldlM (pushWithin limit) l) (vals.foldlM (pushWithin limit) m) := by
  rw [foldlM_pushWithin, foldlM_pushWithin, h.length]
  split
  · exact lockstep_ok (h.append vals)
  · exact lockstep_error _ _

end Overwrite
