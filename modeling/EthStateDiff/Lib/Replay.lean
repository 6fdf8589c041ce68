import Mathlib.Tactic
/-!
# Chains of deltas

A chain of states is archived as its first state and the deltas between neighbours; `view` is
the part of a state that a delta is applied to.

* `replay_diffAll` — if every link of a chain is reconstructed, so is the chain.
* `replay_diffAll_iff` — and only then.
* `diffAll_mono`, `replay_mono` — more that can be made, or stepped, changes no archive or replay.
* `replay_related` — a replay from a related state passes through related states.
-/

namespace Replay

variable {S X D : Type}

/-- The deltas between neighbours, none if one of them cannot be made. -/
def diffAll (diff : S → S → Option D) : S → List S → Option (List D)
  | _, [] => some []
  | s, t :: states => do
    let d ← diff s t
    let deltas ← diffAll diff t states
    some (d :: deltas)

/-- The states that applying the deltas one after the other passes through. -/
def replay (step : X → D → Option X) : X → List D → Option (List X)
  | _, [] => some []
  | x, d :: deltas => do
    let y ← step x d
    let states ← replay step y deltas
    some (y :: states)

theorem replay_diffAll {diff : S → S → Option D} {step : X → D → Option X} {view : S → X}
    {R : S → S → Prop}
    (hlink : ∀ s t, R s t → ∃ d, diff s t = some d ∧ step (view s) d = some (view t)) :
    ∀ (s : S) (states : List S), List.IsChain R (s :: states) →
      ∃ deltas, diffAll diff s states = some deltas ∧
        replay step (view s) deltas = some (states.map view) := by
  intro s states
  induction states generalizing s with
  | nil => exact fun _ => ⟨[], rfl, rfl⟩
  | cons t states ih =>
    intro hchain
    obtain ⟨hst, hrest⟩ := List.isChain_cons_cons.1 hchain
    obtain ⟨d, hd, hstep⟩ := hlink s t hst
    obtain ⟨deltas, hdeltas, hreplay⟩ := ih t hrest
    refine ⟨d :: deltas, ?_, ?_⟩
    · simp [diffAll, hd, hdeltas]
    · simp [replay, hstep, hreplay]

theorem diffAll_cons_eq_some {diff : S → S → Option D} {s t : S} {states : List S}
    {deltas : List D} : diffAll diff s (t :: states) = some deltas ↔
      ∃ d rest, diff s t = some d ∧ diffAll diff t states = some rest ∧ deltas = d :: rest := by
  simp only [diffAll, Option.bind_eq_bind, Option.bind_eq_some_iff, Option.some.injEq]
  constructor
  · rintro ⟨d, hd, rest, hrest, rfl⟩
    exact ⟨d, rest, hd, hrest, rfl⟩
  · rintro ⟨d, rest, hd, hrest, rfl⟩
    exact ⟨d, hd, rest, hrest, rfl⟩

theorem replay_cons_eq_some {step : X → D → Option X} {x y : X} {d : D} {deltas : List D}
    {ys : List X} : replay step x (d :: deltas) = some (y :: ys) ↔
      step x d = some y ∧ replay step y deltas = some ys := by
  simp only [replay, Option.bind_eq_bind, Option.bind_eq_some_iff, Option.some.injEq,
    List.cons.injEq]
  constructor
  · rintro ⟨_, hstep, _, hrest, rfl, rfl⟩
    exact ⟨hstep, hrest⟩
  · rintro ⟨hstep, hrest⟩
    exact ⟨y, hstep, ys, hrest, rfl, rfl⟩

/-- **A chain comes back exactly when every link does.** -/
theorem replay_diffAll_iff {diff : S → S → Option D} {step : X → D → Option X} {view : S → X}
    {R : S → S → Prop} {P : S → Prop}
    (hlink : ∀ s t, P s → P t →
      ((∃ d, diff s t = some d ∧ step (view s) d = some (view t)) ↔ R s t)) :
    ∀ (s : S) (states : List S), (∀ t ∈ s :: states, P t) →
      ((∃ deltas, diffAll diff s states = some deltas ∧
        replay step (view s) deltas = some (states.map view)) ↔ List.IsChain R (s :: states)) := by
  intro s states
  induction states generalizing s with
  | nil => exact fun _ => ⟨fun _ => List.isChain_singleton s, fun _ => ⟨[], rfl, rfl⟩⟩
  | cons t states ih =>
    intro hall
    have ht : ∀ u ∈ t :: states, P u := fun u hu => hall u (List.mem_cons_of_mem _ hu)
    rw [List.isChain_cons_cons, ← ih t ht,
      ← hlink s t (hall s List.mem_cons_self) (ht t List.mem_cons_self)]
    constructor
    · rintro ⟨_, hdeltas, hreplay⟩
      obtain ⟨d, rest, hd, hrest, rfl⟩ := diffAll_cons_eq_some.1 hdeltas
      obtain ⟨hstep, hrun⟩ := replay_cons_eq_some.1 hreplay
      exact ⟨⟨d, hd, hstep⟩, rest, hrest, hrun⟩
    · rintro ⟨⟨d, hd, hstep⟩, rest, hrest, hrun⟩
      exact ⟨d :: rest, diffAll_cons_eq_some.2 ⟨d, rest, hd, hrest, rfl⟩,
        replay_cons_eq_some.2 ⟨hstep, hrun⟩⟩

/-- An encoder that makes more deltas makes the same archive. -/
theorem diffAll_mono {diff diff' : S → S → Option D}
    (h : ∀ s t d, diff s t = some d → diff' s t = some d) :
    ∀ (states : List S) (s : S) (deltas : List D), diffAll diff s states = some deltas →
      diffAll diff' s states = some deltas := by
  intro states
  induction states with
  | nil => exact fun _ _ hall => hall
  | cons t states ih =>
    intro s deltas hall
    obtain ⟨d, rest, hd, hrest, rfl⟩ := diffAll_cons_eq_some.1 hall
    exact diffAll_cons_eq_some.2 ⟨d, rest, h s t d hd, ih t rest hrest, rfl⟩

/-- An applier that gets further passes through the same states. -/
theorem replay_mono {step step' : X → D → Option X}
    (h : ∀ x d y, step x d = some y → step' x d = some y) :
    ∀ (deltas : List D) (x : X) (ys : List X), replay step x deltas = some ys →
      replay step' x deltas = some ys := by
  intro deltas
  induction deltas with
  | nil => exact fun _ _ hrun => hrun
  | cons d deltas ih =>
    intro x ys hrun
    simp only [replay, Option.bind_eq_bind, Option.bind_eq_some_iff] at hrun ⊢
    obtain ⟨y, hstep, rest, hrest, hys⟩ := hrun
    exact ⟨y, h x d y hstep, rest, ih y rest hrest, hys⟩

/-- **Replays side by side**: `R` relates what a step may start from, `Q` what it ends in. -/
theorem replay_related {step : X → D → Option X} {R Q : X → X → Prop}
    (hQR : ∀ x y, Q x y → R x y)
    (hstep : ∀ x y, R x y → ∀ d x', step x d = some x' → ∃ y', step y d = some y' ∧ Q x' y') :
    ∀ (deltas : List D) (x y : X) (xs : List X), R x y → replay step x deltas = some xs →
      ∃ ys, replay step y deltas = some ys ∧ List.Forall₂ Q xs ys := by
  intro deltas
  induction deltas with
  | nil =>
    rintro x y _ - ⟨⟩
    exact ⟨[], rfl, .nil⟩
  | cons d deltas ih =>
    intro x y xs hxy hrun
    simp only [replay, Option.bind_eq_bind, Option.bind_eq_some_iff] at hrun
    obtain ⟨x', hx', rest, hrest, hxs⟩ := hrun
    obtain rfl := Option.some.inj hxs
    obtain ⟨y', hy', hQ⟩ := hstep x y hxy d x' hx'
    obtain ⟨ys, hys, hall⟩ := ih x' y' rest (hQR x' y' hQ) hrest
    exact ⟨y' :: ys, replay_cons_eq_some.2 ⟨hy', hys⟩, .cons hQ hall⟩

/-- Two relations that come to the same along a chain have the same chains there. -/
theorem isChain_congr {E R Q : S → S → Prop} {P : S → Prop}
    (h : ∀ s t, P s → P t → E s t → (R s t ↔ Q s t)) : ∀ {states : List S},
    (∀ s ∈ states, P s) → List.IsChain E states → (List.IsChain R states ↔ List.IsChain Q states)
  | [], _, _ => by simp
  | [s], _, _ => by simp
  | s :: t :: states, hall, hchain => by
    rw [List.isChain_cons_cons] at hchain ⊢
    have ht := fun u hu => hall u (List.mem_cons_of_mem s hu)
    rw [List.isChain_cons_cons, isChain_congr h ht hchain.2,
      h s t (hall s List.mem_cons_self) (ht t List.mem_cons_self) hchain.1]

end Replay
