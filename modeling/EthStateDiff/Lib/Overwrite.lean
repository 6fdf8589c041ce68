import EthStateDiff.Lib.Machine
import Mathlib.Data.Set.Basic
/-!
# Overwriting positions of a buffer

A delta that lists positions and values is replayed by writing the values in order. When every
value written is the target's value at its position, the order and the repetitions do not
matter: the result is the target exactly when the two buffers agree everywhere else.

* `foldlM_writeAt_eq_ok` — a replay returns iff every position is inside the buffer.
* `writeAll_eq_iff` — **the replay lemma**: the result is the target iff the buffers agree off
  the written positions.
* `writeAll_ringWrites_iff` — the same for a window of a ring buffer.
* `agreeOff_of_full` — off a window at least as long as the ring there is nothing to agree on.
-/

namespace Overwrite

open Rust

variable {α : Type}

/-- `buf[i] = v`. -/
def writeAt (buf : List α) (w : Nat × α) : Exec (List α) (List α) :=
  if w.1 < buf.length then .ok (buf.set w.1 w.2) else .error buf

/-- Every write in order, none of them out of bounds. -/
def writeAll (buf : List α) (ws : List (Nat × α)) : List α :=
  ws.foldl (fun b w => b.set w.1 w.2) buf

@[simp] theorem writeAll_nil (buf : List α) : writeAll buf [] = buf := rfl

@[simp] theorem writeAll_cons (buf : List α) (w : Nat × α) (ws : List (Nat × α)) :
    writeAll buf (w :: ws) = writeAll (buf.set w.1 w.2) ws := rfl

@[simp] theorem length_writeAll : ∀ (ws : List (Nat × α)) (buf : List α),
    (writeAll buf ws).length = buf.length
  | [], _ => rfl
  | _ :: ws, buf => by rw [writeAll_cons, length_writeAll ws, List.length_set]

theorem foldlM_writeAt_eq_ok : ∀ {ws : List (Nat × α)} {buf out : List α},
    ws.foldlM writeAt buf = .ok out ↔ (∀ w ∈ ws, w.1 < buf.length) ∧ writeAll buf ws = out := by
  intro ws
  induction ws with
  | nil =>
    intro buf out
    simp [pure, Except.pure]
  | cons w ws ih =>
    intro buf out
    rw [List.foldlM_cons]
    by_cases hw : w.1 < buf.length
    · rw [writeAt, if_pos hw, ok_bind, ih]
      simp [hw]
    · rw [writeAt, if_neg hw, error_bind]
      simp only [reduceCtorEq, List.mem_cons, forall_eq_or_imp, hw, false_and]

/-- Positions no write names keep their value. -/
theorem getElem?_writeAll_of_notMem : ∀ {ws : List (Nat × α)} {buf : List α} {q : Nat},
    q ∉ ws.map Prod.fst → (writeAll buf ws)[q]? = buf[q]? := by
  intro ws
  induction ws with
  | nil =>
    intro _ _ _
    rfl
  | cons w ws ih =>
    intro buf q hq
    simp only [List.map_cons, List.mem_cons, not_or] at hq
    rw [writeAll_cons, ih hq.2, List.getElem?_set_ne (Ne.symm hq.1)]

/-- Positions some write names end with the target's value, if all writes carry that. -/
theorem getElem?_writeAll_of_mem {tgt : List α} : ∀ {ws : List (Nat × α)} {buf : List α} {q : Nat},
    buf.length = tgt.length → (∀ w ∈ ws, tgt[w.1]? = some w.2) → q ∈ ws.map Prod.fst →
    (writeAll buf ws)[q]? = tgt[q]? := by
  intro ws
  induction ws with
  | nil =>
    intro _ _ _ _ hq
    simp at hq
  | cons w ws ih =>
    intro buf q hlen hws hq
    have hrest : ∀ w' ∈ ws, tgt[w'.1]? = some w'.2 := fun w' h => hws w' (List.mem_cons_of_mem _ h)
    rw [writeAll_cons]
    by_cases hmem : q ∈ ws.map Prod.fst
    · exact ih (by rw [List.length_set, hlen]) hrest hmem
    · -- the last write at `q` is this one
      have hqw : q = w.1 := by
        simp only [List.map_cons, List.mem_cons] at hq
        exact hq.resolve_right hmem
      have hw := hws w List.mem_cons_self
      subst hqw
      have hlt : w.1 < buf.length := by
        rw [hlen]
        exact (List.getElem?_eq_some_iff.mp hw).1
      rw [getElem?_writeAll_of_notMem hmem, List.getElem?_set_self hlt, hw]

/-- The buffers agree at every position of `tgt` outside `s`. -/
def AgreeOff (s : Set Nat) (buf tgt : List α) : Prop :=
  ∀ i, i < tgt.length → i ∉ s → buf[i]? = tgt[i]?

theorem AgreeOff.mono {s u : Set Nat} {buf tgt : List α} (h : AgreeOff s buf tgt) (hsu : s ⊆ u) :
    AgreeOff u buf tgt := fun i hi hu => h i hi (fun hs => hu (hsu hs))

theorem lt_length_of_getElem?_eq {l m : List α} {i : Nat} (h : l[i]? = m[i]?) (hi : i < m.length) :
    i < l.length := by
  rw [List.getElem?_eq_getElem hi] at h
  exact (List.getElem?_eq_some_iff.mp h).1

theorem AgreeOff.refl (s : Set Nat) (buf : List α) : AgreeOff s buf buf := fun _ _ _ => rfl

theorem AgreeOff.trans {s u : Set Nat} {buf mid tgt : List α} (h₁ : AgreeOff s buf mid)
    (h₂ : AgreeOff u mid tgt) : AgreeOff (s ∪ u) buf tgt := by
  intro i hi hout
  rw [Set.mem_union, not_or] at hout
  have hmid := h₂ i hi hout.2
  exact (h₁ i (lt_length_of_getElem?_eq hmid hi) hout.1).trans hmid

/-- A write inside the set. -/
theorem AgreeOff.set {s : Set Nat} {buf tgt : List α} (h : AgreeOff s buf tgt) {i : Nat}
    (hi : i ∈ s) (v : α) : AgreeOff s (buf.set i v) tgt := by
  intro j hj hout
  have hne : i ≠ j := by
    rintro rfl
    exact hout hi
  rw [List.getElem?_set_ne hne]
  exact h j hj hout

theorem AgreeOff.append {s : Set Nat} {buf tgt : List α} (h : AgreeOff s buf tgt) (l : List α) :
    AgreeOff s (buf ++ l) tgt := by
  intro j hj hout
  rw [List.getElem?_append_left (lt_length_of_getElem?_eq (h j hj hout) hj)]
  exact h j hj hout

/-- **The replay lemma.** Writes that carry the target's own values turn `buf` into the target
exactly when the two already agree wherever nothing is written. -/
theorem writeAll_eq_iff {buf tgt : List α} {ws : List (Nat × α)} (hlen : buf.length = tgt.length)
    (hws : ∀ w ∈ ws, tgt[w.1]? = some w.2) :
    writeAll buf ws = tgt ↔ AgreeOff {i | i ∈ ws.map Prod.fst} buf tgt := by
  constructor
  · intro h i hi hmem
    rw [← getElem?_writeAll_of_notMem hmem, h]
  · intro h
    apply List.ext_getElem?
    intro q
    by_cases hmem : q ∈ ws.map Prod.fst
    · exact getElem?_writeAll_of_mem hlen hws hmem
    · rw [getElem?_writeAll_of_notMem hmem]
      by_cases hq : q < tgt.length
      · exact h q hq hmem
      · rw [List.getElem?_eq_none (by omega), List.getElem?_eq_none (by omega)]

/-! ## Ring buffers -/

theorem ne_nil_of_length_eq {buf tgt : List α} (hlen : buf.length = tgt.length) (hne : tgt ≠ []) :
    buf ≠ [] := by
  rw [← List.length_pos_iff] at hne ⊢
  omega

/-- Ring positions of the sequence numbers `lo, …, hi - 1`. -/
def ringWindow (cap lo hi : Nat) : Set Nat := {i | ∃ s, lo ≤ s ∧ s < hi ∧ i = s % cap}

theorem mem_ringWindow {cap lo hi i : Nat} :
    i ∈ ringWindow cap lo hi ↔ ∃ s, lo ≤ s ∧ s < hi ∧ i = s % cap := Iff.rfl

theorem ringWindow_mono {cap lo hi lo' hi' : Nat} (hlo : lo' ≤ lo) (hhi : hi ≤ hi') :
    ringWindow cap lo hi ⊆ ringWindow cap lo' hi' := by
  rintro i ⟨s, h₁, h₂, rfl⟩
  exact ⟨s, hlo.trans h₁, h₂.trans_le hhi, rfl⟩

/-- A window at least as long as the ring covers it. -/
theorem mem_ringWindow_of_full {cap lo hi i : Nat} (hi' : i < cap) (hfull : lo + cap ≤ hi) :
    i ∈ ringWindow cap lo hi := by
  -- the first number at or after `lo` that is `i` modulo `cap`
  have hmod := Nat.mod_lt lo (show 0 < cap by omega)
  have hdiv := Nat.div_add_mod lo cap
  by_cases h : lo % cap ≤ i
  · refine ⟨cap * (lo / cap) + i, by omega, by omega, ?_⟩
    rw [Nat.mul_add_mod, Nat.mod_eq_of_lt hi']
  · refine ⟨cap * (lo / cap + 1) + i, ?_, ?_, ?_⟩
    · rw [Nat.mul_add, Nat.mul_one]
      omega
    · rw [Nat.mul_add, Nat.mul_one]
      omega
    · rw [Nat.mul_add_mod, Nat.mod_eq_of_lt hi']

/-- Buffers agree off a window that leaves nothing out. -/
theorem agreeOff_of_full {buf tgt : List α} {lo hi : Nat} (hfull : lo + tgt.length ≤ hi) :
    AgreeOff (ringWindow tgt.length lo hi) buf tgt := by
  intro i hi hout
  exact absurd (mem_ringWindow_of_full hi hfull) hout

/-- The ring positions of `n` consecutive sequence numbers. -/
theorem map_mod_range'_eq_ringWindow (cap lo n : Nat) :
    {i | i ∈ (List.range' lo n).map (· % cap)} = ringWindow cap lo (lo + n) := by
  ext i
  simp only [Set.mem_ofPred_eq, List.mem_map, List.mem_range'_1, mem_ringWindow]
  constructor
  · rintro ⟨s, ⟨h₁, h₂⟩, rfl⟩
    exact ⟨s, h₁, h₂, rfl⟩
  · rintro ⟨s, h₁, h₂, rfl⟩
    exact ⟨s, ⟨h₁, h₂⟩, rfl⟩

/-- The ring entries with the sequence numbers `seqs`, in that order. -/
def readRing (buf : List α) : List Nat → Option (List α)
  | [] => some []
  | s :: seqs => do
    let v ← buf[s % buf.length]?
    let vals ← readRing buf seqs
    some (v :: vals)

/-- The writes that put `vals` at the ring positions of `seqs`. -/
def ringWrites (cap : Nat) : List Nat → List α → List (Nat × α)
  | s :: seqs, v :: vals => (s % cap, v) :: ringWrites cap seqs vals
  | _, _ => []

theorem mem_ringWrites {cap : Nat} : ∀ {seqs : List Nat} {vals : List α} {w : Nat × α},
    w ∈ ringWrites cap seqs vals → w.1 ∈ seqs.map (· % cap)
  | [], _, _, h => by simp [ringWrites] at h
  | _ :: _, [], _, h => by simp [ringWrites] at h
  | s :: seqs, v :: vals, w, h => by
    rcases List.mem_cons.mp h with rfl | h
    · exact List.mem_cons_self
    · exact List.mem_cons_of_mem _ (mem_ringWrites h)

theorem readRing_eq_some {buf : List α} : ∀ {seqs : List Nat} {vals : List α},
    readRing buf seqs = some vals ↔ seqs.map (fun s => buf[s % buf.length]?) = vals.map some
  | [], vals => by
    cases vals <;> simp [readRing]
  | s :: seqs, [] => by
    cases h : buf[s % buf.length]? <;> cases h' : readRing buf seqs <;> simp [readRing, h, h']
  | s :: seqs, v :: vals => by
    have ih : readRing buf seqs = some vals ↔
        seqs.map (fun s => buf[s % buf.length]?) = vals.map some := readRing_eq_some
    cases h : buf[s % buf.length]? with
    | none => simp [readRing, h]
    | some w =>
      cases h' : readRing buf seqs with
      | none =>
        rw [h'] at ih
        simp only [readRing, h, h', Option.bind_eq_bind, Option.bind_some, Option.bind_none,
          List.map_cons, List.cons.injEq, ← ih]
        simp
      | some vals' =>
        rw [h'] at ih
        simp only [readRing, h, h', Option.bind_eq_bind, Option.bind_some, List.map_cons,
          List.cons.injEq, Option.some.injEq, ← ih]

/-- A read from a non-empty ring never fails. -/
theorem readRing_total {buf : List α} (hbuf : buf ≠ []) (seqs : List Nat) :
    ∃ vals, readRing buf seqs = some vals := by
  have hpos : 0 < buf.length := List.length_pos_iff.2 hbuf
  refine ⟨seqs.map fun s => buf.get ⟨s % buf.length, Nat.mod_lt _ hpos⟩, readRing_eq_some.2 ?_⟩
  rw [List.map_map]
  refine List.map_congr_left fun s _ => ?_
  exact List.getElem?_eq_getElem (Nat.mod_lt _ hpos)

theorem ringWrites_spec {tgt : List α} : ∀ {seqs : List Nat} {vals : List α},
    readRing tgt seqs = some vals →
    (∀ w ∈ ringWrites tgt.length seqs vals, tgt[w.1]? = some w.2) ∧
      (ringWrites tgt.length seqs vals).map Prod.fst = seqs.map (· % tgt.length) := by
  intro seqs
  induction seqs with
  | nil =>
    intro vals h
    cases h
    exact ⟨by simp [ringWrites], rfl⟩
  | cons s seqs ih =>
    intro vals h
    rw [readRing_eq_some] at h
    match vals, h with
    | v :: vals, h =>
      simp only [List.map_cons, List.cons.injEq] at h
      obtain ⟨hv, hvals⟩ := h
      obtain ⟨hmem, hfst⟩ := ih (readRing_eq_some.2 hvals)
      refine ⟨?_, ?_⟩
      · intro w hw
        rcases List.mem_cons.mp hw with rfl | hw
        · exact hv
        · exact hmem w hw
      · rw [ringWrites, List.map_cons, List.map_cons, hfst]

/-- **Replaying a window of a ring**: written over a buffer of the same capacity, the target's
entries give the target iff the buffers agree outside the window. -/
theorem writeAll_ringWrites_iff {base tgt vals : List α} {lo n : Nat}
    (hlen : base.length = tgt.length) (hvals : readRing tgt (List.range' lo n) = some vals) :
    writeAll base (ringWrites tgt.length (List.range' lo n) vals) = tgt ↔
      AgreeOff (ringWindow tgt.length lo (lo + n)) base tgt := by
  obtain ⟨hmem, hfst⟩ := ringWrites_spec hvals
  rw [writeAll_eq_iff hlen hmem, hfst, map_mod_range'_eq_ringWindow]

end Overwrite
