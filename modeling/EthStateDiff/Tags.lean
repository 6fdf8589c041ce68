import EthStateDiff.Lib.Cells
import EthStateDiff.Types
/-!
# Histories of `BitTagVec` (`types.rs:505-569`)

A tag vector stands for an array of two-bit tags: `set` writes a tag, `get` reads the one written
last (`lastTag`). But `set` ORs the tag into its byte and clears nothing first, so a tag is the
join of all tags ever set at its index. The encoder of balances sets each index once at most and
cannot tell the difference.

* `setAll_spec` — the calls return, keep the shape, and leave at each index the join of its tags.
* `tags_array_iff` — **the vector is an array** iff no call sets a bit that the last call at its
  index does not set.
-/

namespace EthStateDiff

open Cells

namespace BitTagVec

/-- The calls `set(i, t)` of a history, in order. -/
def setAll (v : BitTagVec) (calls : List (Nat × UInt8)) : Option BitTagVec :=
  calls.foldlM (fun v c => v.set c.1 c.2) v

/-- The tags the calls ask for: the low two bits of their arguments. -/
def asked (calls : List (Nat × UInt8)) : List (Nat × UInt8) :=
  calls.map fun c => (c.1, c.2 &&& 0b11)

/-- The tag an array holds at `j`: the last one set there, and `SET_NO_CHANGE` if none was. -/
def lastTag (calls : List (Nat × UInt8)) (j : Nat) : UInt8 :=
  latest SET_NO_CHANGE j (asked calls)

theorem get_new {n j : Nat} (hj : j < n) : (new n).get j = some SET_NO_CHANGE := by
  rw [← getElem?_tags, tags_new, List.getElem?_replicate, if_pos hj]

/-- **What a history of calls leaves**: at each index, the join of the tags set there. -/
theorem setAll_spec : ∀ {calls : List (Nat × UInt8)} {v : BitTagVec}, v.WF →
    (∀ c ∈ calls, c.1 < v.len) → ∃ v', v.setAll calls = some v' ∧ v'.WF ∧ v'.len = v.len ∧
      ∀ j, v'.get j = (v.get j).map fun tag => joined (· ||| ·) tag j (asked calls) := by
  intro calls
  induction calls with
  | nil =>
    intro v h _
    exact ⟨v, rfl, h, rfl, fun j => by simp [asked]⟩
  | cons c calls ih =>
    intro v h hcalls
    obtain ⟨v₁, hset, hwf, hlen, hget⟩ := set_spec h (hcalls c List.mem_cons_self) c.2
    obtain ⟨v₂, hrun, hwf₂, hlen₂, hget₂⟩ := ih hwf fun c' hc' => by
      rw [hlen]
      exact hcalls c' (List.mem_cons_of_mem _ hc')
    refine ⟨v₂, ?_, hwf₂, hlen₂.trans hlen, fun j => ?_⟩
    · rw [setAll, List.foldlM_cons, hset]
      exact hrun
    · have hasked : asked (c :: calls) = (c.1, c.2 &&& 0b11) :: asked calls := rfl
      rw [hget₂, hget, hasked]
      by_cases hj : j = c.1
      · rw [if_pos hj, Option.map_map]
        congr 1
        funext tag
        rw [Function.comp_apply, joined_cons, if_pos hj.symm]
      · rw [if_neg hj]
        congr 1
        funext tag
        rw [joined_cons, if_neg (Ne.symm hj)]

/-- **A tag vector is an array, and when.** Every call inside the vector returns, the storage stays
`ceil(n / 4)` bytes, and a call changes no other tag than its own; but each tag reads as the last
one set exactly when no call at an index sets a bit that the last call there does not set. -/
theorem tags_array_iff {n : Nat} {calls : List (Nat × UInt8)} (hcalls : ∀ c ∈ calls, c.1 < n) :
    ∃ v, (new n).setAll calls = some v ∧ v.data.length = (n + 3) / 4 ∧
      (∀ i < n, ∀ tag, ∃ v', v.set i tag = some v' ∧ ∀ j, j ≠ i → v'.get j = v.get j) ∧
      ((∀ j < n, v.get j = some (lastTag calls j)) ↔
        ∀ c ∈ calls, (c.2 &&& 0b11) ||| lastTag calls c.1 = lastTag calls c.1) := by
  obtain ⟨v, hrun, hwf, hlen, hget⟩ := setAll_spec (new_WF n) hcalls
  have hlen : v.len = n := hlen
  have hread : ∀ j < n, v.get j = some (lastTag calls j) ↔
      ∀ x, (j, x) ∈ asked calls → x ||| lastTag calls j = lastTag calls j := by
    intro j hj
    have hzero : ∀ x : UInt8, SET_NO_CHANGE ||| x = x := fun x => UInt8.zero_or
    rw [hget, get_new hj, Option.map_some, Option.some.injEq]
    exact joined_eq_latest_iff hzero j (asked calls)
  refine ⟨v, hrun, by rw [← hlen]; exact hwf, fun i hi tag => ?_, ?_⟩
  · obtain ⟨v', hset, -, -, hother⟩ := set_spec hwf (hlen ▸ hi) tag
    exact ⟨v', hset, fun j hj => by rw [hother, if_neg hj]⟩
  · constructor
    · intro h c hc
      exact (hread c.1 (hcalls c hc)).1 (h c.1 (hcalls c hc)) _ (List.mem_map_of_mem hc)
    · intro h j hj
      refine (hread j hj).2 fun x hx => ?_
      obtain ⟨c, hc, hcx⟩ := List.mem_map.mp hx
      obtain ⟨rfl, rfl⟩ := Prod.mk.inj hcx
      exact h c hc

/-- Of six tags two are set, one of them twice, and its second value has every bit of its first. -/
theorem tags_array_six : ∃ v,
    (new 6).setAll [(0, SET_TO_TARGET_VALUE), (4, SET_TO_ZERO), (0, SET_TO_DIFF)] = some v ∧
    v.get 0 = some SET_TO_DIFF ∧ v.get 1 = some SET_NO_CHANGE ∧ v.get 4 = some SET_TO_ZERO := by
  have hcalls : ∀ c ∈ [(0, SET_TO_TARGET_VALUE), (4, SET_TO_ZERO), (0, SET_TO_DIFF)], c.1 < 6 := by
    decide
  obtain ⟨v, hrun, -, -, hiff⟩ := tags_array_iff hcalls
  have hget := hiff.2 (by decide)
  exact ⟨v, hrun, hget 0 (by decide), hget 1 (by decide), hget 4 (by decide)⟩

/-- A target value and then a zero at one index leave the tag of a difference. -/
theorem tags_array_overwritten :
    ¬∀ (n : Nat) (calls : List (Nat × UInt8)), (∀ c ∈ calls, c.1 < n) →
      ∃ v, (new n).setAll calls = some v ∧ ∀ j < n, v.get j = some (lastTag calls j) := by
  intro h
  obtain ⟨v, hrun, hget⟩ := h 1 [(0, SET_TO_TARGET_VALUE), (0, SET_TO_ZERO)] (by decide)
  have hdata : (new 1).setAll [(0, SET_TO_TARGET_VALUE), (0, SET_TO_ZERO)] =
      some ⟨[SET_TO_DIFF], 1⟩ := by decide
  obtain rfl := Option.some.inj (hdata.symm.trans hrun)
  exact absurd (hget 0 (by decide)) (by decide)

end BitTagVec

end EthStateDiff
