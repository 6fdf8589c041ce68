import EthStateDiff.ByteLists
import EthStateDiff.Lib.Overlap
/-!
# Correctness of the queue delta

`diff_queue` works on bytes. Over queues of whole items it is `Fifo.firstFit` on the items, and what
that search finds and misses is proved there. Partial items and queues past 4 GiB are outside that
picture; for them the branches of the encoder are taken one by one.

* `diffQueue_join` — **the byte encoder is the item search.**
* `queue_round_trip_iff` — when the encoder panics, and when the target comes back.
* `queue_fifo_minimal` — a FIFO delta consumes as little as possible, and distinct items are never
  replaced as a whole without need.
* `queue_consumed_exact_iff` — the consumed count is right unless a queue of 4 GiB is emptied.
-/

namespace EthStateDiff

open Rust ByteString Fifo

/-! ## Bytes and items -/

theorem drop_join {α : Type} {n : Nat} : ∀ (cs : List (Arr α n)) (k : Nat),
    (join cs).drop (k * n) = join (cs.drop k)
  | [], k => by simp
  | cs, 0 => by simp
  | c :: cs, k + 1 => by
    have hlen : (k + 1) * n = c.val.length + k * n := by
      rw [c.property, Nat.add_mul, Nat.one_mul, Nat.add_comm]
    rw [join_cons, hlen, List.drop_append, List.drop_succ_cons]
    simp [drop_join cs k]

theorem join_prefix_iff {α : Type} {n : Nat} (hn : 0 < n) {cs ts : List (Arr α n)} :
    join cs <+: join ts ↔ cs <+: ts := by
  constructor
  · rintro ⟨rest, hrest⟩
    have hlen := congrArg List.length hrest
    rw [List.length_append, length_join, length_join] at hlen
    have hdvd : n ∣ rest.length := (Nat.dvd_add_right (Nat.dvd_mul_left n cs.length)).1
      (hlen ▸ Nat.dvd_mul_left n ts.length)
    refine ⟨chunksExact n rest, ?_⟩
    rw [← chunksExact_join hn (cs ++ chunksExact n rest), join_append, join_chunksExact hn hdvd,
      hrest, chunksExact_join hn]
  · rintro ⟨rest, rfl⟩
    exact ⟨join rest, (join_append cs rest).symm⟩

theorem join_eq_nil_iff {α : Type} {n : Nat} (hn : 0 < n) {cs : List (Arr α n)} :
    join cs = [] ↔ cs = [] := by
  rw [← List.length_eq_zero_iff, length_join, ← List.length_eq_zero_iff (l := cs)]
  simp [hn.ne']

/-- **Over whole items `diff_queue` is `firstFit`.** -/
theorem diffQueue_join {size : Nat} (hsize : 0 < size) {cs ts : List (Bytes size)} (hcs : cs ≠ [])
    (hts : ts ≠ []) :
    diffQueue (join cs) (join ts) size = some (match firstFit cs ts with
      | some k => .fifo (UInt32.ofNat k) (join (ts.drop (cs.length - k)))
      | none => .fullReplacement (join ts)) := by
  cases ts with
  | nil => exact absurd rfl hts
  | cons head tail =>
    have htake : (join (head :: tail)).take size = head.val := by
      rw [join_cons, List.take_append_of_le_length head.property.ge, List.take_of_length_le
        head.property.le]
    have hlong : size ≤ (join (head :: tail)).length := by
      rw [join_cons, List.length_append, head.property]
      omega
    have hpred : (fun chunk : Bytes size => chunk.val == head.val) =
        fun item => decide (item = head) := by
      funext chunk
      rw [Bool.eq_iff_iff, beq_iff_eq, decide_eq_true_iff, Subtype.ext_iff]
    rw [diffQueue_of_head hsize (mt (join_eq_nil_iff hsize).1 hcs)
      (mt (join_eq_nil_iff hsize).1 hts) hlong, htake, chunksExact_join hsize, hpred, firstFit]
    cases cs.findIdx? fun item => decide (item = head) with
    | none => rfl
    | some k =>
      simp only [drop_join, join_prefix_iff hsize, Option.filter_some, length_join,
        List.length_drop, decide_eq_true_iff]
      split <;> rfl

/-! ## FIFO detection -/

/-- After `k` items of `base` left, some are still there, and `target` begins with them. -/
def FifoOverlap (size : Nat) (base target : List UInt8) (k : Nat) : Prop :=
  k < base.length / size ∧ base.drop (k * size) <+: target

theorem fifoOverlap_iff {size : Nat} (hsize : 0 < size) {base target : List UInt8}
    (hbase : size ∣ base.length) (htarget : size ∣ target.length) {k : Nat} :
    FifoOverlap size base target k ↔
      Overlap (chunksExact size base) (chunksExact size target) k := by
  rw [FifoOverlap, Overlap, length_chunksExact, ← join_prefix_iff hsize, ← drop_join,
    join_chunksExact hsize hbase, join_chunksExact hsize htarget]

theorem chunksExact_ne_nil {size : Nat} (hsize : 0 < size) {l : List UInt8} (hne : l ≠ [])
    (hl : size ∣ l.length) : chunksExact size l ≠ [] := by
  intro h
  rw [← join_chunksExact hsize hl, h] at hne
  exact hne rfl

theorem drop_append_of_overlap {size k : Nat} (hsize : 0 < size) {base target : List UInt8}
    (hbase : size ∣ base.length) (htarget : size ∣ target.length)
    (h : Overlap (chunksExact size base) (chunksExact size target) k) :
    base.drop (k * size) ++
      join ((chunksExact size target).drop ((chunksExact size base).length - k)) = target := by
  have hkept : base.drop (k * size) = join ((chunksExact size base).drop k) := by
    rw [← drop_join, join_chunksExact hsize hbase]
  have hpre := h.2
  rw [List.prefix_iff_eq_append, List.length_drop] at hpre
  rw [hkept, ← join_append, hpre, join_chunksExact hsize htarget]

theorem length_appended_le {size i k : Nat} {base target appended rest : List UInt8} (hik : i ≤ k)
    (hi : base.drop (i * size) ++ appended = target) (hk : base.drop (k * size) ++ rest = target) :
    appended.length ≤ rest.length := by
  have hmul : i * size ≤ k * size := Nat.mul_le_mul_right size hik
  have hlen := congrArg List.length hi
  have hlen' := congrArg List.length hk
  rw [List.length_append, List.length_drop] at hlen hlen'
  omega

/-- **FIFO detection is minimal, and complete among distinct items.** Of queues of whole items, a
FIFO delta consumes the least number of items that leaves a prefix of the target, and appends the
rest of the target, so never more than it must; if no two items of the base are equal, the target
is stored whole only when there is no such number. -/
theorem queue_fifo_minimal {size : Nat} {base target : List UInt8} (hsize : 0 < size)
    (hbase : base ≠ []) (htarget : target ≠ []) (hitems : size ∣ base.length)
    (hitems' : size ∣ target.length) (hcount : base.length / size < 2 ^ 32) :
    (∀ consumed appended, diffQueue base target size = some (.fifo consumed appended) →
      IsLeast {k | FifoOverlap size base target k} consumed.toNat ∧
      base.drop (consumed.toNat * size) ++ appended = target ∧
      ∀ k rest, base.drop (k * size) ++ rest = target → appended.length ≤ rest.length) ∧
    ((chunksExact size base).Nodup →
      ∀ queue, diffQueue base target size = some (.fullReplacement queue) →
      ∀ k, ¬FifoOverlap size base target k) := by
  have hspec := diffQueue_join hsize (chunksExact_ne_nil hsize hbase hitems)
    (chunksExact_ne_nil hsize htarget hitems')
  rw [join_chunksExact hsize hitems, join_chunksExact hsize hitems'] at hspec
  have hoverlap : ∀ k, FifoOverlap size base target k ↔
      Overlap (chunksExact size base) (chunksExact size target) k := fun k =>
    fifoOverlap_iff hsize hitems hitems'
  rw [hspec]
  cases hfit : firstFit (chunksExact size base) (chunksExact size target) with
  | none =>
    refine ⟨?_, ?_⟩
    · rintro consumed appended h
      cases h
    · intro hdistinct _ _ k hk
      exact not_overlap_of_firstFit hdistinct hfit ((hoverlap k).1 hk)
  | some least =>
    refine ⟨?_, ?_⟩
    · rintro consumed appended h
      simp only [Option.some.injEq, QueueDiff.fifo.injEq] at h
      obtain ⟨rfl, rfl⟩ := h
      have hleast := firstFit_isLeast hfit
      simp only [← hoverlap] at hleast
      have hlt : least < base.length / size := hleast.1.1
      have hnat := UInt32.toNat_ofNat_of_lt' (hlt.trans hcount)
      have happ := drop_append_of_overlap hsize hitems hitems' (firstFit_overlap hfit)
      rw [hnat]
      refine ⟨hleast, happ, fun k rest hk => length_appended_le ?_ happ hk⟩
      -- fewer items cannot have left, even if none stay
      by_cases hkn : k < base.length / size
      · exact hleast.2 ⟨hkn, rest, hk⟩
      · omega
    · rintro - queue h
      cases h

theorem queue_fifo_minimal_second :
    diffQueue [1, 1, 2, 2, 3, 3] [2, 2, 3, 3, 4, 4] 2 = some (.fifo 1 [4, 4]) ∧
    IsLeast {k | FifoOverlap 2 [1, 1, 2, 2, 3, 3] [2, 2, 3, 3, 4, 4] k} 1 := by
  have hrun : diffQueue [1, 1, 2, 2, 3, 3] [2, 2, 3, 3, 4, 4] 2 = some (.fifo 1 [4, 4]) := by decide
  have h := queue_fifo_minimal (show 0 < 2 by decide)
    (show [(1 : UInt8), 1, 2, 2, 3, 3] ≠ [] by simp) (show [(2 : UInt8), 2, 3, 3, 4, 4] ≠ [] by simp)
    (by simp) (by simp) (by simp)
  exact ⟨hrun, (h.1 1 [4, 4] hrun).1⟩

/-! ## Arbitrary bytes -/

theorem diffQueue_eq_none_iff {size : Nat} {base target : List UInt8} (hpos : 0 < size)
    (hsize : size < 2 ^ 32) : diffQueue base target size = none ↔
      base ≠ [] ∧ 0 < target.length ∧ target.length < size := by
  by_cases htarget : target = []
  · rw [htarget, diffQueue_nil base hpos hsize]
    simp
  have htlen : 0 < target.length := List.length_pos_iff.2 htarget
  by_cases hbase : base = []
  · rw [hbase, diffQueue_of_nil hpos htarget]
    simp
  by_cases hshort : target.length < size
  · refine ⟨fun _ => ⟨hbase, htlen, hshort⟩, fun _ => ?_⟩
    rw [diffQueue, if_neg hpos.ne', if_neg htarget, if_neg hbase, if_pos hshort]
  · rw [diffQueue_of_head hpos hbase htarget (by omega)]
    simp [hshort]

/-- **Queues, exactly**: the encoder panics iff something became a queue shorter than one item, and
the delta gives the target unless an emptied queue held a partial item. -/
theorem queue_round_trip_iff (b : Build) {size : Nat} {base target : List UInt8} (hpos : 0 < size)
    (hsize : size < 2 ^ 32) (hbase : base.length < 2 ^ 32) :
    (diffQueue base target size = none ↔
      base ≠ [] ∧ 0 < target.length ∧ target.length < size) ∧
    ∀ d, diffQueue base target size = some d → (applyQueue b base d size = .ok target ↔
      ¬(target = [] ∧ ¬size ∣ base.length)) := by
  have hpanic : diffQueue base target size = none ↔
      base ≠ [] ∧ 0 < target.length ∧ target.length < size := diffQueue_eq_none_iff hpos hsize
  refine ⟨hpanic, fun d hd => ?_⟩
  by_cases hpartial : target = [] ∧ ¬size ∣ base.length
  · obtain ⟨rfl, hdvd⟩ := hpartial
    refine ⟨fun h => ?_, fun h => absurd ⟨rfl, hdvd⟩ h⟩
    rw [diffQueue_nil base hpos hsize, Option.some.injEq] at hd
    have hcount := toNat_emptied base.length hsize
    rw [Nat.mod_eq_of_lt hbase] at hcount
    have hle := Nat.div_mul_le_self base.length size
    rw [← hd, applyQueue_fifo b base [] hsize hcount hle, Except.ok.injEq, List.append_nil,
      List.drop_eq_nil_iff] at h
    -- the partial item is left behind
    exact absurd ⟨base.length / size, by rw [Nat.mul_comm]; omega⟩ hdvd
  · refine ⟨fun _ => hpartial, fun _ => ?_⟩
    have hdrained : target = [] → size ∣ base.length := fun h => by
      by_contra hdvd
      exact hpartial ⟨h, hdvd⟩
    have hhead : base ≠ [] → target ≠ [] → size ≤ target.length := by
      intro hb ht
      by_contra hshort
      rw [hpanic.2 ⟨hb, List.length_pos_iff.2 ht, by omega⟩] at hd
      cases hd
    obtain ⟨d', hd', hout⟩ := queue_reconstructs b hpos hsize hbase hdrained hhead
    obtain rfl : d = d' := Option.some.inj (hd.symm.trans hd')
    exact hout

/-- Two items and half of a third: the overlap begins inside the base and ends in the target. -/
theorem queue_round_trip_partial :
    (diffQueue [1, 1, 2, 2, 3] [2, 2, 3, 4] 2 = some (.fifo 1 [4]) ∧
      applyQueue Build.dev [1, 1, 2, 2, 3] (.fifo 1 [4]) 2 = .ok [2, 2, 3, 4]) ∧
    diffQueue [1, 1] [2] 2 = none := by
  have hrun : diffQueue [1, 1, 2, 2, 3] [2, 2, 3, 4] 2 = some (.fifo 1 [4]) := by decide
  refine ⟨⟨hrun, ?_⟩, ?_⟩
  · exact ((queue_round_trip_iff Build.dev (by simp) (by simp) (by simp)).2 _ hrun).2 (by simp)
  · exact (queue_round_trip_iff Build.dev (by simp) (by simp) (by simp)).1.2 (by simp)

/-! ## The consumed count -/

/-- A FIFO delta of a queue of `n` items counts the items that leave: all of them when nothing is
left, none when there was nothing, otherwise those in front of the new head; and applying it drains
that many. -/
structure CountsExactly (b : Build) (size n : Nat) (base target : List UInt8) (consumed : UInt32)
    (appended : List UInt8) : Prop where
  emptied : target = [] → consumed.toNat = n
  started : base = [] → consumed.toNat = 0
  matched : base ≠ [] → target ≠ [] →
    ((chunksExact size base).findIdx? fun chunk => chunk.val == target.take size) =
      some consumed.toNat
  drained : applyQueue b base (.fifo consumed appended) size =
    .ok (base.drop (consumed.toNat * size) ++ appended)

/-- The branch that finds the new head counts before it narrows. -/
theorem countsExactly_of_head (b : Build) {size n : Nat} {base target appended : List UInt8}
    {consumed : UInt32} (hpos : 0 < size) (hsize : size < 2 ^ 32) (hitems : base.length = n * size)
    (hn : n < 2 ^ 32) (hbase : base ≠ []) (htarget : target ≠ [])
    (h : diffQueue base target size = some (.fifo consumed appended)) :
    CountsExactly b size n base target consumed appended := by
  have hlong : size ≤ target.length := by
    by_contra hshort
    rw [(diffQueue_eq_none_iff hpos hsize).2 ⟨hbase, List.length_pos_iff.2 htarget, by omega⟩] at h
    cases h
  rw [diffQueue_of_head hpos hbase htarget hlong, Option.some.injEq] at h
  cases hfind : (chunksExact size base).findIdx? fun chunk => chunk.val == target.take size with
  | none =>
    rw [hfind] at h
    cases h
  | some idx =>
    rw [hfind] at h
    simp only at h
    split at h
    · simp only [QueueDiff.fifo.injEq] at h
      obtain ⟨rfl, -⟩ := h
      obtain ⟨hidx, hle⟩ := lt_of_findIdx_chunks hfind
      rw [hitems, Nat.mul_div_cancel n hpos] at hidx
      have hnat := UInt32.toNat_ofNat_of_lt' (hidx.trans hn)
      refine ⟨fun h => absurd h htarget, fun h => absurd h hbase, fun _ _ => by rw [hnat, hfind], ?_⟩
      rw [hnat]
      exact applyQueue_fifo b base appended hsize hnat hle
    · cases h

/-- **The consumed count**: the branch for an emptied queue narrows the byte length first, so the
count is right exactly when that fits; the other branches never lose an item. -/
theorem queue_consumed_exact_iff (b : Build) {size n : Nat} {base target : List UInt8}
    (hpos : 0 < size) (hsize : size < 2 ^ 32) (hitems : base.length = n * size) (hn : n < 2 ^ 32) :
    (∀ consumed appended, diffQueue base target size = some (.fifo consumed appended) →
      CountsExactly b size n base target consumed appended) ↔
    (target = [] → base.length < 2 ^ 32) := by
  have htrunc := toNat_emptied base.length hsize
  constructor
  · rintro h rfl
    have hcount := (h _ _ (diffQueue_nil base hpos hsize)).emptied rfl
    rw [htrunc] at hcount
    have hle := Nat.div_mul_le_self (base.length % 2 ^ 32) size
    rw [hcount, ← hitems] at hle
    exact Nat.lt_of_le_of_lt hle (Nat.mod_lt _ (Nat.two_pow_pos 32))
  · rintro hfits consumed appended h
    by_cases htarget : target = []
    · subst htarget
      rw [diffQueue_nil base hpos hsize] at h
      simp only [Option.some.injEq, QueueDiff.fifo.injEq] at h
      obtain ⟨rfl, rfl⟩ := h
      have hdiv : base.length / size = n := by rw [hitems, Nat.mul_div_cancel n hpos]
      rw [Nat.mod_eq_of_lt (hfits rfl), hdiv] at htrunc
      refine ⟨fun _ => htrunc, fun hbase => ?_, fun _ h => absurd rfl h, ?_⟩
      · rw [htrunc]
        rw [hbase, List.length_nil] at hitems
        simpa [hpos.ne'] using hitems.symm
      · rw [htrunc]
        exact applyQueue_fifo b base [] hsize htrunc hitems.ge
    · by_cases hbase : base = []
      · subst hbase
        rw [diffQueue_of_nil hpos htarget] at h
        simp only [Option.some.injEq, QueueDiff.fifo.injEq] at h
        obtain ⟨rfl, rfl⟩ := h
        exact ⟨fun h => absurd h htarget, fun _ => rfl, fun h => absurd rfl h,
          applyQueue_fifo b [] target hsize rfl (by simp)⟩
      · exact countsExactly_of_head b hpos hsize hitems hn hbase htarget h

theorem queue_consumed_exact_three :
    CountsExactly Build.dev 2 3 [1, 1, 2, 2, 3, 3] [] 3 [] :=
  (queue_consumed_exact_iff Build.dev (by simp) (by simp) (by simp) (by simp)).2 (by simp) 3 []
    (by decide)

/-- `2^28` consolidations of 16 bytes fill 4 GiB; emptying that queue counts nothing consumed. -/
theorem queue_consumed_truncated :
    ¬∀ (b : Build) (size n : Nat) (base target : List UInt8), 0 < size → size < 2 ^ 32 →
      base.length = n * size → n < 2 ^ 32 → ∀ consumed appended,
      diffQueue base target size = some (.fifo consumed appended) →
      CountsExactly b size n base target consumed appended := by
  intro h
  have hlen : (List.replicate (2 ^ 32) (0 : UInt8)).length = 2 ^ 28 * 16 := by
    rw [List.length_replicate]
    norm_num
  have hdiff := diffQueue_nil (List.replicate (2 ^ 32) (0 : UInt8)) (show 0 < 16 by simp) (by simp)
  have hcount := (h Build.release 16 (2 ^ 28) _ [] (by simp) (by simp) hlen (by simp) _ _
    hdiff).emptied rfl
  rw [List.length_replicate] at hcount
  exact absurd hcount (by decide)

end EthStateDiff
