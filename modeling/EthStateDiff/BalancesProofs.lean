import EthStateDiff.Balances
/-!
# Correctness of the balance delta

Each common entry is a pair `(base, target)`. The encoder turns it into a tag (`pairTag`), the
varint bytes behind a `SET_TO_DIFF` tag (`pairVarint`) and the explicit value behind a
`SET_TO_TARGET_VALUE` tag (`pairValues`); the applier turns the three back into the target.

* `diffBalancesIter_spec` — the delta is the tags, varints and values of the pairs.
* `applyTag_pair` — one tag turns one base entry into its target.
* `applyBalancesIter_overlay` — the applier overlays the base with the target.
* `applyBalancesIter_diffBalancesIter` — **balances come back**, whatever the mode is.
* `balances_release_iff` — in a release build, exactly when the base is not the longer list.
* `balances_in_range` — below `2^63` nothing overflows and a difference takes five bytes.
* `applyBalancesIter_isOk` — exactly when a payload can be applied.
-/

namespace EthStateDiff

open Rust ByteString Overwrite

/-- `v2 as i64 - v1 as i64`, wrapping. -/
def diffOf (p : UInt64 × UInt64) : Int64 := p.2.toInt64 - p.1.toInt64

def pairTag (p : UInt64 × UInt64) : UInt8 :=
  if p.1 = p.2 then SET_NO_CHANGE
  else if p.2 = 0 then SET_TO_ZERO
  else if diffOf p = p.2.toInt64 then SET_TO_TARGET_VALUE
  else if fitsI32 (diffOf p) then SET_TO_DIFF
  else SET_TO_TARGET_VALUE

theorem pairTag_cases (p : UInt64 × UInt64) :
    (p.1 = p.2 ∧ pairTag p = SET_NO_CHANGE) ∨
    (p.1 ≠ p.2 ∧ p.2 = 0 ∧ pairTag p = SET_TO_ZERO) ∨
    (p.1 ≠ p.2 ∧ p.2 ≠ 0 ∧ (diffOf p = p.2.toInt64 ∨ fitsI32 (diffOf p) = false) ∧
      pairTag p = SET_TO_TARGET_VALUE) ∨
    (p.1 ≠ p.2 ∧ p.2 ≠ 0 ∧ diffOf p ≠ p.2.toInt64 ∧ fitsI32 (diffOf p) = true ∧
      pairTag p = SET_TO_DIFF) := by
  unfold pairTag
  by_cases hp : p.1 = p.2
  · exact Or.inl ⟨hp, if_pos hp⟩
  · rw [if_neg hp]
    by_cases hzero : p.2 = 0
    · exact Or.inr (Or.inl ⟨hp, hzero, if_pos hzero⟩)
    · rw [if_neg hzero]
      by_cases hval : diffOf p = p.2.toInt64
      · exact Or.inr (Or.inr (Or.inl ⟨hp, hzero, Or.inl hval, if_pos hval⟩))
      · rw [if_neg hval]
        cases hfit : fitsI32 (diffOf p)
        · exact Or.inr (Or.inr (Or.inl ⟨hp, hzero, Or.inr rfl, rfl⟩))
        · exact Or.inr (Or.inr (Or.inr ⟨hp, hzero, hval, rfl, rfl⟩))

def pairVarint (mode : Int64) (p : UInt64 × UInt64) : List UInt8 :=
  if pairTag p = SET_TO_DIFF then writeVarint (zigzagEncode (diffOf p - mode)) else []

def pairValues (p : UInt64 × UInt64) : List UInt64 :=
  if pairTag p = SET_TO_TARGET_VALUE then [p.2] else []

/-- The change recorded for an entry that differs, at index `i`. -/
def changeOf (i : Nat) (p : UInt64 × UInt64) : Change := ⟨i, diffOf p, p.2⟩

/-- In a build with overflow checks, the difference of two differing balances is an `i64`. -/
def DiffsFit (b : Build) (pairs : List (UInt64 × UInt64)) : Prop :=
  b.overflowChecks = true → ∀ p ∈ pairs, p.1 ≠ p.2 → InI64 (p.2.toInt64.toInt - p.1.toInt64.toInt)

/-! ## Words -/

theorem toInt_sub_of_inI64 {x y : Int64} (h : InI64 (x.toInt - y.toInt)) :
    (x - y).toInt = x.toInt - y.toInt := by
  obtain ⟨hlo, hhi⟩ := h
  rw [Int64.toInt_sub]
  exact Int.bmod_eq_of_le (by omega) (by omega)

theorem subI64_of_inI64 (b : Build) {x y : Int64}
    (h : b.overflowChecks = true → InI64 (x.toInt - y.toInt)) : b.subI64 x y = some (x - y) :=
  b.arith_of_fits fun hc => decide_eq_true (h hc)

theorem addI64_of_inI64 (b : Build) {x y : Int64}
    (h : b.overflowChecks = true → InI64 (x.toInt + y.toInt)) : b.addI64 x y = some (x + y) :=
  b.arith_of_fits fun hc => decide_eq_true (h hc)

theorem fitsI32_iff {d : Int64} : fitsI32 d = true ↔ -2 ^ 31 ≤ d.toInt ∧ d.toInt < 2 ^ 31 :=
  decide_eq_true_iff

/-- Two `i32`s are never too far apart for an `i64`. -/
theorem inI64_sub_of_fitsI32 {x y : Int64} (hx : fitsI32 x = true) (hy : fitsI32 y = true) :
    InI64 (x.toInt - y.toInt) := by
  rw [fitsI32_iff] at hx hy
  unfold InI64
  omega

/-- Two `i32`s differ by a number of 33 bits, exactly. -/
theorem corrected_range {diff mode : Int64} (hdiff : fitsI32 diff = true)
    (hmode : fitsI32 mode = true) : (diff - mode).toInt = diff.toInt - mode.toInt ∧
      -2 ^ 32 < (diff - mode).toInt ∧ (diff - mode).toInt < 2 ^ 32 := by
  have hexact := toInt_sub_of_inI64 (inI64_sub_of_fitsI32 hdiff hmode)
  rw [fitsI32_iff] at hdiff hmode
  refine ⟨hexact, ?_, ?_⟩ <;> omega

theorem inI64_toInt (x : Int64) : InI64 x.toInt := ⟨x.le_toInt, x.toInt_lt⟩

theorem diffsFit_of_lt {b : Build} {pairs : List (UInt64 × UInt64)}
    (h : b.overflowChecks = true → ∀ p ∈ pairs, p.1.toNat < 2 ^ 63 ∧ p.2.toNat < 2 ^ 63) :
    DiffsFit b pairs := by
  intro hc p hp _
  obtain ⟨h₁, h₂⟩ := h hc p hp
  have hint : ∀ x : UInt64, x.toNat < 2 ^ 63 → x.toInt64.toInt = x.toNat := by
    intro x hx
    have hlt : 2 * x.toBitVec.toNat < 2 ^ 64 := by
      have : x.toBitVec.toNat = x.toNat := rfl
      omega
    exact BitVec.toInt_eq_toNat_of_lt hlt
  rw [hint _ h₁, hint _ h₂]
  unfold InI64
  omega

/-! ## Encoder -/

/-- The changes of the pairs from index `i` on. -/
def changesFrom : Nat → List (UInt64 × UInt64) → List Change
  | _, [] => []
  | i, p :: pairs =>
    if p.1 ≠ p.2 then changeOf i p :: changesFrom (i + 1) pairs else changesFrom (i + 1) pairs

theorem collectChanges_eq (b : Build) : ∀ (pairs : List (UInt64 × UInt64)) (i : Nat),
    DiffsFit b pairs → collectChanges b i pairs = some (changesFrom i pairs) := by
  intro pairs
  induction pairs with
  | nil =>
    intro _ _
    rfl
  | cons p pairs ih =>
    intro i h
    obtain ⟨v1, v2⟩ := p
    have hrest : DiffsFit b pairs := fun hc p hp => h hc p (List.mem_cons_of_mem _ hp)
    have ih := ih (i + 1) hrest
    by_cases hv : v1 ≠ v2
    · have hsub : b.subI64 v2.toInt64 v1.toInt64 = some (v2.toInt64 - v1.toInt64) :=
        subI64_of_inI64 b fun hc => h hc (v1, v2) List.mem_cons_self hv
      simp only [collectChanges, changesFrom, if_pos hv, hsub, ih, Option.bind_eq_bind,
        Option.bind_some]
      rfl
    · simp only [collectChanges, changesFrom, if_neg hv, ih]

theorem set_first {v : BitTagVec} {pre suf : List UInt8} (hwf : v.WF)
    (htags : v.tags = pre ++ SET_NO_CHANGE :: suf) {tag : UInt8} (htag : tag &&& 0b11 = tag) :
    ∃ v', v.set pre.length tag = some v' ∧ v'.WF ∧ v'.len = v.len ∧
      v'.tags = pre ++ tag :: suf := by
  have hlen := BitTagVec.length_tags hwf
  have hidx : pre.length < v.len := by
    rw [← hlen, htags, List.length_append, List.length_cons]
    omega
  have h0 : v.get pre.length = some SET_NO_CHANGE := by
    rw [← BitTagVec.getElem?_tags, htags]
    simp
  obtain ⟨v', hv', -⟩ := BitTagVec.set_spec hwf hidx tag
  obtain ⟨hwf', hlen', htags'⟩ := BitTagVec.tags_set hwf hidx htag h0 hv'
  refine ⟨v', hv', hwf', hlen', ?_⟩
  rw [htags', htags]
  simp

/-- **One change**: its tag, its varint and its value are recorded. -/
theorem encodeChange_pair (b : Build) {mode : Int64} (hmode : fitsI32 mode = true)
    {acc : Encoded} {pre suf : List UInt8} {p : UInt64 × UInt64} (hp : p.1 ≠ p.2)
    (hwf : acc.tags.WF) (htags : acc.tags.tags = pre ++ SET_NO_CHANGE :: suf) :
    ∃ tags, encodeChange b mode acc (changeOf pre.length p) =
        some ⟨tags, acc.varintPayload ++ pairVarint mode p, acc.targetValues ++ pairValues p⟩ ∧
      tags.WF ∧ tags.len = acc.tags.len ∧ tags.tags = pre ++ pairTag p :: suf := by
  have hset : ∀ tag : UInt8, tag &&& 0b11 = tag → ∃ tags, acc.tags.set pre.length tag = some tags ∧
      tags.WF ∧ tags.len = acc.tags.len ∧ tags.tags = pre ++ tag :: suf := fun tag htag =>
    set_first hwf htags htag
  unfold encodeChange changeOf pairVarint pairValues
  rcases pairTag_cases p with ⟨heq, -⟩ | ⟨-, hzero, htag⟩ | ⟨-, hzero, hval, htag⟩ |
    ⟨-, hzero, hval, hfit, htag⟩
  · exact absurd heq hp
  · obtain ⟨tags, hs, hrest⟩ := hset SET_TO_ZERO (by decide)
    refine ⟨tags, ?_, by rw [htag]; exact hrest⟩
    simp only [if_pos hzero, hs, Option.bind_eq_bind, Option.bind_some, htag]
    simp [SET_TO_ZERO, SET_TO_DIFF, SET_TO_TARGET_VALUE]
  · obtain ⟨tags, hs, hrest⟩ := hset SET_TO_TARGET_VALUE (by decide)
    refine ⟨tags, ?_, by rw [htag]; exact hrest⟩
    simp only [if_neg hzero, hs, Option.bind_eq_bind, Option.bind_some, htag]
    rcases hval with hval | hval <;> simp [hval, SET_TO_DIFF, SET_TO_TARGET_VALUE]
  · obtain ⟨tags, hs, hrest⟩ := hset SET_TO_DIFF (by decide)
    have hsub : b.subI64 (diffOf p) mode = some (diffOf p - mode) :=
      subI64_of_inI64 b fun _ => inI64_sub_of_fitsI32 hfit hmode
    refine ⟨tags, ?_, by rw [htag]; exact hrest⟩
    simp only [if_neg hzero, if_neg hval, if_pos hfit, hs, hsub, Option.bind_eq_bind,
      Option.bind_some, htag]
    simp [SET_TO_DIFF, SET_TO_TARGET_VALUE]

theorem pair_of_eq {p : UInt64 × UInt64} (hp : p.1 = p.2) (mode : Int64) :
    pairTag p = SET_NO_CHANGE ∧ pairVarint mode p = [] ∧ pairValues p = [] := by
  have htag : pairTag p = SET_NO_CHANGE := by rw [pairTag, if_pos hp]
  rw [pairVarint, pairValues, htag]
  exact ⟨rfl, rfl, rfl⟩

/-- **The encoder's loop**: with the first `pre.length` tags done, the rest become the pairs'. -/
theorem encode_pairs (b : Build) {mode : Int64} (hmode : fitsI32 mode = true) :
    ∀ (pairs : List (UInt64 × UInt64)) (pre : List UInt8) (acc : Encoded), acc.tags.WF →
    acc.tags.tags = pre ++ List.replicate pairs.length SET_NO_CHANGE →
    ∃ tags, (changesFrom pre.length pairs).foldlM (encodeChange b mode) acc =
        some ⟨tags, acc.varintPayload ++ pairs.flatMap (pairVarint mode),
          acc.targetValues ++ pairs.flatMap pairValues⟩ ∧
      tags.WF ∧ tags.len = acc.tags.len ∧ tags.tags = pre ++ pairs.map pairTag := by
  intro pairs
  induction pairs with
  | nil =>
    intro pre acc hwf htags
    exact ⟨acc.tags, by simp [changesFrom], hwf, rfl, htags⟩
  | cons p pairs ih =>
    intro pre acc hwf htags
    rw [List.length_cons, List.replicate_succ] at htags
    by_cases hp : p.1 ≠ p.2
    · obtain ⟨tags, hstep, hwf', hlen', htags'⟩ := encodeChange_pair b hmode hp hwf htags
      obtain ⟨tags₂, hrun, hwf₂, hlen₂, htags₂⟩ := ih (pre ++ [pairTag p])
        ⟨tags, acc.varintPayload ++ pairVarint mode p, acc.targetValues ++ pairValues p⟩ hwf'
        (by rw [htags']; simp)
      refine ⟨tags₂, ?_, hwf₂, hlen₂.trans hlen', by rw [htags₂]; simp⟩
      rw [List.length_append, List.length_singleton] at hrun
      simp only [changesFrom, if_pos hp, List.foldlM_cons, hstep, Option.bind_eq_bind,
        Option.bind_some, hrun, List.flatMap_cons, List.append_assoc]
    · have heq : p.1 = p.2 := not_not.mp hp
      obtain ⟨htag, hvar, hval⟩ := pair_of_eq heq mode
      obtain ⟨tags₂, hrun, hwf₂, hlen₂, htags₂⟩ := ih (pre ++ [pairTag p])
        acc hwf (by rw [htags, htag]; simp)
      refine ⟨tags₂, ?_, hwf₂, hlen₂, by rw [htags₂]; simp⟩
      rw [List.length_append, List.length_singleton] at hrun
      simp only [changesFrom, if_neg hp, hrun, List.flatMap_cons, hvar, hval, List.nil_append]

/-- **What the encoder emits.** -/
theorem diffBalancesIter_spec (b : Build) (order : HashOrder) {base target : List UInt64}
    (hfit : DiffsFit b (base.zip target)) :
    ∃ d, diffBalancesIter b order base target = some d ∧ fitsI32 d.mode = true ∧ d.tags.WF ∧
      d.tags.len = min base.length target.length ∧
      d.tags.tags = (base.zip target).map pairTag ∧
      d.varintPayload = (base.zip target).flatMap (pairVarint d.mode) ∧
      d.targetValues = (base.zip target).flatMap pairValues ∧
      d.appendedBalances = target.drop (min base.length target.length) := by
  have hmode := findMode_fits order (changesFrom 0 (base.zip target))
  have hnew : (BitTagVec.new (min base.length target.length)).tags =
      [] ++ List.replicate (base.zip target).length SET_NO_CHANGE := by
    rw [BitTagVec.tags_new, List.length_zip, List.nil_append]
  obtain ⟨tags, hrun, hwf, hlen, htags⟩ := encode_pairs b hmode (base.zip target) []
    ⟨BitTagVec.new (min base.length target.length), [], []⟩ (BitTagVec.new_WF _) hnew
  rw [List.length_nil] at hrun
  refine ⟨⟨tags, findMode order (changesFrom 0 (base.zip target)),
    (base.zip target).flatMap (pairVarint (findMode order (changesFrom 0 (base.zip target)))),
    (base.zip target).flatMap pairValues, target.drop (min base.length target.length)⟩,
    ?_, hmode, hwf, hlen, htags, rfl, rfl, rfl⟩
  simp only [diffBalancesIter, collectChanges_eq b _ 0 hfit, encode, hrun, Option.bind_eq_bind,
    Option.bind_some, List.nil_append]

theorem collectChanges_isSome (b : Build) : ∀ (pairs : List (UInt64 × UInt64)) (i : Nat),
    (∃ changes, collectChanges b i pairs = some changes) ↔ DiffsFit b pairs := by
  intro pairs
  induction pairs with
  | nil => exact fun i => ⟨fun _ _ p hp => (by cases hp), fun _ => ⟨[], rfl⟩⟩
  | cons p pairs ih =>
    intro i
    have hcons : DiffsFit b (p :: pairs) ↔ (p.1 ≠ p.2 → b.overflowChecks = true →
        InI64 (p.2.toInt64.toInt - p.1.toInt64.toInt)) ∧ DiffsFit b pairs := by
      simp only [DiffsFit, List.forall_mem_cons]
      exact ⟨fun h => ⟨fun hne hc => (h hc).1 hne, fun hc => (h hc).2⟩,
        fun h hc => ⟨fun hne => h.1 hne hc, h.2 hc⟩⟩
    rw [hcons]
    by_cases hne : p.1 ≠ p.2
    · have hsub : (∃ diff, b.subI64 p.2.toInt64 p.1.toInt64 = some diff) ↔
          (b.overflowChecks = true → InI64 (p.2.toInt64.toInt - p.1.toInt64.toInt)) := by
        simp only [Build.subI64, Build.arith_eq_some, decide_eq_true_iff]
        exact ⟨fun ⟨_, h, _⟩ => h, fun h => ⟨_, h, rfl⟩⟩
      simp only [collectChanges, if_pos hne, Option.bind_eq_bind, Option.bind_eq_some_iff,
        Option.some.injEq]
      constructor
      · rintro ⟨_, diff, hdiff, changes, hrest, -⟩
        exact ⟨fun _ => hsub.1 ⟨diff, hdiff⟩, (ih (i + 1)).1 ⟨changes, hrest⟩⟩
      · rintro ⟨hfit, hrest⟩
        obtain ⟨diff, hdiff⟩ := hsub.2 (hfit hne)
        obtain ⟨changes, hchanges⟩ := (ih (i + 1)).2 hrest
        exact ⟨_, diff, hdiff, changes, hchanges, rfl⟩
    · rw [collectChanges, if_neg hne, ih (i + 1)]
      exact ⟨fun h => ⟨fun h' => absurd h' hne, h⟩, And.right⟩

/-- The mode never overflows, so only the differences count. -/
theorem diffBalancesIter_isSome {b : Build} {order : HashOrder} {base target : List UInt64} :
    (∃ d, diffBalancesIter b order base target = some d) ↔ DiffsFit b (base.zip target) := by
  rw [← collectChanges_isSome b (base.zip target) 0]
  constructor
  · rintro ⟨d, hd⟩
    simp only [diffBalancesIter, Option.bind_eq_bind, Option.bind_eq_some_iff] at hd
    obtain ⟨changes, hchanges, -⟩ := hd
    exact ⟨changes, hchanges⟩
  · intro h
    obtain ⟨d, hd, -⟩ := diffBalancesIter_spec b order ((collectChanges_isSome b _ 0).1 h)
    exact ⟨d, hd⟩

/-- There is a tag for every common balance. -/
theorem diffBalancesIter_len {b : Build} {order : HashOrder} {base target : List UInt64}
    {d : BalancesDiff} (h : diffBalancesIter b order base target = some d) :
    d.tags.len = min base.length target.length := by
  obtain ⟨d', hd', -, -, hlen, -⟩ :=
    diffBalancesIter_spec b order (diffBalancesIter_isSome.1 ⟨d, h⟩)
  obtain rfl := Option.some.inj (h.symm.trans hd')
  exact hlen

/-! ## Applier -/

/-- **One tag**: the base entry at the cursor becomes the target's, and exactly the pair's varint
and value are consumed. -/
theorem applyTag_pair (b : Build) {d : BalancesDiff} (hmode : fitsI32 d.mode = true)
    {p : UInt64 × UInt64} (hfit : DiffsFit b [p]) (pre suf values : List UInt64)
    {done rest : List UInt8} (h : d.varintPayload = done ++ (pairVarint d.mode p ++ rest)) :
    applyTag b d ⟨pre ++ p.1 :: suf, pairValues p ++ values, done.length, pre.length⟩ (pairTag p) =
      .ok ⟨pre ++ p.2 :: suf, values, (done ++ pairVarint d.mode p).length, pre.length + 1⟩ := by
  have hwrite : ∀ v : UInt64, writeAt (pre ++ p.1 :: suf) (pre.length, v) =
      .ok (pre ++ v :: suf) := fun v => by
    rw [writeAt, if_pos (by simp)]
    simp
  rcases pairTag_cases p with ⟨heq, htag⟩ | ⟨-, hzero, htag⟩ | ⟨-, -, -, htag⟩ |
    ⟨hp, -, -, hfit32, htag⟩
  · obtain ⟨-, hvar, hval⟩ := pair_of_eq heq d.mode
    rw [htag, hvar, hval, heq, List.append_nil, List.nil_append]
    rfl
  · have hvar : pairVarint d.mode p = [] := by rw [pairVarint, htag]; rfl
    have hval : pairValues p = [] := by rw [pairValues, htag]; rfl
    rw [htag, hvar, hval, hzero, List.append_nil, List.nil_append]
    simp only [applyTag, SET_TO_ZERO, SET_NO_CHANGE, hwrite]
    rfl
  · have hvar : pairVarint d.mode p = [] := by rw [pairVarint, htag]; rfl
    have hval : pairValues p = [p.2] := by rw [pairValues, htag]; rfl
    rw [htag, hvar, hval, List.append_nil, List.singleton_append]
    simp only [applyTag, SET_TO_ZERO, SET_NO_CHANGE, SET_TO_TARGET_VALUE, hwrite]
    rfl
  · have hvar : pairVarint d.mode p = writeVarint (zigzagEncode (diffOf p - d.mode)) := by
      rw [pairVarint, htag]
      rfl
    have hval : pairValues p = [] := by rw [pairValues, htag]; rfl
    rw [hvar] at h
    -- the corrected difference, the mode and the base value add up to the target
    have hadd : b.addI64 (diffOf p - d.mode) d.mode = some (diffOf p) := by
      obtain ⟨hsub, -⟩ := corrected_range hfit32 hmode
      have hin : InI64 ((diffOf p - d.mode).toInt + d.mode.toInt) := by
        rw [hsub, Int.sub_add_cancel]
        exact inI64_toInt _
      rw [addI64_of_inI64 b fun _ => hin, Int64.sub_add_cancel]
    have hsum : b.addI64 p.1.toInt64 (diffOf p) = some p.2.toInt64 := by
      have hin : b.overflowChecks = true → InI64 (p.1.toInt64.toInt + (diffOf p).toInt) := by
        intro hc
        rw [diffOf, toInt_sub_of_inI64 (hfit hc p List.mem_cons_self hp), Int.add_comm,
          Int.sub_add_cancel]
        exact inI64_toInt _
      rw [addI64_of_inI64 b hin, diffOf, Int64.add_comm, Int64.sub_add_cancel]
    have hget : (pre ++ p.1 :: suf)[pre.length]? = some p.1 := by simp
    rw [htag, hvar, hval, List.nil_append]
    simp only [applyTag, readVarint_written b h, orPanic_some, ok_bind, zigzagDecode_zigzagEncode,
      hadd, hget, hsum, hwrite]
    rfl

/-- **The applier's loop**: with `pre` done, the base entries become the target's, both streams
are consumed to their ends, and what the base has beyond the target stays. -/
theorem foldlM_applyTag_pairs (b : Build) {d : BalancesDiff} (hmode : fitsI32 d.mode = true)
    (suf : List UInt64) : ∀ (pairs : List (UInt64 × UInt64)) (pre : List UInt64)
    (done : List UInt8), DiffsFit b pairs →
    d.varintPayload = done ++ pairs.flatMap (pairVarint d.mode) →
    (pairs.map pairTag).foldlM (applyTag b d)
        ⟨pre ++ (pairs.map Prod.fst ++ suf), pairs.flatMap pairValues, done.length, pre.length⟩ =
      .ok ⟨pre ++ (pairs.map Prod.snd ++ suf), [], d.varintPayload.length,
        pre.length + pairs.length⟩ := by
  intro pairs
  induction pairs with
  | nil =>
    intro pre done _ h
    rw [h]
    simp [pure, Except.pure]
  | cons p pairs ih =>
    intro pre done hfit h
    rw [List.flatMap_cons] at h
    have hone : DiffsFit b [p] := fun hc q hq => by
      obtain rfl := List.mem_singleton.mp hq
      exact hfit hc q List.mem_cons_self
    have hrest : DiffsFit b pairs := fun hc q hq => hfit hc q (List.mem_cons_of_mem _ hq)
    have hstep := applyTag_pair b hmode hone pre (pairs.map Prod.fst ++ suf)
      (pairs.flatMap pairValues) h
    have ih := ih (pre ++ [p.2]) (done ++ pairVarint d.mode p)
      hrest (by rw [h, List.append_assoc])
    simp only [List.map_cons, List.flatMap_cons, List.cons_append, List.foldlM_cons, hstep, ok_bind]
    have hlen : (pre ++ [p.2]).length = pre.length + 1 := by simp
    rw [hlen, List.append_assoc, List.append_assoc, List.singleton_append, List.singleton_append] at ih
    rw [ih, List.length_cons]
    congr 2
    omega

/-- **The run of the byte loop on an encoder's delta**: every read stays inside its stream, and
both streams are at their ends when the loop is done. -/
theorem applyTagBytes_diffBalancesIter (b : Build) (order : HashOrder) {base target : List UInt64}
    (hfit : DiffsFit b (base.zip target)) :
    ∃ d, diffBalancesIter b order base target = some d ∧
      d.tags.len = min base.length target.length ∧
      d.appendedBalances = target.drop (min base.length target.length) ∧
      applyTagBytes b d d.tags.data ⟨base, d.targetValues, 0, 0⟩ =
        .ok ⟨(base.zip target).map Prod.snd ++ base.drop target.length, [],
          d.varintPayload.length, d.tags.len⟩ := by
  obtain ⟨d, hd, hmode, -, hlen, htags, hvar, hval, happ⟩ := diffBalancesIter_spec b order hfit
  refine ⟨d, hd, hlen, happ, ?_⟩
  have hrun := foldlM_applyTag_pairs b hmode (base.drop target.length) (base.zip target) [] [] hfit
    (by rw [List.nil_append]; exact hvar)
  rw [List.nil_append, map_fst_zip_append_drop, ← hval, ← htags] at hrun
  simp only [List.length_nil] at hrun
  have hbytes := applyTagBytes_eq (b := b) (d := d) d.tags.data ⟨base, d.targetValues, 0, 0⟩
    (Nat.zero_le _)
  rw [hbytes]
  refine hrun.trans ?_
  rw [hlen, List.length_zip, Nat.zero_add, List.nil_append]

/-- **What the applier makes of an encoder's delta**: the base overlaid with the target. -/
theorem applyBalancesIter_overlay (b : Build) (order : HashOrder) {base target : List UInt64}
    (hfit : DiffsFit b (base.zip target))
    (hassert : b.debugAssertions = true → base.length ≤ target.length) :
    ∃ d, diffBalancesIter b order base target = some d ∧
      applyBalancesIter b base d = .ok (overlay base target) := by
  obtain ⟨d, hd, hlen, happ, hrun⟩ := applyTagBytes_diffBalancesIter b order hfit
  refine ⟨d, hd, ?_⟩
  have hpass : ¬(b.debugAssertions && base.length != d.tags.len) = true := by
    rw [hlen, Bool.and_eq_true, bne_iff_ne]
    rintro ⟨hc, hne⟩
    have := hassert hc
    omega
  rw [applyBalancesIter, if_neg hpass, hrun, ok_bind, happ, overlay]

/-- **Balances come back**: in every build and for every mode the hash map may choose, a target
at least as long as the base is reconstructed, as long as no checked difference overflows. -/
theorem applyBalancesIter_diffBalancesIter (b : Build) (order : HashOrder)
    {base target : List UInt64} (hle : base.length ≤ target.length)
    (hfit : DiffsFit b (base.zip target)) :
    ∃ d, diffBalancesIter b order base target = some d ∧ applyBalancesIter b base d = .ok target := by
  have h := applyBalancesIter_overlay b order hfit fun _ => hle
  rw [overlay_of_le hle] at h
  exact h

/-- **Balances, exactly**: in a release build two lists of balances have a delta; as long as the
common ones can be counted in an archive, it gives the target iff the base is not the longer list,
and applying it reads the varints and the values to their ends and no further. -/
theorem balances_release_iff (r : Rkyv) (order : HashOrder) {base target : List UInt64}
    (hcommon : min base.length target.length < 2 ^ 32) :
    ∃ d, diffBalancesIter Build.release order base target = some d ∧
      (applyBalancesIter Build.release base (d.archive r) = .ok target ↔
        base.length ≤ target.length) ∧
      ∃ out, applyTagBytes Build.release (d.archive r) d.tags.data ⟨base, d.targetValues, 0, 0⟩ =
        .ok ⟨out, [], d.varintPayload.length, d.tags.len⟩ := by
  have hfit : DiffsFit Build.release (base.zip target) := fun hc => by cases hc
  obtain ⟨d, hd, hout⟩ := applyBalancesIter_overlay Build.release order hfit fun hc => by cases hc
  obtain ⟨d', hd', -, -, hrun⟩ := applyTagBytes_diffBalancesIter Build.release order hfit
  obtain rfl : d = d' := Option.some.inj (hd.symm.trans hd')
  have harchive : d.archive r = d :=
    BalancesDiff.archive_of_lt r (by rw [diffBalancesIter_len hd]; exact hcommon)
  rw [← harchive] at hout hrun
  refine ⟨d, hd, ?_, _, by rw [harchive] at hrun ⊢; exact hrun⟩
  rw [hout, Except.ok.injEq]
  exact overlay_eq_iff

/-- A difference that wraps, and a balance that is appended. -/
theorem balances_release_wrapped : ∃ d,
    diffBalancesIter Build.release ⟨id, fun _ => .rfl⟩ [0xffffffffffffffff, 7] [2, 7, 9] = some d ∧
      applyBalancesIter Build.release [0xffffffffffffffff, 7] (d.archive .truncating) =
        .ok [2, 7, 9] := by
  obtain ⟨d, hd, hiff, -⟩ := balances_release_iff .truncating ⟨id, fun _ => .rfl⟩
    (show min [0xffffffffffffffff, (7 : UInt64)].length [2, 7, (9 : UInt64)].length < 2 ^ 32 by simp)
  exact ⟨d, hd, hiff.2 (by simp)⟩

/-- `2^32` balances are cleared: their tags, which come without payload, are archived as none, and
no balance is changed. -/
theorem balances_tags_truncated : ¬∀ (order : HashOrder) (base target : List UInt64),
    ∃ d, diffBalancesIter Build.release order base target = some d ∧
      (applyBalancesIter Build.release base (d.archive .truncating) = .ok target ↔
        base.length ≤ target.length) := by
  intro h
  have hlen : ∀ v : UInt64, (List.replicate (2 ^ 32) v).length = 2 ^ 32 :=
    fun v => List.length_replicate
  obtain ⟨d, hd, hiff⟩ := h ⟨id, fun _ => .rfl⟩ (List.replicate (2 ^ 32) 1)
    (List.replicate (2 ^ 32) 0)
  have hfit : DiffsFit Build.release
      ((List.replicate (2 ^ 32) 1).zip (List.replicate (2 ^ 32) 0)) := fun hc => by cases hc
  obtain ⟨d', hd', -, -, hcount, -, -, -, happ⟩ :=
    diffBalancesIter_spec Build.release ⟨id, fun _ => .rfl⟩ hfit
  obtain rfl := Option.some.inj (hd.symm.trans hd')
  rw [hlen, hlen, Nat.min_self] at hcount happ
  have htags : (d.archive .truncating).tags.tags = [] := by
    show (d.tags.data.flatMap unpack).take (d.tags.len % 2 ^ 32) = []
    rw [hcount, Nat.mod_self, List.take_zero]
  have hnone : d.appendedBalances = [] := by
    rw [happ, List.drop_eq_nil_of_le (Nat.le_of_eq (hlen 0))]
  have hrun := hiff.2 (Nat.le_of_eq ((hlen 1).trans (hlen 0).symm))
  rw [applyBalancesIter_eq, htags] at hrun
  -- nothing is left of the loop, so the base would be the target
  have heq : List.replicate (2 ^ 32) (1 : UInt64) ++ d.appendedBalances =
      List.replicate (2 ^ 32) 0 := Except.ok.inj hrun
  rw [hnone, List.append_nil] at heq
  have hmem : (1 : UInt64) ∈ List.replicate (2 ^ 32) (0 : UInt64) := by
    rw [← heq]
    exact List.mem_replicate.2 ⟨by omega, rfl⟩
  exact absurd (List.eq_of_mem_replicate hmem) (by decide)

/-! ## Ranges -/

theorem fitsI32_of_pairTag {p : UInt64 × UInt64} (htag : pairTag p = SET_TO_DIFF) :
    fitsI32 (diffOf p) = true := by
  rcases pairTag_cases p with ⟨-, h⟩ | ⟨-, -, h⟩ | ⟨-, -, -, h⟩ | ⟨-, -, -, hfit, -⟩
  · exact absurd (h.symm.trans htag) (by decide)
  · exact absurd (h.symm.trans htag) (by decide)
  · exact absurd (h.symm.trans htag) (by decide)
  · exact hfit

theorem length_flatMap_pairVarint_le {mode : Int64} (hmode : fitsI32 mode = true) :
    ∀ pairs : List (UInt64 × UInt64),
    (pairs.flatMap (pairVarint mode)).length ≤ 5 * (pairs.map pairTag).count SET_TO_DIFF := by
  intro pairs
  induction pairs with
  | nil => rfl
  | cons p pairs ih =>
    rw [List.flatMap_cons, List.length_append, List.map_cons]
    by_cases htag : pairTag p = SET_TO_DIFF
    · obtain ⟨-, hlo, hhi⟩ := corrected_range (fitsI32_of_pairTag htag) hmode
      have hfive := length_writeVarint_zigzagEncode_le hlo hhi
      rw [pairVarint, if_pos htag, htag, List.count_cons_self]
      omega
    · rw [pairVarint, if_neg htag, List.count_cons_of_ne htag, List.length_nil, Nat.zero_add]
      exact ih

/-- **Balance arithmetic stays in range**: below `2^63`, and for whichever most frequent difference
is the mode, neither side overflows in any build, so not in one that checks for it; corrected by
the mode, every difference is exact and has 33 bits, and takes at most five bytes of payload. -/
theorem balances_in_range (b : Build) (order : HashOrder) {base target : List UInt64}
    (hbase : ∀ v ∈ base, v.toNat < 2 ^ 63) (htarget : ∀ v ∈ target, v.toNat < 2 ^ 63)
    (hle : base.length ≤ target.length) :
    ∃ changes d, collectChanges b 0 (base.zip target) = some changes ∧
      diffBalancesIter b order base target = some d ∧
      applyBalancesIter b base d = .ok target ∧
      (∀ c ∈ changes, fitsI32 c.diff = true → ∃ corrected, b.subI64 c.diff d.mode = some corrected ∧
        corrected.toInt = c.diff.toInt - d.mode.toInt ∧
        -2 ^ 32 < corrected.toInt ∧ corrected.toInt < 2 ^ 32) ∧
      d.varintPayload.length ≤ 5 * d.tags.tags.count SET_TO_DIFF := by
  have hfit : DiffsFit b (base.zip target) := diffsFit_of_lt fun _ p hp =>
    ⟨hbase _ (List.of_mem_zip hp).1, htarget _ (List.of_mem_zip hp).2⟩
  obtain ⟨d, hd, hmode, -, -, htags, hpayload, -, -⟩ := diffBalancesIter_spec b order hfit
  obtain ⟨d', hd', happly⟩ := applyBalancesIter_diffBalancesIter b order hle hfit
  obtain rfl : d = d' := Option.some.inj (hd.symm.trans hd')
  refine ⟨_, d, collectChanges_eq b _ 0 hfit, hd, happly, fun c _ hc => ?_, ?_⟩
  · exact ⟨_, subI64_of_inI64 b fun _ => inI64_sub_of_fitsI32 hc hmode, corrected_range hc hmode⟩
  · rw [hpayload, htags]
    exact length_flatMap_pairVarint_le hmode _

/-- Two differences of `-2^31` make the mode; the third one is `2^31 - 1`. -/
theorem balances_in_range_extremes : ∃ d,
    diffBalancesIter Build.dev ⟨id, fun _ => .rfl⟩ [0x80000001, 0x80000001, 1] [1, 1, 0x80000000] =
      some d ∧
    applyBalancesIter Build.dev [0x80000001, 0x80000001, 1] d = .ok [1, 1, 0x80000000] ∧
    d.varintPayload = [0, 0, 0xFE, 0xFF, 0xFF, 0xFF, 0x1F] ∧ d.varintPayload.length ≤ 15 := by
  have hbase : ∀ v ∈ ([0x80000001, 0x80000001, 1] : List UInt64), v.toNat < 2 ^ 63 := by simp
  have htarget : ∀ v ∈ ([1, 1, 0x80000000] : List UInt64), v.toNat < 2 ^ 63 := by simp
  obtain ⟨_, d, -, hd, happly, -, hlen⟩ :=
    balances_in_range Build.dev ⟨id, fun _ => .rfl⟩ hbase htarget (by decide)
  have hrun : diffBalancesIter Build.dev ⟨id, fun _ => .rfl⟩ [0x80000001, 0x80000001, 1]
      [1, 1, 0x80000000] =
        some ⟨⟨[0b00111111], 3⟩, -0x80000000, [0, 0, 0xFE, 0xFF, 0xFF, 0xFF, 0x1F], [], []⟩ := by
    rfl
  obtain rfl := Option.some.inj (hd.symm.trans hrun)
  exact ⟨_, hd, happly, rfl, hlen⟩

/-! ## Panics -/

/-- In a build with overflow checks: the varint has at most ten bytes and the difference it stands
for is an `i64` that moves the entry to an `i64`. -/
def DiffFits (b : Build) (mode : Int64) (entry : UInt64) (run : List UInt8) : Prop :=
  b.overflowChecks = true →
    run.length ≤ 10 ∧ InI64 ((zigzagDecode (varintValue run)).toInt + mode.toInt) ∧
      InI64 (entry.toInt64.toInt + (zigzagDecode (varintValue run) + mode).toInt)

/-- The entries behind the `SET_TO_DIFF` tags. -/
def diffEntries : List UInt8 → List UInt64 → List UInt64
  | tag :: tags, entry :: entries =>
    if tag = SET_TO_DIFF then entry :: diffEntries tags entries else diffEntries tags entries
  | _, _ => []

/-- Tags that can be applied to `entries`: none beyond the last entry asks for anything, there is
a value for every `SET_TO_TARGET_VALUE` and a varint for every `SET_TO_DIFF`, and each of those
fits its entry. -/
@[mk_iff]
structure TagsFit (b : Build) (mode : Int64) (tags : List UInt8) (entries values : List UInt64)
    (runs : List (List UInt8)) : Prop where
  beyond : ∀ tag ∈ tags.drop entries.length, tag = SET_NO_CHANGE
  enoughValues : tags.count SET_TO_TARGET_VALUE ≤ values.length
  enoughVarints : tags.count SET_TO_DIFF ≤ runs.length
  diffs : ∀ p ∈ (diffEntries tags entries).zip runs, DiffFits b mode p.1 p.2

theorem tag_cases {v : BitTagVec} {tag : UInt8} (h : tag ∈ v.tags) : tag = SET_NO_CHANGE ∨
    tag = SET_TO_ZERO ∨ tag = SET_TO_TARGET_VALUE ∨ tag = SET_TO_DIFF := by
  obtain ⟨byte, -, hbyte⟩ := List.mem_flatMap.mp (List.mem_of_mem_take h)
  have hand : ∀ x : UInt8, x &&& 0b11 = SET_NO_CHANGE ∨ x &&& 0b11 = SET_TO_ZERO ∨
      x &&& 0b11 = SET_TO_TARGET_VALUE ∨ x &&& 0b11 = SET_TO_DIFF := by
    intro x
    have hlt : (x &&& 0b11).toNat < 4 := by
      rw [UInt8.toNat_and]
      exact Nat.lt_of_le_of_lt Nat.and_le_right (by decide)
    simp only [← UInt8.toNat_inj]
    have hconst : SET_NO_CHANGE.toNat = 0 ∧ SET_TO_ZERO.toNat = 2 ∧
        SET_TO_TARGET_VALUE.toNat = 1 ∧ SET_TO_DIFF.toNat = 3 := by decide
    omega
  simp only [unpack, List.mem_cons, List.not_mem_nil, or_false] at hbyte
  rcases hbyte with rfl | rfl | rfl | rfl <;> exact hand _

theorem drop_set_succ {α : Type} (l : List α) (i : Nat) (v : α) :
    (l.set i v).drop (i + 1) = l.drop (i + 1) := by
  rw [List.drop_set_of_lt (Nat.lt_succ_self i)]

theorem lt_length_of_drop_eq_cons {α : Type} {l suf : List α} {i : Nat} {x : α}
    (h : l.drop i = x :: suf) : i < l.length ∧ l[i]? = some x ∧ l.drop (i + 1) = suf := by
  have hlt : i < l.length := by
    by_contra hge
    rw [List.drop_eq_nil_of_le (by omega)] at h
    cases h
  rw [List.drop_eq_getElem_cons hlt, List.cons.injEq] at h
  exact ⟨hlt, by rw [List.getElem?_eq_getElem hlt, h.1], h.2⟩

/-- A `SET_TO_DIFF` entry is rewritten iff the varint read fits it. -/
theorem applyTag_diff (b : Build) {d : BalancesDiff} {st : ApplyState} {entry : UInt64}
    {run : List UInt8} {entries : List UInt64} {rest : List (List UInt8)}
    (hentry : st.target.drop st.baseIdx = entry :: entries)
    (hrun : varints (d.varintPayload.drop st.payloadCursor) = run :: rest) :
    (DiffFits b d.mode entry run → ∃ v, applyTag b d st SET_TO_DIFF =
      .ok ⟨st.target.set st.baseIdx v, st.targetIter, st.payloadCursor + run.length,
        st.baseIdx + 1⟩) ∧
    (¬DiffFits b d.mode entry run → ∃ s, applyTag b d st SET_TO_DIFF = .error s) := by
  obtain ⟨hlt, hget, -⟩ := lt_length_of_drop_eq_cons hentry
  obtain ⟨hread, -⟩ := readVarint_of_cons b hrun
  have hunfold : applyTag b d st SET_TO_DIFF = (do
      let read ← orPanic st.target (readVarint b d.varintPayload st.payloadCursor)
      let diff ← orPanic st.target (b.addI64 (zigzagDecode read.1) d.mode)
      let val ← orPanic st.target st.target[st.baseIdx]?
      let sum ← orPanic st.target (b.addI64 val.toInt64 diff)
      let target ← writeAt st.target (st.baseIdx, sum.toUInt64)
      .ok { st with target, payloadCursor := read.2, baseIdx := st.baseIdx + 1 }) := rfl
  rw [hunfold]
  refine ⟨fun hfit => ?_, fun hfit => ?_⟩
  · rw [hread, if_pos fun hc => (hfit hc).1]
    simp only [orPanic_some, ok_bind, addI64_of_inI64 b fun hc => (hfit hc).2.1, hget,
      addI64_of_inI64 b fun hc => (hfit hc).2.2, writeAt, if_pos hlt]
    exact ⟨_, rfl⟩
  · -- the first of the three conditions to fail is where it panics
    have hchk : b.overflowChecks = true := by
      by_contra hc
      exact hfit fun h => absurd h hc
    have hpanic : ∀ x y : Int64, ¬InI64 (x.toInt + y.toInt) → b.addI64 x y = none := by
      intro x y h
      rw [Build.addI64, Build.arith, hchk, decide_eq_false h]
      rfl
    by_cases hlen : run.length ≤ 10
    · rw [hread, if_pos fun _ => hlen]
      by_cases hmode : InI64 ((zigzagDecode (varintValue run)).toInt + d.mode.toInt)
      · simp only [orPanic_some, ok_bind, addI64_of_inI64 b fun _ => hmode, hget]
        rw [hpanic _ _ fun h => hfit fun _ => ⟨hlen, hmode, h⟩]
        exact ⟨_, rfl⟩
      · simp only [orPanic_some, ok_bind]
        rw [hpanic _ _ hmode]
        exact ⟨_, rfl⟩
    · rw [hread, if_neg fun h => hlen (h hchk)]
      exact ⟨_, rfl⟩

/-- Past the last entry only unchanged tags are allowed, and they need nothing. -/
theorem tagsFit_nil_iff {b : Build} {mode : Int64} {tags : List UInt8} {values : List UInt64}
    {runs : List (List UInt8)} :
    TagsFit b mode tags [] values runs ↔ ∀ tag ∈ tags, tag = SET_NO_CHANGE := by
  refine ⟨fun h => h.beyond, fun h => ⟨h, ?_, ?_, ?_⟩⟩
  · rw [List.count_eq_zero.2 fun hmem => absurd (h _ hmem) (by decide)]
    exact Nat.zero_le _
  · rw [List.count_eq_zero.2 fun hmem => absurd (h _ hmem) (by decide)]
    exact Nat.zero_le _
  · cases tags <;> simp [diffEntries]

section

variable {b : Build} {mode : Int64} {tags : List UInt8} {entry value : UInt64}
  {entries values : List UInt64} {run : List UInt8} {runs : List (List UInt8)}

theorem tagsFit_noChange_cons : TagsFit b mode (SET_NO_CHANGE :: tags) (entry :: entries) values runs ↔
    TagsFit b mode tags entries values runs := by
  simp [tagsFit_iff, diffEntries, SET_NO_CHANGE, SET_TO_TARGET_VALUE, SET_TO_DIFF]

theorem tagsFit_zero_cons : TagsFit b mode (SET_TO_ZERO :: tags) (entry :: entries) values runs ↔
    TagsFit b mode tags entries values runs := by
  simp [tagsFit_iff, diffEntries, SET_TO_ZERO, SET_TO_TARGET_VALUE, SET_TO_DIFF]

theorem tagsFit_targetValue_nil :
    ¬TagsFit b mode (SET_TO_TARGET_VALUE :: tags) (entry :: entries) [] runs := fun h => by
  simpa using h.enoughValues

theorem tagsFit_targetValue_cons :
    TagsFit b mode (SET_TO_TARGET_VALUE :: tags) (entry :: entries) (value :: values) runs ↔
      TagsFit b mode tags entries values runs := by
  simp [tagsFit_iff, diffEntries, SET_TO_TARGET_VALUE, SET_TO_DIFF]

theorem tagsFit_diff_nil :
    ¬TagsFit b mode (SET_TO_DIFF :: tags) (entry :: entries) values [] := fun h => by
  simpa using h.enoughVarints

theorem tagsFit_diff_cons :
    TagsFit b mode (SET_TO_DIFF :: tags) (entry :: entries) values (run :: runs) ↔
      DiffFits b mode entry run ∧ TagsFit b mode tags entries values runs := by
  simp [tagsFit_iff, diffEntries, SET_TO_TARGET_VALUE, SET_TO_DIFF]
  tauto

end

theorem applyTag_beyond {b : Build} {d : BalancesDiff} {st st' : ApplyState} {tag : UInt8}
    (hend : st.target.drop st.baseIdx = []) (h : applyTag b d st tag = .ok st') :
    tag = SET_NO_CHANGE := by
  have hge : ¬st.baseIdx < st.target.length := by
    intro hlt
    rw [List.drop_eq_getElem_cons hlt] at hend
    cases hend
  have hwrite : ∀ v s, writeAt st.target (st.baseIdx, v) ≠ .ok s := fun v s hs => by
    rw [writeAt, if_neg hge] at hs
    cases hs
  unfold applyTag at h
  split at h
  · assumption
  · exfalso
    split at h
    · simp only [bind_eq_ok] at h
      obtain ⟨s, hs, -⟩ := h
      exact hwrite _ s hs
    · split at h
      · split at h
        · cases h
        · simp only [bind_eq_ok] at h
          obtain ⟨s, hs, -⟩ := h
          exact hwrite _ s hs
      · split at h
        · simp only [bind_eq_ok] at h
          obtain ⟨_, _, _, _, _, _, _, _, s, hs, -⟩ := h
          exact hwrite _ s hs
        · cases h

/-- **The exact condition of the applier's loop.** -/
theorem foldlM_applyTag_isOk (b : Build) (d : BalancesDiff) : ∀ (tags : List UInt8)
    (st : ApplyState), (∀ tag ∈ tags, tag = SET_NO_CHANGE ∨ tag = SET_TO_ZERO ∨
      tag = SET_TO_TARGET_VALUE ∨ tag = SET_TO_DIFF) →
    ((∃ st', tags.foldlM (applyTag b d) st = .ok st') ↔
      TagsFit b d.mode tags (st.target.drop st.baseIdx) st.targetIter
        (varints (d.varintPayload.drop st.payloadCursor))) := by
  intro tags
  induction tags with
  | nil =>
    intro st _
    refine ⟨fun _ => ⟨by simp, by simp, by simp, ?_⟩, fun _ => ⟨st, rfl⟩⟩
    cases st.target.drop st.baseIdx <;> simp [diffEntries]
  | cons tag tags ih =>
    intro st htags
    have ih := fun st => ih st fun t ht =>
      htags t (List.mem_cons_of_mem _ ht)
    rw [List.foldlM_cons]
    cases hentries : st.target.drop st.baseIdx with
    | nil =>
      rw [tagsFit_nil_iff, List.forall_mem_cons]
      have hnext : st.target.drop (st.baseIdx + 1) = [] := by
        rw [← List.drop_drop, hentries, List.drop_nil]
      by_cases htag : tag = SET_NO_CHANGE
      · have hstep : applyTag b d st tag = .ok { st with baseIdx := st.baseIdx + 1 } := by
          rw [htag]
          rfl
        rw [hstep, ok_bind, ih, hnext, tagsFit_nil_iff]
        exact ⟨fun h => ⟨htag, h⟩, fun h => h.2⟩
      · refine ⟨?_, fun h => absurd h.1 htag⟩
        rintro ⟨st', h⟩
        obtain ⟨st₁, h₁, -⟩ := bind_eq_ok.1 h
        exact absurd (applyTag_beyond hentries h₁) htag
    | cons entry entries =>
      obtain ⟨hlt, -, hnext⟩ := lt_length_of_drop_eq_cons hentries
      have hwrite : ∀ v, writeAt st.target (st.baseIdx, v) = .ok (st.target.set st.baseIdx v) :=
        fun v => by rw [writeAt, if_pos hlt]
      rcases htags tag List.mem_cons_self with rfl | rfl | rfl | rfl
      · have hstep : applyTag b d st SET_NO_CHANGE = .ok { st with baseIdx := st.baseIdx + 1 } := rfl
        rw [hstep, ok_bind, ih, hnext, tagsFit_noChange_cons]
      · have hstep : applyTag b d st SET_TO_ZERO = .ok { st with
            target := st.target.set st.baseIdx 0, baseIdx := st.baseIdx + 1 } := by
          simp only [applyTag, hwrite, ok_bind]
          rfl
        rw [hstep, ok_bind, ih, drop_set_succ, hnext, tagsFit_zero_cons]
      · cases hvalues : st.targetIter with
        | nil =>
          have hstep : applyTag b d st SET_TO_TARGET_VALUE = .error st.target := by
            simp only [applyTag, hvalues]
            rfl
          rw [hstep, error_bind]
          refine ⟨?_, fun h => absurd h tagsFit_targetValue_nil⟩
          rintro ⟨_, h⟩
          cases h
        | cons v values =>
          have hstep : applyTag b d st SET_TO_TARGET_VALUE = .ok { st with
              target := st.target.set st.baseIdx v, targetIter := values,
              baseIdx := st.baseIdx + 1 } := by
            simp only [applyTag, hvalues, hwrite, ok_bind]
            rfl
          rw [hstep, ok_bind, ih, drop_set_succ, hnext, tagsFit_targetValue_cons]
      · cases hruns : varints (d.varintPayload.drop st.payloadCursor) with
        | nil =>
          have hread := readVarint_of_nil b hruns
          have hstep : applyTag b d st SET_TO_DIFF = .error st.target := by
            simp only [applyTag, hread]
            rfl
          rw [hstep, error_bind]
          refine ⟨?_, fun h => absurd h tagsFit_diff_nil⟩
          rintro ⟨_, h⟩
          cases h
        | cons run runs =>
          obtain ⟨hok, hpanic⟩ := applyTag_diff b hentries hruns
          obtain ⟨-, hrest⟩ := readVarint_of_cons b hruns
          rw [tagsFit_diff_cons]
          by_cases hfit : DiffFits b d.mode entry run
          · obtain ⟨v, hstep⟩ := hok hfit
            rw [hstep, ok_bind, ih, drop_set_succ, hnext, hrest]
            exact ⟨fun h => ⟨hfit, h⟩, fun h => h.2⟩
          · obtain ⟨s, hstep⟩ := hpanic hfit
            rw [hstep, error_bind]
            refine ⟨?_, fun h => absurd h.1 hfit⟩
            rintro ⟨_, h⟩
            cases h

/-- The payload of a balance delta can be applied to these entries. -/
def BalancesFit (b : Build) (entries : List UInt64) (d : BalancesDiff) : Prop :=
  (b.debugAssertions = true → entries.length = d.tags.len) ∧
    TagsFit b d.mode d.tags.tags entries d.targetValues (varints d.varintPayload)

/-- **When `apply_balances_iter` returns.** -/
theorem applyBalancesIter_isOk {b : Build} {target : List UInt64} {d : BalancesDiff} :
    (∃ out, applyBalancesIter b target d = .ok out) ↔ BalancesFit b target d := by
  have hloop := foldlM_applyTag_isOk b d d.tags.tags ⟨target, d.targetValues, 0, 0⟩
    fun _ h => tag_cases h
  rw [List.drop_zero, List.drop_zero] at hloop
  rw [applyBalancesIter_eq, BalancesFit, ← hloop]
  by_cases hassert : (b.debugAssertions && target.length != d.tags.len) = true
  · rw [if_pos hassert]
    simp only [Bool.and_eq_true, bne_iff_ne] at hassert
    constructor
    · rintro ⟨_, h⟩
      cases h
    · intro h
      exact absurd (h.1 hassert.1) hassert.2
  · rw [if_neg hassert]
    simp only [Bool.and_eq_true, bne_iff_ne, not_and, not_not] at hassert
    constructor
    · rintro ⟨out, hout⟩
      obtain ⟨st, hst, -⟩ := bind_eq_ok.1 hout
      exact ⟨hassert, st, hst⟩
    · rintro ⟨-, st, hst⟩
      exact ⟨_, bind_eq_ok.2 ⟨st, hst, rfl⟩⟩

end EthStateDiff
