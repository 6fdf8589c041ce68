import Mathlib.Tactic
/-!
# Byte strings: sub-slices, little-endian words, fixed-size records

* `slice_append_mid` / `splice_append_mid` — a sub-slice of a concatenation, read and overwritten.
* `overlay_eq_iff` — when overwriting the common part of a list gives the other list.
* `ofLe_toLe`, `toLe_ofLe` — `u64::from_le_bytes` and `u64::to_le_bytes` are inverse.
* `join_chunksExact`, `chunksExact_join` — a buffer of whole records is its records.
-/

namespace ByteString

/-- `[T; n]`. -/
abbrev Arr (α : Type) (n : Nat) := { l : List α // l.length = n }

/-- `[u8; n]`. -/
abbrev Bytes (n : Nat) := Arr UInt8 n

/-- `slice.try_into::<[u8; n]>()`. -/
def tryInto (n : Nat) (l : List UInt8) : Option (Bytes n) :=
  if h : l.length = n then some ⟨l, h⟩ else none

@[simp] theorem tryInto_val {n : Nat} (v : Bytes n) : tryInto n v.val = some v := by
  simp [tryInto, v.property]

theorem tryInto_isSome {n : Nat} {l : List UInt8} : (tryInto n l).isSome ↔ l.length = n := by
  unfold tryInto
  split <;> simp_all

theorem tryInto_eq_some {n : Nat} {l : List UInt8} {v : Bytes n} :
    tryInto n l = some v ↔ l = v.val := by
  unfold tryInto
  split
  · simp [Subtype.ext_iff]
  · rename_i h
    simp only [reduceCtorEq, false_iff]
    rintro rfl
    exact h v.property

/-! ## Sub-slices -/

variable {α : Type}

/-- `l[a..b]`. -/
def slice (l : List α) (a b : Nat) : List α := (l.drop a).take (b - a)

/-- `l[a..a + v.len()].copy_from_slice(v)`. -/
def splice (l : List α) (a : Nat) (v : List α) : List α := l.take a ++ v ++ l.drop (a + v.length)

theorem length_slice (l : List α) (a b : Nat) (hab : a ≤ b) (hb : b ≤ l.length) :
    (slice l a b).length = b - a := by
  simp only [slice, List.length_take, List.length_drop]
  omega

theorem length_splice (l v : List α) (a : Nat) (h : a + v.length ≤ l.length) :
    (splice l a v).length = l.length := by
  simp only [splice, List.length_append, List.length_take, List.length_drop]
  omega

/-- Reading the middle of a concatenation. -/
theorem slice_append_mid {pre mid post : List α} {a b : Nat} (ha : pre.length = a)
    (hb : a + mid.length = b) : slice (pre ++ mid ++ post) a b = mid := by
  subst ha hb
  simp [slice]

/-- Overwriting the middle of a concatenation. -/
theorem splice_append_mid {pre mid post v : List α} {a : Nat} (ha : pre.length = a)
    (hv : v.length = mid.length) : splice (pre ++ mid ++ post) a v = pre ++ v ++ post := by
  subst ha
  simp [splice, hv]

/-- A list is the concatenation of what lies before and after a cut. -/
theorem slice_append_slice (l : List α) {a b c : Nat} (hab : a ≤ b) (hbc : b ≤ c) :
    slice l a b ++ slice l b c = slice l a c := by
  unfold slice
  have hc : c - a = (b - a) + (c - b) := by omega
  have hd : l.drop b = (l.drop a).drop (b - a) := by
    rw [List.drop_drop]
    congr 1
    omega
  rw [hc, List.take_add, hd]

theorem slice_zero_length (l : List α) : slice l 0 l.length = l := by simp [slice]

theorem getElem?_slice {l : List α} {a b k : Nat} (hk : a + k < b) :
    (slice l a b)[k]? = l[a + k]? := by
  rw [slice, List.getElem?_take_of_lt (by omega), List.getElem?_drop]

/-- An overwrite is seen inside its range and nowhere else. -/
theorem getElem?_splice {l v : List α} {a : Nat} (h : a + v.length ≤ l.length) (j : Nat) :
    (splice l a v)[j]? = if a ≤ j ∧ j < a + v.length then v[j - a]? else l[j]? := by
  have htake : (l.take a).length = a := by
    rw [List.length_take]
    omega
  unfold splice
  by_cases hbefore : j < a
  · rw [if_neg (by omega), List.append_assoc, List.getElem?_append_left (by omega),
      List.getElem?_take_of_lt hbefore]
  by_cases hin : j < a + v.length
  · rw [if_pos ⟨by omega, hin⟩,
      List.getElem?_append_left (by rw [List.length_append, htake]; exact hin),
      List.getElem?_append_right (by omega), htake]
  · rw [if_neg (by omega), List.getElem?_append_right (by rw [List.length_append, htake]; omega),
      List.length_append, htake, List.getElem?_drop]
    congr 1
    omega

/-! ## Two lists side by side -/

theorem map_fst_zip_append_drop {β : Type} : ∀ (l : List α) (m : List β),
    (l.zip m).map Prod.fst ++ l.drop m.length = l
  | [], _ => by simp
  | _ :: _, [] => rfl
  | a :: l, _ :: m => congrArg (a :: ·) (map_fst_zip_append_drop l m)

theorem map_snd_zip_append_drop {β : Type} : ∀ (l : List α) (m : List β),
    (l.zip m).map Prod.snd ++ m.drop l.length = m
  | [], _ => rfl
  | _ :: _, [] => rfl
  | _ :: l, b :: m => congrArg (b :: ·) (map_snd_zip_append_drop l m)

/-- A list at least as long as the first has something in between. -/
theorem exists_mem_zip_between {β γ : Type} : ∀ {l : List α} {m : List β} {n : List γ} {x : α}
    {z : γ}, l.length ≤ m.length → (x, z) ∈ l.zip n → ∃ y, (x, y) ∈ l.zip m ∧ (y, z) ∈ m.zip n
  | a :: l, b :: m, c :: n, x, z, hle, h => by
    rw [List.length_cons, List.length_cons, Nat.add_le_add_iff_right] at hle
    rw [List.zip_cons_cons, List.mem_cons] at h
    rcases h with h | h
    · obtain ⟨rfl, rfl⟩ := Prod.mk.inj h
      exact ⟨b, List.mem_cons_self, List.mem_cons_self⟩
    · obtain ⟨y, hxy, hyz⟩ := exists_mem_zip_between hle h
      exact ⟨y, List.mem_cons_of_mem _ hxy, List.mem_cons_of_mem _ hyz⟩

/-- `base` with the common part taken from `target` and what `target` has beyond it appended. -/
def overlay (base target : List α) : List α :=
  (base.zip target).map Prod.snd ++ base.drop target.length ++
    target.drop (min base.length target.length)

theorem length_overlay (base target : List α) :
    (overlay base target).length = max base.length target.length := by
  simp only [overlay, List.length_append, List.length_map, List.length_zip, List.length_drop]
  omega

theorem overlay_of_le {base target : List α} (hle : base.length ≤ target.length) :
    overlay base target = target := by
  rw [overlay, List.drop_eq_nil_of_le hle, List.append_nil, Nat.min_eq_left hle,
    map_snd_zip_append_drop]

/-- An overlay never shortens: it gives the target iff the base is not the longer list. -/
theorem overlay_eq_iff {base target : List α} :
    overlay base target = target ↔ base.length ≤ target.length := by
  constructor
  · intro h
    have hlen := length_overlay base target
    rw [h] at hlen
    omega
  · exact overlay_of_le

/-! ## Little-endian words -/

/-- The `k` low bytes of `n`, lowest first. -/
def leBytes : Nat → Nat → List UInt8
  | 0, _ => []
  | k + 1, n => UInt8.ofNat n :: leBytes k (n / 256)

/-- The number a little-endian byte string stands for. -/
def leNat : List UInt8 → Nat
  | [] => 0
  | b :: bs => b.toNat + 256 * leNat bs

@[simp] theorem length_leBytes : ∀ k n : Nat, (leBytes k n).length = k
  | 0, _ => rfl
  | k + 1, n => by simp [leBytes, length_leBytes k]

theorem leNat_leBytes : ∀ k n : Nat, leNat (leBytes k n) = n % 256 ^ k
  | 0, n => by simp [leBytes, leNat, Nat.mod_one]
  | k + 1, n => by
    rw [leBytes, leNat, leNat_leBytes k, Nat.pow_succ', Nat.mod_mul]
    simp

theorem leBytes_leNat : ∀ l : List UInt8, leBytes l.length (leNat l) = l
  | [] => rfl
  | b :: bs => by
    have hb := b.toNat_lt
    have hhead : UInt8.ofNat (b.toNat + 256 * leNat bs) = b := by
      apply UInt8.toNat_inj.mp
      rw [UInt8.toNat_ofNat']
      omega
    have htail : (b.toNat + 256 * leNat bs) / 256 = leNat bs := by omega
    rw [List.length_cons, leNat, leBytes, hhead, htail, leBytes_leNat bs]

theorem leNat_lt : ∀ l : List UInt8, leNat l < 256 ^ l.length
  | [] => by simp [leNat]
  | b :: bs => by
    have hb := b.toNat_lt
    have ih := leNat_lt bs
    rw [leNat, List.length_cons, Nat.pow_succ']
    omega

/-- `u64::to_le_bytes`. -/
def toLe (x : UInt64) : Bytes 8 := ⟨leBytes 8 x.toNat, length_leBytes 8 _⟩

/-- `u64::from_le_bytes`. -/
def ofLe (v : Bytes 8) : UInt64 := UInt64.ofNat (leNat v.val)

@[simp] theorem ofLe_toLe (x : UInt64) : ofLe (toLe x) = x := by
  have hx := x.toNat_lt
  simp only [ofLe, toLe, leNat_leBytes]
  apply UInt64.toNat_inj.mp
  rw [UInt64.toNat_ofNat']
  omega

@[simp] theorem toLe_ofLe (v : Bytes 8) : toLe (ofLe v) = v := by
  obtain ⟨l, hl⟩ := v
  have hlt := leNat_lt l
  rw [hl] at hlt
  apply Subtype.ext
  have hn : leNat l % 2 ^ 64 = leNat l := Nat.mod_eq_of_lt (by omega)
  simp only [toLe, ofLe, UInt64.toNat_ofNat', hn]
  rw [← hl]
  exact leBytes_leNat l

/-! ## Fixed-size records -/

/-- `l.chunks_exact(n)`: the whole `n`-element records of `l`, a trailing partial one left out. -/
def chunksExact (n : Nat) (l : List α) : List (Arr α n) :=
  List.ofFn fun i : Fin (l.length / n) =>
    ⟨slice l (i * n) (i * n + n), by
      have hi : (i : Nat) + 1 ≤ l.length / n := i.isLt
      have hle : (i + 1) * n ≤ l.length :=
        (Nat.mul_le_mul_right n hi).trans (Nat.div_mul_le_self _ _)
      rw [length_slice _ _ _ (Nat.le_add_right _ _) (by rw [Nat.add_mul] at hle; omega)]
      omega⟩

/-- The buffer holding these records one after the other. -/
def join {n : Nat} : List (Arr α n) → List α
  | [] => []
  | c :: cs => c.val ++ join cs

@[simp] theorem join_nil {n : Nat} : join ([] : List (Arr α n)) = [] := rfl

@[simp] theorem join_cons {n : Nat} (c : Arr α n) (cs : List (Arr α n)) :
    join (c :: cs) = c.val ++ join cs := rfl

@[simp] theorem join_append {n : Nat} (cs ds : List (Arr α n)) :
    join (cs ++ ds) = join cs ++ join ds := by
  induction cs with
  | nil => rfl
  | cons c cs ih => simp [ih]

@[simp] theorem length_join {n : Nat} (cs : List (Arr α n)) : (join cs).length = cs.length * n := by
  induction cs with
  | nil => simp
  | cons c cs ih =>
    rw [join_cons, List.length_append, ih, c.property, List.length_cons]
    ring

@[simp] theorem length_chunksExact (n : Nat) (l : List α) :
    (chunksExact n l).length = l.length / n := by simp [chunksExact]

theorem getElem_chunksExact {n : Nat} {l : List α} {i : Nat} (h : i < (chunksExact n l).length) :
    ((chunksExact n l)[i]).val = slice l (i * n) (i * n + n) := by
  simp [chunksExact]

/-- A buffer of records, cut open at record `i`. -/
theorem join_split {n : Nat} (cs : List (Arr α n)) (i : Nat) (hi : i < cs.length) :
    join cs = join (cs.take i) ++ (cs[i]).val ++ join (cs.drop (i + 1)) ∧
      (join (cs.take i)).length = i * n := by
  constructor
  · conv_lhs => rw [← List.take_append_drop i cs, List.drop_eq_getElem_cons hi]
    rw [join_append, join_cons, List.append_assoc]
  · rw [length_join, List.length_take, Nat.min_eq_left (by omega)]

theorem slice_join {n : Nat} (cs : List (Arr α n)) (i : Nat) (hi : i < cs.length) :
    slice (join cs) (i * n) (i * n + n) = (cs[i]).val := by
  obtain ⟨hsplit, hlen⟩ := join_split cs i hi
  rw [hsplit]
  exact slice_append_mid hlen (by rw [(cs[i]).property])

theorem splice_join {n : Nat} (cs : List (Arr α n)) (i : Nat) (hi : i < cs.length) (v : Arr α n) :
    splice (join cs) (i * n) v.val = join (cs.set i v) := by
  obtain ⟨hsplit, hlen⟩ := join_split cs i hi
  rw [hsplit, splice_append_mid hlen (by rw [v.property, (cs[i]).property]),
    List.set_eq_take_append_cons_drop, if_pos hi]
  simp

theorem chunksExact_join {n : Nat} (hn : 0 < n) (cs : List (Arr α n)) :
    chunksExact n (join cs) = cs := by
  have hlen : (chunksExact n (join cs)).length = cs.length := by
    rw [length_chunksExact, length_join, Nat.mul_div_cancel _ hn]
  apply List.ext_getElem hlen
  intro i h₁ h₂
  apply Subtype.ext
  rw [getElem_chunksExact, slice_join cs i h₂]

/-- A buffer of whole records is the concatenation of its records. -/
theorem join_chunksExact {n : Nat} (hn : 0 < n) {l : List α} (h : n ∣ l.length) :
    join (chunksExact n l) = l := by
  obtain ⟨k, hk⟩ := h
  -- induction on the number of records, cutting the first one off
  induction k generalizing l with
  | zero =>
    have hnil : l = [] := List.length_eq_zero_iff.mp (by simpa using hk)
    subst hnil
    simp [chunksExact]
  | succ k ih =>
    have hkn : l.length = n + n * k := by rw [hk, Nat.mul_succ, Nat.add_comm]
    have hhead : (l.take n).length = n := by rw [List.length_take]; omega
    have htail : (l.drop n).length = n * k := by rw [List.length_drop]; omega
    have hl : l = join (⟨l.take n, hhead⟩ :: chunksExact n (l.drop n)) := by
      rw [join_cons, ih htail, List.take_append_drop]
    rw [hl, chunksExact_join hn]

/-- Cutting off a trailing partial record leaves the records. -/
theorem chunksExact_take {n : Nat} (hn : 0 < n) (l : List α) :
    chunksExact n (l.take (l.length / n * n)) = chunksExact n l := by
  have hle : l.length / n * n ≤ l.length := Nat.div_mul_le_self _ _
  have htake : (l.take (l.length / n * n)).length = l.length / n * n := by
    rw [List.length_take, Nat.min_eq_left hle]
  have hlen : (chunksExact n (l.take (l.length / n * n))).length = (chunksExact n l).length := by
    rw [length_chunksExact, length_chunksExact, htake, Nat.mul_div_cancel _ hn]
  apply List.ext_getElem hlen
  intro i h₁ h₂
  rw [length_chunksExact] at h₂
  have hend : i * n + n ≤ l.length / n * n := by
    have := Nat.mul_le_mul_right n (Nat.succ_le_of_lt h₂)
    rwa [Nat.succ_mul] at this
  apply Subtype.ext
  rw [getElem_chunksExact, getElem_chunksExact, slice, slice, List.drop_take, List.take_take]
  congr 1
  omega

end ByteString
