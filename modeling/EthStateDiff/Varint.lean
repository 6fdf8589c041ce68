import EthStateDiff.Lib.Machine
import EthStateDiff.Lib.Runs
/-!
# Zig-zag and varint coding (`balances.rs:430-488`)

| here | there |
| --- | --- |
| `zigzagEncode`, `zigzagDecode` | balances.rs:436, :442 |
| `writeVarint` | balances.rs:452 |
| `readVarint` | balances.rs:471 |

The payload of a balance or participation delta is a self-delimiting stream: a byte below
`0x80` closes an integer. `varints` are its closed runs and `varintValue` is what a run decodes
to.

* `toNat_zigzagEncode`, `toNat_zigzagDecode` — zig-zag coding on unsigned representations; the
  two are inverse.
* `readVarint_eq_some` — **the reader's exact behaviour**: it takes the next closed run, and
  panics iff there is none or, with overflow checks, the run is longer than ten bytes.
* `readVarint_of_cons`, `readVarint_of_nil` — the same, stepping through `varints`.
* `readVarint_written` — what the writer wrote is read back.
* `isSome_readVarintLoop` — the indices it reads and the counts it shifts by (`loopAccesses`) decide
  whether the reader panics.
* `varint_streams_exact` — **a stream of integers decodes exactly**, staying inside what was written.
-/

namespace EthStateDiff

open Rust SelfDelimiting

/-! ## Zig-zag -/

def zigzagEncode (n : Int64) : UInt64 := ((n <<< 1) ^^^ (n >>> 63)).toUInt64

/-- The negation is of 0 or 1 and cannot overflow. -/
def zigzagDecode (n : UInt64) : Int64 := (n >>> 1).toInt64 ^^^ -((n &&& 1).toInt64)

theorem sshiftRight_63 (x : BitVec 64) :
    x.sshiftRight 63 = if x.msb then BitVec.allOnes 64 else 0#64 := by
  ext i hi
  have hbit : (if hlt : 63 + i < 64 then x[63 + i] else x.msb) = x.msb := by
    split
    · obtain rfl : i = 0 := by omega
      simp [BitVec.msb_eq_getLsbD_last]
    · rfl
  rw [BitVec.getElem_sshiftRight, hbit]
  cases x.msb
  · simp only [Bool.false_eq_true, if_false, BitVec.getElem_zero]
  · simp only [if_true, BitVec.getElem_allOnes]

theorem toNat_and_one (y : BitVec 64) : (y &&& 1#64).toNat = y.toNat % 2 := by
  rw [BitVec.toNat_and]
  exact Nat.and_one_is_mod _

theorem toNat_shiftLeft_one (x : BitVec 64) : (x <<< 1).toNat = 2 * x.toNat % 2 ^ 64 := by
  rw [BitVec.toNat_shiftLeft, Nat.shiftLeft_eq]
  omega

/-- Zig-zag coding on the bits of the word: `2n`, and `2^65 - 1 - 2n` on the unsigned
representation of a negative number. -/
theorem toNat_zigzagEncode (n : Int64) : (zigzagEncode n).toNat =
    if n.toUInt64.toNat < 2 ^ 63 then 2 * n.toUInt64.toNat else 2 ^ 65 - 1 - 2 * n.toUInt64.toNat := by
  have hbits : (zigzagEncode n).toNat = (n.toBitVec <<< 1 ^^^ n.toBitVec.sshiftRight 63).toNat := by
    simp [zigzagEncode, ← UInt64.toNat_toBitVec]
  have hword : n.toUInt64.toNat = n.toBitVec.toNat := rfl
  have hmsb := BitVec.msb_eq_decide n.toBitVec
  rw [hbits, hword, sshiftRight_63]
  cases hm : n.toBitVec.msb
  · have hlt : n.toBitVec.toNat < 2 ^ 63 := by simpa [hm] using hmsb
    simp only [Bool.false_eq_true, if_false, BitVec.xor_zero, if_pos hlt, toNat_shiftLeft_one]
    omega
  · have hge : 2 ^ 63 ≤ n.toBitVec.toNat := by simpa [hm] using hmsb
    simp only [if_true, if_neg (Nat.not_lt.mpr hge), BitVec.xor_allOnes, BitVec.toNat_not,
      toNat_shiftLeft_one]
    omega

/-- Decoding by parity: an even word is `2n`, an odd one stands for a negative number. -/
theorem toNat_zigzagDecode (w : UInt64) : (zigzagDecode w).toUInt64.toNat =
    if w.toNat % 2 = 0 then w.toNat / 2 else 2 ^ 64 - 1 - w.toNat / 2 := by
  have hbits : (zigzagDecode w).toUInt64.toNat =
      (w.toBitVec >>> 1 ^^^ -(w.toBitVec &&& 1#64)).toNat := by
    simp [zigzagDecode, ← UInt64.toNat_toBitVec]
  have hand := toNat_and_one w.toBitVec
  have hword : w.toNat = w.toBitVec.toNat := rfl
  rw [hbits, hword]
  rcases Nat.mod_two_eq_zero_or_one w.toBitVec.toNat with heven | hodd
  · have hlow : w.toBitVec &&& 1#64 = 0#64 := BitVec.eq_of_toNat_eq (by rw [hand, heven]; rfl)
    rw [hlow, BitVec.neg_zero, BitVec.xor_zero, if_pos heven, BitVec.toNat_ushiftRight,
      Nat.shiftRight_eq_div_pow]
  · have hlow : w.toBitVec &&& 1#64 = 1#64 := BitVec.eq_of_toNat_eq (by rw [hand, hodd]; rfl)
    have hneg : -(1#64) = BitVec.allOnes 64 := by decide
    rw [hlow, hneg, BitVec.xor_allOnes, if_neg (by omega), BitVec.toNat_not,
      BitVec.toNat_ushiftRight, Nat.shiftRight_eq_div_pow]

theorem zigzagDecode_zigzagEncode (n : Int64) : zigzagDecode (zigzagEncode n) = n := by
  have hn := n.toUInt64.toNat_lt
  have hround : (zigzagDecode (zigzagEncode n)).toUInt64.toNat = n.toUInt64.toNat := by
    rw [toNat_zigzagDecode, toNat_zigzagEncode]
    split <;> split <;> omega
  exact Int64.toBitVec_inj.mp (BitVec.eq_of_toNat_eq hround)

theorem zigzagEncode_zigzagDecode (w : UInt64) : zigzagEncode (zigzagDecode w) = w := by
  apply UInt64.toNat_inj.mp
  have hw := w.toNat_lt
  rw [toNat_zigzagEncode, toNat_zigzagDecode]
  split <;> split <;> omega

/-! ## Varints -/

/-- The `loop` of `write_varint`. Ten rounds are enough for a `u64` (`writeVarint_eq`). -/
def writeVarintLoop : Nat → UInt64 → List UInt8
  | 0, _ => []
  | fuel + 1, val =>
    if val < 0x80 then [val.toUInt8]
    else (val.toUInt8 ||| 0x80) :: writeVarintLoop fuel (val >>> 7)

def writeVarint (val : UInt64) : List UInt8 := writeVarintLoop 10 val

/-- The `loop` of `read_varint`, on the bytes from the cursor on. The shift count is a `u32`
that may wrap, but only its value modulo 64 is ever used. -/
def readVarintLoop (b : Build) : List UInt8 → Nat → UInt64 → Nat → Option (UInt64 × Nat)
  | [], _, _, _ => none
  | byte :: rest, cursor, val, shift => do
    let piece ← b.shlU64 (byte &&& 0x7F).toUInt64 shift
    if byte &&& 0x80 = 0 then some (val ||| piece, cursor + 1)
    else readVarintLoop b rest (cursor + 1) (val ||| piece) (shift + 7)

/-- `read_varint(buf, cursor)`: the integer and the advanced cursor. -/
def readVarint (b : Build) (buf : List UInt8) (cursor : Nat) : Option (UInt64 × Nat) :=
  readVarintLoop b (buf.drop cursor) cursor 0 0

/-- A byte without the continuation bit closes an integer. -/
def closes (byte : UInt8) : Bool := byte &&& 0x80 == 0

/-- The complete integers of a payload, as the bytes that encode them. -/
def varints (payload : List UInt8) : List (List UInt8) := runs closes payload

/-- The value a run of bytes accumulates, starting from `val` at bit `shift`. -/
def accumulate : List UInt8 → UInt64 → Nat → UInt64
  | [], val, _ => val
  | byte :: run, val, shift =>
    accumulate run (val ||| ((byte &&& 0x7F).toUInt64 <<< UInt64.ofNat (shift % 64))) (shift + 7)

def varintValue (run : List UInt8) : UInt64 := accumulate run 0 0

/-! ### The reader -/

theorem shlU64_eq (b : Build) (x : UInt64) (s : Nat) : b.shlU64 x s =
    if b.overflowChecks = true → s < 64 then some (x <<< UInt64.ofNat (s % 64)) else none := by
  unfold Build.shlU64 Build.arith
  by_cases hs : s < 64 <;> cases b.overflowChecks <;> simp [hs]

/-- On a closed run the loop reads every byte of it, unless a shift count reaches 64 in a build
that checks it. -/
theorem readVarintLoop_run (b : Build) (rest : List UInt8) : ∀ (run : List UInt8) (cursor : Nat)
    (val : UInt64) (shift : Nat), IsRun closes run →
    readVarintLoop b (run ++ rest) cursor val shift =
      if b.overflowChecks = true → shift + 7 * (run.length - 1) < 64 then
        some (accumulate run val shift, cursor + run.length)
      else none
  | [], _, _, _, h => absurd rfl h.ne_nil
  | [byte], cursor, val, shift, ⟨init, a, h, ha, _⟩ => by
    obtain rfl : a = byte := by
      have := congrArg List.getLast? h
      simpa using this.symm
    have hclose : a &&& 0x80 = 0 := by simpa [closes] using ha
    simp only [List.cons_append, List.nil_append, readVarintLoop, shlU64_eq, List.length_cons,
      List.length_nil, Nat.zero_add, Nat.sub_self, Nat.mul_zero, Nat.add_zero, accumulate, hclose,
      if_true, Option.bind_eq_bind]
    split <;> rfl
  | byte :: byte' :: run, cursor, val, shift, ⟨init, a, h, ha, hi⟩ => by
    match init, h, hi with
    | [], h, _ => simp at h
    | x :: init, h, hi =>
    simp only [List.cons_append, List.cons.injEq] at h
    obtain ⟨rfl, h⟩ := h
    have hopen : byte &&& 0x80 ≠ 0 := by simpa [closes] using hi byte List.mem_cons_self
    have hrun : IsRun closes (byte' :: run) :=
      ⟨init, a, h, ha, fun z hz => hi z (List.mem_cons_of_mem _ hz)⟩
    have ih := readVarintLoop_run b rest (byte' :: run) (cursor + 1)
      (val ||| ((byte &&& 0x7F).toUInt64 <<< UInt64.ofNat (shift % 64))) (shift + 7) hrun
    have hlen : shift + 7 * ((byte :: byte' :: run).length - 1) =
        shift + 7 + 7 * ((byte' :: run).length - 1) := by
      simp only [List.length_cons]
      omega
    rw [List.cons_append, readVarintLoop, shlU64_eq, hlen]
    by_cases hs : b.overflowChecks = true → shift < 64
    · simp only [if_pos hs, Option.bind_eq_bind, Option.bind_some, hopen, if_false, ih]
      have hcur : cursor + 1 + (byte' :: run).length = cursor + (byte :: byte' :: run).length := by
        simp only [List.length_cons]
        omega
      rw [hcur]
      rfl
    · have hpanic : ¬(b.overflowChecks = true →
          shift + 7 + 7 * ((byte' :: run).length - 1) < 64) := fun hc =>
        hs fun h1 => by have := hc h1; omega
      simp only [if_neg hs, if_neg hpanic, Option.bind_eq_bind, Option.bind_none]

theorem readVarintLoop_open (b : Build) : ∀ (l : List UInt8) (cursor : Nat) (val : UInt64)
    (shift : Nat), varints l = [] → readVarintLoop b l cursor val shift = none
  | [], _, _, _, _ => rfl
  | byte :: l, cursor, val, shift, h => by
    unfold varints runs at h
    by_cases hb : closes byte = true
    · simp [hb] at h
    · have hopen : byte &&& 0x80 ≠ 0 := by simpa [closes] using hb
      have hl : varints l = [] := by
        rw [if_neg hb] at h
        unfold varints
        split at h
        · assumption
        · simp at h
      simp only [readVarintLoop, shlU64_eq, hopen, if_false, Option.bind_eq_bind]
      split
      · exact readVarintLoop_open b l _ _ _ hl
      · rfl

/-- **What `read_varint` does**: it decodes the next closed run and stops right behind it. -/
theorem readVarint_eq_some {b : Build} {buf : List UInt8} {cursor cursor' : Nat} {v : UInt64} :
    readVarint b buf cursor = some (v, cursor') ↔
      ∃ run rest, buf.drop cursor = run ++ rest ∧ IsRun closes run ∧
        (b.overflowChecks = true → run.length ≤ 10) ∧ varintValue run = v ∧
        cursor + run.length = cursor' := by
  unfold readVarint
  constructor
  · intro h
    cases hr : varints (buf.drop cursor) with
    | nil =>
      rw [readVarintLoop_open b _ _ _ _ hr] at h
      cases h
    | cons run rs =>
      obtain ⟨hrun, rest, hbuf, -⟩ := runs_eq_cons hr
      rw [hbuf, readVarintLoop_run b rest run _ _ _ hrun] at h
      split at h
      · rename_i hfit
        simp only [Option.some.injEq, Prod.mk.injEq] at h
        exact ⟨run, rest, hbuf, hrun, fun hc => by have := hfit hc; omega, h.1, h.2⟩
      · cases h
  · rintro ⟨run, rest, hbuf, hrun, hlen, hv, hc⟩
    rw [hbuf, readVarintLoop_run b rest run _ _ _ hrun,
      if_pos (fun hchk => by have := hlen hchk; omega), ← hc, ← hv]
    rfl

theorem readVarint_of_cons (b : Build) {buf run : List UInt8} {cursor : Nat}
    {rest : List (List UInt8)} (h : varints (buf.drop cursor) = run :: rest) :
    (readVarint b buf cursor = if b.overflowChecks = true → run.length ≤ 10 then
      some (varintValue run, cursor + run.length) else none) ∧
    varints (buf.drop (cursor + run.length)) = rest := by
  obtain ⟨hrun, bytes, hbuf, hrest⟩ := runs_eq_cons h
  refine ⟨?_, ?_⟩
  · rw [readVarint, hbuf, readVarintLoop_run b bytes run _ _ _ hrun]
    by_cases hfit : b.overflowChecks = true → run.length ≤ 10
    · rw [if_pos hfit, if_pos (fun hc => by have := hfit hc; omega)]
      rfl
    · rw [if_neg hfit, if_neg (fun hc => hfit fun hchk => by have := hc hchk; omega)]
  · rw [← List.drop_drop, hbuf, List.drop_left]
    exact hrest

theorem readVarint_of_nil (b : Build) {buf : List UInt8} {cursor : Nat}
    (h : varints (buf.drop cursor) = []) : readVarint b buf cursor = none :=
  readVarintLoop_open b _ _ _ _ h

/-! ### The writer -/

theorem toNat_shiftRight_seven (v : UInt64) : (v >>> 7).toNat = v.toNat / 128 := by
  rw [UInt64.toNat_shiftRight]
  simp [Nat.shiftRight_eq_div_pow]

theorem shiftRight_seven_lt {v : UInt64} {k : Nat} (h : v.toNat < 2 ^ (7 * (k + 1 + 1))) :
    (v >>> 7).toNat < 2 ^ (7 * (k + 1)) := by
  have hpow : (2 : Nat) ^ (7 * (k + 1 + 1)) = 2 ^ (7 * (k + 1)) * 128 := by
    rw [show 7 * (k + 1 + 1) = 7 * (k + 1) + 7 by omega, Nat.pow_add]
  rw [toNat_shiftRight_seven, Nat.div_lt_iff_lt_mul (by decide), ← hpow]
  exact h

theorem lt_0x80_iff (v : UInt64) : v < 0x80 ↔ v.toNat < 128 := by
  rw [UInt64.lt_iff_toNat_lt]
  rfl

/-- A value of `7 * (k + 1)` bits takes at most `k + 1` bytes, however many rounds there are. -/
theorem length_writeVarintLoop_le : ∀ (k fuel : Nat) (v : UInt64), v.toNat < 2 ^ (7 * (k + 1)) →
    (writeVarintLoop fuel v).length ≤ k + 1
  | _, 0, _, _ => Nat.zero_le _
  | 0, fuel + 1, v, h => by
    rw [writeVarintLoop, if_pos ((lt_0x80_iff v).2 (by simpa using h))]
    rfl
  | k + 1, fuel + 1, v, h => by
    have ih := length_writeVarintLoop_le k fuel (v >>> 7) (shiftRight_seven_lt h)
    rw [writeVarintLoop]
    split
    · simp
    · rw [List.length_cons]
      omega

/-- The seven payload bits of a written byte, and its continuation bit. -/
theorem writtenByte (v : UInt64) :
    ((v.toUInt8 ||| 0x80) &&& 0x7F).toNat = v.toNat % 128 ∧ closes (v.toUInt8 ||| 0x80) = false ∧
      (v.toNat < 128 → (v.toUInt8 &&& 0x7F).toNat = v.toNat ∧ closes v.toUInt8 = true) := by
  have key : ∀ n : Fin 256, ((UInt8.ofNat n ||| 0x80) &&& 0x7F).toNat = n % 128 ∧
      closes (UInt8.ofNat n ||| 0x80) = false ∧
      (n.val < 128 → (UInt8.ofNat n &&& 0x7F).toNat = n ∧ closes (UInt8.ofNat n) = true) := by
    decide +kernel
  have hv : v.toUInt8 = UInt8.ofNat (v.toNat % 256) := by
    apply UInt8.toNat_inj.mp
    rw [UInt64.toNat_toUInt8, UInt8.toNat_ofNat']
    omega
  have hk := key ⟨v.toNat % 256, Nat.mod_lt _ (by decide)⟩
  simp only at hk
  rw [hv]
  refine ⟨by rw [hk.1]; omega, hk.2.1, fun hlt => ?_⟩
  have h256 : v.toNat % 256 = v.toNat := by omega
  rw [h256] at hk ⊢
  exact hk.2.2 hlt

theorem toNat_or_piece {val : UInt64} {byte : UInt8} {p shift : Nat} (hbyte : byte.toNat = p)
    (hval : val.toNat < 2 ^ shift) (hp : p * 2 ^ shift < 2 ^ 64) (hs : shift < 64) :
    (val ||| (byte.toUInt64 <<< UInt64.ofNat (shift % 64))).toNat = val.toNat + p * 2 ^ shift := by
  have hshift : (UInt64.ofNat (shift % 64)).toNat % 64 = shift := by
    rw [UInt64.toNat_ofNat']
    omega
  rw [UInt64.toNat_or, UInt64.toNat_shiftLeft, hshift, UInt8.toNat_toUInt64, hbyte,
    Nat.shiftLeft_eq, Nat.mod_eq_of_lt hp, Nat.or_comm, Nat.mul_comm p,
    ← Nat.two_pow_add_eq_or_of_lt hval]
  omega

/-- **The writer's loop against the accumulator.** Written with enough rounds, `v` is one closed
run, and accumulating it at bit `shift` adds `v` there. -/
theorem writeVarintLoop_spec : ∀ (fuel : Nat) (v val : UInt64) (shift : Nat),
    v.toNat < 2 ^ (7 * (fuel + 1)) → val.toNat < 2 ^ shift → v.toNat * 2 ^ shift < 2 ^ 64 →
    shift < 64 →
    IsRun closes (writeVarintLoop (fuel + 1) v) ∧
    (accumulate (writeVarintLoop (fuel + 1) v) val shift).toNat = val.toNat + v.toNat * 2 ^ shift := by
  intro fuel
  induction fuel with
  | zero =>
    intro v val shift hv hval hfit hs
    have hlt : v.toNat < 128 := by simpa using hv
    obtain ⟨-, -, hlow⟩ := writtenByte v
    obtain ⟨hbyte, hclose⟩ := hlow hlt
    rw [writeVarintLoop, if_pos ((lt_0x80_iff v).2 hlt)]
    exact ⟨⟨[], _, rfl, hclose, by simp⟩, toNat_or_piece hbyte hval hfit hs⟩
  | succ fuel ih =>
    intro v val shift hv hval hfit hs
    obtain ⟨hbyte, hopen, hlow⟩ := writtenByte v
    rw [writeVarintLoop]
    by_cases hlt : v.toNat < 128
    · obtain ⟨hbyte, hclose⟩ := hlow hlt
      rw [if_pos ((lt_0x80_iff v).2 hlt)]
      exact ⟨⟨[], _, rfl, hclose, by simp⟩, toNat_or_piece hbyte hval hfit hs⟩
    · rw [if_neg (fun h => hlt ((lt_0x80_iff v).1 h))]
      have hpow : (2 : Nat) ^ (shift + 7) = 2 ^ shift * 128 := by rw [Nat.pow_add]
      have hdm := Nat.div_add_mod v.toNat 128
      have hsplit : v.toNat * 2 ^ shift =
          v.toNat % 128 * 2 ^ shift + v.toNat / 128 * 2 ^ (shift + 7) := by
        rw [hpow]
        conv_lhs => rw [← hdm]
        ring
      have hpos : 0 < 2 ^ shift := Nat.two_pow_pos shift
      have hpiece : v.toNat % 128 * 2 ^ shift < 2 ^ 64 := by omega
      have hmod : v.toNat % 128 * 2 ^ shift ≤ 127 * 2 ^ shift :=
        Nat.mul_le_mul_right _ (by omega)
      -- the accumulator after this byte fits below the next shift count
      have hacc := toNat_or_piece hbyte hval hpiece hs
      have hval' : (val ||| (((v.toUInt8 ||| 0x80) &&& 0x7F).toUInt64 <<<
          UInt64.ofNat (shift % 64))).toNat < 2 ^ (shift + 7) := by
        rw [hacc, hpow]
        omega
      have hs' : shift + 7 < 64 := by
        by_contra hge
        have h64 : 2 ^ 64 ≤ 2 ^ (shift + 7) := Nat.pow_le_pow_right (by decide) (by omega)
        have hone : 1 * 2 ^ (shift + 7) ≤ v.toNat / 128 * 2 ^ (shift + 7) :=
          Nat.mul_le_mul_right _ (by omega)
        omega
      have hdiv : (v >>> 7).toNat = v.toNat / 128 := toNat_shiftRight_seven v
      obtain ⟨⟨init, a, hrun, ha, hi⟩, hval''⟩ := ih (v >>> 7) _ (shift + 7)
        (shiftRight_seven_lt hv) hval' (by rw [hdiv]; omega) hs'
      refine ⟨⟨(v.toUInt8 ||| 0x80) :: init, a, by rw [hrun]; rfl, ha, ?_⟩, ?_⟩
      · intro x hx
        rcases List.mem_cons.mp hx with rfl | hx
        · exact hopen
        · exact hi x hx
      · rw [accumulate, hval'', hacc, hdiv, hsplit, Nat.add_assoc]

theorem writeVarint_spec (v : UInt64) : IsRun closes (writeVarint v) ∧
    (writeVarint v).length ≤ 10 ∧ varintValue (writeVarint v) = v := by
  have hv := v.toNat_lt
  obtain ⟨hrun, hval⟩ := writeVarintLoop_spec 9 v 0 0 (by omega) (by simp) (by omega) (by decide)
  refine ⟨hrun, length_writeVarintLoop_le 9 10 v (by omega), UInt64.toNat_inj.mp ?_⟩
  rw [varintValue, writeVarint, hval]
  simp

theorem isRun_writeVarint (v : UInt64) : IsRun closes (writeVarint v) := (writeVarint_spec v).1

theorem writeVarintLoop_succ : ∀ (fuel : Nat) (v : UInt64), v.toNat < 2 ^ (7 * (fuel + 1)) →
    writeVarintLoop (fuel + 2) v = writeVarintLoop (fuel + 1) v := by
  intro fuel
  induction fuel with
  | zero =>
    intro v hv
    have hlt : v < 0x80 := (lt_0x80_iff v).2 (by simpa using hv)
    rw [writeVarintLoop, if_pos hlt, writeVarintLoop, if_pos hlt]
  | succ fuel ih =>
    intro v hv
    rw [writeVarintLoop, ih (v >>> 7) (shiftRight_seven_lt hv)]
    conv_rhs => rw [writeVarintLoop]

/-- Ten rounds are enough: `write_varint` is its own loop. -/
theorem writeVarint_eq (v : UInt64) : writeVarint v =
    if v < 0x80 then [v.toUInt8] else (v.toUInt8 ||| 0x80) :: writeVarint (v >>> 7) := by
  have hv := v.toNat_lt
  have hdiv := toNat_shiftRight_seven v
  unfold writeVarint
  rw [writeVarintLoop_succ 8 (v >>> 7) (by omega)]
  rfl

/-- A signed number of 33 bits takes at most five bytes. -/
theorem length_writeVarint_zigzagEncode_le {n : Int64} (hlo : -2 ^ 32 < n.toInt)
    (hhi : n.toInt < 2 ^ 32) : (writeVarint (zigzagEncode n)).length ≤ 5 := by
  have hint : n.toInt = if 2 * n.toUInt64.toNat < 2 ^ 64 then (n.toUInt64.toNat : Int)
      else n.toUInt64.toNat - 2 ^ 64 := BitVec.toInt_eq_toNat_cond n.toBitVec
  have hval := toNat_zigzagEncode n
  have hn := n.toUInt64.toNat_lt
  have hfit : (zigzagEncode n).toNat < 2 ^ 33 := by
    split at hint <;> split at hval <;> omega
  exact length_writeVarintLoop_le 4 10 _ (by omega)

theorem readVarint_written (b : Build) {buf done rest : List UInt8} {v : UInt64}
    (h : buf = done ++ (writeVarint v ++ rest)) :
    readVarint b buf done.length = some (v, (done ++ writeVarint v).length) := by
  obtain ⟨hrun, hlen, hval⟩ := writeVarint_spec v
  refine readVarint_eq_some.2 ⟨writeVarint v, rest, ?_, hrun, fun _ => hlen, hval, ?_⟩
  · rw [h, List.drop_left]
  · rw [List.length_append]

/-! ## Streams -/

/-- `read_varint` again and again: `n` integers, the first one at the cursor. -/
def readVarints (b : Build) (buf : List UInt8) : Nat → Nat → Option (List UInt64 × Nat)
  | 0, cursor => some ([], cursor)
  | n + 1, cursor => do
    let (v, cursor) ← readVarint b buf cursor
    let (vs, cursor) ← readVarints b buf n cursor
    some (v :: vs, cursor)

/-- The accesses of `read_varint`'s loop: each index it reads, with the count it shifts by. A
buffer that ends is read at its end. -/
def loopAccesses : List UInt8 → Nat → Nat → List (Nat × Nat)
  | [], cursor, shift => [(cursor, shift)]
  | byte :: rest, cursor, shift => (cursor, shift) ::
    if byte &&& 0x80 = 0 then [] else loopAccesses rest (cursor + 1) (shift + 7)

/-- The accesses of `n` calls of `read_varint`, the first one at the cursor. -/
def accesses (b : Build) (buf : List UInt8) : Nat → Nat → List (Nat × Nat)
  | 0, _ => []
  | n + 1, cursor => loopAccesses (buf.drop cursor) cursor 0 ++
    match readVarint b buf cursor with
    | some (_, cursor) => accesses b buf n cursor
    | none => []

/-- The accesses decide whether the reader panics: it returns iff each of them is one the machine
allows. -/
theorem isSome_readVarintLoop (b : Build) : ∀ (l : List UInt8) (cursor : Nat) (val : UInt64)
    (shift : Nat), (readVarintLoop b l cursor val shift).isSome ↔
      ∀ a ∈ loopAccesses l cursor shift,
        a.1 < cursor + l.length ∧ (b.overflowChecks = true → a.2 < 64) := by
  intro l
  induction l with
  | nil =>
    intro cursor val shift
    simp [readVarintLoop, loopAccesses]
  | cons byte l ih =>
    intro cursor val shift
    have hlen : cursor + 1 + l.length = cursor + (byte :: l).length := by
      rw [List.length_cons]
      omega
    have hlt : cursor < cursor + (byte :: l).length := by
      rw [List.length_cons]
      omega
    rw [readVarintLoop, loopAccesses, shlU64_eq]
    by_cases hs : b.overflowChecks = true → shift < 64
    · rw [if_pos hs, Option.bind_eq_bind, Option.bind_some]
      by_cases hclose : byte &&& 0x80 = 0
      · simp only [if_pos hclose, Option.isSome_some, List.mem_singleton, forall_eq, hlt, true_and,
          true_iff]
        exact hs
      · simp only [if_neg hclose, ih, hlen, List.mem_cons, forall_eq_or_imp, hlt, true_and]
        exact (and_iff_right hs).symm
    · rw [if_neg hs, Option.bind_eq_bind, Option.bind_none]
      simp only [Option.isSome_none, Bool.false_eq_true, List.mem_cons, forall_eq_or_imp, hlt,
        true_and, hs, false_and]

theorem loopAccesses_run {run : List UInt8} (h : IsRun closes run) (rest : List UInt8) :
    ∀ (cursor shift : Nat), ∀ a ∈ loopAccesses (run ++ rest) cursor shift,
      a.1 < cursor + run.length ∧ a.2 + 7 ≤ shift + 7 * run.length := by
  obtain ⟨init, last, rfl, hlast, hinit⟩ := h
  have hclose : last &&& 0x80 = 0 := by simpa [closes] using hlast
  induction init with
  | nil =>
    rintro cursor shift a ha
    simp only [List.nil_append, List.singleton_append, loopAccesses, hclose, if_true,
      List.mem_singleton] at ha
    subst ha
    simp
  | cons byte init ih =>
    rintro cursor shift a ha
    have hopen : byte &&& 0x80 ≠ 0 := by simpa [closes] using hinit byte List.mem_cons_self
    simp only [List.cons_append, loopAccesses, if_neg hopen, List.mem_cons] at ha
    simp only [List.cons_append, List.length_cons]
    rcases ha with rfl | ha
    · simp only
      omega
    · obtain ⟨hindex, hshift⟩ := ih (fun x hx => hinit x (List.mem_cons_of_mem _ hx))
        (cursor + 1) (shift + 7) a ha
      omega

theorem readVarints_written (b : Build) (rest : List UInt8) : ∀ (vs : List UInt64)
    (done : List UInt8),
    readVarints b (done ++ (vs.flatMap writeVarint ++ rest)) vs.length done.length =
      some (vs, (done ++ vs.flatMap writeVarint).length) := by
  intro vs
  induction vs with
  | nil =>
    intro done
    rw [List.flatMap_nil, List.append_nil]
    rfl
  | cons v vs ih =>
    intro done
    rw [List.flatMap_cons, List.append_assoc]
    have hread : readVarint b (done ++ (writeVarint v ++ (vs.flatMap writeVarint ++ rest)))
        done.length = some (v, (done ++ writeVarint v).length) := readVarint_written b rfl
    have hrest := ih (done ++ writeVarint v)
    rw [List.append_assoc, List.append_assoc] at hrest
    simp only [List.length_cons, readVarints, hread, hrest, Option.bind_eq_bind, Option.bind_some]

theorem accesses_written (b : Build) (rest : List UInt8) : ∀ (vs : List UInt64)
    (done : List UInt8),
    ∀ a ∈ accesses b (done ++ (vs.flatMap writeVarint ++ rest)) vs.length done.length,
      a.1 < (done ++ vs.flatMap writeVarint).length ∧ a.2 ≤ 63 := by
  intro vs
  induction vs with
  | nil =>
    rintro done a ha
    cases ha
  | cons v vs ih =>
    rintro done a ha
    obtain ⟨hrun, hten, -⟩ := writeVarint_spec v
    rw [List.flatMap_cons, List.append_assoc] at ha
    have hread : readVarint b (done ++ (writeVarint v ++ (vs.flatMap writeVarint ++ rest)))
        done.length = some (v, (done ++ writeVarint v).length) := readVarint_written b rfl
    simp only [List.length_cons, accesses, hread, List.drop_left, List.mem_append] at ha
    rw [List.flatMap_cons, ← List.append_assoc]
    rcases ha with ha | ha
    · -- this integer's own bytes
      obtain ⟨hindex, hshift⟩ := loopAccesses_run hrun _ _ _ a ha
      simp only [List.length_append]
      omega
    · refine ih (done ++ writeVarint v) a ?_
      rwa [List.append_assoc]

/-- **Varint streams decode exactly**: in every build and with anything behind them, the integers
written come back in order and the cursor ends behind the last written byte, without an access
beyond it or a shift by more than 63. Zig-zag coding is a bijection, so signed numbers come back
the same way. -/
theorem varint_streams_exact (b : Build) (rest : List UInt8) :
    (∀ vs : List UInt64,
      readVarints b (vs.flatMap writeVarint ++ rest) vs.length 0 =
        some (vs, (vs.flatMap writeVarint).length) ∧
      ∀ a ∈ accesses b (vs.flatMap writeVarint ++ rest) vs.length 0,
        a.1 < (vs.flatMap writeVarint).length ∧ a.2 ≤ 63) ∧
    (∃ zigzag : Int64 ≃ UInt64, ⇑zigzag = zigzagEncode ∧ ⇑zigzag.symm = zigzagDecode) ∧
    ∀ ds : List Int64, ∃ ws,
      readVarints b ((ds.map zigzagEncode).flatMap writeVarint ++ rest) ds.length 0 =
        some (ws, ((ds.map zigzagEncode).flatMap writeVarint).length) ∧
      ws.map zigzagDecode = ds ∧
      ∀ a ∈ accesses b ((ds.map zigzagEncode).flatMap writeVarint ++ rest) ds.length 0,
        a.1 < ((ds.map zigzagEncode).flatMap writeVarint).length ∧ a.2 ≤ 63 := by
  have hread : ∀ vs : List UInt64,
      readVarints b (vs.flatMap writeVarint ++ rest) vs.length 0 =
        some (vs, (vs.flatMap writeVarint).length) ∧
      ∀ a ∈ accesses b (vs.flatMap writeVarint ++ rest) vs.length 0,
        a.1 < (vs.flatMap writeVarint).length ∧ a.2 ≤ 63 := fun vs =>
    ⟨readVarints_written b rest vs [], accesses_written b rest vs []⟩
  refine ⟨hread, ⟨⟨zigzagEncode, zigzagDecode, zigzagDecode_zigzagEncode,
    zigzagEncode_zigzagDecode⟩, rfl, rfl⟩, fun ds => ⟨ds.map zigzagEncode, ?_⟩⟩
  obtain ⟨hvalues, haccesses⟩ := hread (ds.map zigzagEncode)
  rw [List.length_map] at hvalues haccesses
  refine ⟨hvalues, ?_, haccesses⟩
  rw [List.map_map]
  exact (List.map_congr_left fun d _ => zigzagDecode_zigzagEncode d).trans (List.map_id ds)

end EthStateDiff
