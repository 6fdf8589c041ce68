import Mathlib.Tactic
/-!
# Machine integers and panics

Fixed-width integers are Lean's own `UIntN` and `Int64`; `usize` is `Nat`, its 64-bit limit
written out where an operation can reach it. What an overflowing operation does depends on
the build: with overflow checks it panics, without them it wraps (`Build.arith`). A panic is
`none` in code that only computes and `Except.error buf` in code that mutates a buffer in
place, `buf` being what the unwinding leaves in the buffer (`Exec`). Memory is unbounded: an
allocation never fails. But a `Vec` holds `isize::MAX` bytes at most, and past that panics with
"capacity overflow". Lists that are in memory stay below that; a length that is computed from
numbers may not, and there the check is made (`withCapacity`, `pushWithin`).

* `arith_eq_some` — when a checked operation returns, and what it returns.
* `foldlM_mapState` — a loop simulated step by step is simulated as a whole.
* `foldlM_pushWithin` — pushing values one by one, up to the limit.
-/

namespace Rust

/-- The two switches of a build that change what code does: `-C overflow-checks` and
`-C debug-assertions` (both on in the dev profile, both off in the release profile). -/
structure Build where
  overflowChecks : Bool
  debugAssertions : Bool
deriving DecidableEq, Repr

def Build.dev : Build := ⟨true, true⟩
def Build.release : Build := ⟨false, false⟩

/-- The run of code that mutates a buffer of type `σ` in place: `ok a` when it returns,
`error buf` when it panics with `buf` left behind. -/
abbrev Exec (σ α : Type) := Except σ α

/-- `expr.unwrap()`, an index or an operation that may panic, inside code mutating `buf`. -/
def orPanic {σ α : Type} (buf : σ) : Option α → Exec σ α
  | some a => .ok a
  | none => .error buf

@[simp] theorem orPanic_some {σ α : Type} (buf : σ) (a : α) : orPanic buf (some a) = .ok a := rfl
@[simp] theorem orPanic_none {σ α : Type} (buf : σ) :
    orPanic buf (none : Option α) = .error buf := rfl

@[simp] theorem orPanic_eq_ok {σ α : Type} {buf : σ} {o : Option α} {a : α} :
    orPanic buf o = .ok a ↔ o = some a := by
  cases o <;> simp

@[simp] theorem ok_bind {σ α β : Type} (a : α) (f : α → Exec σ β) :
    ((Except.ok a : Exec σ α) >>= f) = f a := rfl

@[simp] theorem error_bind {σ α β : Type} (s : σ) (f : α → Exec σ β) :
    ((Except.error s : Exec σ α) >>= f) = .error s := rfl

theorem bind_eq_ok {σ α β : Type} {x : Exec σ α} {f : α → Exec σ β} {b : β} :
    (x >>= f) = .ok b ↔ ∃ a, x = .ok a ∧ f a = .ok b := by
  cases x <;> simp

/-! ### Simulation -/

/-- The run seen through a change of representation `φ` of the buffer. -/
def mapState {σ τ : Type} (φ : τ → σ) : Exec τ τ → Exec σ σ
  | .ok t => .ok (φ t)
  | .error t => .error (φ t)

@[simp] theorem mapState_ok {σ τ : Type} (φ : τ → σ) (t : τ) :
    mapState φ (.ok t) = .ok (φ t) := rfl

@[simp] theorem mapState_error {σ τ : Type} (φ : τ → σ) (t : τ) :
    mapState φ (.error t) = .error (φ t) := rfl

/-- A loop whose every step commutes with `φ` commutes with `φ`, panics included. -/
theorem foldlM_mapState {σ τ α : Type} {f : σ → α → Exec σ σ} {g : τ → α → Exec τ τ} (φ : τ → σ)
    (step : ∀ t a, f (φ t) a = mapState φ (g t a)) :
    ∀ (l : List α) (t : τ), l.foldlM f (φ t) = mapState φ (l.foldlM g t) := by
  intro l
  induction l with
  | nil =>
    intro _
    rfl
  | cons a l ih =>
    intro t
    rw [List.foldlM_cons, List.foldlM_cons, step]
    cases hg : g t a with
    | error t' => rfl
    | ok t' =>
      rw [mapState_ok, ok_bind, ok_bind]
      exact ih t'

/-! ## Vectors -/

/-- The most bytes that a `Vec` holds. -/
def isizeMax : Nat := 2 ^ 63 - 1

/-- The check of `Vec::with_capacity(n)` on entries of `size` bytes. -/
def withCapacity (size n : Nat) : Option Unit := if n * size ≤ isizeMax then some () else none

theorem withCapacity_eq_some {size n : Nat} {u : Unit} :
    withCapacity size n = some u ↔ n * size ≤ isizeMax := by
  unfold withCapacity
  split <;> simp [*]

/-- `buf.push(v)` on a vector that holds `limit` entries at most; what it reserves ahead does not
count. -/
def pushWithin {α : Type} (limit : Nat) (buf : List α) (v : α) : Exec (List α) (List α) :=
  if buf.length < limit then .ok (buf ++ [v]) else .error buf

/-- **Pushing one value after the other**: all of them fit, or those that do stay. -/
theorem foldlM_pushWithin {α : Type} (limit : Nat) : ∀ (vals buf : List α),
    vals.foldlM (pushWithin limit) buf =
      if vals = [] ∨ buf.length + vals.length ≤ limit then .ok (buf ++ vals)
      else .error (buf ++ vals.take (limit - buf.length)) := by
  intro vals
  induction vals with
  | nil =>
    intro buf
    simp [pure, Except.pure]
  | cons v vals ih =>
    intro buf
    rw [List.foldlM_cons, pushWithin]
    by_cases hlt : buf.length < limit
    · have hfits : (vals = [] ∨ (buf ++ [v]).length + vals.length ≤ limit) ↔
          (v :: vals = [] ∨ buf.length + (v :: vals).length ≤ limit) := by
        simp only [List.length_append, List.length_cons, List.length_nil, reduceCtorEq, false_or]
        constructor
        · rintro (rfl | h)
          · simpa using hlt
          · omega
        · exact fun h => Or.inr (by omega)
      have hroom : limit - buf.length = limit - (buf ++ [v]).length + 1 := by
        rw [List.length_append, List.length_singleton]
        omega
      rw [if_pos hlt, ok_bind, ih]
      simp only [hfits, hroom, List.take_succ_cons, List.append_assoc, List.singleton_append]
    · have hfull : limit - buf.length = 0 := by omega
      rw [if_neg hlt, error_bind, if_neg (by simp; omega), hfull, List.take_zero, List.append_nil]

theorem foldlM_pushWithin_eq_ok {α : Type} {limit : Nat} {vals buf out : List α} :
    vals.foldlM (pushWithin limit) buf = .ok out ↔
      (vals = [] ∨ buf.length + vals.length ≤ limit) ∧ buf ++ vals = out := by
  rw [foldlM_pushWithin]
  split <;> simp [*]

/-! ## Arithmetic -/

namespace Build

variable (b : Build)

/-- An integer operation whose exact result fits its type iff `fits`, and whose wrapped
result is `wrapped`. -/
def arith {α : Type} (fits : Bool) (wrapped : α) : Option α :=
  if b.overflowChecks && !fits then none else some wrapped

theorem arith_eq_some {α : Type} {fits : Bool} {w r : α} :
    b.arith fits w = some r ↔ (b.overflowChecks = true → fits = true) ∧ w = r := by
  unfold arith
  cases b.overflowChecks <;> cases fits <;> simp

theorem arith_of_fits {α : Type} {fits : Bool} {w : α} (h : b.overflowChecks = true → fits = true) :
    b.arith fits w = some w := (b.arith_eq_some).2 ⟨h, rfl⟩

theorem arith_of_unchecked {α : Type} (h : b.overflowChecks = false) (fits : Bool) (w : α) :
    b.arith fits w = some w := by
  rw [arith, h, Bool.false_and, if_neg Bool.false_ne_true]

end Build

/-- `x` is an `i64` value. -/
def InI64 (x : Int) : Prop := -2 ^ 63 ≤ x ∧ x < 2 ^ 63

instance (x : Int) : Decidable (InI64 x) := inferInstanceAs (Decidable (_ ∧ _))

namespace Build

variable (b : Build)

def addI64 (x y : Int64) : Option Int64 := b.arith (decide (InI64 (x.toInt + y.toInt))) (x + y)
def subI64 (x y : Int64) : Option Int64 := b.arith (decide (InI64 (x.toInt - y.toInt))) (x - y)
def addU64 (x y : UInt64) : Option UInt64 := b.arith (decide (x.toNat + y.toNat < 2 ^ 64)) (x + y)
def subU64 (x y : UInt64) : Option UInt64 := b.arith (decide (y.toNat ≤ x.toNat)) (x - y)
/-- `x << s` on `u64`: past 63 the shift panics, or is taken modulo 64. -/
def shlU64 (x : UInt64) (s : Nat) : Option UInt64 :=
  b.arith (decide (s < 64)) (x <<< UInt64.ofNat (s % 64))
def addUsize (x y : Nat) : Option Nat := b.arith (decide (x + y < 2 ^ 64)) ((x + y) % 2 ^ 64)
def subUsize (x y : Nat) : Option Nat := b.arith (decide (y ≤ x)) ((x + 2 ^ 64 - y) % 2 ^ 64)
def mulUsize (x y : Nat) : Option Nat := b.arith (decide (x * y < 2 ^ 64)) ((x * y) % 2 ^ 64)

theorem addUsize_of_lt {x y : Nat} (h : x + y < 2 ^ 64) : b.addUsize x y = some (x + y) := by
  rw [addUsize, arith_of_fits b (fun _ => by simpa using h), Nat.mod_eq_of_lt h]

theorem mulUsize_of_lt {x y : Nat} (h : x * y < 2 ^ 64) : b.mulUsize x y = some (x * y) := by
  rw [mulUsize, arith_of_fits b (fun _ => by simpa using h), Nat.mod_eq_of_lt h]

theorem subUsize_of_le {x y : Nat} (hx : x < 2 ^ 64) (h : y ≤ x) :
    b.subUsize x y = some (x - y) := by
  rw [subUsize, arith_of_fits b (fun _ => by simpa using h)]
  congr 1
  omega

theorem subU64_of_le {x y : UInt64} (h : y.toNat ≤ x.toNat) : b.subU64 x y = some (x - y) :=
  arith_of_fits b (fun _ => by simpa using h)

theorem addU64_of_lt {x y : UInt64} (h : x.toNat + y.toNat < 2 ^ 64) :
    b.addU64 x y = some (x + y) :=
  arith_of_fits b (fun _ => by simpa using h)

end Build

/-- `u64::saturating_add`. -/
def saturatingAdd (x y : UInt64) : UInt64 :=
  if x.toNat + y.toNat < 2 ^ 64 then x + y else UInt64.ofNat (2 ^ 64 - 1)

end Rust
