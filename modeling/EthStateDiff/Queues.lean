import EthStateDiff.Contract
import EthStateDiff.Frames
import EthStateDiff.QueueProofs
/-!
# The queues of a run (`pending_queue.rs:294-321`, `lib.rs:694-851`)

A delta says how many items have left a queue and which have come in, or what waits there now. Over
any run of applications the bytes of a queue are those of a first-in first-out queue of items
(`Fifo.run`), and only the deltas that `apply` took move it: one that it refuses, or panics on, has
not reached the queues, which it mutates last.

* `applyQueue_join` — `apply_queue` on whole items.
* `apply_queue` — one application; `applyAll_queue` — **any run of applications**.
-/

namespace EthStateDiff

open Rust ByteString Fifo

inductive QueueField where
  | pendingDeposits
  | pendingPartialWithdrawals
  | pendingConsolidations

def QueueField.size : QueueField → Nat
  | pendingDeposits => PENDING_DEPOSIT_SSZ_SIZE
  | pendingPartialWithdrawals => PARTIAL_WITHDRAWAL_SSZ_SIZE
  | pendingConsolidations => PENDING_CONSOLIDATION_SSZ_SIZE

def DiffTarget.queue {T : Type} (s : DiffTarget T) : QueueField → Option (List UInt8)
  | .pendingDeposits => s.pendingDeposits
  | .pendingPartialWithdrawals => s.pendingPartialWithdrawals
  | .pendingConsolidations => s.pendingConsolidations

def BeaconStateDelta.queue {F : Type} (d : BeaconStateDelta F) : QueueField → Option QueueDiff
  | .pendingDeposits => d.pendingDeposits
  | .pendingPartialWithdrawals => d.pendingPartialWithdrawals
  | .pendingConsolidations => d.pendingConsolidations

theorem QueueField.size_pos (field : QueueField) : 0 < field.size := by
  cases field <;> decide

theorem QueueField.size_lt (field : QueueField) : field.size < 2 ^ 32 := by
  cases field <;> simp [size, PENDING_DEPOSIT_SSZ_SIZE, PARTIAL_WITHDRAWAL_SSZ_SIZE,
    PENDING_CONSOLIDATION_SSZ_SIZE]

/-! ## Items -/

/-- What comes in with the delta is whole items. -/
def QueueDiff.Whole (size : Nat) : QueueDiff → Prop
  | .fifo _ appendedItems => size ∣ appendedItems.length
  | .fullReplacement replacement => size ∣ replacement.length

/-- What the delta says of the items. -/
def QueueDiff.op (size : Nat) : QueueDiff → Op (Bytes size)
  | .fifo consumedCount appendedItems =>
    .pass consumedCount.toNat (chunksExact size appendedItems)
  | .fullReplacement replacement => .replace (chunksExact size replacement)

/-- **On whole items `apply_queue` is a step of the queue**; a count past its end empties it. -/
theorem applyQueue_join (b : Build) {size : Nat} (hpos : 0 < size) (hsize : size < 2 ^ 32)
    (items : List (Bytes size)) {d : QueueDiff} (hd : d.Whole size) :
    applyQueue b (join items) d size = .ok (join ((d.op size).step items)) := by
  cases d with
  | fullReplacement replacement =>
    rw [applyQueue, QueueDiff.op, Op.step, join_chunksExact hpos hd]
  | fifo consumed appended =>
    have hc := consumed.toNat_lt
    have hmul : consumed.toNat * size < 2 ^ 64 :=
      Nat.lt_of_le_of_lt (Nat.mul_le_mul_left _ hsize.le) (by omega)
    have hkept : (if consumed.toNat * size > (join items).length then []
        else (join items).drop (consumed.toNat * size)) = join (items.drop consumed.toNat) := by
      rw [← drop_join]
      split
      · rename_i hpast
        exact (List.drop_eq_nil_of_le hpast.le).symm
      · rfl
    rw [applyQueue, b.mulUsize_of_lt hmul, orPanic_some, ok_bind, hkept, QueueDiff.op, Op.step,
      join_append, join_chunksExact hpos hd]

/-! ## One application -/

section

variable {T V F : Type} [ValidatorMut V] [ValidatorMutTarget T V]

theorem queue_of_applied {b : Build} {d : BeaconStateDelta F} {s s' : DiffTarget T}
    (h : Applied b d s s') (field : QueueField) :
    onBoth (applyQueue b · · field.size) (d.queue field) (s.queue field) = .ok (s'.queue field) := by
  cases field with
  | pendingDeposits => exact h.pendingDeposits
  | pendingPartialWithdrawals => exact h.pendingPartialWithdrawals
  | pendingConsolidations => exact h.pendingConsolidations

/-- A mutation that does not panic leaves no state behind. -/
theorem leaves_onField_ok {S α : Type} {get : S → α} {set : S → α → S} {run : α → Exec α α}
    {s t : S} {Q : S → Prop} (ht : Q t) (hrun : ∃ a, run (get s) = .ok a) :
    Leaves (fun _ => t) Q (onField get set run s) := by
  obtain ⟨a, ha⟩ := hrun
  unfold onField
  rw [ha]
  exact ht

/-- **A panic comes before the queues**: they are mutated last, and none of them panics. -/
theorem leaves_queues (b : Build) (d : BeaconStateDelta F) (s : DiffTarget T) :
    Leaves (fun _ => s) (fun s' => s'.queue = s.queue) (applyComponents b d s) := by
  have hqueue : ∀ (field : QueueField) (delta : Option QueueDiff) (st : Option (List UInt8)),
      ∃ out, onBoth (applyQueue b · · field.size) delta st = .ok out :=
    fun field _ _ => onBoth_isOk.2 fun x _ e _ => applyQueue_isOk b x e field.size_lt
  unfold applyComponents
  have hs : ({ s with scalarHeader := d.scalarHeader } : DiffTarget T).queue = s.queue := rfl
  -- the sixteen components before the queues
  iterate 16 refine Leaves.step (leaves_onField fun _ _ => hs) fun _ _ hs => ?_
  refine Leaves.step (leaves_onField_ok rfl (hqueue .pendingDeposits _ _)) fun _ _ _ => ?_
  refine Leaves.step (leaves_onField_ok rfl (hqueue .pendingPartialWithdrawals _ _)) fun _ _ _ => ?_
  exact leaves_onField_ok rfl (hqueue .pendingConsolidations _ _)

def Outcome.isOk {S : Type} : Outcome S → Bool
  | .ok _ => true
  | .err _ _ => false
  | .panic _ => false

/-- **One application** moves the queues if `apply` returns, and leaves them if it does not. -/
theorem apply_queue (b : Build) (s : DiffTarget T) (d : ArchivedBeaconStateDelta)
    (field : QueueField) :
    ((apply b s d).isOk = true → onBoth (applyQueue b · · field.size) (d.queue field)
      (s.queue field) = .ok ((apply b s d).state.queue field)) ∧
    ((apply b s d).isOk = false → (apply b s d).state.queue = s.queue) := by
  unfold apply
  cases d.fork with
  | error e => exact ⟨fun h => (by cases h), fun _ => rfl⟩
  | ok deltaFork =>
    by_cases hfork : s.fork ≠ deltaFork
    · simp only [if_pos hfork]
      exact ⟨fun h => (by cases h), fun _ => rfl⟩
    · simp only [if_neg hfork]
      cases validateFields d deltaFork with
      | some e => exact ⟨fun h => (by cases h), fun _ => rfl⟩
      | none =>
        cases happ : applyComponents b d s with
        | ok out =>
          exact ⟨fun _ => queue_of_applied (applyComponents_eq_ok.1 happ) field, fun h => by cases h⟩
        | error out => exact ⟨fun h => (by cases h), fun _ => (leaves_queues b d s).of_error happ⟩

end

/-! ## Runs -/

/-- The deltas of a run for which `apply` returns. -/
def accepted (s : DiffTarget ByteValidatorTarget) :
    List (Build × ArchivedBeaconStateDelta) → List ArchivedBeaconStateDelta
  | [] => []
  | (b, d) :: calls =>
    let rest := accepted (apply b s d).state calls
    if (apply b s d).isOk then d :: rest else rest

/-- What deltas do to the items of a queue, one after the other. -/
def queueOps (field : QueueField) (deltas : List ArchivedBeaconStateDelta) :
    List (Op (Bytes field.size)) :=
  deltas.filterMap fun d => (d.queue field).map (QueueDiff.op field.size)

theorem run_queueOps_cons {field : QueueField} (items : List (Bytes field.size))
    (d : ArchivedBeaconStateDelta) (deltas : List ArchivedBeaconStateDelta) :
    Fifo.run items (queueOps field (d :: deltas)) =
      Fifo.run (((d.queue field).map (QueueDiff.op field.size)).elim items (Op.step items))
        (queueOps field deltas) := by
  rw [queueOps, List.filterMap_cons]
  cases d.queue field with
  | none => rfl
  | some e => rfl

/-- A queue that is there stays, and moves by what the delta says. -/
theorem queue_of_onBoth {b : Build} {field : QueueField} {delta : Option QueueDiff}
    {items : List (Bytes field.size)} {out : Option (List UInt8)}
    (hwhole : ∀ e ∈ delta, e.Whole field.size)
    (h : onBoth (applyQueue b · · field.size) delta (some (join items)) = .ok out) :
    out = some (join ((delta.map (QueueDiff.op field.size)).elim items (Op.step items))) := by
  cases delta with
  | none => exact (Except.ok.inj h).symm
  | some e =>
    rw [onBoth, applyQueue_join b field.size_pos field.size_lt items (hwhole e rfl)] at h
    exact (Except.ok.inj h).symm

/-- **Any run of applications moves its queues as first-in first-out queues**, whatever is refused
or cut short by a panic on the way: the items waiting at the end are those that the deltas taken
leave, and they are the last of all that waited or came in, in that order. -/
theorem applyAll_queue (s : DiffTarget ByteValidatorTarget)
    (calls : List (Build × ArchivedBeaconStateDelta)) {field : QueueField}
    {items : List (Bytes field.size)} (hs : s.queue field = some (join items))
    (hwhole : ∀ d ∈ accepted s calls, ∀ e ∈ d.queue field, e.Whole field.size) :
    ∃ items', (applyAll s calls).queue field = some (join items') ∧
      items' = Fifo.run items (queueOps field (accepted s calls)) ∧
      items' <:+ items ++ (queueOps field (accepted s calls)).flatMap Op.incoming := by
  refine ⟨_, ?_, rfl, run_suffix _ _⟩
  induction calls generalizing s items with
  | nil => exact hs
  | cons call calls ih =>
    obtain ⟨b, d⟩ := call
    obtain ⟨hmoved, hleft⟩ := apply_queue b s d field
    show (applyAll (apply b s d).state calls).queue field = _
    rw [accepted] at hwhole ⊢
    by_cases hok : (apply b s d).isOk = true
    · simp only [if_pos hok, List.forall_mem_cons] at hwhole ⊢
      have hqueue := hmoved hok
      rw [hs] at hqueue
      rw [ih _ (queue_of_onBoth hwhole.1 hqueue) hwhole.2, run_queueOps_cons]
    · simp only [if_neg hok] at hwhole ⊢
      refine ih _ ?_ hwhole
      rw [hleft (Bool.eq_false_of_not_eq_true hok), hs]

/-- An Electra state without validators. -/
def electraState (consolidations : List (Bytes 16)) : DiffTarget ByteValidatorTarget :=
  { phase0State with
    fork := .electra
    validators := ⟨[]⟩
    pendingConsolidations := some (join consolidations) }

/-- A delta that does nothing but move its consolidations. -/
def consolidationsDelta (fork : ForkName) (d : QueueDiff) : ArchivedBeaconStateDelta :=
  { phase0Delta with
    fork := .ok fork
    historicalRoots := none
    previousEpochAttestations := none
    currentEpochAttestations := none
    pendingConsolidations := some d }

def consolidation (x : UInt8) : Bytes 16 := ⟨List.replicate 16 x, rfl⟩

/-- The first delta is for another fork. -/
def refusedCalls : List (Build × ArchivedBeaconStateDelta) :=
  [(Build.dev, consolidationsDelta .deneb (.fullReplacement [])),
    (Build.dev, consolidationsDelta .electra (.fifo 1 (consolidation 4).val))]

theorem applyAll_queue_refused :
    (applyAll (electraState [consolidation 1, consolidation 2, consolidation 3])
      refusedCalls).queue .pendingConsolidations =
        some (join [consolidation 2, consolidation 3, consolidation 4]) := by
  have haccepted : accepted (electraState [consolidation 1, consolidation 2, consolidation 3])
      refusedCalls = [consolidationsDelta .electra (.fifo 1 (consolidation 4).val)] := rfl
  have hs : (electraState [consolidation 1, consolidation 2, consolidation 3]).queue
      .pendingConsolidations = some (join [consolidation 1, consolidation 2, consolidation 3]) := rfl
  obtain ⟨items', hitems, hrun, -⟩ := applyAll_queue _ refusedCalls hs (by
    rw [haccepted]
    intro d hd e he
    rw [List.mem_singleton.1 hd] at he
    obtain rfl := Option.some.inj he
    exact ⟨1, rfl⟩)
  rw [hitems, hrun, haccepted]
  rfl

end EthStateDiff
