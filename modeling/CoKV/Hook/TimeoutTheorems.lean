import CoKV.Hook.Waits
import Mathlib.Algebra.Order.Ring.Int
import Mathlib.Data.List.Basic
import Mathlib.Data.List.Induction

/-!
# The timeouts of the two directions

From `FdCtx::setTimeout` to the timer of a wait. `timers_armed_iff`: `setTimeout` and `getTimeout`
tell the directions apart by the option, but a hooked call passes `RECV` or `SEND`, and neither is
`SO_RCVTIMEO`. So every wait takes the value for sending, cut down to an `int` and multiplied as
one.
-/

namespace CoKV.Hook

/-! ## The code -/

/-- The hooked functions that may wait -/
inductive Op
  | accept
  | read
  | recv
  | write
  | send

/-- `SO_RCVTIMEO` and `SO_SNDTIMEO` -/
inductive Direction
  | rcvtimeo
  | sndtimeo
  deriving DecidableEq

namespace Direction

def option : Direction → ℤ
  | .rcvtimeo => FdCtx.soRcvtimeo
  | .sndtimeo => 21

def other : Direction → Direction
  | .rcvtimeo => .sndtimeo
  | .sndtimeo => .rcvtimeo

end Direction

namespace Op

/-- The `type` that the function passes to `io_func` -/
def type : Op → ℤ
  | .accept => Hook.recv
  | .read => Hook.recv
  | .recv => Hook.recv
  | .write => Hook.send
  | .send => Hook.send

/-- The option that limits how long the function waits -/
def direction : Op → Direction
  | .accept => .rcvtimeo
  | .read => .rcvtimeo
  | .recv => .rcvtimeo
  | .write => .sndtimeo
  | .send => .sndtimeo

end Op

/-- A socket's `FdCtx` after these calls of `setTimeout` -/
def setTimeouts (fd : ℤ) (sets : List (Direction × UInt64)) : FdCtx :=
  sets.foldl (fun c s => c.setTimeout s.1.option s.2) (FdCtx.new fd (some true))

/-- `int to = ctx->getTimeout(type)` -/
def timeoutOf (c : FdCtx) (type : ℤ) : Int32 := (c.getTimeout type).toUInt32.toInt32

/-- What a wait does about a timer; with `overflow`, `to*1000` is not an `int`. -/
inductive Armed
  | none
  | timer (ms : UInt64)
  | overflow
  deriving DecidableEq

/-- `if(to != -1){ timer = iom->addTimer(to*1000, …); }` -/
def arm (timeout : Int32) : Armed :=
  if timeout = -1 then .none
  else if timeout.toBitVec.smulOverflow 1000#32 then .overflow
  else .timer (timeout * 1000).toInt64.toUInt64

/-- What `io_func` arms when it waits for `op`. -/
def armed (fd : ℤ) (sets : List (Direction × UInt64)) (op : Op) : Armed :=
  arm (timeoutOf (setTimeouts fd sets) op.type)

/-- What was set last for a direction; a new `FdCtx` has -1. -/
def lastValue (d : Direction) (sets : List (Direction × UInt64)) : UInt64 :=
  ((sets.reverse.find? fun s => s.1 = d).map Prod.snd).getD (-1)

/-- A timer of a thousand times the value, and none for -1. -/
def Armed.Exact (v : UInt64) : Armed → Prop
  | .none => v = -1
  | .timer ms => v ≠ -1 ∧ ms.toNat = 1000 * v.toNat
  | .overflow => False

/-! ## The stored values -/

section Stored

variable {fd : ℤ} {sets : List (Direction × UInt64)} {d : Direction} {v : UInt64}

theorem setTimeouts_concat (s : Direction × UInt64) :
    setTimeouts fd (sets ++ [s]) = (setTimeouts fd sets).setTimeout s.1.option s.2 := by
  simp [setTimeouts]

theorem lastValue_same : lastValue d (sets ++ [(d, v)]) = v := by
  simp [lastValue]

theorem lastValue_other {d' : Direction} (h : d' ≠ d) :
    lastValue d (sets ++ [(d', v)]) = lastValue d sets := by
  simp [lastValue, h]

theorem getTimeout_same (c : FdCtx) : (c.setTimeout d.option v).getTimeout d.option = v := by
  cases d <;> rfl

theorem getTimeout_other (c : FdCtx) {d' : Direction} (h : d' ≠ d) :
    (c.setTimeout d'.option v).getTimeout d.option = c.getTimeout d.option := by
  cases d <;> cases d' <;> first | rfl | exact absurd rfl h

/-- The two values are kept apart. -/
theorem getTimeout_setTimeouts : (setTimeouts fd sets).getTimeout d.option = lastValue d sets := by
  induction sets using List.reverseRecOn with
  | nil => cases d <;> rfl
  | append_singleton sets s ih =>
    obtain ⟨d', v⟩ := s
    rw [setTimeouts_concat]
    by_cases heq : d' = d
    · rw [heq, getTimeout_same, lastValue_same]
    · rw [getTimeout_other _ heq, lastValue_other heq, ih]

/-- Neither `RECV` nor `SEND` is `SO_RCVTIMEO`. -/
theorem getTimeout_type (c : FdCtx) (op : Op) :
    c.getTimeout op.type = c.getTimeout Direction.sndtimeo.option := by
  cases op <;> rfl

theorem armed_eq (op : Op) :
    armed fd sets op = arm (lastValue .sndtimeo sets).toUInt32.toInt32 := by
  unfold armed timeoutOf
  rw [getTimeout_type, getTimeout_setTimeouts]

end Stored

/-! ## The product -/

section Product

variable {timeout : Int32} {u v : UInt64}

theorem toInt_low (v : UInt64) : v.toUInt32.toInt32.toInt =
    if v.toNat % 2 ^ 32 < 2 ^ 31 then (v.toNat % 2 ^ 32 : ℤ) else v.toNat % 2 ^ 32 - 2 ^ 32 := by
  have hlow : v.toUInt32.toInt32.toBitVec.toNat = v.toNat % 2 ^ 32 := UInt64.toNat_toUInt32 v
  unfold Int32.toInt
  rw [BitVec.toInt_eq_toNat_cond, hlow]
  split <;> split <;> omega

theorem eq_minus_one_iff : timeout = -1 ↔ timeout.toInt = -1 := by
  rw [← Int32.toInt_inj]
  rfl

theorem smulOverflow_iff : timeout.toBitVec.smulOverflow 1000#32 = true ↔
    2 ^ 31 ≤ timeout.toInt * 1000 ∨ timeout.toInt * 1000 < -2 ^ 31 := by
  have hint : timeout.toBitVec.toInt = timeout.toInt := rfl
  have hfactor : (1000#32).toInt = 1000 := rfl
  unfold BitVec.smulOverflow
  rw [hint, hfactor]
  simp

/-- Where the product is an `int`, `addTimer` gets it as a `uint64_t`. -/
theorem toNat_product (h : ¬ timeout.toBitVec.smulOverflow 1000#32) :
    ((timeout * 1000).toInt64.toUInt64.toNat : ℤ) =
      if 0 ≤ timeout.toInt then timeout.toInt * 1000 else timeout.toInt * 1000 + 2 ^ 64 := by
  have hprod : (timeout * 1000).toInt = timeout.toInt * 1000 :=
    BitVec.toInt_mul_of_not_smulOverflow h
  have hcond : (timeout * 1000).toInt64.toInt = _ :=
    BitVec.toInt_eq_toNat_cond (timeout * 1000).toInt64.toBitVec
  have hnat : (timeout * 1000).toInt64.toBitVec.toNat =
    (timeout * 1000).toInt64.toUInt64.toNat := rfl
  have hlt := (timeout * 1000).toInt64.toUInt64.toNat_lt
  rw [Int32.toInt_toInt64, hprod, hnat] at hcond
  split at hcond <;> split <;> omega

theorem eq_last_iff : u = -1 ↔ u.toNat = 2 ^ 64 - 1 := by
  rw [← UInt64.toNat_inj]
  rfl

/-- The value `u`, if it is `v` that is read. -/
theorem arm_exact_iff : (arm v.toUInt32.toInt32).Exact u ↔
    u = -1 ∧ v.toNat % 2 ^ 32 = 2 ^ 32 - 1 ∨
      u.toNat ≤ 2147483 ∧ v.toNat % 2 ^ 32 = u.toNat := by
  have hlow := toInt_low v
  have hlt := u.toNat_lt
  rw [eq_last_iff]
  unfold arm
  by_cases hnone : v.toUInt32.toInt32 = -1
  · rw [if_pos hnone]
    rw [eq_minus_one_iff] at hnone
    show u = -1 ↔ _
    rw [eq_last_iff]
    split at hlow <;> omega
  · rw [if_neg hnone]
    rw [eq_minus_one_iff] at hnone
    by_cases hover : v.toUInt32.toInt32.toBitVec.smulOverflow 1000#32
    · rw [if_pos hover]
      rw [smulOverflow_iff] at hover
      apply iff_of_false id
      split at hlow <;> omega
    · rw [if_neg hover]
      have hprod := toNat_product hover
      rw [smulOverflow_iff] at hover
      show u ≠ -1 ∧ _ = 1000 * u.toNat ↔ _
      rw [Ne, eq_last_iff]
      generalize (v.toUInt32.toInt32 * 1000).toInt64.toUInt64.toNat = ms at hprod ⊢
      by_cases hneg : 0 ≤ v.toUInt32.toInt32.toInt
      · rw [if_pos hneg] at hprod
        split at hlow <;> omega
      · -- `2 ^ 64` less a multiple of 1000 is no multiple of it
        rw [if_neg hneg] at hprod
        split at hlow <;> omega

end Product

/-! ## What a wait arms -/

section Wait

variable {fd : ℤ} {sets : List (Direction × UInt64)}

theorem setTimeouts_flags :
    (setTimeouts fd sets).isClosed = false ∧ (setTimeouts fd sets).isSocket = true := by
  induction sets using List.reverseRecOn with
  | nil => exact ⟨rfl, rfl⟩
  | append_singleton sets s ih =>
    rw [setTimeouts_concat]
    unfold FdCtx.setTimeout
    split <;> exact ih

/-- `io_func` waits with the timeout that `armed` looks at. -/
theorem ioFunc_setTimeouts (op : Op) (events : List Event) :
    ioFunc true (some (setTimeouts fd sets)) op.type events =
      ioLoop (timeoutOf (setTimeouts fd sets) op.type) events := by
  obtain ⟨hclosed, hsocket⟩ : (setTimeouts fd sets).isClosed = false ∧
    (setTimeouts fd sets).isSocket = true := setTimeouts_flags
  unfold ioFunc timeoutOf
  simp [hclosed, hsocket]

/-- Without a timer the timers stay as they are. -/
theorem addTimer_none {s s' : Waits} {co : ℕ} {p : Place} {now : UInt64} {addr : ℕ}
    (h : s.addTimer co p now addr = some s') (harm : arm (s.call p.call).timeout = .none) :
    s'.timers = s.timers := by
  unfold arm at harm
  unfold Waits.addTimer at h
  by_cases hnone : (s.call p.call).timeout = -1
  · rw [if_pos hnone] at h
    cases h
    rfl
  · rw [if_neg hnone] at harm
    split at harm <;> cases harm

/-- A timer that is armed is the new one. -/
theorem addTimer_timer {s s' : Waits} {co : ℕ} {p : Place} {now ms : UInt64} {addr : ℕ}
    (h : s.addTimer co p now addr = some s') (harm : arm (s.call p.call).timeout = .timer ms) :
    s'.timers = s.timers.newTimer ms s.timers.nextTimer false now addr := by
  unfold arm at harm
  unfold Waits.addTimer at h
  by_cases hnone : (s.call p.call).timeout = -1
  · rw [if_pos hnone] at harm
    cases harm
  · rw [if_neg hnone] at harm h
    split at harm
    · cases harm
    · obtain ⟨timers, hstep, rfl⟩ := Option.map_eq_some_iff.mp h
      rw [Armed.timer.inj harm] at hstep
      unfold Time.step at hstep
      dsimp only at hstep
      split at hstep
      · exact (Option.some.inj hstep).symm
      · cases hstep

/-- A write looks at its own value only, and a read at that of the writes. -/
theorem armed_other_iff (op : Op) :
    (∀ v, armed fd (sets ++ [(op.direction.other, v)]) op = armed fd sets op) ↔
      op.direction = .sndtimeo := by
  cases hdir : op.direction with
  | rcvtimeo =>
    apply iff_of_false _ (by decide)
    intro h
    have hzero := h 0
    have hone := h 1
    rw [armed_eq, show Direction.other .rcvtimeo = .sndtimeo from rfl, lastValue_same] at hzero hone
    have hne : arm (0 : UInt64).toUInt32.toInt32 ≠ arm (1 : UInt64).toUInt32.toInt32 := by decide
    exact hne (hzero.trans hone.symm)
  | sndtimeo =>
    apply iff_of_true _ rfl
    intro v
    rw [armed_eq, armed_eq, show Direction.other .sndtimeo = .rcvtimeo from rfl,
      lastValue_other (by decide)]

end Wait

/-- A wait has the timer of its direction exactly when the value for sending gives that one; setting
one direction leaves the stored value of the other alone, but the timers of the reads change. -/
theorem timers_armed_iff (fd : ℤ) (sets : List (Direction × UInt64)) (op : Op) :
    ((armed fd sets op).Exact (lastValue op.direction sets) ↔
      lastValue op.direction sets = -1 ∧
          (lastValue .sndtimeo sets).toNat % 2 ^ 32 = 2 ^ 32 - 1 ∨
        (lastValue op.direction sets).toNat ≤ 2147483 ∧
          (lastValue .sndtimeo sets).toNat % 2 ^ 32 = (lastValue op.direction sets).toNat) ∧
    ((∀ v, armed fd (sets ++ [(op.direction.other, v)]) op = armed fd sets op) ↔
      op.direction = .sndtimeo) ∧
    ∀ (d : Direction) (v : UInt64),
      (setTimeouts fd (sets ++ [(d.other, v)])).getTimeout d.option =
        (setTimeouts fd sets).getTimeout d.option := by
  refine ⟨?_, armed_other_iff op, ?_⟩
  · rw [armed_eq]
    exact arm_exact_iff
  · intro d v
    rw [setTimeouts_concat]
    apply getTimeout_other
    cases d <;> simp [Direction.other]

/-- With a timeout for receiving only, a read waits without end, and with one for sending set after
it the read has that one. -/
theorem read_other_timer :
    armed 5 [(.rcvtimeo, 5)] .read = .none ∧
    ¬ (armed 5 [(.rcvtimeo, 5)] .read).Exact (lastValue .rcvtimeo [(.rcvtimeo, 5)]) ∧
    armed 5 [(.rcvtimeo, 5), (.sndtimeo, 7)] .read = .timer 7000 := by
  have hnone : armed 5 [(.rcvtimeo, 5)] .read = .none := by decide
  refine ⟨hnone, ?_, by decide⟩
  rw [hnone]
  show ¬ (5 : UInt64) = -1
  decide

end CoKV.Hook
