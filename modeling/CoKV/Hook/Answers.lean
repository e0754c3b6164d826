import CoKV.Hook.Waits

/-!
# What the calls return

The waits with a record beside them: what each call of `io_func` has returned, what the clock showed
when a timer was made, and what it showed when the timer was collected. No step looks at the record.
-/

namespace CoKV.Hook

/-- What the original function has returned; -1, as `addEvent` has refused; -1 with `ETIMEDOUT`. -/
inductive Answer
  | result (r : Ret)
  | refused
  | timedOut

/-- `to*1000`, as `addTimer` gets it. -/
def Call.delay (c : Call) : UInt64 := (c.timeout * 1000).toInt64.toUInt64

/-- The call that a step ends, and what it returns. -/
def Waits.answers (s : Waits) : Label → Option (ℕ × Answer)
  | .attempt co r =>
    match s.pc co, r with
    | some ⟨_, .retry, _⟩, .error .eintr => none
    | some ⟨_, .retry, _⟩, .error .eagain => none
    | some ⟨call, .retry, _⟩, r => some (call, .result r)
    | _, _ => none
  | .cancelTimer co =>
    match s.pc co with
    | some ⟨call, .refused, _⟩ => some (call, .refused)
    | _ => none
  | .testCancel co =>
    match s.pc co with
    | some ⟨call, .cancelled, timer⟩ => if timer.any s.cancel then some (call, .timedOut) else none
    | _ => none
  | _ => none

/-- `answer` is by call, `madeAt` and `collectedAt` are by timer. -/
structure Answers where
  waits : Waits
  answer : ℕ → Option Answer
  madeAt : ℕ → UInt64
  collectedAt : ℕ → Option UInt64

namespace Answers

def start : Answers := ⟨Waits.start, fun _ => none, fun _ => 0, fun _ => none⟩

variable (s : Answers)

def record : Option (ℕ × Answer) → ℕ → Option Answer
  | none => s.answer
  | some (call, a) => Function.update s.answer call (some a)

/-- A timer that `addTimer` makes gets the number `nextTimer`. -/
def recordMade : Label → ℕ → UInt64
  | .addTimer _ now _ => Function.update s.madeAt s.waits.timers.nextTimer now
  | _ => s.madeAt

def recordCollected : Label → ℕ → Option UInt64
  | .listExpiredCb now probe => fun f =>
    if f ∈ (s.waits.timers.listExpiredCb now probe).1.filterMap Prod.snd then some now
    else s.collectedAt f
  | _ => s.collectedAt

def step (l : Label) : Option Answers :=
  (s.waits.step l).map fun waits =>
    ⟨waits, s.record (s.waits.answers l), s.recordMade l, s.recordCollected l⟩

end Answers

end CoKV.Hook
