import CoKV.Time.Defs

/-!
# Several threads

Threads share a `TimerManager`. `listExpiredCb` is gone through access by access: the clock, the
check under the read lock, and then, behind the write lock, what its loop reads and writes for each
timer. The private `addTimer` unlocks the caller's lock, and the loop goes on. The other operations
hold the lock from their first access to their last one, and each is one step.
-/

namespace CoKV.Time

/-- The locals of `listExpiredCb`: `now_ms`, the timers in `expired` that the loop has still to go
through, `m_locked` of its lock, and `cbs`. -/
structure Call where
  now : UInt64
  expired : List ℕ
  locked : Bool
  cbs : List (ℕ × Option ℕ)

/-- Where a thread stands: outside, in `listExpiredCb` before the read lock or the write lock, at
the head of its loop, behind `push_back`, behind the write to `m_next`, or behind the insertion. -/
inductive Pc
  | outside
  | entered (now : UInt64)
  | checked (now : UInt64)
  | loop (c : Call)
  | pushed (c : Call)
  | rearmed (c : Call)
  | inserted (c : Call)

namespace Pc

def call : Pc → Option Call
  | .loop c | .pushed c | .rearmed c | .inserted c => some c
  | _ => none

/-- The timers that the thread has taken out of the set and is not done with. -/
def expired (pc : Pc) : List ℕ := pc.call.elim [] Call.expired

def locked (pc : Pc) : Bool := pc.call.elim false Call.locked

end Pc

/-- What the loop of `listExpiredCb` writes: `m_next` or `m_cb` of a timer, or `m_timers`. -/
inductive Field
  | next
  | cb
  | timers

/-- A write by the loop of `listExpiredCb`, and whether its thread holds the write lock then. -/
structure Access where
  timer : ℕ
  field : Field
  held : Bool

/-- Threads `T` with a `TimerManager` and the owner of its write lock. `cancelled` records the
timers on which `cancel` has been called, and `accesses` what the loops have written. -/
structure Threads (T : Type) where
  state : State
  lock : Option T
  pc : T → Pc
  cancelled : List ℕ
  accesses : List Access

/-- A thread calls an operation; it calls `listExpiredCb` and reads the clock; or it goes on in
`listExpiredCb`, where its new timer may get the address `probe`. -/
inductive ThreadLabel (T : Type)
  | call (p : T) (op : Op)
  | enter (p : T) (now : UInt64)
  | next (p : T) (probe : ℕ)

namespace Threads

variable {T : Type}

def start : Threads T := ⟨init, none, fun _ => .outside, [], []⟩

variable [DecidableEq T]

def setPc (m : Threads T) (p : T) (pc : Pc) : Threads T := { m with pc := Function.update m.pc p pc }

def access (m : Threads T) (p : T) (t : ℕ) (field : Field) (state : State) : Threads T :=
  { m with state := state, accesses := m.accesses ++ [⟨t, field, decide (m.lock = some p)⟩] }

/-- `WriteScopedLockImpl::unlock` -/
def unlock (m : Threads T) (c : Call) : Threads T := if c.locked then { m with lock := none } else m

/-- The end of `listExpiredCb`. -/
def finish (m : Threads T) (p : T) (cbs : List (ℕ × Option ℕ)) : Threads T :=
  { m with state := { m.state with collected := m.state.collected ++ [cbs] } }.setPc p .outside

/-- The next access of a thread in `listExpiredCb`. -/
def next (m : Threads T) (p : T) (probe : ℕ) : Option (Threads T) :=
  match m.pc p with
  | .outside => none
  | .entered now =>
    if m.lock ≠ none then none
    else if m.state.timers = [] then some (m.finish p [])
    else some (m.setPc p (.checked now))
  | .checked now =>
    if m.lock ≠ none then none
    else
      let expired := m.state.expired now probe
      some ({ m with
        state := { m.state with timers := m.state.timers.drop expired.length }
        lock := some p }.setPc p (.loop ⟨now, expired, true, []⟩))
  | .loop c =>
    match c.expired with
    | [] => some ((m.unlock c).finish p c.cbs)
    | t :: _ => some (m.setPc p (.pushed { c with cbs := c.cbs ++ [(t, (m.state.timer t).cb)] }))
  | .pushed c =>
    match c.expired with
    | [] => none
    | t :: ts =>
      let timer := m.state.timer t
      if timer.recurring then
        some ((m.access p t .next (m.state.setTimer t { timer with next := c.now + timer.ms })).setPc p
          (.rearmed c))
      else
        some ((m.access p t .cb (m.state.setTimer t { timer with cb := none })).setPc p
          (.loop { c with expired := ts }))
  | .rearmed c =>
    match c.expired with
    | [] => none
    | t :: ts =>
      some ((m.access p t .timers (m.state.addTimer t)).setPc p (.inserted { c with expired := ts }))
  | .inserted c => some ((m.unlock c).setPc p (.loop { c with locked := false }))

def step (m : Threads T) : ThreadLabel T → Option (Threads T)
  | .call p op =>
    match m.pc p, m.lock, op with
    | .outside, none, .listExpiredCb .. => none
    | .outside, none, .cancel t =>
      (Time.step m.state op).map fun state => { m with state := state, cancelled := t :: m.cancelled }
    | .outside, none, _ => (Time.step m.state op).map fun state => { m with state := state }
    | _, _, _ => none
  | .enter p now =>
    match m.pc p with
    | .outside => some (m.setPc p (.entered now))
    | _ => none
  | .next p probe => m.next p probe

end Threads

end CoKV.Time
