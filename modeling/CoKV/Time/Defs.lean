import CoKV.Lib.OrderedSet
import Mathlib.Data.Nat.Notation
import Mathlib.Data.Prod.Lex
import Mathlib.Logic.Function.Basic

/-!
# Timers

`Timer` and `TimerManager`. A timer is known by a number, in the order of their creation; `m_timers`
is the list of the pending ones in the order of `Timer::Comperator`, which compares deadlines and
then addresses. The clock is an argument of each operation and may go backwards, and so is the
address that `new` gives to a timer. Times are `uint64_t` and wrap.

Here each operation is one step. What `listExpiredCb` does without the lock is in `Threads`.
-/

namespace CoKV.Time

/-- `Timer`; a callback is known by a number, and `none` is `nullptr`. -/
structure Timer where
  recurring : Bool
  ms : UInt64
  next : UInt64
  cb : Option ℕ
  addr : ℕ

namespace Timer

/-- `Timer::Comperator`, for pointers that are not null. -/
def less (lhs rhs : Timer) : Bool :=
  if lhs.next < rhs.next then true
  else if lhs.next > rhs.next then false
  else lhs.addr < rhs.addr

/-- What timers are ordered by. -/
def key (t : Timer) : ℕ ×ₗ ℕ := toLex (t.next.toNat, t.addr)

theorem less_eq (lhs rhs : Timer) : lhs.less rhs = decide (lhs.key < rhs.key) := by
  have hiff : lhs.key < rhs.key ↔ lhs.next < rhs.next ∨ lhs.next = rhs.next ∧ lhs.addr < rhs.addr := by
    unfold key
    rw [Prod.Lex.toLex_lt_toLex, ← UInt64.lt_iff_toNat_lt, UInt64.toNat_inj]
  rw [decide_eq_decide.mpr hiff]
  unfold less
  split
  case isTrue hlt => exact (decide_eq_true (Or.inl hlt)).symm
  case isFalse hge =>
    split
    case isTrue hgt =>
      symm
      rw [decide_eq_false_iff_not]
      rintro (hlt | ⟨heq, -⟩)
      · exact hge hlt
      · exact UInt64.lt_irrefl _ (heq ▸ hgt)
    case isFalse hle =>
      have heq : lhs.next = rhs.next := UInt64.le_antisymm (UInt64.not_lt.mp hle) (UInt64.not_lt.mp hge)
      rw [heq]
      simp [UInt64.lt_irrefl]

theorem less_of_next_lt {lhs rhs : Timer} (h : lhs.next < rhs.next) : lhs.less rhs = true := if_pos h

/-- A timer that is less does not have a later deadline. -/
theorem next_le_of_key_lt {lhs rhs : Timer} (h : lhs.key < rhs.key) : lhs.next ≤ rhs.next := by
  unfold key at h
  rw [Prod.Lex.toLex_lt_toLex] at h
  rw [UInt64.le_iff_toNat_le]
  omega

end Timer

/-- An insertion into `m_timers`: whether the deadline is earlier than every pending one, whether
`onTimerInsertedAtFront` has been called since the last `getNextTimer`, and whether it is called. -/
structure Insertion where
  timer : ℕ
  earliest : Bool
  told : Bool
  tells : Bool

/-- A `TimerManager` and its timers, of which `nextTimer` have been made. `collected` records the
calls of `listExpiredCb`, each with its timers and their callbacks, `inserted` the insertions, and
`told` whether `onTimerInsertedAtFront` has been called since the last `getNextTimer`. -/
structure State where
  timer : ℕ → Timer
  nextTimer : ℕ
  timers : List ℕ
  tickled : Bool
  collected : List (List (ℕ × Option ℕ))
  inserted : List Insertion
  told : Bool

def init : State where
  timer := fun _ => ⟨false, 0, 0, none, 0⟩
  nextTimer := 0
  timers := []
  tickled := false
  collected := []
  inserted := []
  told := false

namespace State

variable (s : State)

def setTimer (t : ℕ) (x : Timer) : State := { s with timer := Function.update s.timer t x }

def key (t : ℕ) : ℕ ×ₗ ℕ := (s.timer t).key

/-- `Timer::Comperator`, for pointers. -/
def less (a b : ℕ) : Bool := (s.timer a).less (s.timer b)

/-- `TimerManager::addTimer(val, lock)`, but for the lock. -/
def addTimer (val : ℕ) : State :=
  let (timers, it) := setInsert s.less s.timers val
  let atFront := timers.head? == some it && !s.tickled
  { s with
    timers := timers
    tickled := s.tickled || atFront
    inserted := s.inserted ++
      [⟨val, s.timers.all fun t => (s.timer val).next < (s.timer t).next, s.told, atFront⟩]
    told := s.told || atFront }

/-- `TimerManager::addTimer(ms, cb, recurring)`, at `now`: `new` has given `addr`. -/
def newTimer (ms : UInt64) (cb : ℕ) (recurring : Bool) (now : UInt64) (addr : ℕ) : State :=
  let timer := s.nextTimer
  let s := s.setTimer timer ⟨recurring, ms, now + ms, some cb, addr⟩
  { s with nextTimer := timer + 1 }.addTimer timer

/-- `Timer::cancel`; without a callback it ends without a `return`. -/
def cancel (t : ℕ) : Option Bool × State :=
  match (s.timer t).cb with
  | none => (none, s)
  | some _ =>
    let s := s.setTimer t { s.timer t with cb := none }
    match setFind s.less s.timers t with
    | none => (some false, s)
    | some it => (some true, { s with timers := s.timers.erase it })

/-- `Timer::refresh` at `now` -/
def refresh (t : ℕ) (now : UInt64) : Bool × State :=
  match (s.timer t).cb, setFind s.less s.timers t with
  | none, _ => (false, s)
  | some _, none => (false, s)
  | some _, some it =>
    let s := { s with timers := s.timers.erase it }
    let s := s.setTimer t { s.timer t with next := now + (s.timer t).ms }
    (true, s.addTimer t)

/-- `Timer::reset` at `now` -/
def reset (t : ℕ) (ms : UInt64) (fromNow : Bool) (now : UInt64) : Bool × State :=
  if ms = (s.timer t).ms ∧ ¬ fromNow then (true, s)
  else
    match (s.timer t).cb, setFind s.less s.timers t with
    | none, _ => (false, s)
    | some _, none => (false, s)
    | some _, some it =>
      let s := { s with timers := s.timers.erase it }
      let start := if fromNow then now else (s.timer t).next - (s.timer t).ms
      let s := s.setTimer t { s.timer t with ms := ms, next := start + ms }
      (true, s.addTimer t)

/-- `TimerManager::getNextTimer` at `now` -/
def getNextTimer (now : UInt64) : UInt64 :=
  match s.timers with
  | [] => ~~~0
  | next :: _ => if now ≥ (s.timer next).next then 0 else (s.timer next).next - now

/-- The timers before `it` in `listExpiredCb`: up to `lower_bound` of a new timer with deadline
`now` at address `probe`, and then those with the same deadline. -/
def expired (now : UInt64) (probe : ℕ) : List ℕ :=
  let nowTimer : Timer := ⟨false, 0, now, none, probe⟩
  s.timers.takeWhile (fun t => (s.timer t).less nowTimer) ++
    (s.timers.dropWhile fun t => (s.timer t).less nowTimer).takeWhile fun t => (s.timer t).next = now

/-- The body of the loop of `listExpiredCb`. -/
def collect (now : UInt64) (t : ℕ) : State :=
  if (s.timer t).recurring then
    (s.setTimer t { s.timer t with next := now + (s.timer t).ms }).addTimer t
  else s.setTimer t { s.timer t with cb := none }

/-- The loop of `listExpiredCb`, with `cbs`. -/
def collectAll (now : UInt64) : List ℕ → State → List (ℕ × Option ℕ) × State
  | [], s => ([], s)
  | t :: ts, s =>
    let (cbs, s') := collectAll now ts (s.collect now t)
    ((t, (s.timer t).cb) :: cbs, s')

/-- `TimerManager::listExpiredCb` at `now`: the callbacks, each with its timer. -/
def listExpiredCb (now : UInt64) (probe : ℕ) : List (ℕ × Option ℕ) × State :=
  if s.timers = [] then ([], s)
  else
    let expired := s.expired now probe
    collectAll now expired { s with timers := s.timers.drop expired.length }

end State

/-- A call, with the clock and the address that the call gets. -/
inductive Op
  | addTimer (ms : UInt64) (cb : ℕ) (recurring : Bool) (now : UInt64) (addr : ℕ)
  | cancel (t : ℕ)
  | refresh (t : ℕ) (now : UInt64)
  | reset (t : ℕ) (ms : UInt64) (fromNow : Bool) (now : UInt64)
  | listExpiredCb (now : UInt64) (probe : ℕ)
  | getNextTimer (now : UInt64)

/-- A timer that is there is called, and a new one does not get the address of a pending one. -/
def step (s : State) : Op → Option State
  | .addTimer ms cb recurring now addr =>
    if ∀ t ∈ s.timers, (s.timer t).addr ≠ addr then some (s.newTimer ms cb recurring now addr)
    else none
  | .cancel t => if t < s.nextTimer then some (s.cancel t).2 else none
  | .refresh t now => if t < s.nextTimer then some (s.refresh t now).2 else none
  | .reset t ms fromNow now =>
    if t < s.nextTimer then some (s.reset t ms fromNow now).2 else none
  | .listExpiredCb now probe =>
    let (cbs, s) := s.listExpiredCb now probe
    some { s with collected := s.collected ++ [cbs] }
  | .getNextTimer _ => some { s with told := false }

end CoKV.Time
