import CoKV.IOManager.Timeout
import CoKV.Scheduler.QueueTheorems

/-!
# Run loops and `m_eventfd`

Threads in `Scheduler::run` and `IOManager::idle`, with what wakes them up: `addTask` calls `tickle`
when the queue was empty, a scan when it leaves a task behind, and `tickle` writes to `m_eventfd`
only if a thread is idle. `m_eventfd` is registered with `EPOLLET`: it is reported to one
`epoll_wait` for each time it gets ready.

A step is a critical section, an access to a counter, or a call of `epoll_wait`, `write` or `read`
(`m_eventfd` has no `FdCtx`, and these are not hooked). What the callbacks do, the events of other
descriptors, the timers and `m_pendingEventCount` are in the labels.

When `idle` breaks out of its loop, the last `yield` of `MainFunc` writes `HOLD` over its `TERM`, so
that `run` does not break: it comes back from `idle_co` as from any other `yield`, and resumes it
once more when it finds nothing to do. `MainFunc` then returns, and `uc_link` is null. By the manual
the thread exits, and it stays counted as idle; glibc calls `exit()`, which ends all threads, so that
a run of the program is one of these runs cut short.
-/

namespace CoKV.IOManager

open Scheduler (Thread Queue Fc Entry)

/-! ## The eventfd -/

/-- `m_eventfd`, and whether it stands in the ready list of its epoll instance. -/
structure EventFd where
  counter : ℕ
  ready : Bool

namespace EventFd

/-- `write` of 1: with `EFD_NONBLOCK` it fails when the counter is at its end. -/
def write (e : EventFd) : EventFd :=
  if e.counter + 1 < 2 ^ 64 - 1 then ⟨e.counter + 1, true⟩ else e

def read (e : EventFd) : EventFd := { e with counter := 0 }

/-- It is going to be reported. -/
def Pending (e : EventFd) : Prop := e.ready = true ∧ 0 < e.counter

end EventFd

/-- What an `epoll_wait` that returns does about `m_eventfd`: it reports it, it finds in the ready
list that there is nothing to read any more, or it does not look. -/
inductive Wake
  | reported
  | stale
  | other

/-- Whether `m_eventfd` is reported, and what is left of it. -/
def EventFd.wake (e : EventFd) : Wake → Option (Bool × EventFd)
  | .reported => if e.ready = true ∧ 0 < e.counter then some (true, ⟨e.counter, false⟩) else none
  | .stale => if e.ready = true ∧ e.counter = 0 then some (false, ⟨0, false⟩) else none
  | .other => some (false, e)

/-! ## The threads -/

/-- In `tickle`: before `hasIdlethreads()`, and before `write`. -/
inductive TickleCall
  | check
  | write

/-- Where a thread stands: outside of `run`, which it may still enter; at the scan and behind it; in
the coroutine of a task, and behind it before and after `--m_activethreadcount`; in `idle` at the
head of its loop, before `getNextTimer`, in `epoll_wait`, and behind it, where `m_eventfd` may have
been reported and not read yet; before `--m_idlethreadcount`; and past the end of `MainFunc`. -/
inductive WorkerPc (W : Type)
  | outside (enters : Bool)
  | scan
  | dispatch (task : Scheduler.Task W) (isActive : Bool)
  | running
  | resumed
  | requeue
  | idleTop
  | nextTimer
  | epollWait (timeout : ℤ)
  | handling (reported : Bool)
  | idleOut
  | fallOff

namespace WorkerPc

variable {W : Type}

/-- Where code runs that may add tasks: outside of the loops, in a callback, and in `idle` behind
`epoll_wait`. -/
def isUser : WorkerPc W → Bool
  | outside _ | running | handling _ => true
  | _ => false

/-- Behind `++m_idlethreadcount`, and not behind `--m_idlethreadcount`. -/
def isIdle : WorkerPc W → Bool
  | idleTop | nextTimer | epollWait _ | handling _ | idleOut | fallOff => true
  | _ => false

end WorkerPc

/-- The loops of an `IOManager`. `idleDone` says whose `idle` has returned, so that its coroutine goes
on behind the last `yield` of `MainFunc`; `steppedOver` records the tasks that scans have stepped over
because their coroutine was still `EXEC`. -/
structure Workers (W : Type) where
  queue : Queue W
  activethreadcount : ℤ
  idlethreadcount : ℤ
  autostop : Bool
  stopping : Bool
  eventfd : EventFd
  idleDone : Thread W → Bool
  pc : Thread W → WorkerPc W
  call : Thread W → Option TickleCall
  steppedOver : List ℕ

/-- What a thread may do that is not in its loop: add tasks, call `tickle` as `stop` and
`onTimerInsertedAtFront` do, or write a flag as `start` and `stop` do. -/
inductive UserOp (W : Type)
  | addTask (fc : Fc) (threadNum : Option (Thread W))
  | addRange (fcs : List Fc)
  | tickle
  | setAutostop
  | setStopping (b : Bool)

/-- The next access of a thread. `term` is whether the coroutine of the task is `TERM`, `ready` the
coroutine that has yielded and is `READY`, `pending` whether `m_pendingEventCount` is 0, and `next`
what `getNextTimer` returns. -/
inductive Action (W : Type)
  | user (op : UserOp W)
  | tickle
  | enter
  | scan (getState : ℕ → CoState)
  | dispatch (term : Bool)
  | finish
  | inactive
  | requeue (ready : Option ℕ)
  | stopping (pending : Bool)
  | nextTimer (next : UInt64)
  | epollWait (w : Wake)
  | read
  | yield
  | busy

/-- The tasks that a scan by `t` steps over because their coroutine is `EXEC`. -/
def stepsOver {W : Type} [DecidableEq W] (t : Thread W) (getState : ℕ → CoState) :
    List (Entry W) → List ℕ
  | [] => []
  | it :: rest =>
    if it.task.threadNum ≠ none ∧ it.task.threadNum ≠ some t then stepsOver t getState rest
    else if it.task.selfco.isSome ∧ getState it.id = .exec then
      it.id :: stepsOver t getState rest
    else []

namespace Workers

variable {W : Type}

/-- The scheduler that the constructor leaves; `members` are the threads that are going to enter
`run`. -/
def init (members : Thread W → Bool) : Workers W where
  queue := .empty
  activethreadcount := 0
  idlethreadcount := 0
  autostop := false
  stopping := true
  eventfd := ⟨0, false⟩
  idleDone := fun _ => false
  pc := fun t => .outside (members t)
  call := fun _ => none
  steppedOver := []

variable [DecidableEq W] (s : Workers W) (t : Thread W)

def setPc (p : WorkerPc W) : Workers W := { s with pc := Function.update s.pc t p }

def setCall (c : Option TickleCall) : Workers W := { s with call := Function.update s.call t c }

/-- `if(need_tickle) tickle();` -/
def tickleIf (b : Bool) : Workers W := if b then s.setCall t (some .check) else s

/-- `IOManager::tickle` -/
def tickle : TickleCall → Workers W
  | .check => s.setCall t (if 0 < s.idlethreadcount then some .write else none)
  | .write => { s.setCall t none with eventfd := s.eventfd.write }

def user : UserOp W → Workers W
  | .addTask fc threadNum =>
    let r := s.queue.addTask fc threadNum
    { s with queue := r.2 }.tickleIf t r.1
  | .addRange fcs =>
    let r := Queue.addRange fcs s.queue
    { s with queue := r.2.2 }.tickleIf t r.1
  | .tickle => s.tickleIf t true
  | .setAutostop => { s with autostop := true }
  | .setStopping b => { s with stopping := b }

/-- The critical section of `run`, up to the call of `tickle`. -/
def scan (getState : ℕ → CoState) : Option (Workers W) :=
  (s.queue.scan t getState).map fun r =>
    { s with
      queue := r.2.2.2
      activethreadcount := if r.2.1 then s.activethreadcount + 1 else s.activethreadcount
      steppedOver := s.steppedOver ++ stepsOver t getState s.queue.tasks
      pc := Function.update s.pc t (.dispatch r.1 r.2.1) }.tickleIf t r.2.2.1

/-- What `run` does with the task. Without one it resumes `idle_co`, whose state is never `TERM`. -/
def dispatch (task : Scheduler.Task W) (isActive term : Bool) : Workers W :=
  if task.selfco.isSome && !term || task.cb.isSome then s.setPc t .running
  else if isActive then { s with activethreadcount := s.activethreadcount - 1 }.setPc t .scan
  else { s with idlethreadcount := s.idlethreadcount + 1 }.setPc t
    (if s.idleDone t then .fallOff else .idleTop)

/-- `IOManager::stopping` -/
def isStopping (pending : Bool) : Bool :=
  s.autostop && s.stopping && s.queue.tasks.isEmpty && s.activethreadcount == 0 && pending

/-- `if(ready) addTask(...)`, and back to the head of the loop. -/
def requeue (ready : Option ℕ) : Workers W :=
  match ready with
  | some c =>
    let r := s.queue.addTask (.selfco (some c)) none
    { s with queue := r.2 }.setPc t .scan |>.tickleIf t r.1
  | none => s.setPc t .scan

/-- The next access of a thread that is not in `tickle`. -/
def act : Action W → WorkerPc W → Option (Workers W)
  | .user op, pc => if pc.isUser then some (s.user t op) else none
  | .enter, .outside true => some (s.setPc t .scan)
  | .scan getState, .scan => s.scan t getState
  | .dispatch term, .dispatch task isActive => some (s.dispatch t task isActive term)
  | .finish, .running => some (s.setPc t .resumed)
  | .inactive, .resumed =>
    some ({ s with activethreadcount := s.activethreadcount - 1 }.setPc t .requeue)
  | .requeue ready, .requeue => some (s.requeue t ready)
  | .stopping pending, .idleTop =>
    some (s.setPc t (if s.isStopping pending then .nextTimer else .epollWait (toInt (capped 0))))
  | .nextTimer next, .nextTimer =>
    if next = ~~~0 then
      some ({ s with idleDone := Function.update s.idleDone t true }.setPc t .idleOut)
    else some (s.setPc t (.epollWait (toInt (capped next))))
  | .epollWait w, .epollWait _ =>
    (s.eventfd.wake w).map fun r => { s with eventfd := r.2 }.setPc t (.handling r.1)
  | .read, .handling true => some ({ s with eventfd := s.eventfd.read }.setPc t (.handling false))
  | .yield, .handling false => some (s.setPc t .idleOut)
  | .busy, .idleOut => some ({ s with idlethreadcount := s.idlethreadcount - 1 }.setPc t .scan)
  | _, _ => none

/-- A thread goes on; one that is in `tickle` does nothing else before it has come back. -/
def step (l : Thread W × Action W) : Option (Workers W) :=
  match s.call l.1, l.2 with
  | some c, .tickle => some (s.tickle l.1 c)
  | none, .tickle => none
  | none, a => s.act l.1 a (s.pc l.1)
  | some _, _ => none

end Workers

end CoKV.IOManager
