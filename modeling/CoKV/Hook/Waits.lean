import CoKV.Hook.IoFunc
import CoKV.IOManager.Defs
import CoKV.Time.Defs

/-!
# Waiting with a timeout

Coroutines in `io_func`, the timers and the contexts they wait with, and the callbacks of the timers.
Any thread takes any step: resumes a coroutine that has been scheduled, collects the expired timers,
handles a report of `epoll_wait`, or goes on with a callback. A callback that has been collected is
in the task queue, and then it writes `cancel` and calls `cancelEvent`, which are two steps.

A timer, its callback and the `cancel` it writes to have one number. Each descriptor has its context;
how contexts are looked up, and what the kernel knows, does not matter here (`contexts_of_run`: what
happens to the contexts is what `IOManager` does to them). A call through a null scheduler and a
failed assertion are no step.
-/

namespace CoKV.Hook

/-- A call of `io_func`: who makes it, and `fd`, `event` and the timeout. -/
structure Call where
  co : ℕ
  fd : ℕ
  event : IOManager.Event
  timeout : Int32

/-- Where a call stands: before the original function is called, before `addTimer`, before
`addEvent`, behind an `addEvent` that has refused, in `yieldtohold`, before `timer->cancel()` and
before `cancel` is looked at. -/
inductive Stage
  | retry
  | again
  | armed
  | refused
  | yielded
  | resumed
  | cancelled
  deriving DecidableEq

/-- A call, where it stands, and `timer`. -/
structure Place where
  call : ℕ
  stage : Stage
  timer : Option ℕ
  deriving DecidableEq

/-- What has become of a callback. -/
inductive Progress
  | idle
  | queued
  | written
  | finished
  deriving DecidableEq

/-- What a callback has done: for which call, whether that had returned, and for which call the
waiter was registered that `cancelEvent` has scheduled. -/
inductive Deed
  | wrote (call : ℕ) (returned : Bool)
  | cancelled (call : ℕ) (returned : Bool) (victim : Option ℕ)
  deriving DecidableEq

/-- `armedBy` tells for which call a timer has been made, `registrant` for which call the waiter of
an event was registered last. The last deed comes first. -/
structure Waits where
  timers : Time.State
  ctx : ℕ → IOManager.FdContext
  call : ℕ → Call
  nextCall : ℕ
  pc : ℕ → Option Place
  tasks : List ℕ
  armedBy : ℕ → ℕ
  cancel : ℕ → Bool
  callback : ℕ → Progress
  registrant : ℕ → IOManager.Event → ℕ
  log : List Deed

inductive Label
  | call (c : Call)
  | attempt (co : ℕ) (r : Ret)
  | addTimer (co : ℕ) (now : UInt64) (addr : ℕ)
  | addEvent (co : ℕ) (success : Bool)
  | resume (co : ℕ)
  | cancelTimer (co : ℕ)
  | testCancel (co : ℕ)
  | listExpiredCb (now : UInt64) (probe : ℕ)
  | writeCancel (f : ℕ)
  | cancelEvent (f : ℕ)
  | ready (fd : ℕ) (events : BitVec 32)
  | cancelAll (fd : ℕ)

namespace Waits

def start : Waits where
  timers := Time.init
  ctx := fun _ => .new
  call := fun _ => ⟨0, 0, .none, 0⟩
  nextCall := 0
  pc := fun _ => none
  tasks := []
  armedBy := fun _ => 0
  cancel := fun _ => false
  callback := fun _ => .idle
  registrant := fun _ _ => 0
  log := []

section Sections

variable (s : Waits)

def setPc (co : ℕ) (p : Option Place) : Waits := { s with pc := Function.update s.pc co p }

def setCallback (f : ℕ) (p : Progress) : Waits :=
  { s with callback := Function.update s.callback f p }

/-- The coroutine of this call is not in it any more. -/
def returned (call : ℕ) : Bool := (s.pc (s.call call).co).map Place.call != some call

/-- A new call, before its first attempt. -/
def enter (c : Call) : Waits :=
  { s.setPc c.co (some ⟨s.nextCall, .retry, none⟩) with
    call := Function.update s.call s.nextCall c
    nextCall := s.nextCall + 1 }

/-- `trigerEvent`: the coroutine in the slot is scheduled. -/
def fire (fd : ℕ) (ev : IOManager.Event) : Option Waits :=
  let e := (s.ctx fd).getEventContext ev
  match e.scheduler with
  | none => none
  | some _ => some { s with
      ctx := Function.update s.ctx fd ((s.ctx fd).triger ev)
      tasks := s.tasks ++ e.co.toList }

def fireIf (b : Bool) (fd : ℕ) (ev : IOManager.Event) : Option Waits :=
  if b then s.fire fd ev else some s

/-- `iom->addTimer(to*1000, …)`, if there is a timeout; `to*1000` is an `int`. -/
def addTimer (co : ℕ) (p : Place) (now : UInt64) (addr : ℕ) : Option Waits :=
  if (s.call p.call).timeout = -1 then some (s.setPc co (some ⟨p.call, .armed, none⟩))
  else
    let timer := s.timers.nextTimer
    let ms := ((s.call p.call).timeout * 1000).toInt64.toUInt64
    (Time.step s.timers (.addTimer ms timer false now addr)).map fun timers =>
      { s.setPc co (some ⟨p.call, .armed, some timer⟩) with
        timers := timers
        armedBy := Function.update s.armedBy timer p.call
        cancel := Function.update s.cancel timer false }

/-- `iom->addEvent(fd, event)` on a scheduler's thread; if `epoll_ctl` fails, the waiter stays where
it has been put. -/
def addEvent (co : ℕ) (p : Place) (success : Bool) : Option Waits :=
  let c := s.call p.call
  let x := s.ctx c.fd
  if x.events.has c.event then none
  else if x.getEventContext c.event ≠ .empty then none
  else some { s.setPc co (some ⟨p.call, if success then .yielded else .refused, p.timer⟩) with
    ctx := Function.update s.ctx c.fd (x.add c.fd c.event (.waiting none co (some 0)))
    registrant := Function.update s.registrant c.fd
      (Function.update (s.registrant c.fd) c.event p.call) }

/-- `timer->cancel()`, if there is a timer. -/
def cancelTimer (timer : Option ℕ) : Option Waits :=
  match timer with
  | none => some s
  | some t => (Time.step s.timers (.cancel t)).map fun timers => { s with timers := timers }

/-- The callbacks are added to the task queue. -/
def listExpiredCb (now : UInt64) (probe : ℕ) : Option Waits :=
  let cbs := (s.timers.listExpiredCb now probe).1.filterMap Prod.snd
  (Time.step s.timers (.listExpiredCb now probe)).map fun timers =>
    { s with
      timers := timers
      callback := fun f => if f ∈ cbs then .queued else s.callback f }

/-- `cancelEvent`, with its test `!ctx->events & ev`, and the call whose waiter it has scheduled. -/
def cancelEvent (fd : ℕ) (ev : IOManager.Event) : Option (Option ℕ × Waits) :=
  let x := s.ctx fd
  if (if x.events = .none then 1#32 else 0#32) &&& ev.bits ≠ 0#32 then some (none, s)
  else (s.fire fd ev).map fun s' =>
    ((x.getEventContext ev).co.map fun _ => s.registrant fd ev, s')

/-- What `idle` does for a report. -/
def ready (fd : ℕ) (events : BitVec 32) : Option Waits :=
  let x := s.ctx fd
  let real := x.realEvents events
  if x.events.bits &&& real.bits = 0#32 then some s
  else (s.fireIf (real.has .read) fd .read).bind fun s => s.fireIf (real.has .write) fd .write

def cancelAll (fd : ℕ) : Option Waits :=
  if (s.ctx fd).events = .none then some s
  else (s.fireIf ((s.ctx fd).events.has .read) fd .read).bind fun s =>
    s.fireIf ((s.ctx fd).events.has .write) fd .write

end Sections

/-- A call returns where its coroutine is in no call any more. -/
def step (s : Waits) : Label → Option Waits
  | .call c =>
    if c.event = .none ∨ s.pc c.co ≠ none then none else some (s.enter c)
  | .attempt co r =>
    match s.pc co, r with
    | some ⟨_, .retry, _⟩, .error .eintr => some s
    | some ⟨call, .retry, _⟩, .error .eagain => some (s.setPc co (some ⟨call, .again, none⟩))
    | some ⟨_, .retry, _⟩, _ => some (s.setPc co none)
    | _, _ => none
  | .addTimer co now addr =>
    match s.pc co with
    | some ⟨call, .again, timer⟩ => s.addTimer co ⟨call, .again, timer⟩ now addr
    | _ => none
  | .addEvent co success =>
    match s.pc co with
    | some ⟨call, .armed, timer⟩ => s.addEvent co ⟨call, .armed, timer⟩ success
    | _ => none
  | .resume co =>
    match s.pc co with
    | some ⟨call, .yielded, timer⟩ =>
      if co ∈ s.tasks then
        some { s.setPc co (some ⟨call, .resumed, timer⟩) with tasks := s.tasks.erase co }
      else none
    | _ => none
  | .cancelTimer co =>
    match s.pc co with
    | some ⟨_, .refused, timer⟩ => (s.cancelTimer timer).map (·.setPc co none)
    | some ⟨call, .resumed, timer⟩ =>
      (s.cancelTimer timer).map (·.setPc co (some ⟨call, .cancelled, timer⟩))
    | _ => none
  | .testCancel co =>
    match s.pc co with
    | some ⟨call, .cancelled, timer⟩ =>
      if timer.any s.cancel then some (s.setPc co none)
      else some (s.setPc co (some ⟨call, .retry, none⟩))
    | _ => none
  | .listExpiredCb now probe => s.listExpiredCb now probe
  | .writeCancel f =>
    if s.callback f = .queued then
      some { s.setCallback f .written with
        cancel := Function.update s.cancel f true
        log := .wrote (s.armedBy f) (s.returned (s.armedBy f)) :: s.log }
    else none
  | .cancelEvent f =>
    if s.callback f = .written then
      let call := s.armedBy f
      (s.cancelEvent (s.call call).fd (s.call call).event).map fun (victim, s') =>
        { s'.setCallback f .finished with
          log := .cancelled call (s.returned call) victim :: s.log }
    else none
  | .ready fd events => s.ready fd events
  | .cancelAll fd => s.cancelAll fd

end Waits

end CoKV.Hook
