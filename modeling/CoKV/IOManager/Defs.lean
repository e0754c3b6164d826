import Mathlib.Algebra.Group.Nat.Defs
import Mathlib.Logic.Function.Basic
import Mathlib.Data.Nat.Notation
import Mathlib.Data.Int.Notation

/-!
# The table of descriptors

`IOManager`: the table `m_fdContexts`, the `FdContext` objects, the counter of pending events and
what the kernel knows. The operations are cut where the source takes its locks: a lookup is a
section under the read lock and, if the table is too short, another one under the write lock; what
follows is a section under the mutex of the `FdContext`.

`epoll_ctl` succeeds or fails as the kernel likes, so its result is an argument. What the source
leaves to chance is a `Fault`: a failed assertion, a call through a null `Scheduler*`, an index
behind the end of the table, an allocation there is no room for. The descriptor `m_eventfd`, which
wakes `epoll_wait` up, and the timers that `idle` also serves are left out.
-/

namespace CoKV.IOManager

/-! ## Events -/

/-- `IOManager::Event`, as an argument -/
inductive Event
  | none
  | read
  | write
  deriving DecidableEq

def Event.bits : Event → BitVec 32
  | none => 0#32
  | read => 1#32
  | write => 4#32

/-- `IOManager::Event`, as the field `events`: a set of `READ` and `WRITE`. -/
structure Events where
  read : Bool
  write : Bool
  deriving DecidableEq

namespace Events

def none : Events := ⟨false, false⟩

def bits (e : Events) : BitVec 32 :=
  (if e.read then Event.read.bits else 0#32) ||| (if e.write then Event.write.bits else 0#32)

/-- `events & ev` -/
def has (e : Events) : Event → Bool
  | .none => false
  | .read => e.read
  | .write => e.write

/-- `events | ev` -/
def insert (e : Events) : Event → Events
  | .none => e
  | .read => { e with read := true }
  | .write => { e with write := true }

/-- `events & ~ev` -/
def erase (e : Events) : Event → Events
  | .none => e
  | .read => { e with read := false }
  | .write => { e with write := false }

/-- `events & ~real_events` -/
def diff (e real : Events) : Events := ⟨e.read && !real.read, e.write && !real.write⟩

/-- How many bits are set. -/
def count (e : Events) : ℕ := e.read.toNat + e.write.toNat

theorem has_eq (e : Events) (ev : Event) : e.has ev = (e.bits &&& ev.bits != 0#32) := by
  obtain ⟨r, w⟩ := e
  cases r <;> cases w <;> cases ev <;> rfl

theorem bits_insert (e : Events) (ev : Event) : (e.insert ev).bits = e.bits ||| ev.bits := by
  obtain ⟨r, w⟩ := e
  cases r <;> cases w <;> cases ev <;> rfl

theorem bits_erase (e : Events) (ev : Event) : (e.erase ev).bits = e.bits &&& ~~~ev.bits := by
  obtain ⟨r, w⟩ := e
  cases r <;> cases w <;> cases ev <;> rfl

end Events

def EPOLLIN : BitVec 32 := 0x001#32
def EPOLLOUT : BitVec 32 := 0x004#32
def EPOLLERR : BitVec 32 := 0x008#32
def EPOLLHUP : BitVec 32 := 0x010#32
def EPOLLET : BitVec 32 := 0x80000000#32

/-! ## Contexts -/

/-- What a waiter wants to be done: a callback called, or a coroutine resumed. -/
inductive Work
  | cb (f : ℕ)
  | co (k : ℕ)
  deriving DecidableEq

/-- Somebody who waits for an event of a context, and the scheduler that is to do the work. -/
structure Waiter where
  ctx : ℕ
  event : Event
  scheduler : Option ℕ
  work : Work
  deriving DecidableEq

/-- `FdContext::EventContext`; a scheduler, a coroutine and a callback are known by a number. -/
structure EventContext where
  scheduler : Option ℕ
  co : Option ℕ
  cb : Option ℕ
  deriving DecidableEq

namespace EventContext

/-- `resetEventContext` -/
def empty : EventContext := ⟨none, none, none⟩

/-- The waiter in the slot of `event` of context `ctx`; a callback goes first. -/
def waiter (ctx : ℕ) (event : Event) (e : EventContext) : Option Waiter :=
  match e.cb, e.co with
  | some f, _ => some ⟨ctx, event, e.scheduler, .cb f⟩
  | none, some k => some ⟨ctx, event, e.scheduler, .co k⟩
  | none, none => none

/-- What `addEvent` puts into an empty slot; `self` is `Selfco::getThis()` and `scheduler` is
`Scheduler::GetThis()`. -/
def waiting (cb : Option ℕ) (self : ℕ) (scheduler : Option ℕ) : EventContext :=
  match cb with
  | some f => ⟨scheduler, none, some f⟩
  | none => ⟨scheduler, some self, none⟩

/-- What `addTask(&ctx.cb)` or `addTask(&ctx.co)` and `ctx.scheduler = nullptr` leave: the task
has swapped the callback or the coroutine out. -/
def taken (e : EventContext) : EventContext :=
  match e.cb with
  | some _ => ⟨none, e.co, none⟩
  | none => ⟨none, none, none⟩

end EventContext

/-- `IOManager::FdContext`; `fd` is not initialised, and only read after `addEvent` has set it. -/
structure FdContext where
  read : EventContext
  write : EventContext
  fd : ℕ
  events : Events
  deriving DecidableEq

namespace FdContext

/-- `new FdContext` -/
def new : FdContext := ⟨.empty, .empty, 0, .none⟩

def getEventContext (x : FdContext) : Event → EventContext
  | .read => x.read
  | _ => x.write

/-- A write through what `getEventContext` returns. -/
def setEventContext (x : FdContext) (ev : Event) (e : EventContext) : FdContext :=
  match ev with
  | .read => { x with read := e }
  | _ => { x with write := e }

/-- `real_events` in `idle`, when `epoll_wait` has reported `events`. -/
def realEvents (x : FdContext) (events : BitVec 32) : Events :=
  let events :=
    if events &&& (EPOLLERR ||| EPOLLHUP) ≠ 0#32 then
      events ||| ((EPOLLIN ||| EPOLLHUP) &&& x.events.bits)
    else events
  ⟨events &&& EPOLLIN != 0#32, events &&& EPOLLOUT != 0#32⟩

/-- The fields behind `addEvent`. -/
def add (x : FdContext) (fd : ℕ) (ev : Event) (e : EventContext) : FdContext :=
  { x with fd := fd, events := x.events.insert ev }.setEventContext ev e

/-- The fields behind `delEvent`. -/
def del (x : FdContext) (ev : Event) : FdContext :=
  { x with events := x.events.erase ev }.setEventContext ev .empty

/-- The fields behind `trigerEvent`. -/
def triger (x : FdContext) (ev : Event) : FdContext :=
  { x with events := x.events.erase ev }.setEventContext ev (x.getEventContext ev).taken

section Fields

variable {x : FdContext} {fd : ℕ} {ev : Event} {e : EventContext}

@[simp] theorem events_setEventContext : (x.setEventContext ev e).events = x.events := by
  cases ev <;> rfl

@[simp] theorem fd_setEventContext : (x.setEventContext ev e).fd = x.fd := by
  cases ev <;> rfl

@[simp] theorem events_add : (x.add fd ev e).events = x.events.insert ev := events_setEventContext

@[simp] theorem events_del : (x.del ev).events = x.events.erase ev := events_setEventContext

@[simp] theorem events_triger : (x.triger ev).events = x.events.erase ev := events_setEventContext

@[simp] theorem fd_add : (x.add fd ev e).fd = fd := fd_setEventContext

@[simp] theorem fd_del : (x.del ev).fd = x.fd := fd_setEventContext

@[simp] theorem fd_triger : (x.triger ev).fd = x.fd := fd_setEventContext

end Fields

end FdContext

/-! ## The state -/

/-- An `IOManager` and its kernel's interest set. `ctx` are the objects, of which `nextCtx` have
been made; the others are as `new` will leave them. `registered`, `dropped` and `handed` record the
waiters that `addEvent` has put in a slot, that `delEvent` has thrown away and that have been given
to `addTask`. -/
structure State where
  ctx : ℕ → FdContext
  nextCtx : ℕ
  fdContexts : List ℕ
  epfd : ℕ → Option (BitVec 32 × ℕ)
  pendingEventCount : BitVec 64
  registered : List Waiter
  dropped : List Waiter
  handed : List Waiter

inductive Fault
  | assertion
  | nullScheduler
  | outOfRange
  | badAlloc
  deriving DecidableEq

/-- More objects than these do not fit into the address space: each takes 16 bytes at least. -/
def maxContexts : ℕ := 2 ^ 60

/-- The constructor: `contextResize(32)`. -/
def init : State where
  ctx := fun _ => .new
  nextCtx := 32
  fdContexts := List.range 32
  epfd := fun _ => none
  pendingEventCount := 0
  registered := []
  dropped := []
  handed := []

inductive CtlOp
  | add
  | mod
  | del
  deriving DecidableEq

/-- An operation with its arguments, and the caller's coroutine and scheduler. -/
inductive Op
  | addEvent (fd : ℕ) (ev : Event) (cb : Option ℕ) (self : ℕ) (scheduler : Option ℕ)
  | delEvent (fd : ℕ) (ev : Event)
  | cancelEvent (fd : ℕ) (ev : Event)
  | cancelAll (fd : ℕ)

def Op.fd : Op → ℕ
  | addEvent fd .. | delEvent fd _ | cancelEvent fd _ | cancelAll fd => fd

/-- An `epoll_event` that `epoll_wait` reports: `data.ptr` is what has been stored for the
descriptor. `success` is the result of the `epoll_ctl` that follows. -/
structure Report where
  fd : ℕ
  ctx : ℕ
  events : BitVec 32
  success : Bool

namespace State

variable (s : State)

def setCtx (c : ℕ) (x : FdContext) : State := { s with ctx := Function.update s.ctx c x }

/-- `epoll_ctl`: what it does to the interest set if it succeeds. -/
def epollCtl (op : CtlOp) (fd : ℕ) (mask : BitVec 32) (ptr : ℕ) (success : Bool) : State :=
  if success then
    { s with epfd := Function.update s.epfd fd (if op = .del then none else some (mask, ptr)) }
  else s

/-- `(int)m_fdContexts.size()` -/
def intSize : ℤ := (BitVec.ofNat 32 s.fdContexts.length).toInt

/-- The table cut off, or filled up with new objects. -/
def resized (size : ℕ) : State :=
  let added := size - s.fdContexts.length
  { s with
    fdContexts := s.fdContexts.take size ++ List.range' s.nextCtx added
    nextCtx := s.nextCtx + added }

def contextResize (size : ℕ) : Except Fault State :=
  if (s.resized size).nextCtx ≤ maxContexts then .ok (s.resized size) else .error .badAlloc

/-! ## The lookup -/

/-- The section under the read lock: the context, or `none` if the table is too short. -/
def readSection (fd : ℕ) : Except Fault (Option ℕ) :=
  if (fd : ℤ) < s.intSize then
    match s.fdContexts[fd]? with
    | some c => .ok (some c)
    | none => .error .outOfRange
  else .ok none

/-- The section under the write lock; `fd * 1.5` is exact and then truncated. -/
def writeSection (fd : ℕ) : Except Fault (ℕ × State) := do
  let s ← s.contextResize (3 * fd / 2)
  match s.fdContexts[fd]? with
  | some c => .ok (c, s)
  | none => .error .outOfRange

def lookup (fd : ℕ) : Except Fault (ℕ × State) := do
  match ← s.readSection fd with
  | some c => .ok (c, s)
  | none => s.writeSection fd

/-! ## Under the mutex of a context -/

/-- The rest of `addEvent`. -/
def addEvent (c fd : ℕ) (ev : Event) (cb : Option ℕ) (self : ℕ) (scheduler : Option ℕ)
    (success : Bool) : Except Fault (ℤ × State) :=
  let x := s.ctx c
  if x.events.has ev then .error .assertion
  else if x.getEventContext ev ≠ .empty then .error .assertion
  else
    let e := EventContext.waiting cb self scheduler
    let op := if x.events ≠ .none then CtlOp.mod else .add
    let x' := x.add fd ev e
    let s := { s.setCtx c x' with registered := s.registered ++ (e.waiter c ev).toList }
    let s := s.epollCtl op fd (EPOLLET ||| x'.events.bits) c success
    if success then .ok (0, { s with pendingEventCount := s.pendingEventCount + 1 })
    else .ok (-1, s)

/-- The rest of `delEvent`. -/
def delEvent (c fd : ℕ) (ev : Event) (success : Bool) : Except Fault (Bool × State) :=
  let x := s.ctx c
  if ¬ x.events.has ev then .ok (false, s)
  else
    let x' := x.del ev
    let s := { s.setCtx c x' with
      dropped := s.dropped ++ ((x.getEventContext ev).waiter c ev).toList }
    let op := if x'.events ≠ .none then CtlOp.mod else .del
    let s := s.epollCtl op fd x'.events.bits c success
    .ok (true, { s with pendingEventCount := s.pendingEventCount - 1 })

/-- `trigerEvent`: a task without callback and coroutine is dropped by `addTask`. -/
def trigerEvent (c : ℕ) (ev : Event) : Except Fault State :=
  let x := s.ctx c
  let e := x.getEventContext ev
  match e.scheduler with
  | none => .error .nullScheduler
  | some _ =>
    .ok { s.setCtx c (x.triger ev) with handed := s.handed ++ (e.waiter c ev).toList }

/-- `trigerEvent(ev); --m_pendingEventCount;` -/
def fire (c : ℕ) (ev : Event) : Except Fault State := do
  let s ← s.trigerEvent c ev
  .ok { s with pendingEventCount := s.pendingEventCount - 1 }

/-- `if (b) { trigerEvent(ev); --m_pendingEventCount; }` -/
def fireIf (b : Bool) (c : ℕ) (ev : Event) : Except Fault State :=
  if b then s.fire c ev else .ok s

/-- The rest of `cancelEvent`. The test is `!ctx->events & ev`, and the mask is the old one. -/
def cancelEvent (c fd : ℕ) (ev : Event) (success : Bool) : Except Fault (Bool × State) := do
  let x := s.ctx c
  if (if x.events = .none then 1#32 else 0#32) &&& ev.bits ≠ 0#32 then .ok (false, s)
  else
    let op := if x.events.erase ev ≠ .none then CtlOp.mod else .del
    let s ← (s.epollCtl op fd x.events.bits c success).fire c ev
    .ok (true, s)

/-- The rest of `cancelAll`. -/
def cancelAll (c fd : ℕ) (success : Bool) : Except Fault (Bool × State) := do
  let x := s.ctx c
  if x.events = .none then .ok (false, s)
  else
    let s := s.epollCtl .del fd 0#32 c success
    let s ← s.fireIf ((s.ctx c).events.has .read) c .read
    let s ← s.fireIf ((s.ctx c).events.has .write) c .write
    .ok (true, s)

/-- The body of the loop in `idle`, for a context that `epoll_wait` has reported. -/
def handle (c : ℕ) (events : BitVec 32) (success : Bool) : Except Fault State := do
  let x := s.ctx c
  let real := x.realEvents events
  if x.events.bits &&& real.bits = 0#32 then .ok s
  else
    let left := x.events.diff real
    let op := if left ≠ .none then CtlOp.mod else .del
    let s := s.epollCtl op x.fd (EPOLLET ||| left.bits) c success
    let s ← s.fireIf (real.has .read) c .read
    s.fireIf (real.has .write) c .write

/-- `idle` goes through what `epoll_wait` has reported. -/
def idle (reports : List Report) : Except Fault State :=
  reports.foldlM (fun s r => s.handle r.ctx r.events r.success) s

/-- `IOManager::stopping` -/
def stopping (schedulerStopping : Bool) : Bool :=
  schedulerStopping && s.pendingEventCount == 0

/-! ## One thread -/

/-- An operation behind its lookup. -/
def act (c : ℕ) (success : Bool) : Op → Except Fault State
  | .addEvent fd ev cb self scheduler =>
    (·.2) <$> s.addEvent c fd ev cb self scheduler success
  | .delEvent fd ev => (·.2) <$> s.delEvent c fd ev success
  | .cancelEvent fd ev => (·.2) <$> s.cancelEvent c fd ev success
  | .cancelAll fd => (·.2) <$> s.cancelAll c fd success

def call (op : Op) (success : Bool) : Except Fault State := do
  let (c, s) ← s.lookup op.fd
  s.act c success op

end State

/-- A step of a program with one thread: an operation, or what `epoll_wait` reports in `idle`,
which the kernel has registered. -/
inductive Label
  | call (op : Op) (success : Bool)
  | idle (reports : List Report)

/-- The steps that end without a fault. -/
def step (s : State) : Label → Option State
  | .call op success => (s.call op success).toOption
  | .idle reports =>
    if ∀ r ∈ reports, (s.epfd r.fd).map Prod.snd = some r.ctx then (s.idle reports).toOption
    else none

end CoKV.IOManager
