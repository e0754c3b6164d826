import CoKV.IOManager.Loops

/-!
# Descriptors that get ready

Idle loops beside the kernel, which knows what each descriptor is ready for and keeps the ready list
of `m_epfd`. A descriptor is put in the list when it gets ready for an event of its mask, and by an
`epoll_ctl` that finds it ready. `epoll_wait` reports what is in the list and still ready, and may
report an error with it; it takes the descriptor out of the list if the mask has `EPOLLET`, or if
there is nothing to report.
-/

namespace CoKV.IOManager

variable {T : Type}

/-- The section behind the lookup calls `epoll_ctl`. -/
def Op.ctls (x : FdContext) : Op → Bool
  | .addEvent .. => true
  | .delEvent _ ev => x.events.has ev
  | .cancelEvent _ ev => (if x.events = .none then 1#32 else 0#32) &&& ev.bits == 0#32
  | .cancelAll _ => x.events ≠ .none

/-- The body of the loop in `idle` calls `epoll_ctl`. -/
def FdContext.ctls (x : FdContext) (events : BitVec 32) : Bool :=
  x.events.bits &&& (x.realEvents events).bits != 0#32

/-- The descriptor of the `epoll_ctl` that a step makes, if it makes one and it succeeds. -/
def Loops.ctlFd (s : Loops T) : LoopLabel T → Option ℕ
  | .thread (.step t true) =>
    match s.threads.pc t with
    | .act op c => if op.ctls (s.threads.shared.ctx c) then some op.fd else none
    | _ => none
  | .handle t =>
    match s.events t with
    | r :: _ =>
      let x := s.threads.shared.ctx r.ctx
      if r.success && x.ctls r.events then some x.fd else none
    | [] => none
  | _ => none

/-- The loops, what each descriptor is ready for, and which are in the ready list. -/
structure Polled (T : Type) where
  loops : Loops T
  ready : ℕ → Events
  listed : ℕ → Bool

/-- A step of a thread; `epoll_wait`, which finds nothing to report for `stale`; or what the other
end does: a descriptor gets ready for an event, or what it was ready for is used up. -/
inductive PollLabel (T : Type)
  | thread (l : ThreadLabel T)
  | handle (t : T)
  | epollWait (t : T) (events : List Report) (stale : List ℕ)
  | wake (fd : ℕ) (ev : Event)
  | drain (fd : ℕ) (events : Events)

namespace Polled

def start : Polled T := ⟨.start, fun _ => .none, fun _ => false⟩

variable (s : Polled T)

def shared : State := s.loops.threads.shared

/-- What there is to report for a descriptor. -/
def poll (fd : ℕ) : Events :=
  match s.shared.epfd fd with
  | none => .none
  | some (mask, _) => ⟨(s.ready fd).read && mask &&& EPOLLIN != 0#32,
      (s.ready fd).write && mask &&& EPOLLOUT != 0#32⟩

/-- The events of the mask. -/
def listens (fd : ℕ) (ev : Event) : Bool :=
  match s.shared.epfd fd with
  | none => false
  | some (mask, _) => mask &&& ev.bits != 0#32

def edgeTriggered (fd : ℕ) : Bool :=
  match s.shared.epfd fd with
  | none => false
  | some (mask, _) => mask &&& EPOLLET != 0#32

/-- `epoll_wait` may report `r`. -/
def delivers (r : Report) : Bool :=
  s.listed r.fd && r.events != 0#32 &&
    s.poll r.fd == ⟨r.events &&& EPOLLIN != 0#32, r.events &&& EPOLLOUT != 0#32⟩

/-- What a step of the loops leaves of the list, if it has made an `epoll_ctl` for `fd`. -/
def relist (fd : Option ℕ) (loops : Loops T) : Polled T :=
  let s' := { s with loops := loops }
  match fd with
  | none => s'
  | some fd =>
    let linked := (s'.shared.epfd fd).isSome && (s.listed fd || s'.poll fd != .none)
    { s' with listed := Function.update s.listed fd linked }

/-- What `epoll_wait` leaves of the list. -/
def unlist (events : List Report) (stale : List ℕ) (fd : ℕ) : Bool :=
  s.listed fd && !stale.contains fd && !(events.any fun r => r.fd == fd && s.edgeTriggered fd)

variable [DecidableEq T]

def step (s : Polled T) : PollLabel T → Option (Polled T)
  | .thread l => (s.loops.step (.thread l)).map (s.relist (s.loops.ctlFd (.thread l)))
  | .handle t => (s.loops.step (.handle t)).map (s.relist (s.loops.ctlFd (.handle t)))
  | .epollWait t events stale =>
    if events.all s.delivers && stale.all fun fd => s.poll fd == .none then
      (s.loops.step (.epollWait t events)).map fun loops =>
        { s with loops := loops, listed := s.unlist events stale }
    else none
  | .wake fd ev => some { s with
      ready := Function.update s.ready fd ((s.ready fd).insert ev)
      listed := Function.update s.listed fd (s.listed fd || s.listens fd ev) }
  | .drain fd events => some { s with
      ready := Function.update s.ready fd ((s.ready fd).diff events) }

end Polled

end CoKV.IOManager
