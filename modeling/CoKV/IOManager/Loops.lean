import CoKV.IOManager.Threads

/-!
# Several idle loops

The threads of an `IOManager` share one epoll instance. A thread in `idle` collects a batch with
`epoll_wait` and then goes through it, one event after the other, each under the mutex of its
context; in between the other threads go on, in their own `idle` or with an operation. A context
that is reported is the object that `data.ptr` points to, and objects are not deleted.
-/

namespace CoKV.IOManager

/-! ## What `idle` triggers -/

/-- A call of `trigerEvent` by `idle`, with the context as the call finds it. -/
structure Triger where
  ctx : ℕ
  event : Event
  found : FdContext

/-- The bit of the event is set, and its slot has a scheduler. -/
structure Triger.Registered (g : Triger) : Prop where
  set : g.found.events.has g.event = true
  scheduler : (g.found.getEventContext g.event).scheduler ≠ none

/-- `READ` goes before `WRITE`. -/
def Events.toList (e : Events) : List Event :=
  (if e.read then [.read] else []) ++ (if e.write then [.write] else [])

/-- The calls of `trigerEvent` for these events; there is none behind a call through a null
scheduler. -/
def FdContext.trigers (c : ℕ) : FdContext → List Event → List Triger
  | _, [] => []
  | x, ev :: evs =>
    ⟨c, ev, x⟩ ::
      if (x.getEventContext ev).scheduler = none then [] else trigers c (x.triger ev) evs

/-- The calls of `trigerEvent` in the body of the loop in `idle`. -/
def State.trigers (s : State) (c : ℕ) (events : BitVec 32) : List Triger :=
  let x := s.ctx c
  let real := x.realEvents events
  if x.events.bits &&& real.bits = 0#32 then [] else x.trigers c real.toList

/-! ## The steps -/

/-- Threads `T`, each with the rest of its batch. `trigered` records what the loops have triggered;
nothing moves after a fault. -/
structure Loops (T : Type) where
  threads : Threads T
  events : T → List Report
  trigered : List Triger
  fault : Option Fault

inductive LoopLabel (T : Type)
  | thread (l : ThreadLabel T)
  | epollWait (t : T) (events : List Report)
  | handle (t : T)

variable {T : Type}

def ThreadLabel.thread : ThreadLabel T → T
  | call t _ | step t _ => t

def ThreadPc.isOutside : ThreadPc → Bool
  | outside => true
  | _ => false

/-- The kernel may report `r`: what has been stored for the descriptor, with events of its mask. -/
def State.reports (s : State) (r : Report) : Bool :=
  match s.epfd r.fd with
  | none => false
  | some (mask, c) => c == r.ctx &&
      r.events &&& ~~~((mask &&& (EPOLLIN ||| EPOLLOUT)) ||| EPOLLERR ||| EPOLLHUP) == 0#32

namespace Loops

def start : Loops T := ⟨Threads.start, fun _ => [], [], none⟩

variable [DecidableEq T]

/-- `epoll_wait` reports 64 events at most, and each descriptor once. -/
def step (s : Loops T) : LoopLabel T → Option (Loops T)
  | .thread l =>
    if s.fault = none ∧ s.events l.thread = [] then
      (s.threads.step l).map fun threads => { s with threads := threads }
    else none
  | .epollWait t events =>
    if s.fault = none ∧ s.events t = [] ∧ (s.threads.pc t).isOutside ∧ events.length ≤ 64 ∧
        (events.map Report.fd).Nodup ∧ events.all s.threads.shared.reports then
      some { s with events := Function.update s.events t events }
    else none
  | .handle t =>
    match s.fault, s.events t with
    | none, r :: events =>
      let s' := { s with
        events := Function.update s.events t events
        trigered := s.trigered ++ s.threads.shared.trigers r.ctx r.events }
      match s.threads.shared.handle r.ctx r.events r.success with
      | .ok shared => some { s' with threads := { s.threads with shared := shared } }
      | .error f => some { s' with fault := some f }
    | _, _ => none

end Loops

end CoKV.IOManager
