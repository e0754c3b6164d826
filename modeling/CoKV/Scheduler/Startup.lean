import CoKV.Scheduler.Defs

/-!
# `start`, thread by thread

`Scheduler.step` takes `start` as one step, behind which every thread is in `run`. Here the loop of
`start` constructs one `Thread` after the other: `Thread::Thread` creates a thread and waits at the
semaphore of the object until `Thread::run` has written its id into it and taken the callback out of
it. `m_mutex` is held from the first step of `start` to the last, so that whoever needs it meanwhile
has to wait.

`sem_wait` returns early where a signal handler interrupts it, and `SemaphoreLock::wait` does not
look. If `pthread_create` fails, which is not looked at either, nobody notifies the constructor.
-/

namespace CoKV.Scheduler

/-- `Thread`, with `m_thread` for whether it is not 0, and the count of `m_semaphore`. -/
structure ThreadObject where
  mId : ℤ
  mThread : Bool
  mCb : Option Callback
  mSemaphore : ℕ

/-- Where `Thread::run` stands, with its local `cb`. -/
inductive EntryPc
  | setId
  | swapCb
  | notify (cb : Option Callback)
  | call (cb : Option Callback)

/-- Where the owner stands in `start`, with the threads of the iterations that are left. -/
inductive StartPc (W : Type)
  | before
  | loop (workers : List W)
  | wait (w : W) (workers : List W)
  | getId (w : W) (workers : List W)
  | after

/-- Whether `start` holds `m_mutex`. -/
def StartPc.inLoop {W : Type} : StartPc W → Bool
  | before | after => false
  | _ => true

/-- `threadpoll` is the part of `m_threadpoll` that has been set. A thread that has not called its
callback is `notStarted` in `state`; `entry` tells where it stands. -/
structure Startup (W : Type) where
  state : State W
  start : StartPc W
  object : W → ThreadObject
  entry : W → Option EntryPc
  threadpoll : List W
  threadIds : List ℤ

/-- The owner goes on in `start`, where `created` is whether `pthread_create` succeeds; its `sem_wait`
is interrupted; a thread goes on in `Thread::run`; or a step of anything else. -/
inductive StartLabel (W : Type)
  | start (created : Bool)
  | interrupted
  | entry (w : W)
  | other (l : Label W)

/-- `Thread(std::bind(&Scheduler::run,this))`, before its body -/
def ThreadObject.new : ThreadObject := ⟨-1, false, some .run, 0⟩

namespace Startup

variable {W : Type}

-- `getThreadId()`, which the kernel gives
variable (tid : Thread W → ℤ)

/-- What the constructor of the scheduler writes to `m_threadIds`. -/
def rootIds (cfg : Config W) : List ℤ := if cfg.useCaller then [tid .caller] else []

variable [DecidableEq W] (cfg : Config W)

def init (cbs : List ℕ) : Startup W where
  state := Scheduler.init cbs
  start := .before
  object := fun _ => .new
  entry := fun _ => none
  threadpoll := []
  threadIds := rootIds tid cfg

variable (y : Startup W)

def setObject (w : W) (x : ThreadObject) : Startup W :=
  { y with object := Function.update y.object w x }

def setEntry (w : W) (p : Option EntryPc) : Startup W :=
  { y with entry := Function.update y.entry w p }

/-- The loop is over, or there is nothing to start: `m_mutex` is released. -/
def leave : Startup W :=
  match y.state.pc .caller with
  | .caller (.start cbs) =>
    { y with start := .after, state := y.state.setPc .caller (.caller (.add cbs)) }
  | _ => y

/-- `Scheduler::start` and, within it, `Thread::Thread`. -/
def startStep (created : Bool) : StartPc W → Option (Startup W)
  | .before =>
    if !y.state.stopping then some y.leave
    else some { y with state := { y.state with stopping := false }, start := .loop cfg.workers }
  | .loop (w :: workers) =>
    some { (y.setObject w { ThreadObject.new with mThread := created }).setEntry w
      (if created then some .setId else none) with start := .wait w workers }
  | .loop [] => some y.leave
  | .wait w workers =>
    if 0 < (y.object w).mSemaphore then
      some { y.setObject w { y.object w with mSemaphore := (y.object w).mSemaphore - 1 } with
        start := .getId w workers }
    else none
  | .getId w workers =>
    some { y with
      threadpoll := y.threadpoll ++ [w]
      threadIds := y.threadIds ++ [(y.object w).mId]
      start := .loop workers }
  | .after => none

/-- `Thread::run`. An empty `std::function` cannot be called. -/
def entryStep (w : W) : EntryPc → Option (Startup W)
  | .setId =>
    some ((y.setObject w { y.object w with mId := tid (.worker w) }).setEntry w (some .swapCb))
  | .swapCb =>
    some ((y.setObject w { y.object w with mCb := none }).setEntry w
      (some (.notify (y.object w).mCb)))
  | .notify cb =>
    some ((y.setObject w { y.object w with mSemaphore := (y.object w).mSemaphore + 1 }).setEntry w
      (some (.call cb)))
  | .call (some .run) =>
    some { y.setEntry w none with state := y.state.setPc (.worker w) (.run none .scan) }
  | .call _ => none

/-- Whether a step of a thread or of the rest of the program begins with `m_mutex`: the scan of
`run`, `stopping` and `addTask` do. The owner is in `start` itself. -/
def needsMutex (s : State W) : Label W → Bool
  | .thread t =>
    match s.pc t with
    | .run _ .scan => true
    | .run _ (.turn x .check) => (s.co (x.co t)).mState = .ready
    | .co (.idle _) .body => true
    | _ => false
  | .body _ (.trigerEvent _) => true
  | .addTask _ => true
  | _ => false

/-- A step that is one of `start`. -/
def isStart (s : State W) : Label W → Bool
  | .thread .caller =>
    match s.pc .caller with
    | .caller (.start _) => true
    | _ => false
  | _ => false

def step (y : Startup W) : StartLabel W → Option (Startup W)
  | .start created => y.startStep cfg created y.start
  | .interrupted =>
    match y.start with
    | .wait w workers => some { y with start := .getId w workers }
    | _ => none
  | .entry w => (y.entry w).bind (y.entryStep tid w)
  | .other l =>
    if isStart y.state l ∨ (y.start.inLoop ∧ needsMutex y.state l) then none
    else (Scheduler.step cfg y.state l).map fun s => { y with state := s }

/-- No signal handler interrupts a `sem_wait`. -/
def Uninterrupted (_ : Startup W) : StartLabel W → Prop
  | .interrupted => False
  | _ => True

/-- The scheduler whose `start` is one step: what others find once they have `m_mutex`, with a thread
that is on its way to `run` taken to be there. -/
def abstract : State W :=
  { y.state with
    stopping := y.state.stopping || y.start.inLoop
    pc := fun
      | .caller => y.state.pc .caller
      | .worker w =>
        if y.start.inLoop then .notStarted
        else if (y.entry w).isSome then .run none .scan
        else y.state.pc (.worker w) }

end Startup

end CoKV.Scheduler
