import Mathlib.Logic.Function.Basic
import Mathlib.Data.Nat.Notation
import Mathlib.Data.Int.Notation

/-!
# Coroutines and the scheduler

`Selfco` and `Scheduler` on any number of threads, as one step function. A step is one access to
what the threads share: a critical section under `m_mutex`, a read or a write of a coroutine's
`m_state`, or a `swapcontext`. Control is data: `Pc` says where the code that runs on a stack
stands, together with the locals of `Scheduler::run`, and a saved `ucontext_t` is a `Pc`, so that
`swapcontext(a, b)` stores the caller's continuation in `a` and goes on with whatever `b` holds.

Callbacks are arbitrary: what the body of a coroutine does next is in the label. The
thread-local `co` is left out, for `resuem` makes it the coroutine whose stack is loaded; so are
`tickle`, which only wakes a blocked `epoll_wait`, and the thread names in `m_threadIds`.

When `MainFunc` returns, `uc_link` is null. By the manual the thread exits, and so it does here; glibc
calls `exit()`, which ends all threads. A run of the program is then one of these runs up to the first
`fallOff`, and `stop`, which joins threads that end in no other way, does not return.
-/

namespace CoKV

/-! ## Coroutines -/

/-- `Selfco::State` -/
inductive CoState
  | init
  | exec
  | hold
  | term
  | ready
  deriving DecidableEq

/-- What an `m_cb` holds: `Scheduler::run`, `Scheduler::idle` or a function of the program. -/
inductive Callback
  | run
  | idle
  | user (f : ℕ)
  deriving DecidableEq

/-- `Selfco`, over the type `P` of what its `m_ctx` may hold. -/
structure Selfco (P : Type) where
  mState : CoState
  mCb : Option Callback
  mCtx : P

namespace Scheduler

/-- The thread that owns the scheduler, or one that `start` creates. -/
inductive Thread (W : Type)
  | caller
  | worker (w : W)
  deriving DecidableEq

/-- The `Selfco` objects: what `getThis()` makes for a thread, `m_schedulerco`, the local
`idle_co` of the run loop of a thread, and those made by `new Selfco(cb)`. -/
inductive Co (W : Type)
  | main (t : Thread W)
  | schedulerco
  | idle (t : Thread W)
  | made (k : ℕ)
  deriving DecidableEq

/-- `Scheduler::Task`; `thread_num` is `none` for `-1`. -/
structure Task (W : Type) where
  cb : Option ℕ
  selfco : Option ℕ
  threadNum : Option (Thread W)
  deriving DecidableEq

/-- `Task::Task()` and `Task::reset` -/
def Task.empty {W : Type} : Task W := ⟨none, none, none⟩

/-! ## Program counters -/

/-- What a run loop resumes: the coroutine of a task, `cb_co`, or `idle_co`. -/
inductive Turn
  | task (c : ℕ)
  | callback (c : ℕ)
  | idle
  deriving DecidableEq

/-- A turn with a coroutine, from `resuem` on: before `m_state = EXEC`, before `swapcontext`,
before the counter is decremented, before the state is looked at, before `setState(HOLD)`. -/
inductive Phase
  | resume
  | swapIn
  | back
  | check
  | setHold
  deriving DecidableEq

/-- Where `Scheduler::run` stands: at the critical section, after it with what it took, in a
turn, or past the loop. -/
inductive RunPc (W : Type)
  | scan
  | dispatch (task : Task W) (isActive : Bool)
  | turn (x : Turn) (ph : Phase)
  | left
  deriving DecidableEq

/-- Which call of `yield` it is: one by the callback itself, the one in `yieldtohold`, which has
already written `HOLD`, or the last one in `MainFunc`, after the callback has returned or without
one. -/
inductive YieldOf
  | callback
  | yieldtohold
  | mainFunc (returned : Bool)
  deriving DecidableEq

/-- Where the code on a coroutine's stack stands: at the start of `MainFunc`, in the callback,
behind it, in `yieldtohold` and in `yield` before their writes of `HOLD`, in `yield` before
`swapcontext`, and behind the last `yield`, where `MainFunc` returns. -/
inductive CoPc
  | entry
  | body
  | returned
  | yieldtohold
  | yield (y : YieldOf)
  | swapOut (y : YieldOf)
  | fallOff (returned : Bool)
  deriving DecidableEq

/-- Where the owner of the scheduler stands: it calls `start`, adds callbacks, and calls `stop`. -/
inductive CallerPc (W : Type)
  | start (cbs : List ℕ)
  | add (cbs : List ℕ)
  | stopCheck
  | setStopping
  | resume
  | swapIn
  | join (workers : List W)
  | returned
  deriving DecidableEq

/-- A program counter with its locals; `cbCo` is the local `cb_co` of `run`. -/
inductive Pc (W : Type)
  | notStarted
  | caller (p : CallerPc W)
  | run (cbCo : Option ℕ) (p : RunPc W)
  | co (c : Co W) (p : CoPc)
  | exited
  | undefined
  deriving DecidableEq

/-- The coroutine of a turn of thread `t`. -/
def Turn.co {W : Type} (t : Thread W) : Turn → Co W
  | task c | callback c => .made c
  | idle => .idle t

/-- The coroutine that the code of thread `t` has in hand: the one a run loop has taken from the
queue or goes through a turn with, or the one whose stack it runs on. -/
def Pc.inHand {W : Type} (t : Thread W) : Pc W → Option (Co W)
  | run _ (.dispatch task _) => task.selfco.map .made
  | run _ (.turn x _) => some (x.co t)
  | co c _ => some c
  | _ => none

/-! ## The shared state -/

/-- A constructed scheduler: whether it uses its owner's thread, and the threads `start` makes. -/
structure Config (W : Type) where
  useCaller : Bool
  workers : List W

/-- What the threads share. `waiting` are the coroutines that `addEvent` has registered and no
`trigerEvent` has handed over; `executed` records the callbacks that have returned. -/
structure State (W : Type) where
  co : Co W → Selfco (Pc W)
  nextCo : ℕ
  pc : Thread W → Pc W
  tasks : List (Task W)
  waiting : List ℕ
  activethreadcount : ℤ
  idlethreadcount : ℤ
  autostop : Bool
  stopping : Bool
  executed : List ℕ

variable {W : Type}

/-- `Selfco(cb)` and `reset(cb)`: the context starts `MainFunc`. -/
def freshCo (c : Co W) (cb : Option Callback) : Selfco (Pc W) := ⟨.init, cb, .co c .entry⟩

/-- The scheduler before `start`; its owner is going to add the callbacks `cbs`. -/
def init (cbs : List ℕ) : State W where
  co := fun
    | .main _ => ⟨.exec, none, .undefined⟩
    | .schedulerco => freshCo .schedulerco (some .run)
    | .idle t => freshCo (.idle t) (some .idle)
    | .made k => freshCo (.made k) none
  nextCo := 0
  pc := fun
    | .caller => .caller (.start cbs)
    | .worker _ => .notStarted
  tasks := []
  waiting := []
  activethreadcount := 0
  idlethreadcount := 0
  autostop := false
  stopping := true
  executed := []

/-- `sched_co` of a thread -/
def schedCo (cfg : Config W) : Thread W → Co W
  | .caller => if cfg.useCaller then .schedulerco else .main .caller
  | .worker w => .main (.worker w)

namespace State

section Tasks

variable (s : State W) (task : Task W)

/-- `addTask`: a task without callback and coroutine is dropped. -/
def addTask : State W :=
  if task.selfco.isSome ∨ task.cb.isSome then { s with tasks := s.tasks ++ [task] } else s

@[simp] theorem addTask_co : (s.addTask task).co = s.co := by
  unfold addTask
  split <;> rfl

@[simp] theorem addTask_pc : (s.addTask task).pc = s.pc := by
  unfold addTask
  split <;> rfl

@[simp] theorem addTask_nextCo : (s.addTask task).nextCo = s.nextCo := by
  unfold addTask
  split <;> rfl

@[simp] theorem addTask_waiting : (s.addTask task).waiting = s.waiting := by
  unfold addTask
  split <;> rfl

@[simp] theorem addTask_activethreadcount :
    (s.addTask task).activethreadcount = s.activethreadcount := by
  unfold addTask
  split <;> rfl

/-- A task in the queue was there or is the new one. -/
theorem mem_addTask {s : State W} {task task' : Task W} (h : task' ∈ (s.addTask task).tasks) :
    task' ∈ s.tasks ∨ task' = task := by
  unfold addTask at h
  split at h
  · simpa using h
  · exact Or.inl h

/-- `Scheduler::stopping` -/
def isStopping : Bool :=
  s.autostop && s.stopping && s.tasks.isEmpty && s.activethreadcount == 0

end Tasks

variable [DecidableEq W] (s : State W) (t : Thread W) (p k : Pc W) (a b c : Co W)
  (f : Selfco (Pc W) → Selfco (Pc W)) (st : CoState)

def setPc : State W := { s with pc := Function.update s.pc t p }

@[simp] theorem setPc_pc_self : (s.setPc t p).pc t = p := Function.update_self ..

@[simp] theorem setPc_co : (s.setPc t p).co = s.co := rfl

def modifyCo : State W := { s with co := Function.update s.co c (f (s.co c)) }

@[simp] theorem modifyCo_co_self : (s.modifyCo c f).co c = f (s.co c) := Function.update_self ..

/-- A change of one coroutine leaves the others. -/
theorem modifyCo_co_of_ne {c d : Co W} (h : c ≠ d) : (s.modifyCo d f).co c = s.co c :=
  Function.update_of_ne h ..

/-- `m_state = st` -/
def setState : State W := s.modifyCo c fun x => { x with mState := st }

@[simp] theorem setState_co_self : (s.setState c st).co c = { s.co c with mState := st } :=
  Function.update_self ..

/-- `setState` leaves the other coroutines. -/
theorem setState_co_of_ne {c d : Co W} (h : c ≠ d) : (s.setState d st).co c = s.co c :=
  Function.update_of_ne h ..

/-- `swapcontext(&a, &b)` on thread `t`, which goes on at `k` when `a` is loaded again: the context
is saved before the other one is loaded. -/
def swapcontext : State W :=
  let s := s.modifyCo a fun x => { x with mCtx := k }
  s.setPc t (s.co b).mCtx

@[simp] theorem swapcontext_co_self : (s.swapcontext t k a b).co a = { s.co a with mCtx := k } :=
  Function.update_self ..

/-- `swapcontext` saves one context and leaves the other coroutines. -/
theorem swapcontext_co_of_ne {a c : Co W} (h : c ≠ a) : (s.swapcontext t k a b).co c = s.co c :=
  Function.update_of_ne h ..

/-- The switch goes on with the context of `b`. -/
theorem swapcontext_pc {a b : Co W} (h : b ≠ a) :
    (s.swapcontext t k a b).pc = Function.update s.pc t (s.co b).mCtx := by
  show Function.update s.pc t ((s.modifyCo a _).co b).mCtx = _
  rw [modifyCo_co_of_ne _ _ h]

/-- Switching to itself goes on where it is. -/
theorem swapcontext_pc_self : (s.swapcontext t k a a).pc = Function.update s.pc t k := by
  show Function.update s.pc t ((s.modifyCo a fun x => { x with mCtx := k }).co a).mCtx = _
  rw [modifyCo_co_self]

/-- `new Selfco(cb)`, as object `made s.nextCo` -/
def newCo (cb : Option Callback) : State W :=
  { s.modifyCo (.made s.nextCo) fun _ => freshCo (.made s.nextCo) cb with nextCo := s.nextCo + 1 }

@[simp] theorem newCo_co_self (cb : Option Callback) :
    (s.newCo cb).co (.made s.nextCo) = freshCo (.made s.nextCo) cb := Function.update_self ..

/-- A new coroutine leaves those that are there. -/
theorem newCo_co_of_ne {c : Co W} (h : c ≠ .made s.nextCo) (cb : Option Callback) :
    (s.newCo cb).co c = s.co c := Function.update_of_ne h ..

end State

variable [DecidableEq W]

/-! ## `Scheduler::run` -/

/-- The tasks the scan of thread `t` does not step over. -/
def eligible (s : State W) (t : Thread W) (task : Task W) : Bool :=
  (task.threadNum = none ∨ task.threadNum = some t) ∧
    ∀ c ∈ task.selfco, (s.co (.made c)).mState ≠ .exec

/-- From `resuem` to the end of the branch. -/
def turnStep (cfg : Config W) (s : State W) (t : Thread W) (cbCo : Option ℕ) (x : Turn) :
    Phase → State W
  | .resume => (s.setState (x.co t) .exec).setPc t (.run cbCo (.turn x .swapIn))
  | .swapIn => s.swapcontext t (.run cbCo (.turn x .back)) (schedCo cfg t) (x.co t)
  | .back =>
    match x with
    | .idle => { s with idlethreadcount := s.idlethreadcount - 1 }.setPc t
        (.run cbCo (.turn x .check))
    | _ => { s with activethreadcount := s.activethreadcount - 1 }.setPc t
        (.run cbCo (.turn x .check))
  | .check =>
    match x, (s.co (x.co t)).mState with
    | .task c, .ready => (s.addTask ⟨none, some c, none⟩).setPc t (.run cbCo .scan)
    | .callback c, .ready => (s.addTask ⟨none, some c, none⟩).setPc t (.run none .scan)
    | .callback c, .term =>
      (s.modifyCo (.made c) fun _ => freshCo (.made c) none).setPc t (.run cbCo .scan)
    | _, .term => s.setPc t (.run cbCo .scan)
    | _, _ => s.setPc t (.run cbCo (.turn x .setHold))
  | .setHold =>
    match x with
    | .callback c => (s.setState (.made c) .hold).setPc t (.run none .scan)
    | _ => (s.setState (x.co t) .hold).setPc t (.run cbCo .scan)

/-- The branches behind the critical section. -/
def dispatch (s : State W) (t : Thread W) (cbCo : Option ℕ) (task : Task W) (isActive : Bool) :
    State W :=
  match task.selfco.filter fun c => (s.co (.made c)).mState ≠ .term with
  | some c => s.setPc t (.run cbCo (.turn (.task c) .resume))
  | none =>
    match task.cb, cbCo with
    | some f, some c =>
      (s.modifyCo (.made c) fun _ => freshCo (.made c) (some (.user f))).setPc t
        (.run cbCo (.turn (.callback c) .resume))
    | some f, none =>
      (s.newCo (some (.user f))).setPc t
        (.run (some s.nextCo) (.turn (.callback s.nextCo) .resume))
    | none, _ =>
      if isActive then
        { s with activethreadcount := s.activethreadcount - 1 }.setPc t (.run cbCo .scan)
      else if (s.co (.idle t)).mState = .term then
        s.setPc t (.run cbCo .left)
      else
        { s with idlethreadcount := s.idlethreadcount + 1 }.setPc t
          (.run cbCo (.turn .idle .resume))

/-- `Scheduler::run`. When it returns, a worker's thread function is done, and on
`m_schedulerco` the callback of `MainFunc` is. -/
def runStep (cfg : Config W) (s : State W) (t : Thread W) (cbCo : Option ℕ) :
    RunPc W → State W
  | .scan =>
    match s.tasks.find? (eligible s t) with
    | none => s.setPc t (.run cbCo (.dispatch .empty false))
    | some task =>
      { s with
          tasks := s.tasks.eraseP (eligible s t)
          activethreadcount := s.activethreadcount + 1 }.setPc t (.run cbCo (.dispatch task true))
  | .dispatch task isActive => dispatch s t cbCo task isActive
  | .turn x ph => turnStep cfg s t cbCo x ph
  | .left =>
    match t with
    | .caller => s.setPc t (.co .schedulerco .returned)
    | .worker _ => s.setPc t .exited

/-! ## `MainFunc`, `yield` and `yieldtohold` -/

/-- Where a coroutine goes on when it is resumed after a `yield`. -/
def YieldOf.cont : YieldOf → CoPc
  | callback | yieldtohold => .body
  | mainFunc returned => .fallOff returned

/-- The code on the stack of coroutine `c`, where it does not depend on the callback. The idle
callback is `while (!stopping()) yieldtohold();`. -/
def coStep (cfg : Config W) (s : State W) (t : Thread W) (c : Co W) : CoPc → Option (State W)
  | .entry =>
    match (s.co c).mCb with
    | none => some (s.setPc t (.co c (.yield (.mainFunc false))))
    | some .run => some (s.setPc t (.run none .scan))
    | some _ => some (s.setPc t (.co c .body))
  | .body =>
    match c with
    | .idle _ => some (s.setPc t (.co c (if s.isStopping then .returned else .yieldtohold)))
    | _ => none
  | .returned =>
    let s := match (s.co c).mCb with
      | some (.user f) => { s with executed := s.executed ++ [f] }
      | _ => s
    some ((s.modifyCo c fun x => { x with mCb := none, mState := .term }).setPc t
      (.co c (.yield (.mainFunc true))))
  | .yieldtohold => some ((s.setState c .hold).setPc t (.co c (.yield .yieldtohold)))
  | .yield y => some ((s.setState c .hold).setPc t (.co c (.swapOut y)))
  | .swapOut y => some (s.swapcontext t (.co c y.cont) c (schedCo cfg t))
  -- `uc_link` is null: the thread exits, or with glibc the process
  | .fallOff _ => some (s.setPc t .exited)

/-- What a callback does next. -/
inductive Act
  | addEvent
  | trigerEvent (i : ℕ)
  | yieldtohold
  | yield
  | ret
  deriving DecidableEq

/-- A step of the callback of coroutine `c`. Callbacks of the program register themselves, yield
and return; an overriding `idle` hands over waiters and yields. -/
def bodyStep (s : State W) (t : Thread W) (c : Co W) : Act → Option (State W)
  | .addEvent =>
    match c with
    | .made k => some { s with waiting := s.waiting ++ [k] }
    | _ => none
  | .trigerEvent i =>
    match c, s.waiting[i]? with
    | .idle _, some k => some ({ s with waiting := s.waiting.eraseIdx i }.addTask ⟨none, some k, none⟩)
    | _, _ => none
  | .yieldtohold => some (s.setPc t (.co c .yieldtohold))
  | .yield => some (s.setPc t (.co c (.yield .callback)))
  | .ret =>
    match c with
    | .made _ => some (s.setPc t (.co c .returned))
    | _ => none

/-! ## `start` and `stop` -/

/-- `start`, the callbacks added after it, and `stop`. -/
def callerStep (cfg : Config W) (s : State W) : CallerPc W → Option (State W)
  | .start cbs =>
    let s := if s.stopping then
        { s with
            stopping := false
            pc := fun
              | .caller => s.pc .caller
              | .worker w => if w ∈ cfg.workers then .run none .scan else s.pc (.worker w) }
      else s
    some (s.setPc .caller (.caller (.add cbs)))
  | .add (f :: cbs) => some ((s.addTask ⟨some f, none, none⟩).setPc .caller (.caller (.add cbs)))
  | .add [] => some ({ s with autostop := true }.setPc .caller (.caller .stopCheck))
  | .stopCheck =>
    let st := (s.co .schedulerco).mState
    if cfg.useCaller ∧ (st = .term ∨ st = .init) ∧ cfg.workers.length = 0 ∧ s.isStopping then
      some (s.setPc .caller (.caller .returned))
    else
      some (s.setPc .caller (.caller .setStopping))
  | .setStopping =>
    some ({ s with stopping := true }.setPc .caller
      (.caller (if cfg.useCaller then .resume else .join cfg.workers)))
  | .resume => some ((s.setState .schedulerco .exec).setPc .caller (.caller .swapIn))
  | .swapIn =>
    some (s.swapcontext .caller (.caller (.join cfg.workers)) (schedCo cfg .caller) .schedulerco)
  | .join [] => some (s.setPc .caller (.caller .returned))
  | .join (w :: workers) =>
    match s.pc (.worker w) with
    | .exited => some (s.setPc .caller (.caller (.join workers)))
    | _ => none
  | .returned => none

/-! ## The system -/

/-- A thread takes its next step, or its callback does `a`; or the rest of the program adds a
task, makes a coroutine and sets its state, or resets one that no run loop has in hand. -/
inductive Label (W : Type)
  | thread (t : Thread W)
  | body (t : Thread W) (a : Act)
  | addTask (task : Task W)
  | create (cb : Option ℕ) (st : CoState)
  | reset (c : ℕ) (cb : Option ℕ)

/-- The threads that ever run. -/
def Config.threads (cfg : Config W) : List (Thread W) := .caller :: cfg.workers.map .worker

def step (cfg : Config W) (s : State W) : Label W → Option (State W)
  | .thread t =>
    match s.pc t with
    | .caller p => callerStep cfg s p
    | .run cbCo p => some (runStep cfg s t cbCo p)
    | .co c p => coStep cfg s t c p
    | _ => none
  | .body t a =>
    match s.pc t with
    | .co c .body => bodyStep s t c a
    | _ => none
  | .addTask task =>
    if ∀ c ∈ task.selfco, c < s.nextCo then some (s.addTask task) else none
  | .create cb st => some ((s.newCo (cb.map .user)).setState (.made s.nextCo) st)
  | .reset c cb =>
    if c < s.nextCo ∧ ∀ t ∈ cfg.threads, (s.pc t).inHand t ≠ some (.made c) then
      some (s.modifyCo (.made c) fun _ => freshCo (.made c) (cb.map .user))
    else none

end Scheduler
end CoKV
