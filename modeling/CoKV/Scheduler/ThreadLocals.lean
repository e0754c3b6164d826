import CoKV.Scheduler.Defs

/-!
# What a thread has of its own

The scheduler with the `thread_local` variables `co`, `main_co` and `sched_co`, which `Scheduler.step`
goes without: there the code on a stack knows its coroutine, and a run loop its `sched_co`. Here
`MainFunc`, `yieldtohold`, `run` and `addEvent` ask `getThis`, a switch asks `GetSchedulerSelfco`, and
what `MainFunc` and `yield` have in hand are locals on their stack. A null pointer is not followed:
there is no such step. The rest is as before.
-/

namespace CoKV.Scheduler

/-- `co`, `main_co` and `sched_co` of a thread. -/
structure Locals (W : Type) where
  co : Option (Co W)
  mainCo : Option (Co W)
  schedCo : Option (Co W)

/-- On a stack: `cur` in `MainFunc`, and `this` in the `yield` that has been called last. -/
structure StackFrame (W : Type) where
  cur : Option (Co W)
  this : Option (Co W)

structure System (W : Type) where
  state : State W
  locals : Thread W → Locals W
  frame : Co W → StackFrame W

variable {W : Type}

namespace Locals

variable (x : Locals W)

def null : Locals W := ⟨none, none, none⟩

/-- `SetThis(cur)` -/
def setThis (cur : Option (Co W)) : Locals W := { x with co := cur }

/-- `getThis()` on thread `t`. `Selfco()` makes itself `co`; an earlier `main_co` would be destroyed,
and its destructor sets `co` to null. -/
def getThis (t : Thread W) : Co W × Locals W :=
  match x.co with
  | some cur => (cur, x)
  | none =>
    (.main t, ⟨if x.mainCo.isNone then some (.main t) else none, some (.main t), x.schedCo⟩)

variable [DecidableEq W]

/-- `Scheduler::run` before its loop, with `m_rootthread`. -/
def enterRun (cfg : Config W) (t : Thread W) : Locals W :=
  if t = .caller ∧ cfg.useCaller = true then x
  else
    let (cur, x) := x.getThis t
    { x with schedCo := some cur }

/-- The thread of the constructor. -/
def construct (cfg : Config W) : Locals W :=
  if cfg.useCaller then { (null.getThis .caller).2 with schedCo := some .schedulerco } else null

end Locals

namespace System

variable [DecidableEq W] (cfg : Config W)

def init (cbs : List ℕ) : System W where
  state := Scheduler.init cbs
  locals := fun
    | .caller => .construct cfg
    | .worker _ => .null
  frame := fun _ => ⟨none, none⟩

variable (y : System W)

def setLocals (t : Thread W) (x : Locals W) : System W :=
  { y with locals := Function.update y.locals t x }

def setFrame (c : Co W) (f : StackFrame W) : System W :=
  { y with frame := Function.update y.frame c f }

/-- `resuem` of a run loop is two steps of a turn. -/
def runStep (t : Thread W) (cbCo : Option ℕ) : RunPc W → Option (System W)
  | .turn x .resume =>
    some { y.setLocals t ((y.locals t).setThis (some (x.co t))) with
      state := Scheduler.turnStep cfg y.state t cbCo x .resume }
  | .turn x .swapIn => (y.locals t).schedCo.map fun sched =>
    { y with state := y.state.swapcontext t (.run cbCo (.turn x .back)) sched (x.co t) }
  | p => some { y with state := Scheduler.runStep cfg y.state t cbCo p }

/-- The code on the stack of `c`. -/
def coStep (t : Thread W) (c : Co W) : CoPc → Option (System W)
  | .entry =>
    let (cur, x) := (y.locals t).getThis t
    match (y.state.co cur).mCb with
    | none =>
      some { (y.setLocals t x).setFrame c ⟨some cur, some cur⟩ with
        state := y.state.setPc t (.co c (.yield (.mainFunc false))) }
    | some .run =>
      some { (y.setLocals t (x.enterRun cfg t)).setFrame c { y.frame c with cur := some cur } with
        state := y.state.setPc t (.run none .scan) }
    | some _ =>
      some { (y.setLocals t x).setFrame c { y.frame c with cur := some cur } with
        state := y.state.setPc t (.co c .body) }
  | .returned => (y.frame c).cur.map fun cur =>
    let s := match (y.state.co cur).mCb with
      | some (.user f) => { y.state with executed := y.state.executed ++ [f] }
      | _ => y.state
    { y.setFrame c { y.frame c with this := some cur } with
      state := (s.modifyCo cur fun x => { x with mCb := none, mState := .term }).setPc t
        (.co c (.yield (.mainFunc true))) }
  | .yieldtohold =>
    let (cur, x) := (y.locals t).getThis t
    some { (y.setLocals t x).setFrame c { y.frame c with this := some cur } with
      state := (y.state.setState cur .hold).setPc t (.co c (.yield .yieldtohold)) }
  | .yield k => (y.frame c).this.map fun this =>
    { y.setLocals t ((y.locals t).setThis (y.locals t).mainCo) with
      state := (y.state.setState this .hold).setPc t (.co c (.swapOut k)) }
  | .swapOut k =>
    match (y.frame c).this, (y.locals t).schedCo with
    | some this, some sched =>
      some { y with state := y.state.swapcontext t (.co c k.cont) this sched }
    | _, _ => none
  | p => (Scheduler.coStep cfg y.state t c p).map fun s => { y with state := s }

/-- A callback that calls `addEvent` or `yield` does it with `getThis()`. -/
def bodyStep (t : Thread W) (c : Co W) : Act → Option (System W)
  | .addEvent =>
    match (y.locals t).getThis t with
    | (.made k, x) =>
      some { y.setLocals t x with state := { y.state with waiting := y.state.waiting ++ [k] } }
    | _ => none
  | .yield =>
    let (cur, x) := (y.locals t).getThis t
    some { (y.setLocals t x).setFrame c { y.frame c with this := some cur } with
      state := y.state.setPc t (.co c (.yield .callback)) }
  | a => (Scheduler.bodyStep y.state t c a).map fun s => { y with state := s }

/-- The variables behind a step of `start` or `stop`. A new thread is in `run` at once. -/
def callerLocals : CallerPc W → Thread W → Locals W
  | .start _, .worker w =>
    if y.state.stopping = true ∧ w ∈ cfg.workers then
      (y.locals (.worker w)).enterRun cfg (.worker w)
    else y.locals (.worker w)
  | .resume, .caller => (y.locals .caller).setThis (some .schedulerco)
  | _, t => y.locals t

/-- `start` and `stop` -/
def callerStep : CallerPc W → Option (System W)
  | .swapIn => (y.locals .caller).schedCo.map fun sched =>
    { y with state := y.state.swapcontext .caller (.caller (.join cfg.workers)) sched .schedulerco }
  | q => (Scheduler.callerStep cfg y.state q).map fun s =>
    { y with state := s, locals := y.callerLocals cfg q }

def step : Label W → Option (System W)
  | .thread t =>
    match y.state.pc t with
    | .caller q => y.callerStep cfg q
    | .run cbCo p => y.runStep cfg t cbCo p
    | .co c p => y.coStep cfg t c p
    | _ => none
  | .body t a =>
    match y.state.pc t with
    | .co c .body => y.bodyStep t c a
    | _ => none
  | l => (Scheduler.step cfg y.state l).map fun s => { y with state := s }

end System

end CoKV.Scheduler
