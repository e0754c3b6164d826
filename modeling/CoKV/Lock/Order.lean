import CoKV.Lib.LockOrder

/-!
# Which locks are taken, and that nobody waits for ever

The locks that the functions of the library take and release, in the order of the source: the mutex of
a scheduler's tasks, the lock of an `IOManager`'s table and the mutexes of its contexts, the lock of
its timers, and that of `FdManager`. Where a function branches on something else, the branch is an
argument. A guard is taken to find its memory clear. `start` is left out: what it waits for under the
mutex of the tasks are threads that take no lock.

`tickle` calls `write`, which is the hooked one, so that it looks `m_eventfd` up in `FdManager`: a task
that is added under the mutex of a context takes two more locks in turn. `calls_return`: however the
calls of any number of threads interleave, they never all wait for each other, and all can return.
-/

namespace CoKV.Lock.Order

open LockOrder

/-- `Scheduler::m_mutex`, `IOManager::m_mutex`, `FdContext::mutex` and `TimerManager::m_mutex` of
scheduler `k`, and `FdManager::m_mutex`. -/
inductive LockId
  | tasks (k : ℕ)
  | table (k : ℕ)
  | context (k fd : ℕ)
  | timers (k : ℕ)
  | fds
  deriving DecidableEq

/-- A task is added, and a descriptor looked up, under the mutex of a context. -/
def LockId.rank : LockId → ℕ
  | context _ _ => 0
  | _ => 1

/-- A guard in a block with `body`. -/
def guarded (m : LockId) (mode : Mode) (body : List (Act LockId)) : List (Act LockId) :=
  .acquire m mode :: body ++ [.release m]

/-! ## The functions -/

/-- `FdManager::get`; `creates` tells that nothing is found and `auto_create` is true. -/
def get (creates : Bool) : List (Act LockId) :=
  guarded .fds .shared [] ++ if creates then guarded .fds .exclusive [] else []

/-- `FdManager::del` -/
def del : List (Act LockId) := guarded .fds .exclusive []

/-- `IOManager::tickle`, where `wakes` tells that there are idle threads and the hooks are on. -/
def tickle (wakes : Bool) : List (Act LockId) := if wakes then get false else []

/-- `Scheduler::addTask`; without `need_tickle` nobody is woken. -/
def addTask (k : ℕ) (wakes : Bool) : List (Act LockId) :=
  guarded (.tasks k) .exclusive [] ++ tickle wakes

/-- The look at `m_tasks` in `Scheduler::run`. -/
def scan (k : ℕ) (wakes : Bool) : List (Act LockId) :=
  guarded (.tasks k) .exclusive [] ++ tickle wakes

/-- `Scheduler::stopping`, and the block of `stop` -/
def stopping (k : ℕ) : List (Act LockId) := guarded (.tasks k) .exclusive []

/-- How a context is looked up; `inRange` is the test of the size. -/
def lookup (k : ℕ) (inRange : Bool) : List (Act LockId) :=
  guarded (.table k) .shared [] ++ if inRange then [] else guarded (.table k) .exclusive []

/-- A waiter that is handed over: its scheduler, and whether that wakes somebody. -/
structure Fired where
  scheduler : ℕ
  wakes : Bool

/-- `FdContext::trigerEvent`, where there is a waiter -/
def trigerEvent (fired : Option Fired) : List (Act LockId) :=
  match fired with
  | some f => addTask f.scheduler f.wakes
  | none => []

def addEvent (k fd : ℕ) (inRange : Bool) : List (Act LockId) :=
  lookup k inRange ++ guarded (.context k fd) .exclusive []

def delEvent (k fd : ℕ) (inRange : Bool) : List (Act LockId) :=
  lookup k inRange ++ guarded (.context k fd) .exclusive []

def cancelEvent (k fd : ℕ) (inRange : Bool) (fired : Option Fired) : List (Act LockId) :=
  lookup k inRange ++ guarded (.context k fd) .exclusive (trigerEvent fired)

def cancelAll (k fd : ℕ) (inRange : Bool) (read write : Option Fired) : List (Act LockId) :=
  lookup k inRange ++
    guarded (.context k fd) .exclusive (trigerEvent read ++ trigerEvent write)

/-- What `idle` does with a report. -/
def handle (k fd : ℕ) (read write : Option Fired) : List (Act LockId) :=
  guarded (.context k fd) .exclusive (trigerEvent read ++ trigerEvent write)

/-- `TimerManager::addTimer`, and `Timer::refresh` and `reset`, which call it with their guard: it is
unlocked before `onTimerInsertedAtFront`. Where they find no timer, nobody is woken. -/
def addTimer (k : ℕ) (wakes : Bool) : List (Act LockId) :=
  guarded (.timers k) .exclusive [] ++ tickle wakes

/-- `Timer::cancel` -/
def cancel (k : ℕ) : List (Act LockId) := guarded (.timers k) .exclusive []

def getNextTimer (k : ℕ) : List (Act LockId) := guarded (.timers k) .shared []

/-- `TimerManager::listExpiredCb`; the first recurring timer unlocks the guard. -/
def listExpiredCb (k : ℕ) (empty : Bool) (wakes : List Bool) : List (Act LockId) :=
  guarded (.timers k) .shared [] ++
    if empty then [] else guarded (.timers k) .exclusive [] ++ wakes.flatMap tickle

/-- A call. `io_func`, `close` and `idle` hold no lock between those that they make. -/
inductive Call
  | get (creates : Bool)
  | del
  | tickle (wakes : Bool)
  | addTask (k : ℕ) (wakes : Bool)
  | scan (k : ℕ) (wakes : Bool)
  | stopping (k : ℕ)
  | addEvent (k fd : ℕ) (inRange : Bool)
  | delEvent (k fd : ℕ) (inRange : Bool)
  | cancelEvent (k fd : ℕ) (inRange : Bool) (fired : Option Fired)
  | cancelAll (k fd : ℕ) (inRange : Bool) (read write : Option Fired)
  | handle (k fd : ℕ) (read write : Option Fired)
  | addTimer (k : ℕ) (wakes : Bool)
  | cancel (k : ℕ)
  | getNextTimer (k : ℕ)
  | listExpiredCb (k : ℕ) (empty : Bool) (wakes : List Bool)

def Call.acts : Call → List (Act LockId)
  | get creates => Order.get creates
  | del => Order.del
  | tickle wakes => Order.tickle wakes
  | addTask k wakes => Order.addTask k wakes
  | scan k wakes => Order.scan k wakes
  | stopping k => Order.stopping k
  | addEvent k fd inRange => Order.addEvent k fd inRange
  | delEvent k fd inRange => Order.delEvent k fd inRange
  | cancelEvent k fd inRange fired => Order.cancelEvent k fd inRange fired
  | cancelAll k fd inRange read write => Order.cancelAll k fd inRange read write
  | handle k fd read write => Order.handle k fd read write
  | addTimer k wakes => Order.addTimer k wakes
  | cancel k => Order.cancel k
  | getNextTimer k => Order.getNextTimer k
  | listExpiredCb k empty wakes => Order.listExpiredCb k empty wakes

/-! ## The order -/

theorem guarded_ordered {m : LockId} {mode : Mode} {body : List (Act LockId)}
    (hbody : Ordered LockId.rank [] body)
    (hm : ∀ m' mode', .acquire m' mode' ∈ body → m.rank < m'.rank) :
    Ordered LockId.rank [] (guarded m mode body) :=
  ⟨nofun, hbody.under hm ⟨List.mem_singleton_self m, by simp [Ordered]⟩⟩

theorem guarded_nil_ordered (m : LockId) (mode : Mode) : Ordered LockId.rank [] (guarded m mode []) :=
  guarded_ordered rfl nofun

theorem get_ordered (creates : Bool) : Ordered LockId.rank [] (get creates) := by
  refine (guarded_nil_ordered _ _).append ?_
  split
  · exact guarded_nil_ordered _ _
  · rfl

theorem tickle_ordered (wakes : Bool) : Ordered LockId.rank [] (tickle wakes) := by
  unfold tickle
  split
  · exact get_ordered false
  · rfl

theorem addTask_ordered (k : ℕ) (wakes : Bool) : Ordered LockId.rank [] (addTask k wakes) :=
  (guarded_nil_ordered _ _).append (tickle_ordered wakes)

theorem lookup_ordered (k : ℕ) (inRange : Bool) : Ordered LockId.rank [] (lookup k inRange) := by
  refine (guarded_nil_ordered _ _).append ?_
  split
  · rfl
  · exact guarded_nil_ordered _ _

theorem trigerEvent_ordered (fired : Option Fired) :
    Ordered LockId.rank [] (trigerEvent fired) := by
  cases fired with
  | none => rfl
  | some f => exact addTask_ordered ..

/-- The locks of a task that is added. -/
theorem rank_of_trigerEvent {fired : Option Fired} {m : LockId} {mode : Mode}
    (h : .acquire m mode ∈ trigerEvent fired) : m.rank = 1 := by
  cases fired with
  | none => cases h
  | some f =>
    cases hwakes : f.wakes <;>
      simp [trigerEvent, addTask, tickle, get, guarded, hwakes] at h
    · rw [h.1]
      rfl
    · rcases h with h | h <;> rw [h.1] <;> rfl

/-- A block under the mutex of a context, in which tasks are added. -/
theorem fires_ordered (k fd : ℕ) (mode : Mode) (read write : Option Fired) :
    Ordered LockId.rank []
      (guarded (.context k fd) mode (trigerEvent read ++ trigerEvent write)) := by
  refine guarded_ordered ((trigerEvent_ordered read).append (trigerEvent_ordered write)) ?_
  intro m mode' hm
  have hrank : m.rank = 1 := by
    rcases List.mem_append.mp hm with hm | hm
    · exact rank_of_trigerEvent hm
    · exact rank_of_trigerEvent hm
  rw [hrank]
  exact Nat.zero_lt_one

theorem acts_ordered (c : Call) : Ordered LockId.rank [] c.acts := by
  cases c with
  | get creates => exact get_ordered creates
  | del => exact guarded_nil_ordered ..
  | tickle wakes => exact tickle_ordered wakes
  | addTask k wakes => exact addTask_ordered k wakes
  | scan k wakes => exact addTask_ordered k wakes
  | stopping k => exact guarded_nil_ordered ..
  | addEvent k fd inRange => exact (lookup_ordered ..).append (guarded_nil_ordered ..)
  | delEvent k fd inRange => exact (lookup_ordered ..).append (guarded_nil_ordered ..)
  | cancelEvent k fd inRange fired =>
    have hfires := fires_ordered k fd .exclusive fired none
    rw [show trigerEvent none = [] from rfl, List.append_nil] at hfires
    exact (lookup_ordered ..).append hfires
  | cancelAll k fd inRange read write => exact (lookup_ordered ..).append (fires_ordered ..)
  | handle k fd read write => exact fires_ordered ..
  | addTimer k wakes => exact (guarded_nil_ordered ..).append (tickle_ordered wakes)
  | cancel k => exact guarded_nil_ordered ..
  | getNextTimer k => exact guarded_nil_ordered ..
  | listExpiredCb k empty wakes =>
    refine (guarded_nil_ordered ..).append ?_
    split
    · rfl
    · exact (guarded_nil_ordered ..).append (Ordered.flatMap tickle_ordered wakes)

/-- However the calls of the threads interleave, in every state somebody can go on that has a call to
finish, and all calls can be brought to their ends. -/
theorem calls_return {T : Type} [DecidableEq T] {calls : T → List Call} {threads : List T}
    (hn : threads.Nodup) (hcalls : ∀ t, t ∉ threads → calls t = []) {s : State T LockId}
    (h : Run State.step anyStep (State.start fun t => (calls t).flatMap Call.acts) s) :
    (∀ t, s.rest t ≠ [] → ∃ u, (s.step u).isSome = true) ∧
    ∃ s', Run State.step anyStep s s' ∧ ∀ t, s'.rest t = [] := by
  have hrank : ∀ m : LockId, m.rank ≤ 1 := by
    intro m
    cases m <;> simp [LockId.rank]
  have hkept := kept_of_run (fun t => Ordered.flatMap acts_ordered (calls t)) h
  refine ⟨fun t ht => goes_on hrank hkept ht, can_finish hrank hkept hn fun t ht => ?_⟩
  refine rest_of_run h ?_
  show (calls t).flatMap Call.acts = []
  rw [hcalls t ht]
  rfl

/-- One thread cancels a reader, and another has the mutex of the tasks when the first is about to add
the waiter. -/
theorem calls_return_witness : ∃ s : State Bool LockId, s.writer (.tasks 0) = some true ∧
    s.writer (.context 0 5) = some false ∧
    ∃ s', Run State.step anyStep s s' ∧ ∀ t, s'.rest t = [] := by
  obtain ⟨s, hs, htasks, hcontext⟩ : ∃ s : State Bool LockId, runLabels State.step
      (State.start fun t => (if t then [Call.scan 0 true, Call.getNextTimer 0]
        else [Call.cancelEvent 0 5 true (some ⟨0, true⟩)]).flatMap Call.acts)
      [false, false, true, false] = some s ∧ s.writer (.tasks 0) = some true ∧
      s.writer (.context 0 5) = some false :=
    ⟨_, rfl, rfl, rfl⟩
  exact ⟨s, htasks, hcontext, (calls_return (show [false, true].Nodup by decide) (by simp)
    (.of_labels hs)).2⟩

end CoKV.Lock.Order
