import CoKV.Scheduler.Defs
import CoKV.Lib.Run

/-!
# The queue of tasks

`m_tasks` on its own: both `addTask`, with the constructors of `Task`, and the loop over `m_tasks`
in `Scheduler::run`, each a critical section under `m_mutex`. Tasks are numbered in the order in
which they are made. The state of a coroutine may change while a scan goes on, and so the states
that a scan reads are its argument, one for each task.
-/

namespace CoKV.Scheduler

variable {W : Type}

/-- What `addTask` is called with: a callback or a coroutine, either of which may be empty. -/
inductive Fc
  | cb (f : Option ℕ)
  | selfco (c : Option ℕ)

namespace Task

/-- `Task(std::function<void()>, int)` and `Task(Selfco::ptr, int)` -/
def ofFc (fc : Fc) (thr : Option (Thread W)) : Task W :=
  match fc with
  | .cb f => ⟨f, none, thr⟩
  | .selfco c => ⟨none, c, thr⟩

/-- `Task(std::function<void()>*, int)` and `Task(Selfco::ptr*, int)`, and what is left of the
argument. -/
def ofFcPtr (fc : Fc) (thr : Option (Thread W)) : Task W × Fc :=
  match fc with
  | .cb f => (⟨f, none, thr⟩, .cb none)
  | .selfco c => (⟨none, c, thr⟩, .selfco none)

def isNonempty (task : Task W) : Bool := task.selfco.isSome || task.cb.isSome

end Task

/-- A task in `m_tasks`. -/
structure Entry (W : Type) where
  id : ℕ
  task : Task W

/-- `m_tasks`. `added` records the tasks that `addTaskNoLock` has made, and `taken` those that scans
have taken, with their threads. -/
structure Queue (W : Type) where
  tasks : List (Entry W)
  added : List (Task W)
  taken : List (Thread W × Entry W)

namespace Queue

def empty : Queue W := ⟨[], [], []⟩

variable (q : Queue W)

/-- `addTaskNoLock`, past the constructor: `need_tickle`, and the queue. -/
def addTaskNoLock (task : Task W) : Bool × Queue W :=
  (q.tasks.isEmpty,
    { q with
      tasks := if task.isNonempty then q.tasks ++ [⟨q.added.length, task⟩] else q.tasks
      added := q.added ++ [task] })

/-- `addTask(fc, thread_num)` -/
def addTask (fc : Fc) (threadNum : Option (Thread W)) : Bool × Queue W :=
  q.addTaskNoLock (.ofFc fc threadNum)

/-- `addTask(begin, end)`: `need_tickle`, what is left in the range, and the queue. -/
def addRange : List Fc → Queue W → Bool × List Fc × Queue W
  | [], q => (false, [], q)
  | fc :: fcs, q =>
    let (task, fc) := Task.ofFcPtr fc none
    let (tickle, q) := q.addTaskNoLock task
    let (needTickle, fcs, q) := addRange fcs q
    (tickle || needTickle, fc :: fcs, q)

variable [DecidableEq W] (t : Thread W) (getState : ℕ → CoState)

/-- The loop over `m_tasks` in `run`: the task, those that stay, and `tickle_me`; without a result
where the assertion fails. -/
def scanFrom : List (Entry W) → Option (Option (Entry W) × List (Entry W) × Bool)
  | [] => some (none, [], false)
  | it :: rest =>
    if it.task.threadNum ≠ none ∧ it.task.threadNum ≠ some t then
      (scanFrom rest).map fun (task, rest, _) => (task, it :: rest, true)
    else if ¬ it.task.isNonempty then none
    else if it.task.selfco.isSome ∧ getState it.id = .exec then
      (scanFrom rest).map fun (task, rest, tickleMe) => (task, it :: rest, tickleMe)
    else some (some it, rest, !rest.isEmpty)

/-- A scan by thread `t`: `task`, `is_active`, `tickle_me`, and the queue. -/
def scan : Option (Task W × Bool × Bool × Queue W) :=
  (scanFrom t getState q.tasks).map fun (it, tasks, tickleMe) =>
    match it with
    | some e => (e.task, true, tickleMe, { q with tasks := tasks, taken := q.taken ++ [(t, e)] })
    | none => (.empty, false, tickleMe, { q with tasks := tasks })

end Queue

/-- A call of `addTask`, or a scan with the states that it reads. -/
inductive QueueLabel (W : Type)
  | addTask (fc : Fc) (threadNum : Option (Thread W))
  | addRange (fcs : List Fc)
  | scan (t : Thread W) (getState : ℕ → CoState)

def Queue.step [DecidableEq W] (q : Queue W) : QueueLabel W → Option (Queue W)
  | .addTask fc threadNum => some (q.addTask fc threadNum).2
  | .addRange fcs => some (Queue.addRange fcs q).2.2
  | .scan t getState => (q.scan t getState).map fun (_, _, _, q) => q

/-! ## A scan -/

/-- A task that a scan by `t` does not step over. -/
def Entry.Eligible (t : Thread W) (getState : ℕ → CoState) (e : Entry W) : Prop :=
  (e.task.threadNum = none ∨ e.task.threadNum = some t) ∧
    ¬ (e.task.selfco.isSome = true ∧ getState e.id = .exec)

variable [DecidableEq W] {t : Thread W} {getState : ℕ → CoState} {l : List (Entry W)}

/-- The loop goes on past a task that is not eligible, and stops at one that is. -/
theorem scanFrom_cons {it : Entry W} (hne : it.task.isNonempty = true) :
    (¬ it.Eligible t getState ∧ ∃ f : Bool → Bool, Queue.scanFrom t getState (it :: l)
        = (Queue.scanFrom t getState l).map fun (task, rest, b) => (task, it :: rest, f b)) ∨
      it.Eligible t getState ∧
        Queue.scanFrom t getState (it :: l) = some (some it, l, !l.isEmpty) := by
  unfold Entry.Eligible
  rw [Queue.scanFrom]
  split
  case isTrue hpin =>
    left
    refine ⟨?_, fun _ => true, rfl⟩
    rintro ⟨hnone | hsome, -⟩
    · exact hpin.1 hnone
    · exact hpin.2 hsome
  case isFalse hpin =>
    have hfree : it.task.threadNum = none ∨ it.task.threadNum = some t := by
      by_cases hnone : it.task.threadNum = none
      · exact Or.inl hnone
      · exact Or.inr (by_contra fun hsome => hpin ⟨hnone, hsome⟩)
    split
    case isTrue hexec => exact Or.inl ⟨fun h => h.2 hexec, id, rfl⟩
    case isFalse hexec => exact Or.inr ⟨⟨hfree, hexec⟩, rfl⟩

/-- **The loop** takes out the first eligible task. -/
theorem scanFrom_first (hne : ∀ e ∈ l, e.task.isNonempty = true) :
    (∃ b, Queue.scanFrom t getState l = some (none, l, b) ∧ ∀ e ∈ l, ¬ e.Eligible t getState) ∨
      ∃ pre e post b, l = pre ++ e :: post ∧ (∀ a ∈ pre, ¬ a.Eligible t getState) ∧
        e.Eligible t getState ∧ Queue.scanFrom t getState l = some (some e, pre ++ post, b) := by
  induction l with
  | nil => exact Or.inl ⟨false, rfl, nofun⟩
  | cons it l ih =>
    obtain ⟨hit, hl⟩ := List.forall_mem_cons.mp hne
    rcases scanFrom_cons (l := l) (t := t) hit with ⟨hnot, f, hscan⟩ | ⟨hel, hscan⟩
    · rw [hscan]
      rcases ih hl with ⟨b, hb, hall⟩ | ⟨pre, e, post, b, rfl, hpre, he, hb⟩
      · left
        rw [hb]
        exact ⟨f b, rfl, List.forall_mem_cons.mpr ⟨hnot, hall⟩⟩
      · right
        rw [hb]
        exact ⟨it :: pre, e, post, f b, rfl, List.forall_mem_cons.mpr ⟨hnot, hpre⟩, he, rfl⟩
    · exact Or.inr ⟨[], it, l, _, rfl, nofun, hel, hscan⟩

end CoKV.Scheduler
