import CoKV.IOManager.Workers
import Mathlib.Data.Finset.Card
import Mathlib.Tactic.Push

/-!
# No lost wake-up

`sleeper_woken`: in every run of any number of loops, when a thread sleeps in `epoll_wait` and a task
waits, then `m_eventfd` is going to be reported, or somebody is in `tickle`, or a thread is on its way
to a scan, and busy threads do not matter. The exception is a task that a scan has stepped over: its
coroutine was `EXEC` then, and nobody calls `tickle` when it is not any more (`stepped_over_sleeps`).
-/

namespace CoKV.IOManager

open Scheduler (Thread Queue Fc Entry)

variable {W : Type} {s s' : Workers W} {t : Thread W}

namespace WorkerPc

/-- In `epoll_wait` with a timeout, or on the way into it. -/
def isAsleep : WorkerPc W → Bool
  | nextTimer => true
  | epollWait timeout => timeout != 0
  | _ => false

/-- On the way to a scan. -/
def looks : WorkerPc W → Bool
  | scan | handling _ | idleOut => true
  | _ => false

end WorkerPc

namespace Workers

/-! ## What is pending -/

/-- Something is going to have the queue looked at. -/
def Alerted (s : Workers W) : Prop :=
  s.eventfd.Pending ∨ (∃ u, s.call u ≠ none) ∨ ∃ u, (s.pc u).looks = true

/-- What does not pass through the thread that moves stays. -/
theorem Alerted.frame (h : Alerted s) (hcall : s.call t = none) (hpc : (s.pc t).looks = false)
    (he : s'.eventfd = s.eventfd) (hcall' : ∀ u ≠ t, s'.call u = s.call u)
    (hpc' : ∀ u ≠ t, s'.pc u = s.pc u) : Alerted s' := by
  rcases h with hpending | ⟨u, hu⟩ | ⟨u, hu⟩
  · left
    rw [he]
    exact hpending
  · right; left
    refine ⟨u, ?_⟩
    rw [hcall' u (by rintro rfl; exact hu hcall)]
    exact hu
  · right; right
    refine ⟨u, ?_⟩
    rw [hpc' u (by rintro rfl; rw [hpc] at hu; cases hu)]
    exact hu

/-- A call of `tickle` under way is enough. -/
theorem Alerted.of_call (h : s.call t ≠ none) : Alerted s := Or.inr (Or.inl ⟨t, h⟩)

/-- So is a thread on its way to a scan. -/
theorem Alerted.of_looks (h : (s.pc t).looks = true) : Alerted s := Or.inr (Or.inr ⟨t, h⟩)

/-- What `m_eventfd` holds is going to be reported, or a thread is going to read it. -/
def Reported (s : Workers W) : Prop :=
  0 < s.eventfd.counter → s.eventfd.ready = true ∨ ∃ u, s.pc u = .handling true

/-- A step of a thread that does not hold the report leaves it pending or in other hands. -/
theorem Reported.frame (h : Reported s) (hpc : s.pc t ≠ .handling true)
    (he : s'.eventfd = s.eventfd) (hpc' : ∀ u ≠ t, s'.pc u = s.pc u) : Reported s' := by
  intro hpos
  rw [he] at hpos ⊢
  rcases h hpos with hready | ⟨u, hu⟩
  · exact Or.inl hready
  · right
    refine ⟨u, ?_⟩
    rw [hpc' u (by rintro rfl; exact hpc hu)]
    exact hu

/-- What `epoll_wait` does to `m_eventfd`: it is reported, or it has nothing to read, or it is as
before. -/
theorem wake_cases {e e' : EventFd} {w : Wake} {reported : Bool}
    (h : e.wake w = some (reported, e')) : reported = true ∨ e'.counter = 0 ∨ e' = e := by
  cases w with
  | reported =>
    simp only [EventFd.wake, Option.ite_none_right_eq_some, Option.some.injEq, Prod.mk.injEq] at h
    exact Or.inl h.2.1.symm
  | stale =>
    simp only [EventFd.wake, Option.ite_none_right_eq_some, Option.some.injEq, Prod.mk.injEq] at h
    exact Or.inr (Or.inl (by rw [← h.2.2]))
  | other =>
    cases h
    exact Or.inr (Or.inr rfl)

/-- While the manager is running, `epoll_wait` does not wait. -/
theorem toInt_capped_zero : toInt (capped 0) = 0 := by
  decide

/-! ## The count of idle threads -/

/-- `n` threads are behind `++m_idlethreadcount` and not behind `--m_idlethreadcount`. -/
def IdleCount (pc : Thread W → WorkerPc W) (n : ℤ) : Prop :=
  ∃ idle : Finset (Thread W), (idle.card : ℤ) = n ∧ ∀ u, u ∈ idle ↔ (pc u).isIdle = true

/-- An idle thread is counted, so `hasIdlethreads` answers yes. -/
theorem IdleCount.pos {pc : Thread W → WorkerPc W} {n : ℤ} (h : IdleCount pc n)
    (ht : (pc t).isIdle = true) : 0 < n := by
  obtain ⟨idle, hcard, hidle⟩ := h
  have hpos : 0 < idle.card := Finset.card_pos.mpr ⟨t, (hidle t).mpr ht⟩
  omega

/-! ## What the queue says about `tickle` -/

section Queue

variable {q : Queue W}

/-- `addTask` does not ask for `tickle` only if the queue was not empty. -/
theorem addTask_quiet {fc : Fc} {threadNum : Option (Thread W)}
    (h : (q.addTask fc threadNum).1 = false) : q.tasks ≠ [] := by
  intro hnil
  unfold Queue.addTask Queue.addTaskNoLock at h
  rw [hnil] at h
  cases h

/-- `addTaskNoLock` only appends. -/
theorem mem_addTaskNoLock {task : Scheduler.Task W} {e : Entry W} (he : e ∈ q.tasks) :
    e ∈ (q.addTaskNoLock task).2.tasks := by
  unfold Queue.addTaskNoLock
  dsimp only
  split
  · exact List.mem_append_left _ he
  · exact he

/-- `addTask` with a range only appends, too. -/
theorem mem_addRange {fcs : List Fc} {e : Entry W} (he : e ∈ q.tasks) :
    e ∈ (Queue.addRange fcs q).2.2.tasks := by
  induction fcs generalizing q with
  | nil => exact he
  | cons fc fcs ih => exact ih (mem_addTaskNoLock he)

/-- Where no `tickle` is due although the queue is not empty now, it was not empty before. -/
theorem addRange_quiet {fcs : List Fc} (h : (Queue.addRange fcs q).1 = false)
    (hne : (Queue.addRange fcs q).2.2.tasks ≠ []) : q.tasks ≠ [] := by
  cases fcs with
  | nil => exact hne
  | cons fc fcs =>
    have hfirst : (q.addTaskNoLock (Scheduler.Task.ofFcPtr fc none).1).1 = false :=
      (Bool.or_eq_false_iff.mp h).1
    intro hnil
    unfold Queue.addTaskNoLock at hfirst
    rw [hnil] at hfirst
    cases hfirst

end Queue

variable [DecidableEq W]

/-! ## What a step does -/

/-- What a thread that stands at a program counter does with an action. -/
inductive Acts (s : Workers W) (t : Thread W) : Action W → WorkerPc W → Workers W → Prop
  | user {p : WorkerPc W} (op : UserOp W) (hp : p.isUser = true) :
    Acts s t (.user op) p (s.user t op)
  | enter : Acts s t .enter (.outside true) (s.setPc t .scan)
  | scan {s' : Workers W} (getState : ℕ → CoState) (h : s.scan t getState = some s') :
    Acts s t (.scan getState) .scan s'
  | dispatch (task : Scheduler.Task W) (isActive term : Bool) :
    Acts s t (.dispatch term) (.dispatch task isActive) (s.dispatch t task isActive term)
  | finish : Acts s t .finish .running (s.setPc t .resumed)
  | inactive : Acts s t .inactive .resumed
    ({ s with activethreadcount := s.activethreadcount - 1 }.setPc t .requeue)
  | requeue (ready : Option ℕ) : Acts s t (.requeue ready) .requeue (s.requeue t ready)
  | stopping (pending : Bool) : Acts s t (.stopping pending) .idleTop
    (s.setPc t (if s.isStopping pending then .nextTimer else .epollWait (toInt (capped 0))))
  | noTimer (next : UInt64) : Acts s t (.nextTimer next) .nextTimer
    ({ s with idleDone := Function.update s.idleDone t true }.setPc t .idleOut)
  | nextTimer (next : UInt64) : Acts s t (.nextTimer next) .nextTimer
    (s.setPc t (.epollWait (toInt (capped next))))
  | epollWait {reported : Bool} {e : EventFd} (timeout : ℤ) (w : Wake)
    (h : s.eventfd.wake w = some (reported, e)) : Acts s t (.epollWait w) (.epollWait timeout)
      ({ s with eventfd := e }.setPc t (.handling reported))
  | read : Acts s t .read (.handling true)
    ({ s with eventfd := s.eventfd.read }.setPc t (.handling false))
  | yield : Acts s t .yield (.handling false) (s.setPc t .idleOut)
  | busy : Acts s t .busy .idleOut
    ({ s with idlethreadcount := s.idlethreadcount - 1 }.setPc t .scan)

/-- Everything that an action of a thread can do, branch by branch. -/
theorem acts_of_act {a : Action W} {p : WorkerPc W} (h : s.act t a p = some s') : Acts s t a p s' := by
  unfold Workers.act at h
  split at h
  case h_1 op =>
    split at h
    case isTrue hp =>
      cases h
      exact .user op hp
    case isFalse => cases h
  case h_2 => cases h; exact .enter
  case h_3 getState => exact .scan getState h
  case h_4 term task isActive => cases h; exact .dispatch task isActive term
  case h_5 => cases h; exact .finish
  case h_6 => cases h; exact .inactive
  case h_7 ready => cases h; exact .requeue ready
  case h_8 pending => cases h; exact .stopping pending
  case h_9 next =>
    split at h
    case isTrue => cases h; exact .noTimer next
    case isFalse => cases h; exact .nextTimer next
  case h_10 w timeout =>
    obtain ⟨⟨reported, e⟩, hw, hs'⟩ := Option.map_eq_some_iff.mp h
    cases hs'
    exact .epollWait timeout w hw
  case h_11 => cases h; exact .read
  case h_12 => cases h; exact .yield
  case h_13 => cases h; exact .busy
  case h_14 => cases h

/-- A thread goes on in `tickle`, or it is not in `tickle`. -/
theorem step_cases {a : Action W} (h : s.step (t, a) = some s') :
    (∃ c, s.call t = some c ∧ s' = s.tickle t c) ∨ s.call t = none ∧ Acts s t a (s.pc t) s' := by
  unfold Workers.step at h
  dsimp only at h
  split at h
  case h_1 c hcall => cases h; exact Or.inl ⟨c, hcall, rfl⟩
  case h_2 => cases h
  case h_3 hcall _ => exact Or.inr ⟨hcall, acts_of_act h⟩
  case h_4 => cases h

section Fields

variable (b : Bool) (p : WorkerPc W) (c : Option TickleCall)

@[simp] theorem pc_setPc : (s.setPc t p).pc = Function.update s.pc t p := rfl
@[simp] theorem call_setPc : (s.setPc t p).call = s.call := rfl
@[simp] theorem queue_setPc : (s.setPc t p).queue = s.queue := rfl
@[simp] theorem eventfd_setPc : (s.setPc t p).eventfd = s.eventfd := rfl
@[simp] theorem idle_setPc : (s.setPc t p).idlethreadcount = s.idlethreadcount := rfl
@[simp] theorem idleDone_setPc : (s.setPc t p).idleDone = s.idleDone := rfl

@[simp] theorem pc_tickleIf : (s.tickleIf t b).pc = s.pc := by cases b <;> rfl
@[simp] theorem queue_tickleIf : (s.tickleIf t b).queue = s.queue := by cases b <;> rfl
@[simp] theorem eventfd_tickleIf : (s.tickleIf t b).eventfd = s.eventfd := by cases b <;> rfl

@[simp] theorem idle_tickleIf : (s.tickleIf t b).idlethreadcount = s.idlethreadcount := by
  cases b <;> rfl

@[simp] theorem steppedOver_tickleIf : (s.tickleIf t b).steppedOver = s.steppedOver := by
  cases b <;> rfl

@[simp] theorem idleDone_tickleIf : (s.tickleIf t b).idleDone = s.idleDone := by cases b <;> rfl

/-- A `tickle` that is due is under way afterwards. -/
theorem call_tickleIf_true : (s.tickleIf t true).call t = some .check := Function.update_self ..

end Fields

section IdleCount

variable {pc : Thread W → WorkerPc W} {n : ℤ} {p : WorkerPc W}

/-- A thread that is as idle as before does not change the count. -/
theorem IdleCount.same (h : IdleCount pc n) (hp : p.isIdle = (pc t).isIdle) :
    IdleCount (Function.update pc t p) n := by
  obtain ⟨idle, hcard, hidle⟩ := h
  refine ⟨idle, hcard, fun u => ?_⟩
  by_cases hu : u = t
  · rw [hu, Function.update_self, hp]
    exact hidle t
  · rw [Function.update_of_ne hu]
    exact hidle u

/-- `++m_idlethreadcount` goes along with the thread that gets idle. -/
theorem IdleCount.enter (h : IdleCount pc n) (ht : (pc t).isIdle = false) (hp : p.isIdle = true) :
    IdleCount (Function.update pc t p) (n + 1) := by
  obtain ⟨idle, hcard, hidle⟩ := h
  have hnot : t ∉ idle := by
    rw [hidle, ht]
    exact Bool.false_ne_true
  refine ⟨insert t idle, ?_, fun u => ?_⟩
  · rw [Finset.card_insert_of_notMem hnot]
    omega
  · by_cases hu : u = t
    · rw [hu, Function.update_self]
      simp [hp]
    · rw [Function.update_of_ne hu, Finset.mem_insert, ← hidle u]
      simp [hu]

/-- `--m_idlethreadcount` goes along with the thread that is idle no longer. -/
theorem IdleCount.leave (h : IdleCount pc n) (ht : (pc t).isIdle = true) (hp : p.isIdle = false) :
    IdleCount (Function.update pc t p) (n - 1) := by
  obtain ⟨idle, hcard, hidle⟩ := h
  have hmem : t ∈ idle := (hidle t).mpr ht
  refine ⟨idle.erase t, ?_, fun u => ?_⟩
  · have hcard' := Finset.card_erase_add_one hmem
    omega
  · by_cases hu : u = t
    · rw [hu, Function.update_self]
      simp [hp]
    · rw [Function.update_of_ne hu, Finset.mem_erase, ← hidle u]
      simp [hu]

end IdleCount

/-! ## What a scan leaves -/

section Scan

variable {getState : ℕ → CoState} {l rest : List (Entry W)} {r : Option (Entry W)}

/-- A scan that does not call `tickle` leaves only what it has stepped over. -/
theorem scanFrom_quiet (h : Queue.scanFrom t getState l = some (r, rest, false)) :
    ∀ e ∈ rest, e.id ∈ stepsOver t getState l := by
  induction l generalizing rest with
  | nil =>
    cases h
    intro e he
    cases he
  | cons it l ih =>
    rw [Queue.scanFrom] at h
    unfold stepsOver
    split at h
    case isTrue hpin =>
      obtain ⟨result, hrec, heq⟩ := Option.map_eq_some_iff.mp h
      cases heq
    case isFalse hpin =>
      rw [if_neg hpin]
      split at h
      case isTrue => cases h
      case isFalse hne =>
        split at h
        case isTrue hexec =>
          rw [if_pos hexec]
          obtain ⟨⟨r', rest', b⟩, hrec, heq⟩ := Option.map_eq_some_iff.mp h
          cases heq
          intro e he
          rcases List.mem_cons.mp he with rfl | he
          · exact List.mem_cons_self ..
          · exact List.mem_cons_of_mem _ (ih hrec e he)
        case isFalse hexec =>
          simp only [Option.some.injEq, Prod.mk.injEq, Bool.not_eq_false', List.isEmpty_iff] at h
          obtain ⟨-, rfl, rfl⟩ := h
          intro e he
          cases he

end Scan

/-! ## The invariant -/

/-- A sleeper is not forgotten, unless a task has been stepped over. -/
def SleepersAlerted (s : Workers W) : Prop :=
  (∃ u, (s.pc u).isAsleep = true) → s.queue.tasks ≠ [] →
    (∀ e ∈ s.queue.tasks, e.id ∉ s.steppedOver) → Alerted s

/-- What every step keeps. -/
structure Wakeable (s : Workers W) : Prop where
  queue : Run Queue.step anyStep Queue.empty s.queue
  idle : IdleCount s.pc s.idlethreadcount
  reported : Reported s
  sleepers : SleepersAlerted s

section Acts

variable {a : Action W} {p : WorkerPc W}

/-- What a scan takes, whom it tickles, and what it leaves alone. -/
theorem scan_eq {getState : ℕ → CoState} (h : s.scan t getState = some s') :
    ∃ task isActive tickleMe q, s.queue.scan t getState = some (task, isActive, tickleMe, q) ∧
      s'.queue = q ∧ s'.pc = Function.update s.pc t (.dispatch task isActive) ∧
      s'.eventfd = s.eventfd ∧ s'.idlethreadcount = s.idlethreadcount ∧
      s'.idleDone = s.idleDone ∧
      s'.steppedOver = s.steppedOver ++ stepsOver t getState s.queue.tasks ∧
      (tickleMe = true → s'.call t ≠ none) := by
  unfold Workers.scan at h
  obtain ⟨⟨task, isActive, tickleMe, q⟩, hscan, rfl⟩ := Option.map_eq_some_iff.mp h
  refine ⟨task, isActive, tickleMe, q, hscan, by simp, by simp, by simp, by simp, by simp, by simp, ?_⟩
  rintro rfl
  rw [call_tickleIf_true]
  exact Option.some_ne_none _

/-- As far as `m_tasks` is concerned, an action is a run of the queue. -/
theorem Acts.queue (h : Acts s t a p s') : Run Queue.step anyStep s.queue s'.queue := by
  cases h with
  | user op hp =>
    cases op with
    | addTask fc threadNum =>
      refine Run.single (a := .addTask fc threadNum) trivial ?_
      simp [Workers.user, Queue.step]
    | addRange fcs =>
      refine Run.single (a := .addRange fcs) trivial ?_
      simp [Workers.user, Queue.step]
    | tickle => simpa [Workers.user] using Run.refl
    | setAutostop | setStopping b => exact .refl
  | scan getState h =>
    obtain ⟨task, isActive, tickleMe, q, hscan, hq, -⟩ := scan_eq h
    refine Run.single (a := .scan t getState) trivial ?_
    rw [Queue.step, hscan, hq]
    rfl
  | dispatch task isActive term =>
    unfold Workers.dispatch
    split_ifs <;> exact .refl
  | requeue ready =>
    cases ready with
    | none => exact .refl
    | some c =>
      refine Run.single (a := .addTask (.selfco (some c)) none) trivial ?_
      simp [Workers.requeue, Queue.step]
  | _ => exact .refl

/-- Every action keeps `m_idlethreadcount` the number of idle threads. -/
theorem Acts.idle (h : Acts s t a p s') (hp : s.pc t = p) (hidle : IdleCount s.pc s.idlethreadcount) :
    IdleCount s'.pc s'.idlethreadcount := by
  cases h with
  | user op hp => cases op <;> simpa [Workers.user] using hidle
  | enter | finish | inactive | noTimer | nextTimer | epollWait | read | yield =>
    exact hidle.same (by rw [hp]; rfl)
  | scan getState h =>
    obtain ⟨task, isActive, tickleMe, q, -, -, hpc, -, hcount, -⟩ := scan_eq h
    rw [hpc, hcount]
    exact hidle.same (by rw [hp]; rfl)
  | dispatch task isActive term =>
    unfold Workers.dispatch
    split_ifs
    · exact hidle.same (by rw [hp]; rfl)
    · exact hidle.same (by rw [hp]; rfl)
    · exact hidle.enter (by rw [hp]; rfl) rfl
    · exact hidle.enter (by rw [hp]; rfl) rfl
  | requeue ready =>
    cases ready with
    | none => exact hidle.same (by rw [hp]; rfl)
    | some c =>
      simp only [Workers.requeue, pc_tickleIf, idle_tickleIf, pc_setPc, idle_setPc]
      exact hidle.same (by rw [hp]; rfl)
  | stopping pending =>
    refine hidle.same ?_
    rw [hp]
    split <;> rfl
  | busy => exact hidle.leave (by rw [hp]; rfl) rfl

/-- No step moves another thread. -/
theorem Acts.others (h : Acts s t a p s') {u : Thread W} (hu : u ≠ t) :
    s'.pc u = s.pc u ∧ s'.call u = s.call u ∧ s'.idleDone u = s.idleDone u := by
  have htickle (s : Workers W) (b : Bool) : (s.tickleIf t b).call u = s.call u := by
    cases b
    · rfl
    · exact Function.update_of_ne hu _ _
  cases h with
  | user op hp => cases op <;> simp [Workers.user, htickle]
  | scan getState h =>
    obtain ⟨⟨task, isActive, tickleMe, q⟩, -, rfl⟩ := Option.map_eq_some_iff.mp h
    simp [htickle, hu]
  | dispatch task isActive term =>
    unfold Workers.dispatch
    split_ifs <;> simp [hu]
  | requeue ready => cases ready <;> simp [Workers.requeue, htickle, hu]
  | _ => simp [hu]

/-- A report stays pending, or the thread that has got it reads `m_eventfd`. -/
theorem Acts.reported (h : Acts s t a p s') (hp : s.pc t = p) (hr : Reported s) : Reported s' := by
  have hframe (hpc : p ≠ .handling true) (he : s'.eventfd = s.eventfd) : Reported s' :=
    hr.frame (by rw [hp]; exact hpc) he fun u hu => (h.others hu).1
  cases h with
  | user op hp => cases op <;> simpa [Workers.user, Reported] using hr
  | scan getState h =>
    obtain ⟨task, isActive, tickleMe, q, -, -, -, he, -⟩ := scan_eq h
    exact hframe nofun he
  | dispatch task isActive term =>
    refine hframe nofun ?_
    unfold Workers.dispatch
    split_ifs <;> rfl
  | requeue ready =>
    refine hframe nofun ?_
    cases ready <;> simp [Workers.requeue]
  | epollWait timeout w hw =>
    rcases wake_cases hw with rfl | hzero | rfl
    · exact fun _ => Or.inr ⟨t, by simp⟩
    · intro hpos
      rw [eventfd_setPc] at hpos
      dsimp only at hpos
      omega
    · exact hframe nofun rfl
  | read => exact fun hpos => absurd hpos (by simp [EventFd.read])
  | _ => exact hframe nofun rfl

/-- The sleepers are woken behind every step. -/
theorem Acts.sleepers (h : Acts s t a p s') (hp : s.pc t = p) (hcall : s.call t = none)
    (hs : SleepersAlerted s) : SleepersAlerted s' := by
  rintro ⟨v, hv⟩ hne hover
  -- a step that changes nothing about the queue and makes no sleeper
  have hframe (hpc : p.looks = false) (hq : s'.queue = s.queue) (ho : s'.steppedOver = s.steppedOver)
      (he : s'.eventfd = s.eventfd) (hsleep : (s'.pc t).isAsleep = true → p.isAsleep = true) :
      Alerted s' := by
    rw [hq] at hne hover
    rw [ho] at hover
    refine (hs ⟨v, ?_⟩ hne hover).frame hcall (by rw [hp]; exact hpc) he
      (fun u hu => (h.others hu).2.1) fun u hu => (h.others hu).1
    by_cases hvt : v = t
    · rw [hvt, hp]
      exact hsleep (by rw [← hvt]; exact hv)
    · rw [← (h.others hvt).1]
      exact hv
  cases h with
  | user op hp' =>
    cases op with
    | addTask fc threadNum =>
      cases hneed : (s.queue.addTask fc threadNum).1 with
      | true =>
        refine Alerted.of_call (t := t) ?_
        simp only [Workers.user, hneed, call_tickleIf_true]
        exact Option.some_ne_none _
      | false =>
        simp only [Workers.user, hneed] at hv hne hover ⊢
        exact hs ⟨v, hv⟩ (addTask_quiet hneed) fun e he => hover e (mem_addTaskNoLock he)
    | addRange fcs =>
      cases hneed : (Queue.addRange fcs s.queue).1 with
      | true =>
        refine Alerted.of_call (t := t) ?_
        simp only [Workers.user, hneed, call_tickleIf_true]
        exact Option.some_ne_none _
      | false =>
        simp only [Workers.user, hneed] at hv hne hover ⊢
        exact hs ⟨v, hv⟩ (addRange_quiet hneed hne) fun e he => hover e (mem_addRange he)
    | tickle =>
      refine Alerted.of_call (t := t) ?_
      simp only [Workers.user, call_tickleIf_true]
      exact Option.some_ne_none _
    | setAutostop | setStopping b => exact hs ⟨v, hv⟩ hne hover
  | scan getState h =>
    obtain ⟨task, isActive, tickleMe, q, hscan, hq, -, -, -, -, hover', hcall'⟩ := scan_eq h
    cases tickleMe with
    | true => exact Alerted.of_call (hcall' rfl)
    | false =>
      -- all that is left has been stepped over
      exfalso
      obtain ⟨⟨it, rest, b⟩, hfrom, heq⟩ := Option.map_eq_some_iff.mp hscan
      have hrest : q.tasks = rest ∧ b = false := by
        cases it <;> cases heq <;> exact ⟨rfl, rfl⟩
      rw [hrest.2] at hfrom
      rw [hq, hrest.1] at hne hover
      obtain ⟨e, he⟩ := List.exists_mem_of_ne_nil rest hne
      refine hover e he ?_
      rw [hover']
      exact List.mem_append_right _ (scanFrom_quiet hfrom e he)
  | dispatch task isActive term =>
    unfold Workers.dispatch at hframe hv hne hover ⊢
    split_ifs at hframe hv hne hover ⊢
    · exact hframe rfl rfl rfl rfl (by simp [WorkerPc.isAsleep])
    · exact Alerted.of_looks (t := t) (by simp [WorkerPc.looks])
    · exact hframe rfl rfl rfl rfl (by simp [WorkerPc.isAsleep])
    · exact hframe rfl rfl rfl rfl (by simp [WorkerPc.isAsleep])
  | finish | inactive => exact hframe rfl rfl rfl rfl (by simp [WorkerPc.isAsleep])
  | requeue ready =>
    refine Alerted.of_looks (t := t) ?_
    cases ready <;> simp [Workers.requeue, WorkerPc.looks]
  | stopping pending =>
    cases hstop : s.isStopping pending with
    | true =>
      -- the queue is empty
      exfalso
      simp only [Workers.isStopping, Bool.and_eq_true, List.isEmpty_iff] at hstop
      exact hne hstop.1.1.2
    | false =>
      rw [hstop] at hframe
      refine hframe rfl rfl rfl rfl ?_
      simp [WorkerPc.isAsleep, toInt_capped_zero]
  | nextTimer next => exact hframe rfl rfl rfl rfl fun _ => rfl
  | enter | noTimer | epollWait | read | yield | busy =>
    exact Alerted.of_looks (t := t) (by simp [WorkerPc.looks])

end Acts

/-! ## Runs -/

omit [DecidableEq W] in
/-- A thread sleeps in `epoll_wait` only within `idle`. -/
theorem isIdle_of_isAsleep {p : WorkerPc W} (h : p.isAsleep = true) : p.isIdle = true := by
  cases p <;> first | rfl | cases h

/-- `tickle` does not write only if no thread is idle, and then nobody sleeps. -/
theorem Wakeable.tickle (h : Wakeable s) (c : TickleCall) : Wakeable (s.tickle t c) := by
  cases c with
  | check =>
    refine ⟨h.queue, h.idle, h.reported, ?_⟩
    rintro ⟨v, hv⟩ - -
    have hpos : 0 < s.idlethreadcount := h.idle.pos (isIdle_of_isAsleep hv)
    refine Alerted.of_call (t := t) ?_
    unfold Workers.tickle
    rw [if_pos hpos]
    show Function.update s.call t (some .write) t ≠ none
    rw [Function.update_self]
    exact Option.some_ne_none _
  | write =>
    have hwrite : s.eventfd.write.ready = true ∧ 0 < s.eventfd.write.counter ∨
        s.eventfd.write = s.eventfd ∧ 0 < s.eventfd.counter := by
      unfold EventFd.write
      split
      · exact Or.inl ⟨rfl, Nat.succ_pos _⟩
      · exact Or.inr ⟨rfl, by omega⟩
    refine ⟨h.queue, h.idle, ?_, ?_⟩
    · intro hpos
      rcases hwrite with ⟨hready, -⟩ | ⟨heq, -⟩
      · exact Or.inl hready
      · show s.eventfd.write.ready = true ∨ _
        rw [heq]
        exact h.reported (by rw [← heq]; exact hpos)
    · -- a counter at its end has not been read yet
      rintro - - -
      rcases hwrite with hpending | ⟨heq, hpos⟩
      · exact Or.inl hpending
      · rcases h.reported hpos with hready | ⟨u, hu⟩
        · left
          show EventFd.Pending s.eventfd.write
          rw [heq]
          exact ⟨hready, hpos⟩
        · refine Alerted.of_looks (t := u) ?_
          show (s.pc u).looks = true
          rw [hu]
          rfl

/-- The invariant is kept by every step of every thread. -/
theorem Wakeable.step {l : Thread W × Action W} (h : Wakeable s) (hs : s.step l = some s') :
    Wakeable s' := by
  obtain ⟨t, a⟩ := l
  rcases step_cases hs with ⟨c, -, rfl⟩ | ⟨hcall, hacts⟩
  · exact h.tickle c
  · exact ⟨h.queue.trans hacts.queue, hacts.idle rfl h.idle, hacts.reported rfl h.reported,
      hacts.sleepers rfl hcall h.sleepers⟩

/-- The invariant holds in every state reached from the start. -/
theorem Wakeable.of_run {members : Thread W → Bool} {ok : Workers W → Thread W × Action W → Prop}
    (h : Run Workers.step ok (Workers.init members) s) : Wakeable s := by
  have hinit : Wakeable (Workers.init members) :=
    ⟨.refl, ⟨∅, rfl, fun u => by simp [Workers.init, WorkerPc.isIdle]⟩,
      fun hpos => absurd hpos (by simp [Workers.init]),
      fun hsleep => by simp [Workers.init, WorkerPc.isAsleep] at hsleep⟩
  exact h.invariant hinit fun _ _ _ hi _ hs => hi.step hs

/-- One worker polls and another one sleeps. The first is woken for a coroutine that is still `EXEC`,
steps over it, and runs another task that did not ask for `tickle`. -/
def stepOver : List (Thread Bool × Action Bool) :=
  [(.worker true, .enter), (.worker true, .scan fun _ => .init), (.worker true, .dispatch false),
    (.worker true, .stopping true), (.caller, .user .setAutostop),
    (.worker false, .enter), (.worker false, .scan fun _ => .init), (.worker false, .dispatch false),
    (.worker false, .stopping true), (.worker false, .nextTimer 100),
    (.caller, .user (.addTask (.selfco (some 3)) none)), (.caller, .tickle), (.caller, .tickle),
    (.worker true, .epollWait .reported), (.worker true, .read), (.worker true, .yield), (.worker true, .busy),
    (.caller, .user (.addTask (.cb (some 7)) none)),
    (.worker true, .scan fun _ => .exec), (.worker true, .dispatch false)]

/-- A worker sleeps while a task waits, and nothing is pending. -/
def sleepsOn (s : Workers Bool) : Bool :=
  (match s.pc (.worker false) with
    | .epollWait timeout => timeout == 100
    | _ => false) &&
  !s.queue.tasks.isEmpty && s.eventfd.counter == 0 &&
  [Thread.caller, .worker false, .worker true].all fun u => (s.call u).isNone && !(s.pc u).looks

/-- **Stepped over**: its task waits until the other worker is done, or the sleeper's time is up. -/
theorem stepped_over_sleeps : ∃ s : Workers Bool,
    Run Workers.step anyStep (Workers.init fun t => t ≠ .caller) s ∧
      (s.pc (.worker false)).isAsleep = true ∧ s.queue.tasks ≠ [] ∧ ¬ Alerted s := by
  have htested : (runLabels Workers.step (Workers.init fun t => t ≠ .caller) stepOver).any sleepsOn
      = true := by decide
  obtain ⟨s, hrun, hs⟩ := Run.of_any htested
  simp only [sleepsOn, Bool.and_eq_true, List.all_cons, List.all_nil] at hs
  obtain ⟨⟨⟨hpc, htasks⟩, hcounter⟩, hall⟩ := hs
  refine ⟨s, hrun, ?_, ?_, ?_⟩
  · split at hpc
    case h_1 timeout heq =>
      rw [heq]
      simp only [beq_iff_eq] at hpc
      rw [hpc]
      decide
    case h_2 => cases hpc
  · simpa using htasks
  · rintro (⟨-, hpos⟩ | ⟨u, hu⟩ | ⟨u, hu⟩)
    · simp at hcounter
      omega
    · match u with
      | .caller | .worker false | .worker true => simp_all
    · match u with
      | .caller | .worker false | .worker true => simp_all

end Workers

end CoKV.IOManager
