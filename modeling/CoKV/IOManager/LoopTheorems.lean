import CoKV.IOManager.WakeTheorems
import CoKV.Scheduler.TermTheorems

/-!
# The run loops are those of the scheduler

`workers_of_run`: every run of the scheduler, with coroutines, contexts and callbacks, in which each
scan is free is seen by `Workers` as a run of its loops: the queue, both counters and both flags are
the same, and each thread stands where its run loop does. What a callback does is one step of a loop;
what callbacks and `idle` add is added by the owner's thread. An `idle` that has returned is resumed
past the end of `MainFunc` in both.
-/

namespace CoKV.IOManager

open Scheduler (Thread Queue Fc Entry Co Pc CoPc Turn Phase YieldOf)

variable {W : Type} {cfg : Scheduler.Config W} {σ σ' : Scheduler.State W} {s s' : Workers W}
  {t : Thread W}

namespace Workers

/-! ## Where a run loop stands -/

/-- In a turn. Behind `yield` and `idle` the loop goes through phases that nobody else sees. -/
def turnPc (done : Bool) : Turn → Phase → WorkerPc W
  | .idle, .resume | .idle, .swapIn => if done then .fallOff else .idleTop
  | .idle, .back => .idleOut
  | .idle, _ => .scan
  | _, .resume | _, .swapIn => .running
  | _, .back => .resumed
  | _, .check => .requeue
  | _, .setHold => .scan

/-- On the stack of `idle_co`: whether `idle` has returned, and the program counter. -/
def idlePc : CoPc → Bool × WorkerPc W
  | .entry | .body => (false, .idleTop)
  | .yieldtohold | .yield .callback | .yield .yieldtohold | .swapOut .callback
  | .swapOut .yieldtohold => (false, .idleOut)
  | .returned | .yield (.mainFunc _) | .swapOut (.mainFunc _) => (true, .idleOut)
  | .fallOff _ => (true, .fallOff)

/-- Where a thread of the scheduler stands, as `Workers` has it. A new thread has not entered `run`
before its first scan, and a thread that has exited stays where `MainFunc` has returned. -/
def StandsAt (done : Bool) (p : WorkerPc W) : Pc W → Prop
  | .notStarted => p = .outside true
  | .run _ .scan => p = .scan ∨ p = .outside true
  | .run _ (.dispatch task isActive) => p = .dispatch task isActive
  | .run _ (.turn x ph) => p = turnPc done x ph
  | .co (.idle _) q => (done, p) = idlePc q
  | .co _ _ => p = .running
  | .exited => p = .fallOff ∨ p = .running
  | _ => False

/-- The thread is not on the stack of its `idle_co`. -/
def offIdle : Pc W → Bool
  | .co (.idle _) _ | .exited => false
  | _ => true

/-- What `Workers` knows about a thread of the scheduler: where it stands, and where its `idle_co` goes
on. -/
structure Stands (σ : Scheduler.State W) (s : Workers W) (t : Thread W) : Prop where
  pc : t ≠ .caller → StandsAt (s.idleDone t) (s.pc t) (σ.pc t)
  ctx : offIdle (σ.pc t) = true → ∃ q, (σ.co (.idle t)).mCtx = .co (.idle t) q ∧ q.Saved ∧
    (s.idleDone t, turnPc (s.idleDone t) .idle .swapIn) = (idlePc q : Bool × WorkerPc W)
  cb : s.idleDone t = false → (σ.co (.idle t)).mCb = some .idle

/-- What both have of the data that the threads share. -/
structure Agrees (σ : Scheduler.State W) (s : Workers W) : Prop where
  tasks : s.queue.tasks.map Entry.task = σ.tasks
  active : s.activethreadcount = σ.activethreadcount
  idle : s.idlethreadcount = σ.idlethreadcount
  autostop : s.autostop = σ.autostop
  stopping : s.stopping = σ.stopping

/-- `Workers` sees what the scheduler does. Nobody is in `tickle`, and the owner's thread is in no
loop. -/
structure Matches (σ : Scheduler.State W) (s : Workers W) : Prop where
  thread : ∀ t, Stands σ s t
  shared : Agrees σ s
  call : ∀ t, s.call t = none
  owner : s.pc .caller = .outside false

/-- Every thread but the owner's is going to enter `run`. -/
def members : Thread W → Bool
  | .caller => false
  | .worker _ => true

/-- At first both have an empty queue, and nobody has entered `run`. -/
theorem matches_init (cbs : List ℕ) : Matches (Scheduler.init cbs) (init (members (W := W))) where
  thread t := by
    refine ⟨fun hne => ?_, fun _ => ⟨.entry, rfl, Or.inl rfl, rfl⟩, fun _ => rfl⟩
    cases t with
    | caller => exact absurd rfl hne
    | worker w => exact rfl
  shared := ⟨rfl, rfl, rfl, rfl, rfl⟩
  call _ := rfl
  owner := rfl

/-! ## What the loops can do -/

section Loops

variable [DecidableEq W]

/-- `tickle` comes back, and has written to `m_eventfd` or not. -/
theorem run_tickleIf (hcall : s.call t = none) (b : Bool) :
    ∃ e, Run Workers.step anyStep (s.tickleIf t b) { s with eventfd := e } := by
  have hback : Function.update s.call t none = s.call := by
    rw [← hcall]
    exact Function.update_eq_self t s.call
  cases b with
  | false => exact ⟨s.eventfd, .refl⟩
  | true =>
    have hstep (c : TickleCall) (s' : Workers W) (hc : s'.call t = some c) :
        s'.step (t, .tickle) = some (s'.tickle t c) := by
      unfold Workers.step
      simp only [hc]
    have hcheck : (s.tickleIf t true).step (t, .tickle) = some _ :=
      hstep .check _ call_tickleIf_true
    by_cases hidle : 0 < s.idlethreadcount
    · refine ⟨s.eventfd.write, (Run.single trivial hcheck).tail (a := (t, .tickle)) trivial ?_⟩
      rw [hstep .write]
      · simp [Workers.tickle, tickleIf, setCall, hback]
      · simp [Workers.tickle, tickleIf, setCall, hidle]
    · refine ⟨s.eventfd, Run.single (a := (t, .tickle)) trivial (hcheck.trans ?_)⟩
      simp [Workers.tickle, tickleIf, setCall, hidle, hback]

/-- A thread that is not in `tickle` goes on in its loop. -/
theorem step_act {a : Action W} (hcall : s.call t = none) (ha : a ≠ .tickle) :
    s.step (t, a) = s.act t a (s.pc t) := by
  unfold Workers.step
  dsimp only
  rw [hcall]
  cases a with
  | tickle => exact absurd rfl ha
  | _ => rfl

/-- One step of a thread that is not in `tickle`. -/
theorem run_act {a : Action W} {p : WorkerPc W} (hcall : s.call t = none) (hp : s.pc t = p)
    (h : s.act t a p = some s') : Run Workers.step anyStep s s' := by
  have ha : a ≠ .tickle := by
    rintro rfl
    cases h
  refine .single (a := (t, a)) trivial ?_
  rw [step_act hcall ha, hp, h]

/-- The owner's thread adds a task. -/
theorem run_addTask (hcall : s.call .caller = none) (howner : s.pc .caller = .outside false)
    (fc : Fc) (thr : Option (Thread W)) : ∃ e, Run Workers.step anyStep s
      { s with queue := (s.queue.addTask fc thr).2, eventfd := e } := by
  have hadd : Run Workers.step anyStep s (s.user .caller (.addTask fc thr)) :=
    run_act (a := .user (.addTask fc thr)) hcall howner rfl
  obtain ⟨e, hback⟩ := run_tickleIf (s := { s with queue := (s.queue.addTask fc thr).2 }) hcall
    (s.queue.addTask fc thr).1
  exact ⟨e, hadd.trans hback⟩

/-- A thread scans the queue, which it may have to enter `run` for. -/
theorem run_scan {getState : ℕ → CoState} {task : Scheduler.Task W} {isActive b : Bool} {q : Queue W}
    (hcall : s.call t = none) (hp : s.pc t = .scan ∨ s.pc t = .outside true)
    (hscan : s.queue.scan t getState = some (task, isActive, b, q)) : ∃ e,
      Run Workers.step anyStep s { s with
        queue := q
        activethreadcount := if isActive then s.activethreadcount + 1 else s.activethreadcount
        steppedOver := s.steppedOver ++ stepsOver t getState s.queue.tasks
        pc := Function.update s.pc t (.dispatch task isActive)
        eventfd := e } := by
  have henter : Run Workers.step anyStep s (s.setPc t .scan) := by
    rcases hp with hp | hp
    · have hsame : s.setPc t .scan = s := by
        unfold setPc
        rw [← hp, Function.update_eq_self]
      rw [hsame]
      exact .refl
    · exact run_act (a := .enter) hcall hp rfl
  obtain ⟨e, hback⟩ := run_tickleIf (t := t) (s := { s with
    queue := q
    activethreadcount := if isActive then s.activethreadcount + 1 else s.activethreadcount
    steppedOver := s.steppedOver ++ stepsOver t getState s.queue.tasks
    pc := Function.update s.pc t (.dispatch task isActive) }) hcall b
  refine ⟨e, (henter.trans ?_).trans hback⟩
  refine run_act (a := .scan getState) hcall (Function.update_self ..) ?_
  show ((s.setPc t .scan).queue.scan t getState).map _ = _
  rw [queue_setPc, hscan]
  simp [setPc]

/-- `idle` finds the manager running, and yields after an `epoll_wait` that does not wait. -/
theorem run_idle (hcall : s.call t = none) (hp : s.pc t = .idleTop) :
    Run Workers.step anyStep s (s.setPc t .idleOut) := by
  have h₁ : Run Workers.step anyStep s (s.setPc t (.epollWait (toInt (capped 0)))) := by
    refine run_act (a := .stopping false) hcall hp ?_
    simp [act, isStopping]
  have h₂ : Run Workers.step anyStep (s.setPc t (.epollWait (toInt (capped 0))))
      (s.setPc t (.handling false)) := by
    refine run_act (a := .epollWait .other) hcall (Function.update_self ..) ?_
    simp [act, EventFd.wake, setPc]
  have h₃ : Run Workers.step anyStep (s.setPc t (.handling false)) (s.setPc t .idleOut) := by
    refine run_act (a := .yield) hcall (Function.update_self ..) ?_
    simp [act, setPc]
  exact (h₁.trans h₂).trans h₃

/-- `idle` finds the manager stopping and no timer, and returns. -/
theorem run_idleDone (hcall : s.call t = none) (hp : s.pc t = .idleTop)
    (hstop : s.isStopping true = true) : Run Workers.step anyStep s
      ({ s with idleDone := Function.update s.idleDone t true }.setPc t .idleOut) := by
  have h₁ : Run Workers.step anyStep s (s.setPc t .nextTimer) := by
    refine run_act (a := .stopping true) hcall hp ?_
    simp [act, hstop]
  refine h₁.trans (run_act (a := .nextTimer (~~~0)) hcall (Function.update_self ..) ?_)
  simp [act, setPc]

end Loops

/-! ## One thread moves -/

/-- The callback and the context of every `idle_co` are as before. -/
def SameIdle (σ σ' : Scheduler.State W) : Prop :=
  ∀ u, (σ'.co (.idle u)).mCb = (σ.co (.idle u)).mCb ∧ (σ'.co (.idle u)).mCtx = (σ.co (.idle u)).mCtx

/-- An `idle_co` that is not written is as before. -/
theorem idle_congr (h : σ'.co (.idle t) = σ.co (.idle t)) :
    (σ'.co (.idle t)).mCb = (σ.co (.idle t)).mCb ∧
      (σ'.co (.idle t)).mCtx = (σ.co (.idle t)).mCtx := by
  rw [h]
  exact ⟨rfl, rfl⟩

theorem SameIdle.of_co (h : ∀ u, σ'.co (.idle u) = σ.co (.idle u)) : SameIdle σ σ' :=
  fun u => idle_congr (h u)

/-- A coroutine that was made has been written. -/
theorem SameIdle.of_made {k : ℕ} (h : ∀ c, c ≠ .made k → σ'.co c = σ.co c) : SameIdle σ σ' :=
  .of_co fun _ => h _ nofun

/-- A thread that goes on where `Workers` has it, and does not leave the stack of its `idle_co`. -/
theorem Stands.goto (h : Stands σ s t) (hidle : (σ'.co (.idle t)).mCb = (σ.co (.idle t)).mCb ∧
      (σ'.co (.idle t)).mCtx = (σ.co (.idle t)).mCtx) (hdone : s'.idleDone t = s.idleDone t)
    (hoff : offIdle (σ'.pc t) = true → offIdle (σ.pc t) = true)
    (hpc : t ≠ .caller → StandsAt (s.idleDone t) (s'.pc t) (σ'.pc t)) : Stands σ' s' t := by
  refine ⟨?_, fun hoff' => ?_, ?_⟩
  · rw [hdone]
    exact hpc
  · rw [hdone, hidle.2]
    exact h.ctx (hoff hoff')
  · rw [hdone, hidle.1]
    exact h.cb

/-- What the owner's thread does, or the rest of the program. -/
theorem Matches.elsewhere (h : Matches σ s) (hshared : Agrees σ' s') (hidle : SameIdle σ σ')
    (hσ : ∀ u ≠ .caller, σ'.pc u = σ.pc u)
    (hoff : offIdle (σ'.pc .caller) = true → offIdle (σ.pc .caller) = true)
    (hpc : s'.pc = s.pc) (hcall : s'.call = s.call) (hdone : s'.idleDone = s.idleDone) :
    Matches σ' s' where
  thread u := by
    by_cases hu : u = .caller
    · rw [hu]
      exact (h.thread _).goto (hidle _) (by rw [hdone]) hoff fun hne => absurd rfl hne
    · refine (h.thread u).goto (hidle u) (by rw [hdone]) (by rw [hσ u hu]; exact id) fun hne => ?_
      rw [hσ u hu, hpc]
      exact (h.thread u).pc hne
  shared := hshared
  call u := by rw [hcall]; exact h.call u
  owner := by rw [hpc]; exact h.owner

variable [DecidableEq W] {p : Pc W} {w : WorkerPc W}

/-- The other threads see nothing of what `t` does. -/
theorem Matches.others (h : Matches σ s) (ht : t ≠ .caller) (hshared : Agrees σ' s')
    (hidle : ∀ u ≠ t, (σ'.co (.idle u)).mCb = (σ.co (.idle u)).mCb ∧
      (σ'.co (.idle u)).mCtx = (σ.co (.idle u)).mCtx) (hσ : σ'.pc = Function.update σ.pc t p)
    (hpc : s'.pc = Function.update s.pc t w) (hcall : s'.call = s.call)
    (hdone : ∀ u ≠ t, s'.idleDone u = s.idleDone u) (hself : Stands σ' s' t) : Matches σ' s' where
  thread u := by
    by_cases hu : u = t
    · rw [hu]
      exact hself
    · have hσu : σ'.pc u = σ.pc u := by rw [hσ, Function.update_of_ne hu]
      refine (h.thread u).goto (hidle u hu) (hdone u hu) (by rw [hσu]; exact id) fun hne => ?_
      rw [hσu, hpc, Function.update_of_ne hu]
      exact (h.thread u).pc hne
  shared := hshared
  call u := by rw [hcall]; exact h.call u
  owner := by rw [hpc, Function.update_of_ne ht.symm]; exact h.owner

/-- A thread moves in both, and does not leave the stack of its `idle_co`. -/
theorem Matches.move (h : Matches σ s) (ht : t ≠ .caller) (hshared : Agrees σ' s')
    (hidle : SameIdle σ σ') (hσ : σ'.pc = Function.update σ.pc t p)
    (hpc : s'.pc = Function.update s.pc t w) (hcall : s'.call = s.call)
    (hdone : s'.idleDone = s.idleDone) (hoff : offIdle p = true → offIdle (σ.pc t) = true)
    (hst : StandsAt (s.idleDone t) w p) : Matches σ' s' := by
  refine h.others ht hshared (fun u _ => hidle u) hσ hpc hcall (fun _ _ => by rw [hdone]) ?_
  refine (h.thread t).goto (hidle t) (by rw [hdone]) ?_ fun _ => ?_
  · rw [hσ, Function.update_self]
    exact hoff
  · rw [hσ, hpc, Function.update_self, Function.update_self]
    exact hst

/-- A thread moves, and `Workers` does not see it. -/
theorem Matches.stutter (h : Matches σ s) (ht : t ≠ .caller) (hshared : Agrees σ' s)
    (hidle : SameIdle σ σ') (hσ : σ'.pc = Function.update σ.pc t p)
    (hoff : offIdle p = true → offIdle (σ.pc t) = true) (hst : StandsAt (s.idleDone t) (s.pc t) p) :
    ∃ s', Run Workers.step anyStep s s' ∧ Matches σ' s' :=
  ⟨s, .refl, h.move ht hshared hidle hσ (Function.update_eq_self t s.pc).symm rfl rfl hoff hst⟩

/-- `setState` writes neither the callback nor the context. -/
theorem sameIdle_setState (d : Co W) (st : CoState) : SameIdle σ (σ.setState d st) := by
  intro u
  by_cases hd : Co.idle u = d
  · rw [← hd, Scheduler.State.setState_co_self]
    exact ⟨rfl, rfl⟩
  · rw [Scheduler.State.setState_co_of_ne _ _ hd]
    exact ⟨rfl, rfl⟩

/-- `swapcontext` saves the context of another coroutine. -/
theorem sameIdle_swapcontext {a b : Co W} (k : Pc W) (ha : ∀ u, Co.idle u ≠ a) :
    SameIdle σ (σ.swapcontext t k a b) :=
  .of_co fun u => Scheduler.State.swapcontext_co_of_ne _ _ _ _ (ha u)

omit [DecidableEq W] in
/-- No run loop is on the stack of an `idle_co`. -/
theorem idle_ne_schedCo (t u : Thread W) : Co.idle u ≠ Scheduler.schedCo cfg t :=
  (show (Co.idle u).Of u from rfl).ne_schedCo t

/-! ## The run loop -/

/-- A turn, phase by phase. -/
theorem Matches.turnStep (h : Matches σ s) (hi : Scheduler.Inv cfg σ) {cbCo : Option ℕ} {x : Turn}
    {ph : Phase} (hp : σ.pc t = .run cbCo (.turn x ph)) : ∃ s', Run Workers.step anyStep s s' ∧
      Matches (Scheduler.turnStep cfg σ t cbCo x ph) s' := by
  obtain ⟨ht, -, hstate⟩ := hi.at_run hp
  have hat : s.pc t = turnPc (s.idleDone t) x ph := by
    have hst := (h.thread t).pc ht
    rwa [hp] at hst
  have hoff : offIdle (σ.pc t) = true := by rw [hp]; rfl
  obtain ⟨htasks, hactive, hidle, hauto, hstop⟩ := h.shared
  cases ph with
  | resume =>
    refine h.stutter ht ⟨htasks, hactive, hidle, hauto, hstop⟩ (sameIdle_setState _ _) rfl
      (fun _ => hoff) ?_
    cases x <;> exact hat
  | swapIn =>
    have hne : x.co t ≠ Scheduler.schedCo cfg t := (Turn.of t x).ne_schedCo t
    have hpc := Scheduler.State.swapcontext_pc σ t (.run cbCo (.turn x .back)) hne
    refine h.stutter ht ⟨htasks, hactive, hidle, hauto, hstop⟩
      (sameIdle_swapcontext _ (idle_ne_schedCo t)) hpc (fun _ => hoff) ?_
    cases x with
    | idle =>
      -- it goes on where it has yielded, or behind the last `yield` of `MainFunc`
      obtain ⟨q, hctx, -, hq⟩ := (h.thread t).ctx hoff
      show StandsAt _ _ (σ.co (.idle t)).mCtx
      rw [hctx, hat]
      exact hq
    | task c | callback c =>
      obtain ⟨q, hctx, -⟩ := (hi.saved t (.made c) trivial).ctx
      show StandsAt _ _ (σ.co (.made c)).mCtx
      rw [hctx]
      exact hat
  | back =>
    cases x with
    | idle =>
      have hrun : Run Workers.step anyStep s _ := run_act (a := .busy) (h.call t) hat rfl
      refine ⟨_, hrun, h.move ht ⟨htasks, hactive, ?_, hauto, hstop⟩ (.of_co fun _ => rfl) rfl rfl rfl
        rfl (fun _ => hoff) rfl⟩
      exact congrArg (· - 1) hidle
    | task c | callback c =>
      have hrun : Run Workers.step anyStep s _ := run_act (a := .inactive) (h.call t) hat rfl
      refine ⟨_, hrun, h.move ht ⟨htasks, ?_, hidle, hauto, hstop⟩ (.of_co fun _ => rfl) rfl rfl rfl
        rfl (fun _ => hoff) rfl⟩
      exact congrArg (· - 1) hactive
  | check =>
    rw [Scheduler.turnStep_check_hold hstate]
    cases x with
    | idle =>
      exact h.stutter ht ⟨htasks, hactive, hidle, hauto, hstop⟩ (.of_co fun _ => rfl) rfl
        (fun _ => hoff) hat
    | task c | callback c =>
      have hrun : Run Workers.step anyStep s _ :=
        run_act (a := .requeue none) (h.call t) hat rfl
      exact ⟨_, hrun, h.move ht ⟨htasks, hactive, hidle, hauto, hstop⟩ (.of_co fun _ => rfl) rfl rfl rfl
        rfl (fun _ => hoff) rfl⟩
  | setHold =>
    have hscan : s.pc t = .scan := by
      rw [hat]
      cases x <;> rfl
    cases x <;>
    · exact h.stutter ht ⟨htasks, hactive, hidle, hauto, hstop⟩ (sameIdle_setState _ _) rfl
        (fun _ => hoff) (Or.inl hscan)

/-- Behind the critical section. -/
theorem Matches.dispatch (h : Matches σ s) (hi : Scheduler.Inv cfg σ) {cbCo : Option ℕ}
    {task : Scheduler.Task W} {isActive : Bool} (hp : σ.pc t = .run cbCo (.dispatch task isActive)) :
    ∃ s', Run Workers.step anyStep s s' ∧
      Matches (Scheduler.dispatch σ t cbCo task isActive) s' := by
  obtain ⟨ht, hcb, -⟩ := hi.at_run hp
  have hnone : cbCo = none := hcb
  subst hnone
  have hat : s.pc t = .dispatch task isActive := by
    have hst := (h.thread t).pc ht
    rwa [hp] at hst
  have hoff : offIdle (σ.pc t) = true := by rw [hp]; rfl
  obtain ⟨htasks, hactive, hidle, hauto, hstop⟩ := h.shared
  let term : Bool := task.selfco.any fun c => decide ((σ.co (.made c)).mState = .term)
  have hrun : Run Workers.step anyStep s (s.dispatch t task isActive term) :=
    run_act (a := .dispatch term) (h.call t) hat rfl
  refine ⟨_, hrun, ?_⟩
  have hterm : (task.selfco.isSome && !term) =
      (task.selfco.filter fun c => (σ.co (.made c)).mState ≠ .term).isSome := by
    cases hc : task.selfco with
    | none => rfl
    | some c => by_cases hst : (σ.co (.made c)).mState = .term <;> simp [term, hc, hst, Option.filter]
  unfold Scheduler.dispatch Workers.dispatch
  rw [hterm]
  cases task.selfco.filter fun c => (σ.co (.made c)).mState ≠ .term with
  | some c =>
    exact h.move ht ⟨htasks, hactive, hidle, hauto, hstop⟩ (.of_co fun _ => rfl) rfl rfl rfl rfl
      (fun _ => hoff) rfl
  | none =>
    cases task.cb with
    | some f =>
      exact h.move ht ⟨htasks, hactive, hidle, hauto, hstop⟩
        (.of_made fun c hc => Function.update_of_ne hc ..) rfl rfl rfl rfl (fun _ => hoff) rfl
    | none =>
      cases isActive with
      | true =>
        refine h.move ht ⟨htasks, ?_, hidle, hauto, hstop⟩ (.of_co fun _ => rfl) rfl rfl rfl rfl
          (fun _ => hoff) (Or.inl rfl)
        exact congrArg (· - 1) hactive
      | false =>
        have hnot : (σ.co (.idle t)).mState ≠ .term := by
          refine hi.idle t ?_
          rw [hp]
          intro hhand
          obtain ⟨c, -, hc⟩ := Option.map_eq_some_iff.mp hhand
          cases hc
        dsimp only
        rw [if_neg hnot]
        refine h.move ht ⟨htasks, hactive, ?_, hauto, hstop⟩ (.of_co fun _ => rfl) rfl rfl rfl rfl
          (fun _ => hoff) rfl
        exact congrArg (· + 1) hidle

/-- The critical section of `run`. -/
theorem Matches.scan (h : Matches σ s) (hi : Scheduler.Inv cfg σ) (hw : Scheduler.Waiting s.queue)
    {cbCo : Option ℕ} (hp : σ.pc t = .run cbCo .scan) : ∃ s', Run Workers.step anyStep s s' ∧
      Matches (Scheduler.runStep cfg σ t cbCo .scan) s' := by
  obtain ⟨ht, -, -⟩ := hi.at_run hp
  have hat : s.pc t = .scan ∨ s.pc t = .outside true := by
    have hst := (h.thread t).pc ht
    rwa [hp] at hst
  have hoff : offIdle (σ.pc t) = true := by rw [hp]; rfl
  obtain ⟨htasks, hactive, hidle, hauto, hstop⟩ := h.shared
  unfold Scheduler.runStep
  dsimp only
  rcases hw.scan_agrees htasks t with ⟨hfind, -, b, hscan⟩ | ⟨task, b, q, hfind, hscan, hq⟩
  · obtain ⟨e, hrun⟩ := run_scan (h.call t) hat hscan
    rw [hfind]
    exact ⟨_, hrun, h.move ht ⟨htasks, hactive, hidle, hauto, hstop⟩ (.of_co fun _ => rfl) rfl rfl rfl
      rfl (fun _ => hoff) rfl⟩
  · obtain ⟨e, hrun⟩ := run_scan (h.call t) hat hscan
    rw [hfind]
    refine ⟨_, hrun, h.move ht ⟨hq, ?_, hidle, hauto, hstop⟩ (.of_co fun _ => rfl) rfl rfl rfl
      rfl (fun _ => hoff) rfl⟩
    exact congrArg (· + 1) hactive

/-! ## The code on the stack of a coroutine -/

/-- The code of a coroutine that is not an `idle_co`. -/
theorem Matches.madeStep (h : Matches σ s) (hi : Scheduler.Inv cfg σ) {k : ℕ} {q : CoPc}
    (hp : σ.pc t = .co (.made k) q) (hs : Scheduler.coStep cfg σ t (.made k) q = some σ') :
    ∃ s', Run Workers.step anyStep s s' ∧ Matches σ' s' := by
  obtain ⟨ht, -, -, x, hx, hback⟩ := hi.at_co hp
  have hat : s.pc t = .running := by
    have hst := (h.thread t).pc ht
    rwa [hp] at hst
  have hoff : offIdle (σ.pc t) = true := by rw [hp]; rfl
  obtain ⟨htasks, hactive, hidle, hauto, hstop⟩ := h.shared
  cases q with
  | entry =>
    have hcb := (hi.saved t (.made k) trivial).cb
    dsimp only [Scheduler.coStep] at hs
    split at hs
    case h_1 =>
      cases hs
      exact h.stutter ht ⟨htasks, hactive, hidle, hauto, hstop⟩ (.of_co fun _ => rfl) rfl
        (fun _ => hoff) hat
    case h_2 hrun => exact absurd hrun hcb
    case h_3 =>
      cases hs
      exact h.stutter ht ⟨htasks, hactive, hidle, hauto, hstop⟩ (.of_co fun _ => rfl) rfl
        (fun _ => hoff) hat
  | body => cases hs
  | returned =>
    dsimp only [Scheduler.coStep] at hs
    split at hs <;>
    · cases hs
      exact h.stutter ht ⟨htasks, hactive, hidle, hauto, hstop⟩
        (.of_made fun c hc => Function.update_of_ne hc ..) rfl (fun _ => hoff) hat
  | yieldtohold | yield y =>
    cases hs
    exact h.stutter ht ⟨htasks, hactive, hidle, hauto, hstop⟩ (sameIdle_setState _ _) rfl
      (fun _ => hoff) hat
  | swapOut y =>
    cases hs
    have hne : Scheduler.schedCo cfg t ≠ .made k :=
      (Co.Of.ne_schedCo (t := t) (c := .made k) trivial t).symm
    have hpc := Scheduler.State.swapcontext_pc σ t (.co (.made k) y.cont) hne
    have hrun : Run Workers.step anyStep s _ := run_act (a := .finish) (h.call t) hat rfl
    refine ⟨_, hrun, h.move ht ⟨htasks, hactive, hidle, hauto, hstop⟩
      (sameIdle_swapcontext _ (fun _ => nofun)) hpc rfl rfl rfl (fun _ => hoff) ?_⟩
    rw [hback]
    cases x with
    | idle => cases hx
    | task c | callback c => rfl
  | fallOff b =>
    cases hs
    exact h.stutter ht ⟨htasks, hactive, hidle, hauto, hstop⟩ (.of_co fun _ => rfl) rfl
      (fun _ => hoff) (Or.inr hat)

omit [DecidableEq W] in
/-- What `stopping()` returns to an idle thread, but for `m_pendingEventCount`. -/
theorem Agrees.isStopping (h : Agrees σ s) : s.isStopping true = σ.isStopping := by
  unfold Workers.isStopping Scheduler.State.isStopping
  rw [h.autostop, h.stopping, h.active, ← h.tasks]
  simp

/-- The code of an `idle_co`. -/
theorem Matches.idleStep (h : Matches σ s) (hi : Scheduler.Inv cfg σ) {q : CoPc}
    (hp : σ.pc t = .co (.idle t) q) (hs : Scheduler.coStep cfg σ t (.idle t) q = some σ') :
    ∃ s', Run Workers.step anyStep s s' ∧ Matches σ' s' := by
  obtain ⟨ht, -, -, x, hx, hback⟩ := hi.at_co hp
  have hat : (s.idleDone t, s.pc t) = idlePc q := by
    have hst := (h.thread t).pc ht
    rwa [hp] at hst
  have hshared := h.shared
  obtain ⟨htasks, hactive, hidle, hauto, hstop⟩ := h.shared
  -- `idle_co` goes on, and `Workers` does not see it
  have hgoto {q' : CoPc} (hsame : SameIdle σ σ') (hag : Agrees σ' s)
      (hσ : σ'.pc = Function.update σ.pc t (.co (.idle t) q'))
      (hq : (idlePc q : Bool × WorkerPc W) = idlePc q') :
      ∃ s', Run Workers.step anyStep s s' ∧ Matches σ' s' :=
    h.stutter ht hag hsame hσ (fun hoff => by cases hoff) (hat.trans hq)
  cases q with
  | entry =>
    obtain ⟨hdone, -⟩ := Prod.mk.inj hat
    dsimp only [Scheduler.coStep] at hs
    rw [(h.thread t).cb hdone] at hs
    cases hs
    exact hgoto (.of_co fun _ => rfl) ⟨htasks, hactive, hidle, hauto, hstop⟩ rfl rfl
  | body =>
    obtain ⟨hdone, htop⟩ := Prod.mk.inj hat
    cases hs
    cases hstopping : σ.isStopping with
    | true =>
      have hrun := run_idleDone (h.call t) htop (hshared.isStopping.trans hstopping)
      refine ⟨_, hrun, h.others ht ⟨htasks, hactive, hidle, hauto, hstop⟩ (fun _ _ => ⟨rfl, rfl⟩) rfl rfl
        rfl (fun u hu => Function.update_of_ne hu ..) ⟨fun _ => ?_, fun hoff => ?_, fun hnot => ?_⟩⟩
      · rw [Scheduler.State.setPc_pc_self]
        show (Function.update s.idleDone t true t, Function.update s.pc t .idleOut t) = _
        rw [Function.update_self, Function.update_self]
        rfl
      · rw [Scheduler.State.setPc_pc_self] at hoff
        cases hoff
      · have hdone' : Function.update s.idleDone t true t = false := hnot
        rw [Function.update_self] at hdone'
        cases hdone'
    | false =>
      exact ⟨_, run_idle (h.call t) htop, h.move ht ⟨htasks, hactive, hidle, hauto, hstop⟩
        (.of_co fun _ => rfl) rfl rfl rfl rfl (fun hoff => by cases hoff) (by rw [hdone]; rfl)⟩
  | returned =>
    obtain ⟨hdone, hout⟩ := Prod.mk.inj hat
    have hco : ∀ u ≠ t, (Co.idle u : Co W) ≠ .idle t := fun u hu heq => hu (Co.idle.inj heq)
    have hself (hpc : σ'.pc = Function.update σ.pc t (.co (.idle t) (.yield (.mainFunc true)))) :
        Stands σ' s t := by
      refine ⟨fun _ => ?_, fun hoff => ?_, fun hnot => ?_⟩
      · rw [hpc, Function.update_self]
        exact hat
      · rw [hpc, Function.update_self] at hoff
        cases hoff
      · rw [hdone] at hnot
        cases hnot
    dsimp only [Scheduler.coStep] at hs
    split at hs <;>
    · cases hs
      exact ⟨s, .refl, h.others ht ⟨htasks, hactive, hidle, hauto, hstop⟩
        (fun u hu => idle_congr (Function.update_of_ne (hco u hu) ..)) rfl (Function.update_eq_self t s.pc).symm rfl
        (fun _ _ => rfl) (hself rfl)⟩
  | yieldtohold =>
    cases hs
    exact hgoto (sameIdle_setState _ _) ⟨htasks, hactive, hidle, hauto, hstop⟩ rfl rfl
  | yield y =>
    cases hs
    refine hgoto (sameIdle_setState _ _) ⟨htasks, hactive, hidle, hauto, hstop⟩ rfl ?_
    cases y <;> rfl
  | swapOut y =>
    cases hs
    have hne : Scheduler.schedCo cfg t ≠ .idle t := (idle_ne_schedCo t t).symm
    have hpc := Scheduler.State.swapcontext_pc σ t (.co (.idle t) y.cont) hne
    have hturn : (σ.co (Scheduler.schedCo cfg t)).mCtx = .run none (.turn .idle .back) := by
      rw [hback]
      cases x with
      | idle => rfl
      | task c | callback c => cases hx
    refine ⟨s, .refl, h.others ht ⟨htasks, hactive, hidle, hauto, hstop⟩
      (fun u hu => idle_congr (Scheduler.State.swapcontext_co_of_ne _ _ _ _
        (fun heq => hu (Co.idle.inj heq)))) hpc (Function.update_eq_self t s.pc).symm rfl (fun _ _ => rfl) ⟨fun _ => ?_, fun _ => ?_, ?_⟩⟩
    · rw [hpc, Function.update_self, hturn]
      cases y <;> exact (Prod.mk.inj hat).2
    · rw [Scheduler.State.swapcontext_co_self]
      refine ⟨y.cont, rfl, y.saved_cont, ?_⟩
      -- behind the last `yield` of `MainFunc` it falls off
      cases y <;> rw [(Prod.mk.inj hat).1] <;> rfl
    · rw [Scheduler.State.swapcontext_co_self]
      exact (h.thread t).cb
  | fallOff b =>
    cases hs
    exact h.stutter ht ⟨htasks, hactive, hidle, hauto, hstop⟩ (.of_co fun _ => rfl) rfl
      (fun hoff => by cases hoff) (Or.inl (Prod.mk.inj hat).2)

/-- Somebody adds a task. -/
theorem Matches.addTask (h : Matches σ s) (fc : Fc) (thr : Option (Thread W)) :
    ∃ s', Run Workers.step anyStep s s' ∧ Matches (σ.addTask (.ofFc fc thr)) s' := by
  obtain ⟨e, hrun⟩ := run_addTask (h.call _) h.owner fc thr
  obtain ⟨htasks, hactive, hidle, hauto, hstop⟩ := h.shared
  have hsame : (σ.addTask (.ofFc fc thr)).idlethreadcount = σ.idlethreadcount ∧
      (σ.addTask (.ofFc fc thr)).autostop = σ.autostop ∧
      (σ.addTask (.ofFc fc thr)).stopping = σ.stopping := by
    unfold Scheduler.State.addTask
    split <;> exact ⟨rfl, rfl, rfl⟩
  refine ⟨_, hrun, h.elsewhere ⟨Scheduler.addTask_tasks htasks fc thr, ?_, ?_, ?_, ?_⟩ (.of_co ?_) ?_ ?_
    rfl rfl rfl⟩
  · rw [Scheduler.State.addTask_activethreadcount]
    exact hactive
  · exact hidle.trans hsame.1.symm
  · exact hauto.trans hsame.2.1.symm
  · exact hstop.trans hsame.2.2.symm
  · exact fun u => by rw [Scheduler.State.addTask_co]
  · exact fun u _ => by rw [Scheduler.State.addTask_pc]
  · rw [Scheduler.State.addTask_pc]
    exact id

/-- What the body of a coroutine does next. -/
theorem Matches.bodyStep (h : Matches σ s) (hi : Scheduler.Inv cfg σ) {c : Co W} {a : Scheduler.Act}
    (hp : σ.pc t = .co c .body) (hs : Scheduler.bodyStep σ t c a = some σ') :
    ∃ s', Run Workers.step anyStep s s' ∧ Matches σ' s' := by
  obtain ⟨ht, hof, -, -⟩ := hi.at_co hp
  have hst := (h.thread t).pc ht
  rw [hp] at hst
  obtain ⟨htasks, hactive, hidle, hauto, hstop⟩ := h.shared
  -- where it yields, a callback goes on alone, and `idle` comes back
  have hyield {q : CoPc} (hσ : σ' = σ.setPc t (.co c q))
      (hq : (idlePc q : Bool × WorkerPc W) = (false, .idleOut)) :
      ∃ s', Run Workers.step anyStep s s' ∧ Matches σ' s' := by
    subst hσ
    cases c with
    | made k =>
      have hoff : offIdle (σ.pc t) = true := by rw [hp]; rfl
      exact h.stutter ht ⟨htasks, hactive, hidle, hauto, hstop⟩ (.of_co fun _ => rfl) rfl
        (fun _ => hoff) hst
    | idle t' =>
      obtain ⟨hdone, htop⟩ := Prod.mk.inj hst
      refine ⟨_, run_idle (h.call t) htop, h.move ht ⟨htasks, hactive, hidle, hauto, hstop⟩
        (.of_co fun _ => rfl) rfl rfl rfl rfl (fun hoff => by cases hoff) ?_⟩
      show (s.idleDone t, _) = idlePc q
      rw [hq, hdone]
    | main _ | schedulerco => exact hof.elim
  unfold Scheduler.bodyStep at hs
  split at hs
  case h_1 =>
    split at hs <;> cases hs
    exact ⟨s, .refl, h.elsewhere ⟨htasks, hactive, hidle, hauto, hstop⟩ (.of_co fun _ => rfl)
      (fun _ _ => rfl) id rfl rfl rfl⟩
  case h_2 i =>
    split at hs <;> cases hs
    rename_i t' k _
    have hwaiting : Matches { σ with waiting := σ.waiting.eraseIdx i } s :=
      h.elsewhere ⟨htasks, hactive, hidle, hauto, hstop⟩ (.of_co fun _ => rfl) (fun _ _ => rfl) id rfl
        rfl rfl
    exact hwaiting.addTask (.selfco (some k)) none
  case h_3 => exact hyield (Option.some.inj hs).symm rfl
  case h_4 => exact hyield (Option.some.inj hs).symm rfl
  case h_5 =>
    split at hs <;> cases hs
    have hoff : offIdle (σ.pc t) = true := by rw [hp]; rfl
    exact h.stutter ht ⟨htasks, hactive, hidle, hauto, hstop⟩ (.of_co fun _ => rfl) rfl
      (fun _ => hoff) hst

/-! ## The owner's thread -/

/-- `start` lets the workers begin; they enter `run` later. -/
theorem Matches.start (h : Matches σ s) (hi : Scheduler.Inv cfg σ) {cbs : List ℕ}
    (hp : σ.pc .caller = .caller (.start cbs))
    (hs : Scheduler.callerStep cfg σ (.start cbs) = some σ') :
    ∃ s', Run Workers.step anyStep s s' ∧ Matches σ' s' := by
  obtain ⟨htasks, hactive, hidle, hauto, hstop⟩ := h.shared
  have hoff : offIdle (σ.pc .caller) = true := by rw [hp]; rfl
  cases hs
  split
  case isTrue =>
    have hrun : Run Workers.step anyStep s { s with stopping := false } :=
      run_act (a := .user (.setStopping false)) (h.call _) h.owner rfl
    refine ⟨_, hrun, ⟨fun t => ?_, ⟨htasks, hactive, hidle, hauto, rfl⟩, h.call, h.owner⟩⟩
    cases t with
    | caller =>
      exact (h.thread _).goto ⟨rfl, rfl⟩ rfl (fun _ => hoff) fun hne => absurd rfl hne
    | worker w =>
      have hnew := hi.started cbs hp w
      have hout : s.pc (.worker w) = .outside true := by
        have hst := (h.thread (.worker w)).pc nofun
        rwa [hnew] at hst
      refine (h.thread _).goto ⟨rfl, rfl⟩ rfl (fun _ => by rw [hnew]; rfl) fun _ => ?_
      show StandsAt _ (s.pc (.worker w)) (if w ∈ cfg.workers then _ else σ.pc (.worker w))
      split
      · exact Or.inr hout
      · rw [hnew]
        exact hout
  case isFalse =>
    refine ⟨s, .refl, h.elsewhere ⟨htasks, hactive, hidle, hauto, hstop⟩ (.of_co fun _ => rfl) ?_
      (fun _ => hoff) rfl rfl rfl⟩
    exact fun u hu => Function.update_of_ne hu ..

/-- What the owner's thread does next. -/
theorem Matches.callerStep (h : Matches σ s) (hi : Scheduler.Inv cfg σ) {q : Scheduler.CallerPc W}
    (hp : σ.pc .caller = .caller q) (hs : Scheduler.callerStep cfg σ q = some σ') :
    ∃ s', Run Workers.step anyStep s s' ∧ Matches σ' s' := by
  obtain ⟨htasks, hactive, hidle, hauto, hstop⟩ := h.shared
  have hoff : offIdle (σ.pc .caller) = true := by rw [hp]; rfl
  have hσ {σ' : Scheduler.State W} {p : Pc W} (hpc : σ'.pc = Function.update σ.pc .caller p) :
      ∀ u ≠ .caller, σ'.pc u = σ.pc u := fun u hu => by rw [hpc, Function.update_of_ne hu]
  have hgoto (q' : Scheduler.CallerPc W) : ∃ s', Run Workers.step anyStep s s' ∧
      Matches (σ.setPc .caller (.caller q')) s' :=
    ⟨s, .refl, h.elsewhere ⟨htasks, hactive, hidle, hauto, hstop⟩ (.of_co fun _ => rfl) (hσ rfl)
      (fun _ => hoff) rfl rfl rfl⟩
  unfold Scheduler.callerStep at hs
  split at hs
  case h_1 cbs => exact h.start hi hp hs
  case h_2 f cbs =>
    cases hs
    obtain ⟨s', hrun, hm⟩ := h.addTask (.cb (some f)) none
    obtain ⟨htasks', hactive', hidle', hauto', hstop'⟩ := hm.shared
    refine ⟨s', hrun, hm.elsewhere ⟨htasks', hactive', hidle', hauto', hstop'⟩ (.of_co fun _ => rfl)
      (fun u hu => Function.update_of_ne hu ..) (fun _ => ?_) rfl rfl rfl⟩
    rw [Scheduler.State.addTask_pc]
    exact hoff
  case h_3 =>
    cases hs
    have hrun : Run Workers.step anyStep s { s with autostop := true } :=
      run_act (a := .user .setAutostop) (h.call _) h.owner rfl
    exact ⟨_, hrun, h.elsewhere ⟨htasks, hactive, hidle, rfl, hstop⟩ (.of_co fun _ => rfl) (hσ rfl)
      (fun _ => hoff) rfl rfl rfl⟩
  case h_4 =>
    dsimp only at hs
    split at hs <;> cases hs <;> exact hgoto _
  case h_5 =>
    cases hs
    have hrun : Run Workers.step anyStep s { s with stopping := true } :=
      run_act (a := .user (.setStopping true)) (h.call _) h.owner rfl
    exact ⟨_, hrun, h.elsewhere ⟨htasks, hactive, hidle, hauto, rfl⟩ (.of_co fun _ => rfl) (hσ rfl)
      (fun _ => hoff) rfl rfl rfl⟩
  case h_6 =>
    cases hs
    exact ⟨s, .refl, h.elsewhere ⟨htasks, hactive, hidle, hauto, hstop⟩ (sameIdle_setState _ _) (hσ rfl)
      (fun _ => hoff) rfl rfl rfl⟩
  case h_7 =>
    cases hs
    exact ⟨s, .refl, h.elsewhere ⟨htasks, hactive, hidle, hauto, hstop⟩
      (sameIdle_swapcontext _ (idle_ne_schedCo .caller)) (hσ rfl) (fun _ => hoff) rfl rfl rfl⟩
  case h_8 =>
    cases hs
    exact hgoto _
  case h_9 =>
    split at hs <;> cases hs
    exact hgoto _
  case h_10 => cases hs

/-! ## Runs -/

/-- The scans are free, and each task has one member. -/
def FreeScans (σ : Scheduler.State W) (l : Scheduler.Label W) : Prop :=
  Scheduler.FreeTake σ l ∧ Scheduler.OneMember σ l

/-- Each step of the scheduler is a run of the loops, the empty one included. -/
theorem Matches.step (h : Matches σ s) (hi : Scheduler.Inv cfg σ)
    (hw : Scheduler.Waiting s.queue) {l : Scheduler.Label W} (hok : FreeScans σ l)
    (hs : Scheduler.step cfg σ l = some σ') : ∃ s', Run Workers.step anyStep s s' ∧ Matches σ' s' := by
  obtain ⟨htasks, hactive, hidle, hauto, hstop⟩ := h.shared
  cases l with
  | thread t =>
    dsimp only [Scheduler.step] at hs
    split at hs
    case h_1 q hp =>
      obtain rfl := hi.eq_caller hp
      exact h.callerStep hi hp hs
    case h_2 cbCo q hp =>
      cases hs
      cases q with
      | scan => exact h.scan hi hw hp
      | dispatch task isActive => exact h.dispatch hi hp
      | turn x ph => exact h.turnStep hi hp
      | left => exact (hi.at_run hp).2.2.elim
    case h_3 c q hp =>
      have hof := (hi.at_co hp).2.1
      cases c with
      | made k => exact h.madeStep hi hp hs
      | idle t' =>
        obtain rfl : t' = t := hof
        exact h.idleStep hi hp hs
      | main _ | schedulerco => exact hof.elim
    case h_4 => cases hs
  | body t a =>
    dsimp only [Scheduler.step] at hs
    split at hs
    case h_1 c hp => exact h.bodyStep hi hp hs
    case h_2 => cases hs
  | addTask task =>
    obtain ⟨-, heq⟩ := Option.ite_none_right_eq_some.mp hs
    obtain ⟨fc, hfc⟩ := Scheduler.exists_ofFc hok.2
    rw [← Option.some.inj heq, ← hfc]
    exact h.addTask fc task.threadNum
  | create cb st =>
    cases hs
    refine ⟨s, .refl, h.elsewhere ⟨htasks, hactive, hidle, hauto, hstop⟩ ?_ (fun _ _ => rfl) id rfl rfl
      rfl⟩
    refine .of_made (k := σ.nextCo) fun c hc => ?_
    rw [Scheduler.State.setState_co_of_ne _ _ hc, Scheduler.State.newCo_co_of_ne _ hc]
  | reset c cb =>
    obtain ⟨-, heq⟩ := Option.ite_none_right_eq_some.mp hs
    cases heq
    exact ⟨s, .refl, h.elsewhere ⟨htasks, hactive, hidle, hauto, hstop⟩
      (.of_made fun c hc => Function.update_of_ne hc ..) (fun _ _ => rfl) id rfl rfl rfl⟩

/-- **Refinement**: each run of the scheduler in which the scans are free is seen as a run of the
loops, with the same queue, counters and flags, and each thread where its run loop stands. -/
theorem workers_of_run {cbs : List ℕ} (h : Run (Scheduler.step cfg) FreeScans (Scheduler.init cbs) σ) :
    ∃ s, Run Workers.step anyStep (init members) s ∧ Matches σ s := by
  have hboth : Scheduler.Inv cfg σ ∧ ∃ s, Run Workers.step anyStep (init members) s ∧ Matches σ s := by
    refine h.invariant (I := fun σ => Scheduler.Inv cfg σ ∧
      ∃ s, Run Workers.step anyStep (init members) s ∧ Matches σ s)
      ⟨.init cfg cbs, _, .refl, matches_init cbs⟩ ?_
    rintro σ l σ' ⟨hi, s, hrun, hm⟩ hok hs
    obtain ⟨s', hrun', hm'⟩ := hm.step hi (.of_run (Wakeable.of_run hrun).queue) hok hs
    exact ⟨hi.step hok.1 hs, s', hrun.trans hrun', hm'⟩
  exact hboth.2

/-- A run loop that finds no task makes a free scan. -/
def emptyTest (σ : Scheduler.State Unit) : Scheduler.Label Unit → Bool
  | .thread _ => σ.tasks.isEmpty
  | _ => false

/-- The test is enough for the condition. -/
theorem freeScans_of_test (σ : Scheduler.State Unit) (l : Scheduler.Label Unit)
    (h : emptyTest σ l = true) : FreeScans σ l := by
  cases l with
  | thread t =>
    refine ⟨Scheduler.freeTake_of_callbacks (fun task htask => ?_) _, trivial⟩
    rw [List.isEmpty_iff.mp h] at htask
    cases htask
  | _ => cases h

/-- `stop` is called on an idle scheduler: `idle` has returned, and its coroutine has been resumed past
the end of `MainFunc`. The thread is still counted as idle. -/
theorem workers_of_run_witness : ∃ s : Workers Unit,
    Run Workers.step anyStep (init members) s ∧ s.pc (.worker ()) = .fallOff ∧
      s.idlethreadcount = 1 ∧ s.autostop = true ∧ s.stopping = true := by
  obtain ⟨σ, hσ, hpc, hidle, hauto, hstop⟩ : ∃ σ,
      runLabels (fun σ l => if emptyTest σ l then Scheduler.step Scheduler.oneWorker σ l else none)
        (Scheduler.init []) (List.replicate 4 (.thread .caller) ++
          List.replicate 16 (.thread (.worker ()))) = some σ ∧
      σ.pc (.worker ()) = .co (.idle (.worker ())) (.fallOff true) ∧ σ.idlethreadcount = 1 ∧
      σ.autostop = true ∧ σ.stopping = true :=
    ⟨_, rfl, rfl, rfl, rfl, rfl⟩
  obtain ⟨s, hrun, hm⟩ := workers_of_run (.of_tested freeScans_of_test hσ)
  have hst := (hm.thread (.worker ())).pc nofun
  rw [hpc] at hst
  exact ⟨s, hrun, (Prod.mk.inj hst).2, hm.shared.idle.trans hidle, hm.shared.autostop.trans hauto,
    hm.shared.stopping.trans hstop⟩

end Workers

end CoKV.IOManager
