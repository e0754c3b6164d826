import CoKV.Scheduler.FrameTheorems
import CoKV.Scheduler.ExclusiveTheorems
import CoKV.Lib.Shares
import Mathlib.Algebra.Order.Group.Multiset

/-!
# Where the callbacks are

An account of the callbacks between `start` and the end of `stop`: each is still to be added, or in
the queue, or held by one worker, or executed. A worker holds the callback of the task it has taken
and, later, the `m_cb` of the coroutine it has made for it, which `MainFunc` clears when the
callback has returned. `WorkerMove` is what a step of a worker does to the account; it is shown for
each function of the step.
-/

namespace CoKV.Scheduler

variable {W : Type}

/-- The callbacks return without having done anything else. -/
def Plain : State W → Label W → Prop
  | _, .thread _ => True
  | _, .body _ .ret => True
  | _, _ => False

/-! ## The account -/

/-- The callback of a task. -/
def Task.owed (task : Task W) : Multiset ℕ := task.cb.elim 0 fun f => {f}

/-- The callback in an `m_cb`. -/
def Callback.owed : Option Callback → Multiset ℕ
  | some (.user f) => {f}
  | _ => 0

/-- The callbacks that the owner has still to add. -/
def CallerPc.owed : CallerPc W → Multiset ℕ
  | start cbs | add cbs => cbs
  | _ => 0

def pending (s : State W) : Multiset ℕ :=
  match s.pc .caller with
  | .caller q => q.owed
  | _ => 0

def queued (s : State W) : Multiset ℕ := (s.tasks.map Task.owed).sum

/-- The callback that a thread has taken and not yet executed. -/
def Pc.held (s : State W) : Pc W → Multiset ℕ
  | run _ (.dispatch task _) => task.owed
  | run _ (.turn (.callback k) _) | co (.made k) _ => Callback.owed (s.co (.made k)).mCb
  | _ => 0

def held (s : State W) (t : Thread W) : Multiset ℕ := (s.pc t).held s

/-- What a step of thread `t` may move. -/
def account (s : State W) (t : Thread W) : Multiset ℕ := queued s + s.executed + held s t

/-- Nothing is in the queue, and nothing more will be. -/
def Drained (s : State W) : Prop := s.autostop = true ∧ s.tasks = []

theorem drained_of_isStopping {s : State W} (h : s.isStopping = true) : Drained s := by
  unfold State.isStopping at h
  simp only [Bool.and_eq_true, List.isEmpty_iff] at h
  exact ⟨h.1.1.1, h.1.2⟩

/-! ## A worker on its own -/

/-- Where the stack of a coroutine stands that executes its callback once: the callback is still
there, or the coroutine is on its way out. -/
def CoPc.Once (cb : Option Callback) : CoPc → Prop
  | .entry | .body | .returned => True
  | .yield (.mainFunc _) | .swapOut (.mainFunc _) => cb = none
  | _ => False

/-- The callback has returned. -/
def CoPc.Past : CoPc → Prop
  | .returned | .yield (.mainFunc _) | .swapOut (.mainFunc _) | .fallOff _ => True
  | _ => False

/-- Where thread `t` stands: it takes no coroutine from the queue, goes through one turn with each
callback, and leaves only when the queue is drained. -/
def Pc.Plain (cfg : Config W) (s : State W) (t : Thread W) : Pc W → Prop
  | run _ (.dispatch task _) => task.selfco = none
  | run _ (.turn (.task _) _) => False
  | run _ (.turn (.callback k) .resume) | run _ (.turn (.callback k) .swapIn) =>
    (s.co (.made k)).mCtx = .co (.made k) .entry
  | run _ (.turn (.callback k) _) => (s.co (.made k)).mCb = none
  | co (.made k) p => p.Once (s.co (.made k)).mCb ∧
    ∃ cbCo, (s.co (schedCo cfg t)).mCtx = .run cbCo (.turn (.callback k) .back)
  | co (.idle t') p => (p = .entry → (s.co (.idle t')).mCb = some .idle) ∧ (p.Past → Drained s)
  | exited => Drained s
  | _ => True

/-- The thread is not on the stack of its idle coroutine, and has not left through it. -/
def Pc.Off (t : Thread W) : Pc W → Prop
  | co c _ => c ≠ .idle t
  | exited => False
  | _ => True

/-- The idle coroutine of thread `t`, where it is left: at its start it has its callback, and when
the callback has returned the queue is drained. -/
structure IdleAt (s : State W) (t : Thread W) : Prop where
  entry : (s.co (.idle t)).mCtx = .co (.idle t) .entry → (s.pc t).Off t →
    (s.co (.idle t)).mCb = some .idle
  fallOff : ∀ b, (s.co (.idle t)).mCtx = .co (.idle t) (.fallOff b) → Drained s
  cb : Callback.owed (s.co (.idle t)).mCb = 0

variable {cfg : Config W} {s s' : State W} {t : Thread W}

/-- A thread of which nothing has changed. -/
theorem Pc.Plain.congr {p : Pc W} (h : p.Plain cfg s t)
    (hhand : ∀ c, p.inHand t = some c → s'.co c = s.co c)
    (hsched : s'.co (schedCo cfg t) = s.co (schedCo cfg t)) (hdrained : Drained s → Drained s') :
    p.Plain cfg s' t := by
  cases p with
  | run cbCo q =>
    cases q with
    | turn x ph =>
      cases x with
      | callback k =>
        -- `Plain` speaks of the coroutine in hand, and nobody else writes it
        have hk : s'.co (.made k) = s.co (.made k) := hhand _ rfl
        cases ph <;> dsimp only [Pc.Plain] at h ⊢ <;> rw [hk] <;> exact h
      | _ => exact h
    | _ => exact h
  | co c q =>
    have hc := hhand _ rfl
    cases c with
    | made k =>
      dsimp only [Pc.Plain] at h ⊢
      rw [hc, hsched]
      exact h
    | idle t' =>
      dsimp only [Pc.Plain] at h ⊢
      rw [hc]
      exact ⟨h.1, fun hq => hdrained (h.2 hq)⟩
    | _ => trivial
  | exited => exact hdrained h
  | _ => trivial

theorem Pc.held_congr {p : Pc W} (hhand : ∀ c, p.inHand t = some c → s'.co c = s.co c) :
    p.held s' = p.held s := by
  unfold Pc.held
  split
  case h_1 => rfl
  case h_2 k _ =>
    have hk : s'.co (.made k) = s.co (.made k) := hhand _ rfl
    rw [hk]
  case h_3 => rw [hhand _ rfl]
  case h_4 => rfl

theorem IdleAt.congr (h : IdleAt s t) (hoff : (s'.pc t).Off t → (s.pc t).Off t)
    (hctx : (s'.co (.idle t)).mCtx = (s.co (.idle t)).mCtx)
    (hcb : (s'.co (.idle t)).mCb = (s.co (.idle t)).mCb) (hdrained : Drained s → Drained s') :
    IdleAt s' t where
  entry he ho := by
    rw [hctx] at he
    rw [hcb]
    exact h.entry he (hoff ho)
  fallOff b hb := by
    rw [hctx] at hb
    exact hdrained (h.fallOff b hb)
  cb := by
    rw [hcb]
    exact h.cb

/-! ## The steps of a worker -/

/-- What a step of thread `t` does. -/
structure WorkerMove (cfg : Config W) (s s' : State W) (t : Thread W) : Prop where
  tasks : ∀ task ∈ s'.tasks, task ∈ s.tasks
  autostop : s'.autostop = s.autostop
  plain : (s'.pc t).Plain cfg s' t
  idle : IdleAt s' t
  account : account s' t = account s t

theorem drained_of_le (htasks : ∀ task ∈ s'.tasks, task ∈ s.tasks)
    (hauto : s'.autostop = s.autostop) (h : Drained s) : Drained s' := by
  refine ⟨hauto.trans h.1, List.eq_nil_iff_forall_not_mem.mpr ?_⟩
  intro task htask
  have hmem := htasks task htask
  rw [h.2] at hmem
  cases hmem

/-- A move past which the worker holds what it has held. -/
theorem WorkerMove.quiet {p : Pc W} (hpc : s'.pc t = p) (htasks : s'.tasks = s.tasks)
    (hauto : s'.autostop = s.autostop) (hexec : s'.executed = s.executed)
    (hplain : p.Plain cfg s' t) (hidle : IdleAt s' t) (hheld : p.held s' = held s t) :
    WorkerMove cfg s s' t where
  tasks task h := htasks ▸ h
  autostop := hauto
  plain := hpc ▸ hplain
  idle := hidle
  account := by
    unfold Scheduler.account queued
    rw [htasks, hexec, ← hheld, ← hpc]
    rfl

/-- The thread has been in its run loop, and the idle coroutine is as it was. -/
theorem IdleAt.ofRun {cbCo : Option ℕ} {q : RunPc W} (hi : IdleAt s t) (h : s.pc t = .run cbCo q)
    (hctx : (s'.co (.idle t)).mCtx = (s.co (.idle t)).mCtx)
    (hcb : (s'.co (.idle t)).mCb = (s.co (.idle t)).mCb) (hdrained : Drained s → Drained s') :
    IdleAt s' t := by
  apply hi.congr _ hctx hcb hdrained
  intro _
  rw [h]
  trivial

/-- A move on the stack of the idle coroutine. -/
theorem WorkerMove.idleStack {q : CoPc} (hidle : IdleAt s t) (hpc : s'.pc t = .co (.idle t) q)
    (hctx : (s'.co (.idle t)).mCtx = (s.co (.idle t)).mCtx)
    (hcb : (s'.co (.idle t)).mCb = (s.co (.idle t)).mCb) (htasks : s'.tasks = s.tasks)
    (hauto : s'.autostop = s.autostop) (hexec : s'.executed = s.executed)
    (hplain : (Pc.co (.idle t) q).Plain cfg s' t) (hheld : held s t = 0) :
    WorkerMove cfg s s' t := by
  refine .quiet hpc htasks hauto hexec hplain (hidle.congr ?_ hctx hcb ?_) hheld.symm
  · rw [hpc]
    exact fun hoff => absurd rfl hoff
  · exact drained_of_le (fun task htask => htasks ▸ htask) hauto

section Steps

variable [DecidableEq W] {cbCo : Option ℕ}

theorem setState_cb (c d : Co W) (st : CoState) :
    ((s.setState d st).co c).mCb = (s.co c).mCb := by
  by_cases h : c = d
  · rw [h, State.setState_co_self]
  · rw [State.setState_co_of_ne _ _ h]

/-- A turn, phase by phase. -/
theorem WorkerMove.turnStep {x : Turn} {ph : Phase} (hi : Inv cfg s)
    (hplain : (s.pc t).Plain cfg s t) (hidle : IdleAt s t) (h : s.pc t = .run cbCo (.turn x ph)) :
    WorkerMove cfg s (Scheduler.turnStep cfg s t cbCo x ph) t := by
  have hlocal := hi.at_run h
  rw [h] at hplain
  have hsched : x.co t ≠ schedCo cfg t := (Turn.of t x).ne_schedCo t
  have hsched' : Co.idle t ≠ schedCo cfg t := (Turn.of t .idle).ne_schedCo t
  have hheld : held s t = (Pc.run cbCo (.turn x ph)).held s := by
    unfold held
    rw [h]
  cases ph with
  | resume =>
    refine .quiet (State.setPc_pc_self ..) rfl rfl rfl ?_
      (hidle.ofRun h (setState_ctx ..) (setState_cb ..) id) ?_
    · cases x with
      | task k => exact hplain
      | callback k => exact (setState_ctx ..).trans hplain
      | idle => trivial
    · rw [hheld]
      cases x with
      | callback k => exact congrArg Callback.owed (setState_cb ..)
      | _ => rfl
  | swapIn =>
    have hpc : (Scheduler.turnStep cfg s t cbCo x .swapIn).pc t = (s.co (x.co t)).mCtx := by
      rw [Scheduler.turnStep, State.swapcontext_pc _ _ _ hsched, Function.update_self]
    have hco : ∀ c ≠ schedCo cfg t,
        (Scheduler.turnStep cfg s t cbCo x .swapIn).co c = s.co c :=
      fun c hc => State.swapcontext_co_of_ne _ _ _ _ hc
    refine .quiet hpc rfl rfl rfl ?_
      (hidle.ofRun h (by rw [hco _ hsched']) (by rw [hco _ hsched']) id) ?_
    · cases x with
      | task k => exact hplain.elim
      | callback k =>
        have hctx : (s.co (.made k)).mCtx = .co (.made k) .entry := hplain
        show ((s.co (.made k)).mCtx).Plain cfg _ t
        rw [hctx]
        refine ⟨trivial, cbCo, ?_⟩
        rw [Scheduler.turnStep, State.swapcontext_co_self]
      | idle =>
        have hof : (Co.idle t).Of t := rfl
        obtain ⟨q, hq, hqs⟩ := (hi.saved t _ hof).ctx
        show ((s.co (.idle t)).mCtx).Plain cfg _ t
        rw [hq]
        constructor
        · rintro rfl
          rw [hco _ hsched']
          apply hidle.entry hq
          rw [h]
          trivial
        · intro hpast
          rcases hqs with rfl | rfl | ⟨b, rfl⟩
          · exact hpast.elim
          · exact hpast.elim
          · exact hidle.fallOff b hq
    · rw [hheld]
      cases x with
      | task k => exact hplain.elim
      | callback k =>
        have hctx : (s.co (.made k)).mCtx = .co (.made k) .entry := hplain
        show ((s.co (.made k)).mCtx).held _ = Callback.owed (s.co (.made k)).mCb
        rw [hctx]
        exact congrArg (fun x => Callback.owed x.mCb) (hco _ hsched)
      | idle =>
        have hof : (Co.idle t).Of t := rfl
        obtain ⟨q, hq, -⟩ := (hi.saved t _ hof).ctx
        show ((s.co (.idle t)).mCtx).held _ = 0
        rw [hq]
        rfl
  | back =>
    cases x with
    | task k => exact hplain.elim
    | _ => exact .quiet (State.setPc_pc_self ..) rfl rfl rfl hplain (hidle.ofRun h rfl rfl id) hheld.symm
  | check =>
    rw [turnStep_check_hold hlocal.2.2]
    refine .quiet (State.setPc_pc_self ..) rfl rfl rfl ?_ (hidle.ofRun h rfl rfl id) ?_
    · cases x <;> exact hplain
    · rw [hheld]
      cases x <;> rfl
  | setHold =>
    cases x with
    | task k => exact hplain.elim
    | callback k =>
      refine .quiet (State.setPc_pc_self ..) rfl rfl rfl trivial
        (hidle.ofRun h (setState_ctx ..) (setState_cb ..) id) ?_
      -- the callback has returned
      have hnone : (s.co (.made k)).mCb = none := hplain
      rw [hheld]
      show 0 = Callback.owed (s.co (.made k)).mCb
      rw [hnone]
      rfl
    | idle =>
      exact .quiet (State.setPc_pc_self ..) rfl rfl rfl trivial
        (hidle.ofRun h (setState_ctx ..) (setState_cb ..) id) hheld.symm

/-- The branch behind the critical section. -/
theorem WorkerMove.dispatch {task : Task W} {isActive : Bool} (hi : Inv cfg s)
    (hplain : (s.pc t).Plain cfg s t) (hidle : IdleAt s t)
    (h : s.pc t = .run cbCo (.dispatch task isActive)) :
    WorkerMove cfg s (Scheduler.dispatch s t cbCo task isActive) t := by
  have hlocal := hi.at_run h
  rw [h] at hplain
  have hcb : cbCo = none := hlocal.2.1
  have hselfco : task.selfco = none := hplain
  have hheld : held s t = task.owed := by
    unfold held
    rw [h]
    rfl
  subst hcb
  unfold Scheduler.dispatch
  rw [hselfco]
  dsimp only [Option.filter_none]
  unfold Task.owed at hheld
  cases hf : task.cb with
  | some f =>
    -- what the task owes goes over to the new coroutine
    rw [hf] at hheld
    dsimp only
    have hne : Co.idle t ≠ .made s.nextCo := fun h => nomatch h
    have hother := s.newCo_co_of_ne hne (some (.user f))
    refine .quiet (State.setPc_pc_self ..) rfl rfl rfl ?_ (hidle.ofRun h ?_ ?_ id) ?_
    · show ((s.newCo _).co (.made s.nextCo)).mCtx = _
      rw [State.newCo_co_self]
      rfl
    · rw [State.setPc_co, hother]
    · rw [State.setPc_co, hother]
    · rw [hheld]
      show Callback.owed ((s.newCo _).co (.made s.nextCo)).mCb = _
      rw [State.newCo_co_self]
      rfl
  | none =>
    rw [hf] at hheld
    dsimp only
    split
    · exact .quiet (State.setPc_pc_self ..) rfl rfl rfl trivial (hidle.ofRun h rfl rfl id) hheld.symm
    · split
      · exact .quiet (State.setPc_pc_self ..) rfl rfl rfl trivial (hidle.ofRun h rfl rfl id)
          hheld.symm
      · exact .quiet (State.setPc_pc_self ..) rfl rfl rfl trivial (hidle.ofRun h rfl rfl id)
          hheld.symm

/-- The critical section. -/
theorem WorkerMove.scan (htasks : ∀ task ∈ s.tasks, task.selfco = none) (hidle : IdleAt s t)
    (h : s.pc t = .run cbCo .scan) : WorkerMove cfg s (runStep cfg s t cbCo .scan) t := by
  have hheld : held s t = 0 := by
    unfold held
    rw [h]
    rfl
  unfold runStep
  dsimp only
  split
  case h_1 =>
    exact .quiet (State.setPc_pc_self ..) rfl rfl rfl rfl (hidle.ofRun h rfl rfl id) hheld.symm
  case h_2 task htask =>
    have hpc : ∀ s' : State W, (s'.setPc t (.run cbCo (.dispatch task true))).pc t
        = .run cbCo (.dispatch task true) := fun s' => State.setPc_pc_self ..
    constructor
    case tasks => exact fun task' htask' => List.mem_of_mem_eraseP htask'
    case autostop => rfl
    case plain =>
      rw [hpc]
      exact htasks task (List.mem_of_find?_eq_some htask)
    case idle =>
      refine hidle.ofRun h rfl rfl fun hdrained => ?_
      rw [hdrained.2] at htask
      cases htask
    case account =>
      -- the task leaves the queue and is held
      show ((s.tasks.eraseP (eligible s t)).map Task.owed).sum + s.executed + held _ t = _
      have htake := sum_map_eraseP (f := Task.owed) htask
      unfold Scheduler.account queued
      rw [hheld, ← htake, add_zero]
      unfold held
      rw [hpc]
      exact add_right_comm ..

/-- What `MainFunc` does when the callback has returned. -/
theorem coStep_returned {c : Co W} (hs : Scheduler.coStep cfg s t c .returned = some s') :
    s'.tasks = s.tasks ∧ s'.autostop = s.autostop ∧
      (s'.executed : Multiset ℕ) = s.executed + Callback.owed (s.co c).mCb ∧
      (s'.co c).mCb = none ∧
      s'.pc t = .co c (.yield (.mainFunc true)) := by
  unfold Scheduler.coStep at hs
  dsimp only at hs
  split at hs
  case h_1 f hf =>
    rw [← Option.some.inj hs]
    refine ⟨rfl, rfl, ?_, by rw [State.setPc_co, State.modifyCo_co_self], State.setPc_pc_self ..⟩
    rw [hf]
    exact (Multiset.coe_add ..).symm
  case h_2 hne =>
    -- `idle` and `run` are nobody's tasks
    rw [← Option.some.inj hs]
    refine ⟨rfl, rfl, ?_, by rw [State.setPc_co, State.modifyCo_co_self], State.setPc_pc_self ..⟩
    have hzero : Callback.owed (s.co c).mCb = 0 := by
      unfold Callback.owed
      split
      · exact absurd ‹_› (hne _)
      · rfl
    rw [hzero, add_zero]
    rfl

/-- The code on the stack of a coroutine that executes a callback. -/
theorem WorkerMove.coStep_made {k : ℕ} {q : CoPc} (hi : Inv cfg s)
    (hplain : (s.pc t).Plain cfg s t) (hidle : IdleAt s t) (h : s.pc t = .co (.made k) q)
    (hs : Scheduler.coStep cfg s t (.made k) q = some s') : WorkerMove cfg s s' t := by
  have hheld : held s t = Callback.owed (s.co (.made k)).mCb := by
    unfold held
    rw [h]
    rfl
  rw [h] at hplain
  obtain ⟨honce, cbCo, hback⟩ := hplain
  have hsched : Co.made k ≠ schedCo cfg t := (Turn.of t (.callback k)).ne_schedCo t
  have hidle' : (Drained s → Drained s') → IdleAt s' t := by
    have hne : Co.idle t ≠ .made k := fun h => nomatch h
    have hother := (coStep_frame hs).co _ hne
    apply hidle.congr _ (by rw [hother]) (by rw [hother])
    intro _
    rw [h]
    exact hne.symm
  cases q with
  | entry =>
    unfold Scheduler.coStep at hs
    dsimp only at hs
    split at hs
    case h_1 hnone =>
      rw [← Option.some.inj hs] at hidle' ⊢
      exact .quiet (State.setPc_pc_self ..) rfl rfl rfl ⟨hnone, cbCo, hback⟩ (hidle' id) hheld.symm
    case h_2 hrun => exact absurd hrun (hi.saved t (.made k) trivial).cb
    case h_3 =>
      rw [← Option.some.inj hs] at hidle' ⊢
      exact .quiet (State.setPc_pc_self ..) rfl rfl rfl ⟨trivial, cbCo, hback⟩ (hidle' id)
        hheld.symm
  | body => cases hs
  | returned =>
    obtain ⟨htasks, hauto, hexec, hcb, hpc⟩ := coStep_returned hs
    constructor
    case tasks => exact fun task htask => htasks ▸ htask
    case autostop => exact hauto
    case plain =>
      rw [hpc]
      refine ⟨hcb, cbCo, ?_⟩
      rw [(coStep_frame hs).co _ hsched.symm, hback]
    case idle => exact hidle' (drained_of_le (fun task htask => htasks ▸ htask) hauto)
    case account =>
      -- what the worker has held is executed
      have hheld' : held s' t = 0 := by
        unfold held
        rw [hpc]
        exact congrArg Callback.owed hcb
      unfold Scheduler.account queued
      rw [htasks, hexec, hheld, hheld', add_zero, add_assoc]
  | yield y =>
    rw [← Option.some.inj hs] at hidle' ⊢
    cases y with
    | mainFunc b =>
      have hcb := setState_cb (s := s) (.made k) (.made k) .hold
      refine .quiet (State.setPc_pc_self ..) rfl rfl rfl ⟨hcb.trans honce, cbCo, ?_⟩ (hidle' id) ?_
      · exact (setState_ctx ..).trans hback
      · rw [hheld]
        exact congrArg Callback.owed hcb
    | _ => exact honce.elim
  | swapOut y =>
    cases y with
    | mainFunc b =>
      have hnone : (s.co (.made k)).mCb = none := honce
      rw [← Option.some.inj hs] at hidle' ⊢
      have hpc : (s.swapcontext t (.co (.made k) (YieldOf.mainFunc b).cont) (.made k)
          (schedCo cfg t)).pc t = .run cbCo (.turn (.callback k) .back) := by
        rw [State.swapcontext_pc _ _ _ hsched.symm, Function.update_self, hback]
      have hcb : ((s.swapcontext t (.co (.made k) (YieldOf.mainFunc b).cont) (.made k)
          (schedCo cfg t)).co (.made k)).mCb = none := by
        rw [State.swapcontext_co_self]
        exact hnone
      refine .quiet hpc rfl rfl rfl hcb (hidle' id) ?_
      rw [hheld, hnone]
      exact congrArg Callback.owed hcb
    | _ => exact honce.elim
  | yieldtohold => exact honce.elim
  | fallOff b => exact honce.elim

/-- The code on the stack of an idle coroutine. -/
theorem WorkerMove.coStep_idle {q : CoPc} (hi : Inv cfg s)
    (hplain : (s.pc t).Plain cfg s t) (hidle : IdleAt s t) (h : s.pc t = .co (.idle t) q)
    (hs : Scheduler.coStep cfg s t (.idle t) q = some s') : WorkerMove cfg s s' t := by
  have hlocal := hi.at_co h
  have hheld : held s t = 0 := by
    unfold held
    rw [h]
    rfl
  rw [h] at hplain
  obtain ⟨hentry, hpast⟩ := hplain
  have hsched : Co.idle t ≠ schedCo cfg t := (Turn.of t .idle).ne_schedCo t
  cases q with
  | entry =>
    unfold Scheduler.coStep at hs
    rw [hentry rfl] at hs
    rw [← Option.some.inj hs]
    exact .idleStack (q := .body) hidle (State.setPc_pc_self ..) rfl rfl rfl rfl rfl
      ⟨(fun h => nomatch h), fun h => h.elim⟩ hheld
  | body =>
    rw [← Option.some.inj hs]
    refine .idleStack hidle (State.setPc_pc_self ..) rfl rfl rfl rfl rfl ⟨?_, ?_⟩ hheld
    · split <;> exact fun h => nomatch h
    · -- `idle` returns when the queue is drained
      split
      · exact fun _ => drained_of_isStopping ‹_›
      · exact fun h => h.elim
  | returned =>
    obtain ⟨htasks, hauto, hexec, hcb, hpc⟩ := coStep_returned hs
    have hdrained : Drained s' :=
      drained_of_le (fun task htask => htasks ▸ htask) hauto (hpast trivial)
    constructor
    case tasks => exact fun task htask => htasks ▸ htask
    case autostop => exact hauto
    case plain =>
      rw [hpc]
      exact ⟨(fun h => nomatch h), fun _ => hdrained⟩
    case idle =>
      constructor
      · rw [hpc]
        exact fun _ hoff => absurd rfl hoff
      · exact fun _ _ => hdrained
      · rw [hcb]
        rfl
    case account =>
      have hheld' : held s' t = 0 := by
        unfold held
        rw [hpc]
        rfl
      unfold Scheduler.account queued
      rw [htasks, hexec, hheld, hheld', hidle.cb, add_zero (s.executed : Multiset ℕ)]
  | yieldtohold =>
    rw [← Option.some.inj hs]
    exact .idleStack (q := .yield .yieldtohold) hidle (State.setPc_pc_self ..) (setState_ctx ..)
      (setState_cb ..) rfl rfl rfl ⟨(fun h => nomatch h), fun h => h.elim⟩ hheld
  | yield y =>
    rw [← Option.some.inj hs]
    refine .idleStack (q := .swapOut y) hidle (State.setPc_pc_self ..) (setState_ctx ..)
      (setState_cb ..) rfl rfl rfl ⟨(fun h => nomatch h), ?_⟩ hheld
    cases y with
    | mainFunc b => exact fun _ => hpast trivial
    | _ => exact fun h => h.elim
  | swapOut y =>
    -- the turn that is waiting in `resuem` is the one of `idle_co`
    obtain ⟨-, -, -, x, hx, hback⟩ := hlocal
    have hx' : x = .idle := by
      cases x with
      | idle => rfl
      | _ => cases hx
    rw [hx'] at hback
    rw [← Option.some.inj hs]
    have hpc : (s.swapcontext t (.co (.idle t) y.cont) (.idle t) (schedCo cfg t)).pc t
        = .run none (.turn .idle .back) := by
      rw [State.swapcontext_pc _ _ _ hsched.symm, Function.update_self, hback]
      rfl
    refine .quiet hpc rfl rfl rfl trivial ?_ hheld.symm
    constructor
    · rw [State.swapcontext_co_self]
      intro he
      cases y <;> cases he
    · rw [State.swapcontext_co_self]
      intro b hb
      cases y with
      | mainFunc b => exact hpast trivial
      | _ => cases hb
    · rw [State.swapcontext_co_self]
      exact hidle.cb
  | fallOff b =>
    -- the thread exits, and leaves a drained queue behind
    rw [← Option.some.inj hs]
    refine .quiet (State.setPc_pc_self ..) rfl rfl rfl (hpast trivial)
      (hidle.congr ?_ rfl rfl id) hheld.symm
    rw [State.setPc_pc_self]
    exact fun hoff => hoff.elim

/-- The callback returns. -/
theorem WorkerMove.ret {c : Co W} (hplain : (s.pc t).Plain cfg s t) (hidle : IdleAt s t)
    (h : s.pc t = .co c .body) (hs : bodyStep s t c .ret = some s') : WorkerMove cfg s s' t := by
  rw [h] at hplain
  cases c with
  | made k =>
    rw [← Option.some.inj hs]
    refine .quiet (State.setPc_pc_self ..) rfl rfl rfl ⟨trivial, hplain.2⟩
      (hidle.congr ?_ rfl rfl id) ?_
    · rw [h]
      exact fun _ => fun h => nomatch h
    · unfold held
      rw [h]
      rfl
  | _ => cases hs

end Steps

end CoKV.Scheduler
