import CoKV.Scheduler.ActiveTheorems
import CoKV.Scheduler.Startup

/-!
# `start` as one step

`start_refines`: with `start` constructing one thread after the other, whatever the threads and the
rest of the program do in between is a run of `Scheduler.step`, where `start` is one step; for
`m_mutex` keeps every thread at its first scan until `start` is over.
-/

namespace CoKV.Scheduler

variable {W : Type}

namespace State

/-- The state with other program counters. -/
def withPc (s : State W) (pc : Thread W → Pc W) : State W := { s with pc := pc }

variable {s : State W} {pc : Thread W → Pc W}

/-- `addTask` does not look at where the threads are. -/
theorem withPc_addTask (task : Task W) :
    (s.withPc pc).addTask task = (s.addTask task).withPc pc := by
  unfold addTask
  by_cases h : task.selfco.isSome ∨ task.cb.isSome
  · rw [if_pos h, if_pos h]
    rfl
  · rw [if_neg h, if_neg h]

end State

/-! ## A thread does not see where the others stand -/

section WithPc

variable [DecidableEq W] {cfg : Config W} {s s' : State W} {t : Thread W} {pc : Thread W → Pc W}

/-- `swapcontext` moves its own thread, wherever the others are. -/
theorem swapcontext_withPc (k : Pc W) (a b : Co W) :
    (s.withPc pc).swapcontext t k a b = (s.swapcontext t k a b).withPc
      (Function.update pc t ((s.swapcontext t k a b).pc t)) := by
  unfold State.swapcontext
  rw [State.setPc_pc_self]
  rfl

/-- A turn moves its own thread, wherever the others are. -/
theorem turnStep_withPc (cbCo : Option ℕ) (x : Turn) (ph : Phase) :
    turnStep cfg (s.withPc pc) t cbCo x ph = (turnStep cfg s t cbCo x ph).withPc
      (Function.update pc t ((turnStep cfg s t cbCo x ph).pc t)) := by
  cases ph with
  | resume =>
    simp only [turnStep, State.setPc_pc_self]
    rfl
  | swapIn => exact swapcontext_withPc ..
  | back =>
    cases x <;>
    · simp only [turnStep, State.setPc_pc_self]
      rfl
  | check =>
    have hstate : (s.withPc pc).co = s.co := rfl
    simp only [turnStep, hstate, State.withPc_addTask]
    split <;>
    · rw [State.setPc_pc_self]
      rfl
  | setHold =>
    cases x <;>
    · simp only [turnStep, State.setPc_pc_self]
      rfl

/-- What `run` does with a task moves its own thread, wherever the others are. -/
theorem dispatch_withPc (cbCo : Option ℕ) (task : Task W) (isActive : Bool) :
    dispatch (s.withPc pc) t cbCo task isActive = (dispatch s t cbCo task isActive).withPc
      (Function.update pc t ((dispatch s t cbCo task isActive).pc t)) := by
  have hstate : (s.withPc pc).co = s.co := rfl
  simp only [dispatch, hstate]
  split
  · rw [State.setPc_pc_self]
    rfl
  · split
    · rw [State.setPc_pc_self]
      rfl
    · rw [State.setPc_pc_self]
      rfl
    · split
      · rw [State.setPc_pc_self]
        rfl
      · split <;>
        · rw [State.setPc_pc_self]
          rfl

/-- A step of `run` moves its own thread, wherever the others are. -/
theorem runStep_withPc (cbCo : Option ℕ) (q : RunPc W) :
    runStep cfg (s.withPc pc) t cbCo q = (runStep cfg s t cbCo q).withPc
      (Function.update pc t ((runStep cfg s t cbCo q).pc t)) := by
  cases q with
  | scan =>
    have htasks : (s.withPc pc).tasks = s.tasks := rfl
    have heligible : eligible (s.withPc pc) t = eligible s t := rfl
    simp only [runStep, htasks, heligible]
    cases s.tasks.find? (eligible s t) with
    | none =>
      dsimp only
      rw [State.setPc_pc_self]
      rfl
    | some task =>
      dsimp only
      rw [State.setPc_pc_self]
      rfl
  | dispatch task isActive => exact dispatch_withPc ..
  | turn x ph => exact turnStep_withPc ..
  | left =>
    cases t <;>
    · simp only [runStep, State.setPc_pc_self]
      rfl

/-- So does a step of `MainFunc` or `yield`. -/
theorem coStep_withPc {c : Co W} {q : CoPc} (hs : coStep cfg s t c q = some s') :
    coStep cfg (s.withPc pc) t c q = some (s'.withPc (Function.update pc t (s'.pc t))) := by
  have hstate : (s.withPc pc).co = s.co := rfl
  cases q with
  | entry =>
    simp only [coStep, hstate] at hs ⊢
    split at hs <;>
    · rw [← Option.some.inj hs, State.setPc_pc_self]
      rfl
  | body =>
    cases c with
    | idle t' =>
      rw [← Option.some.inj hs, State.setPc_pc_self]
      rfl
    | _ => cases hs
  | returned =>
    simp only [coStep, hstate] at hs ⊢
    rw [← Option.some.inj hs, State.setPc_pc_self]
    split <;> rfl
  | swapOut y =>
    rw [← Option.some.inj hs]
    exact congrArg some (swapcontext_withPc ..)
  | _ =>
    rw [← Option.some.inj hs, State.setPc_pc_self]
    rfl

/-- So does a step of what runs in a coroutine. -/
theorem bodyStep_withPc {c : Co W} {a : Act} (hpc : pc t = s.pc t)
    (hs : bodyStep s t c a = some s') :
    bodyStep (s.withPc pc) t c a = some (s'.withPc (Function.update pc t (s'.pc t))) := by
  -- where the thread stays, nothing is updated
  have hstay : Function.update pc t (s.pc t) = pc := by
    rw [← hpc, Function.update_eq_self]
  cases a with
  | addEvent =>
    cases c with
    | made k =>
      rw [← Option.some.inj hs]
      show _ = some (State.withPc _ (Function.update pc t (s.pc t)))
      rw [hstay]
      rfl
    | _ => cases hs
  | trigerEvent i =>
    cases c with
    | idle t' =>
      have hwaiting : (s.withPc pc).waiting = s.waiting := rfl
      simp only [bodyStep, hwaiting] at hs ⊢
      split at hs
      · rw [← Option.some.inj hs, State.addTask_pc, hstay]
        show some (State.addTask (State.withPc { s with waiting := s.waiting.eraseIdx i } pc) _) = _
        rw [State.withPc_addTask]
      · cases hs
    | _ => cases hs
  | ret =>
    cases c with
    | made k =>
      rw [← Option.some.inj hs, State.setPc_pc_self]
      rfl
    | _ => cases hs
  | _ =>
    rw [← Option.some.inj hs, State.setPc_pc_self]
    rfl

/-- So does the caller outside `start`; what `join` has to see is that the threads have exited. -/
theorem callerStep_withPc {q : CallerPc W} (hstart : ∀ cbs, q ≠ .start cbs)
    (hexited : ∀ t, s.pc t = .exited → pc t = .exited) (hs : callerStep cfg s q = some s') :
    callerStep cfg (s.withPc pc) q =
      some (s'.withPc (Function.update pc .caller (s'.pc .caller))) := by
  have hstate : (s.withPc pc).co = s.co := rfl
  have hstopping : (s.withPc pc).isStopping = s.isStopping := rfl
  cases q with
  | start cbs => exact absurd rfl (hstart cbs)
  | add cbs =>
    cases cbs with
    | nil =>
      rw [← Option.some.inj hs, State.setPc_pc_self]
      rfl
    | cons f cbs =>
      rw [← Option.some.inj hs, State.setPc_pc_self]
      show some (State.setPc ((s.withPc pc).addTask _) _ _) = _
      rw [State.withPc_addTask]
      rfl
  | stopCheck =>
    simp only [callerStep, hstate, hstopping] at hs ⊢
    split at hs
    case isTrue h =>
      rw [if_pos h, ← Option.some.inj hs, State.setPc_pc_self]
      rfl
    case isFalse h =>
      rw [if_neg h, ← Option.some.inj hs, State.setPc_pc_self]
      rfl
  | swapIn =>
    rw [← Option.some.inj hs]
    exact congrArg some (swapcontext_withPc ..)
  | join workers =>
    cases workers with
    | nil =>
      rw [← Option.some.inj hs, State.setPc_pc_self]
      rfl
    | cons w workers =>
      dsimp only [callerStep] at hs
      split at hs
      case h_1 hpc =>
        dsimp only [callerStep]
        rw [show (s.withPc pc).pc (.worker w) = .exited from hexited _ hpc,
          ← Option.some.inj hs, State.setPc_pc_self]
        rfl
      case h_2 => cases hs
  | returned => cases hs
  | _ =>
    rw [← Option.some.inj hs, State.setPc_pc_self]
    rfl

/-- The threads that have not been started stand where `pc` tells, and the others where they do. -/
def mask (s s' : State W) (pc : Thread W → Pc W) (t : Thread W) : Pc W :=
  if s.pc t = .notStarted then pc t else s'.pc t

/-- A thread that has started moves alike in both states. -/
theorem update_eq_mask (hpc : ∀ t, s.pc t ≠ .notStarted → pc t = s.pc t)
    (hother : ∀ t' ≠ t, s'.pc t' = s.pc t') (hrun : s.pc t ≠ .notStarted) :
    Function.update pc t (s'.pc t) = mask s s' pc := by
  funext t'
  unfold mask
  by_cases ht : t' = t
  · rw [ht, Function.update_self, if_neg hrun]
  · rw [Function.update_of_ne ht]
    by_cases hrun' : s.pc t' = .notStarted
    · rw [if_pos hrun']
    · rw [if_neg hrun', hother t' ht, hpc t' hrun']

/-- Where threads that have not been started are taken to be somewhere, with no coroutine in hand,
the others do the same. -/
theorem step_withPc {l : Label W} (hpc : ∀ t, s.pc t ≠ .notStarted → pc t = s.pc t)
    (hhand : ∀ t, s.pc t = .notStarted → (pc t).inHand t = none)
    (hcaller : ∀ t q, s.pc t = .caller q → t = .caller)
    (hstart : Startup.isStart s l = false) (hs : step cfg s l = some s') :
    step cfg (s.withPc pc) l = some (s'.withPc (mask s s' pc)) ∧
      ∀ t, s.pc t = .notStarted → s'.pc t = .notStarted := by
  -- a step of thread `t` moves no other
  have hmoved : ∀ t, s.pc t ≠ .notStarted → (∀ t' ≠ t, s'.pc t' = s.pc t') →
      step cfg (s.withPc pc) l = some (s'.withPc (Function.update pc t (s'.pc t))) →
      step cfg (s.withPc pc) l = some (s'.withPc (mask s s' pc)) ∧
        ∀ t, s.pc t = .notStarted → s'.pc t = .notStarted := by
    intro t hrun hother heq
    rw [update_eq_mask hpc hother hrun] at heq
    refine ⟨heq, fun t' ht' => ?_⟩
    have hne : t' ≠ t := fun h => hrun (h ▸ ht')
    rw [hother t' hne, ht']
  -- and where no thread moves, all stay
  have hstay : s'.pc = s.pc → step cfg (s.withPc pc) l = some (s'.withPc pc) →
      step cfg (s.withPc pc) l = some (s'.withPc (mask s s' pc)) ∧
        ∀ t, s.pc t = .notStarted → s'.pc t = .notStarted := by
    intro hsame heq
    have hmask : mask s s' pc = pc := by
      funext t
      unfold mask
      rw [hsame]
      by_cases ht : s.pc t = .notStarted
      · rw [if_pos ht]
      · rw [if_neg ht, hpc t ht]
    rw [hmask]
    exact ⟨heq, fun t ht => (congrFun hsame t).trans ht⟩
  cases l with
  | thread t =>
    dsimp only [step] at hs
    split at hs
    case h_1 q hq =>
      obtain rfl := hcaller t q hq
      have hrun : s.pc .caller ≠ .notStarted := by
        rw [hq]
        exact nofun
      have hne : ∀ cbs, q ≠ .start cbs := by
        rintro cbs rfl
        dsimp only [Startup.isStart] at hstart
        rw [hq] at hstart
        cases hstart
      have hexited : ∀ t, s.pc t = .exited → pc t = .exited := by
        intro t ht
        rw [hpc t (by rw [ht]; exact nofun), ht]
      refine hmoved .caller hrun ((callerStep_frame hs).pc hne) ?_
      dsimp only [step]
      rw [show (s.withPc pc).pc .caller = .caller q from (hpc _ hrun).trans hq]
      exact callerStep_withPc hne hexited hs
    case h_2 cbCo q hq =>
      have hrun : s.pc t ≠ .notStarted := by
        rw [hq]
        exact nofun
      rw [← Option.some.inj hs] at hmoved ⊢
      refine hmoved t hrun (fun t' ht' => runStep_pc ht' cbCo q) ?_
      dsimp only [step]
      rw [show (s.withPc pc).pc t = .run cbCo q from (hpc t hrun).trans hq]
      exact congrArg some (runStep_withPc ..)
    case h_3 c q hq =>
      have hrun : s.pc t ≠ .notStarted := by
        rw [hq]
        exact nofun
      refine hmoved t hrun (coStep_frame hs).pc ?_
      dsimp only [step]
      rw [show (s.withPc pc).pc t = .co c q from (hpc t hrun).trans hq]
      exact coStep_withPc hs
    case h_4 => cases hs
  | body t a =>
    dsimp only [step] at hs
    split at hs
    case h_1 c hq =>
      have hrun : s.pc t ≠ .notStarted := by
        rw [hq]
        exact nofun
      refine hmoved t hrun (bodyStep_frame hs).pc ?_
      dsimp only [step]
      rw [show (s.withPc pc).pc t = .co c .body from (hpc t hrun).trans hq]
      exact bodyStep_withPc (hpc t hrun) hs
    case h_2 => cases hs
  | addTask task =>
    dsimp only [step] at hs
    split at hs
    case isTrue h =>
      rw [← Option.some.inj hs] at hstay ⊢
      refine hstay (State.addTask_pc ..) ?_
      rw [← State.withPc_addTask]
      exact if_pos h
    case isFalse => cases hs
  | create cb st =>
    rw [← Option.some.inj hs] at hstay ⊢
    exact hstay rfl rfl
  | reset c cb =>
    dsimp only [step] at hs
    split at hs
    case isTrue h =>
      rw [← Option.some.inj hs] at hstay ⊢
      refine hstay rfl (if_pos ⟨h.1, fun t ht => ?_⟩)
      show (pc t).inHand t ≠ _
      by_cases hrun : s.pc t = .notStarted
      · rw [hhand t hrun]
        exact nofun
      · rw [hpc t hrun]
        exact h.2 t ht
    case isFalse => cases hs

end WithPc

/-! ## The handshake -/

namespace Startup

/-- What the object of a thread holds while the thread is in `Thread::run`. -/
def Fits (id : ℤ) (x : ThreadObject) : EntryPc → Prop
  | .setId => x.mCb = some .run ∧ x.mSemaphore = 0
  | .swapCb => x.mId = id ∧ x.mCb = some .run ∧ x.mSemaphore = 0
  | .notify cb => x.mId = id ∧ x.mCb = none ∧ cb = some .run ∧ x.mSemaphore = 0
  | .call cb => x.mId = id ∧ x.mCb = none ∧ cb = some .run

variable (cfg : Config W) (tid : Thread W → ℤ) (y : Startup W)

/-- The thread has written its id and taken its callback, and goes to `run`. -/
structure Notified (w : W) : Prop where
  thread : (y.object w).mThread = true
  id : (y.object w).mId = tid (.worker w)
  cb : (y.object w).mCb = none
  arrived : y.start.inLoop = true → y.state.pc (.worker w) = .notStarted → (y.entry w).isSome = true

/-- `start` has constructed the objects `done`, and has created no other threads than `created`. -/
structure Built (done created : List W) : Prop where
  pool : y.threadpoll = done
  ids : y.threadIds = rootIds tid cfg ++ done.map fun w => tid (.worker w)
  notified : ∀ w ∈ done, Notified tid y w
  fresh : ∀ w, w ∉ created → y.entry w = none ∧ y.state.pc (.worker w) = .notStarted

/-- Who is in `run` has `m_mutex` to wait for. -/
structure Held : Prop where
  caller : ∃ cbs, y.state.pc .caller = .caller (.start cbs)
  scan : ∀ w, y.state.pc (.worker w) = .notStarted ∨ y.state.pc (.worker w) = .run none .scan
  stopping : y.state.stopping = false

def Reached : StartPc W → Prop
  | .before => Built cfg tid y [] [] ∧ (∃ cbs, y.state.pc .caller = .caller (.start cbs)) ∧
    y.state.stopping = true ∧ ∀ w, (y.object w).mSemaphore = 0
  | .loop workers => Held y ∧ ∃ done, done ++ workers = cfg.workers ∧ Built cfg tid y done done
  | .wait w workers => Held y ∧ ∃ done, done ++ w :: workers = cfg.workers ∧
    Built cfg tid y done (done ++ [w])
  | .getId w workers => Held y ∧ ∃ done, done ++ w :: workers = cfg.workers ∧
    Built cfg tid y done (done ++ [w]) ∧ Notified tid y w
  | .after => Built cfg tid y cfg.workers cfg.workers

/-- The invariant. -/
structure Handshake [DecidableEq W] : Prop where
  active : Active cfg y.abstract
  entry : ∀ w p, y.entry w = some p → y.state.pc (.worker w) = .notStarted ∧
    (y.object w).mThread = true ∧ Fits (tid (.worker w)) (y.object w) p
  posted : ∀ w, 0 < (y.object w).mSemaphore → Notified tid y w
  place : Reached cfg tid y y.start

section Steps

variable {cfg : Config W} {tid : Thread W → ℤ} {y y' : Startup W}

/-- The invariant holds before `start`. -/
theorem handshake_init [DecidableEq W] (cbs : List ℕ) : Handshake cfg tid (init tid cfg cbs) where
  active := by
    have habs : (init tid cfg cbs).abstract = Scheduler.init cbs := rfl
    rw [habs]
    exact Active.init cfg cbs
  entry := nofun
  posted := nofun
  place := ⟨⟨rfl, (List.append_nil _).symm, nofun, fun _ _ => ⟨rfl, rfl⟩⟩, ⟨cbs, rfl⟩, rfl, fun _ => rfl⟩

/-- What the others find where `m_mutex` is free. -/
theorem abstract_free (h : y.start.inLoop = false) :
    y.abstract = y.state.withPc fun
      | .caller => y.state.pc .caller
      | .worker w => if (y.entry w).isSome then .run none .scan else y.state.pc (.worker w) := by
  unfold abstract State.withPc
  rw [h, Bool.or_false]
  rfl

/-- What they would have found before `start`. -/
theorem abstract_held (h : y.start.inLoop = true) :
    y.abstract = { y.state with
      stopping := true
      pc := fun
        | .caller => y.state.pc .caller
        | .worker _ => .notStarted } := by
  unfold abstract
  rw [h, Bool.or_true]
  rfl

/-- Two states that differ in what is not seen. -/
theorem abstract_congr (hpc : y'.abstract.pc = y.abstract.pc)
    (hstopping : y'.abstract.stopping = y.abstract.stopping)
    (hstate : { y'.state with pc := y.state.pc, stopping := y.state.stopping } = y.state) :
    y'.abstract = y.abstract := by
  calc y'.abstract
    _ = { { y'.state with pc := y.state.pc, stopping := y.state.stopping } with
          pc := y'.abstract.pc, stopping := y'.abstract.stopping } := rfl
    _ = { y.state with pc := y.abstract.pc, stopping := y.abstract.stopping } := by
        rw [hstate, hpc, hstopping]
    _ = y.abstract := rfl

/-- A thread stays notified where its object keeps what it has been told. -/
theorem Notified.keep {w : W} (h : Notified tid y w)
    (hthread : (y'.object w).mThread = (y.object w).mThread)
    (hid : (y'.object w).mId = (y.object w).mId) (hcb : (y'.object w).mCb = (y.object w).mCb)
    (harrived : y'.start.inLoop = true → y.start.inLoop = true ∧
      y'.state.pc (.worker w) = y.state.pc (.worker w) ∧ y'.entry w = y.entry w) :
    Notified tid y' w where
  thread := hthread.trans h.thread
  id := hid.trans h.id
  cb := hcb.trans h.cb
  arrived hloop hrun := by
    obtain ⟨hloop', hpc, hentry⟩ := harrived hloop
    rw [hentry]
    exact h.arrived hloop' (hpc ▸ hrun)

/-- In the loop nothing is seen of what does not touch the scheduler. -/
theorem abstract_same (h : y.start.inLoop = true) (h' : y'.start.inLoop = true)
    (hstate : y'.state = y.state) : y'.abstract = y.abstract := by
  rw [abstract_held h, abstract_held h', hstate]

/-- While the scheduler's state stays, the caller is in `start` and the threads are held. -/
theorem Held.same (h : Held y) (hstate : y'.state = y.state) : Held y' where
  caller := hstate ▸ h.caller
  scan := hstate ▸ h.scan
  stopping := hstate ▸ h.stopping

/-- The thread being made is none of those made before. -/
theorem not_mem_done {done workers : List W} {w : W} (hn : cfg.workers.Nodup)
    (hdone : done ++ w :: workers = cfg.workers) : w ∉ done := by
  rw [← hdone] at hn
  exact fun hw => (List.nodup_append.mp hn).2.2 w hw w List.mem_cons_self rfl

/-! ### `Thread::run` -/

/-- A step of one thread in `Thread::run`, which may bring it to its callback. -/
structure EntryFrame [DecidableEq W] (y y' : Startup W) (w : W) : Prop where
  start : y'.start = y.start
  pool : y'.threadpoll = y.threadpoll
  ids : y'.threadIds = y.threadIds
  object : ∀ w' ≠ w, y'.object w' = y.object w'
  entry : ∀ w' ≠ w, y'.entry w' = y.entry w'
  state : y'.state = y.state ∧ (y'.entry w).isSome = true ∨
    y'.state = y.state.setPc (.worker w) (.run none .scan) ∧ y'.entry w = none

variable [DecidableEq W]

/-- A step of the entry function concerns its own thread object only. -/
theorem entryStep_frame {w : W} {p : EntryPc} (hy : y.entryStep tid w p = some y') :
    EntryFrame y y' w := by
  have hself : ∀ p : EntryPc, (Function.update y.entry w (some p) w).isSome = true := by
    intro p
    rw [Function.update_self]
    rfl
  have hother : ∀ (x : ThreadObject) (p : Option EntryPc), (∀ w' ≠ w,
      Function.update y.object w x w' = y.object w') ∧
      ∀ w' ≠ w, Function.update y.entry w p w' = y.entry w' :=
    fun x p => ⟨fun w' h => Function.update_of_ne h .., fun w' h => Function.update_of_ne h ..⟩
  unfold Startup.entryStep at hy
  split at hy
  · rw [← Option.some.inj hy]
    exact ⟨rfl, rfl, rfl, (hother _ none).1, (hother .new _).2, Or.inl ⟨rfl, hself _⟩⟩
  · rw [← Option.some.inj hy]
    exact ⟨rfl, rfl, rfl, (hother _ none).1, (hother .new _).2, Or.inl ⟨rfl, hself _⟩⟩
  · rw [← Option.some.inj hy]
    exact ⟨rfl, rfl, rfl, (hother _ none).1, (hother .new _).2, Or.inl ⟨rfl, hself _⟩⟩
  · rw [← Option.some.inj hy]
    exact ⟨rfl, rfl, rfl, fun _ _ => rfl, (hother .new _).2, Or.inr ⟨rfl, Function.update_self ..⟩⟩
  · cases hy

namespace EntryFrame

variable {w : W}

/-- It moves its own thread only. -/
theorem pc_of_ne (hf : EntryFrame y y' w) {t : Thread W} (h : t ≠ .worker w) :
    y'.state.pc t = y.state.pc t := by
  rcases hf.state with ⟨hstate, -⟩ | ⟨hstate, -⟩
  · rw [hstate]
  · rw [hstate]
    exact Function.update_of_ne h ..

/-- Where the thread of the step stands. -/
theorem pc_self (hf : EntryFrame y y' w) :
    (if (y'.entry w).isSome then .run none .scan else y'.state.pc (.worker w)) =
      Pc.run none .scan := by
  rcases hf.state with ⟨-, hentry⟩ | ⟨hstate, hentry⟩
  · rw [if_pos hentry]
  · rw [hentry, hstate]
    exact State.setPc_pc_self ..

/-- A thread in `Thread::run` is not seen. -/
theorem abstract_eq (hf : EntryFrame y y' w) (hentry : (y.entry w).isSome = true) :
    y'.abstract = y.abstract := by
  have hpc : y'.abstract.pc = y.abstract.pc := by
    funext t
    unfold abstract
    dsimp only
    rw [hf.start]
    cases t with
    | caller => exact hf.pc_of_ne nofun
    | worker w' =>
      by_cases hw : w' = w
      · rw [hw]
        dsimp only
        rw [hf.pc_self, if_pos hentry]
      · dsimp only
        rw [hf.entry w' hw, hf.pc_of_ne fun h => hw (Thread.worker.inj h)]
  rcases hf.state with ⟨hstate, -⟩ | ⟨hstate, -⟩
  · refine abstract_congr hpc ?_ ?_
    · unfold abstract
      rw [hf.start, hstate]
    · rw [hstate]
  · refine abstract_congr hpc ?_ ?_
    · unfold abstract
      rw [hf.start, hstate]
      rfl
    · rw [hstate]
      rfl

/-- Who has notified is on its way or has arrived. -/
theorem notified_of_ne (hf : EntryFrame y y' w) {w' : W} (hw : w' ≠ w)
    (h : Notified tid y w') : Notified tid y' w' := by
  have hpc : y'.state.pc (.worker w') = y.state.pc (.worker w') :=
    hf.pc_of_ne fun h => hw (Thread.worker.inj h)
  constructor
  case thread => rw [hf.object w' hw]; exact h.thread
  case id => rw [hf.object w' hw]; exact h.id
  case cb => rw [hf.object w' hw]; exact h.cb
  case arrived => rw [hf.start, hpc, hf.entry w' hw]; exact h.arrived

/-- A thread that has not begun its function is still in the entry function. -/
theorem arrived (hf : EntryFrame y y' w) (hrun : y'.state.pc (.worker w) = .notStarted) :
    (y'.entry w).isSome = true := by
  rcases hf.state with ⟨-, hentry⟩ | ⟨hstate, -⟩
  · exact hentry
  · rw [hstate, State.setPc_pc_self] at hrun
    cases hrun

/-- What has been built stays, while notified threads stay notified. -/
theorem built (hf : EntryFrame y y' w) (hentry : (y.entry w).isSome = true)
    (hnot : ∀ w', Notified tid y w' → Notified tid y' w') {done created : List W}
    (h : Built cfg tid y done created) : Built cfg tid y' done created where
  pool := hf.pool.trans h.pool
  ids := hf.ids.trans h.ids
  notified w' hw' := hnot w' (h.notified w' hw')
  fresh w' hw' := by
    have hne : w' ≠ w := by
      rintro rfl
      rw [(h.fresh w' hw').1] at hentry
      cases hentry
    rw [hf.entry w' hne, hf.pc_of_ne fun h => hne (Thread.worker.inj h)]
    exact h.fresh w' hw'

/-- The threads stay held: at most one more has reached its first scan. -/
theorem held (hf : EntryFrame y y' w) (h : Held y) : Held y' where
  caller := by
    rw [hf.pc_of_ne (t := .caller) nofun]
    exact h.caller
  scan w' := by
    rcases hf.state with ⟨hstate, -⟩ | ⟨hstate, -⟩
    · rw [hstate]
      exact h.scan w'
    · by_cases hw : w' = w
      · rw [hw, hstate]
        exact Or.inr (State.setPc_pc_self ..)
      · rw [hf.pc_of_ne fun h => hw (Thread.worker.inj h)]
        exact h.scan w'
  stopping := by
    rcases hf.state with ⟨hstate, -⟩ | ⟨hstate, -⟩
    · rw [hstate]
      exact h.stopping
    · rw [hstate]
      exact h.stopping

/-- The owner stands where it stood. -/
theorem reached (hf : EntryFrame y y' w) (hentry : (y.entry w).isSome = true)
    (hnot : ∀ w', Notified tid y w' → Notified tid y' w') {p : StartPc W}
    (h : Reached cfg tid y p) : Reached cfg tid y' p := by
  cases p with
  | before =>
    -- nobody has been created
    rw [(h.1.fresh w (List.not_mem_nil)).1] at hentry
    cases hentry
  | loop workers =>
    obtain ⟨hheld, done, hdone, hbuilt⟩ := h
    exact ⟨hf.held hheld, done, hdone, hf.built hentry hnot hbuilt⟩
  | wait w' workers =>
    obtain ⟨hheld, done, hdone, hbuilt⟩ := h
    exact ⟨hf.held hheld, done, hdone, hf.built hentry hnot hbuilt⟩
  | getId w' workers =>
    obtain ⟨hheld, done, hdone, hbuilt, hlast⟩ := h
    exact ⟨hf.held hheld, done, hdone, hf.built hentry hnot hbuilt, hnot w' hlast⟩
  | after => exact hf.built hentry hnot h

end EntryFrame

/-- A step of the entry function keeps the invariant, and the abstract scheduler does not see it. -/
theorem Handshake.entryStep (h : Handshake cfg tid y) {w : W} {p : EntryPc}
    (hp : y.entry w = some p) (hy : y.entryStep tid w p = some y') :
    Handshake cfg tid y' ∧ y'.abstract = y.abstract := by
  have hf := entryStep_frame hy
  have hentry : (y.entry w).isSome = true := by
    rw [hp]
    rfl
  obtain ⟨hrun, hthread, hfits⟩ := h.entry w p hp
  have habs := hf.abstract_eq hentry
  -- what the step makes of the object
  have hself : (∀ p', y'.entry w = some p' →
      (y'.object w).mThread = true ∧ Fits (tid (.worker w)) (y'.object w) p') ∧
      (Notified tid y w ∨ 0 < (y'.object w).mSemaphore → Notified tid y' w) := by
    cases p with
    | setId =>
      obtain ⟨hcb, hsem⟩ := hfits
      rw [← Option.some.inj hy] at hf ⊢
      dsimp only [setEntry, setObject]
      rw [Function.update_self, Function.update_self]
      refine ⟨fun p' hp' => ?_, ?_⟩
      · rw [← Option.some.inj hp']
        exact ⟨hthread, rfl, hcb, hsem⟩
      · rintro (hnot | hpos)
        · rw [hnot.cb] at hcb
          cases hcb
        · rw [hsem] at hpos
          cases hpos
    | swapCb =>
      obtain ⟨hid, hcb, hsem⟩ := hfits
      rw [← Option.some.inj hy] at hf ⊢
      dsimp only [setEntry, setObject]
      rw [Function.update_self, Function.update_self]
      refine ⟨fun p' hp' => ?_, ?_⟩
      · rw [← Option.some.inj hp']
        exact ⟨hthread, hid, rfl, hcb, hsem⟩
      · rintro (hnot | hpos)
        · rw [hnot.cb] at hcb
          cases hcb
        · rw [hsem] at hpos
          cases hpos
    | notify cb =>
      obtain ⟨hid, hcb, rfl, hsem⟩ := hfits
      rw [← Option.some.inj hy] at hf ⊢
      dsimp only [setEntry, setObject] at hf ⊢
      refine ⟨fun p' hp' => ?_, fun _ => ⟨?_, ?_, ?_, fun _ => hf.arrived⟩⟩
      · rw [Function.update_self] at hp' ⊢
        rw [← Option.some.inj hp']
        exact ⟨hthread, hid, hcb, rfl⟩
      all_goals dsimp only; rw [Function.update_self]; assumption
    | call cb =>
      obtain ⟨hid, hcb, rfl⟩ := hfits
      rw [← Option.some.inj hy] at hf ⊢
      refine ⟨fun p' hp' => ?_, fun _ => ⟨hthread, hid, hcb, fun _ => hf.arrived⟩⟩
      dsimp only [setEntry] at hp'
      rw [Function.update_self] at hp'
      cases hp'
  have hnot : ∀ w', Notified tid y w' → Notified tid y' w' := by
    intro w' hw'
    by_cases hw : w' = w
    · rw [hw] at hw' ⊢
      exact hself.2 (Or.inl hw')
    · exact hf.notified_of_ne hw hw'
  refine ⟨⟨?_, ?_, ?_, ?_⟩, habs⟩
  · rw [habs]
    exact h.active
  · intro w' p' hp'
    by_cases hw : w' = w
    · rw [hw] at hp' ⊢
      refine ⟨?_, hself.1 p' hp'⟩
      rcases hf.state with ⟨hstate, -⟩ | ⟨-, hnone⟩
      · rw [hstate]
        exact hrun
      · rw [hnone] at hp'
        cases hp'
    · rw [hf.entry w' hw] at hp'
      rw [hf.object w' hw, hf.pc_of_ne fun h => hw (Thread.worker.inj h)]
      exact h.entry w' p' hp'
  · intro w' hpos
    by_cases hw : w' = w
    · rw [hw] at hpos ⊢
      exact hself.2 (Or.inr hpos)
    · rw [hf.object w' hw] at hpos
      exact hf.notified_of_ne hw (h.posted w' hpos)
  · rw [hf.start]
    exact hf.reached hentry hnot h.place

/-! ### The loop -/

/-- `start` has taken `m_mutex`. -/
theorem Handshake.enter (h : Handshake cfg tid y) (hstart : y.start = .before)
    {created : Bool} (hy : y.startStep cfg created .before = some y') :
    Handshake cfg tid y' ∧ y'.abstract = y.abstract := by
  have hplace := h.place
  rw [hstart] at hplace
  obtain ⟨hbuilt, hcaller, hstopping, hsem⟩ := hplace
  have hfresh : ∀ w, y.entry w = none ∧ y.state.pc (.worker w) = .notStarted :=
    fun w => hbuilt.fresh w List.not_mem_nil
  unfold startStep at hy
  rw [hstopping] at hy
  rw [← Option.some.inj hy]
  have habs : abstract { y with
      state := { y.state with stopping := false }, start := .loop cfg.workers } = y.abstract := by
    refine abstract_congr ?_ ?_ rfl
    · funext t
      unfold abstract
      rw [hstart]
      cases t with
      | caller => rfl
      | worker w =>
        obtain ⟨hentry, hrun⟩ := hfresh w
        dsimp only
        rw [hentry, hrun]
        rfl
    · unfold abstract
      rw [hstopping]
      rfl
  refine ⟨⟨?_, h.entry, fun w hpos => ?_, ?_⟩, habs⟩
  · rw [habs]
    exact h.active
  · -- no object has been constructed
    rw [show (y.object w).mSemaphore = 0 from hsem w] at hpos
    cases hpos
  · refine ⟨⟨hcaller, fun w => Or.inl (hfresh w).2, rfl⟩, [], rfl, ?_⟩
    exact ⟨hbuilt.pool, hbuilt.ids, nofun, fun w _ => hfresh w⟩

/-- A step within the loop, about thread `w`. -/
theorem Handshake.inLoop (h : Handshake cfg tid y) {w : W} (hloop : y.start.inLoop = true)
    (hloop' : y'.start.inLoop = true) (hstate : y'.state = y.state)
    (hobject : ∀ w' ≠ w, y'.object w' = y.object w')
    (hentry : ∀ w' ≠ w, y'.entry w' = y.entry w')
    (hself : ∀ p, y'.entry w = some p → y.state.pc (.worker w) = .notStarted ∧
      (y'.object w).mThread = true ∧ Fits (tid (.worker w)) (y'.object w) p)
    (hposted : 0 < (y'.object w).mSemaphore → Notified tid y' w)
    (hplace : (∀ w' ≠ w, Notified tid y w' → Notified tid y' w') → Held y' →
      Reached cfg tid y' y'.start) (hheld : Held y) :
    Handshake cfg tid y' ∧ y'.abstract = y.abstract := by
  have habs := abstract_same hloop hloop' hstate
  have hkeep : ∀ w' ≠ w, Notified tid y w' → Notified tid y' w' := by
    intro w' hw hnot
    refine hnot.keep ?_ ?_ ?_ fun _ => ⟨hloop, by rw [hstate], hentry w' hw⟩
    all_goals rw [hobject w' hw]
  refine ⟨⟨?_, fun w' p hp => ?_, fun w' hpos => ?_, hplace hkeep (hheld.same hstate)⟩, habs⟩
  · rw [habs]
    exact h.active
  · by_cases hw : w' = w
    · rw [hw] at hp ⊢
      rw [hstate]
      exact hself p hp
    · rw [hentry w' hw] at hp
      rw [hstate, hobject w' hw]
      exact h.entry w' p hp
  · by_cases hw : w' = w
    · rw [hw] at hpos ⊢
      exact hposted hpos
    · rw [hobject w' hw] at hpos
      exact hkeep w' hw (h.posted w' hpos)

/-- `new Thread`: the object is new, and its thread begins, if it has been created. -/
theorem Handshake.construct (h : Handshake cfg tid y) (hn : cfg.workers.Nodup) {w : W}
    {workers : List W} (hstart : y.start = .loop (w :: workers)) {created : Bool}
    (hy : y.startStep cfg created (.loop (w :: workers)) = some y') :
    Handshake cfg tid y' ∧ y'.abstract = y.abstract := by
  have hloop : y.start.inLoop = true := by
    rw [hstart]
    rfl
  have hplace := h.place
  rw [hstart] at hplace
  obtain ⟨hheld, done, hdone, hbuilt⟩ := hplace
  have hnew := not_mem_done hn hdone
  obtain rfl := Option.some.inj hy
  refine h.inLoop (w := w) hloop rfl rfl (fun w' hw => Function.update_of_ne hw ..)
    (fun w' hw => Function.update_of_ne hw ..) ?_ ?_ ?_ hheld
  · intro p hp
    dsimp only [setEntry, setObject] at hp ⊢
    rw [Function.update_self] at hp ⊢
    cases created with
    | true =>
      obtain rfl := Option.some.inj hp
      exact ⟨(hbuilt.fresh w hnew).2, rfl, rfl, rfl⟩
    | false => cases hp
  · intro hpos
    dsimp only [setEntry, setObject] at hpos
    rw [Function.update_self] at hpos
    cases hpos
  · intro hkeep hheld'
    refine ⟨hheld', done, hdone, hbuilt.pool, hbuilt.ids, fun w' hw' => ?_, fun w' hw' => ?_⟩
    · exact hkeep w' (fun heq => hnew (heq ▸ hw')) (hbuilt.notified w' hw')
    · have hne : w' ≠ w := fun heq => hw' (by simp [heq])
      obtain ⟨hentry, hrun⟩ := hbuilt.fresh w' fun hmem => hw' (by simp [hmem])
      exact ⟨(Function.update_of_ne hne ..).trans hentry, hrun⟩

/-- `m_semaphore.wait()` ends when the thread has notified. -/
theorem Handshake.wait (h : Handshake cfg tid y) (hn : cfg.workers.Nodup) {w : W}
    {workers : List W} (hstart : y.start = .wait w workers) {created : Bool}
    (hy : y.startStep cfg created (.wait w workers) = some y') :
    Handshake cfg tid y' ∧ y'.abstract = y.abstract := by
  have hloop : y.start.inLoop = true := by
    rw [hstart]
    rfl
  have hplace := h.place
  rw [hstart] at hplace
  obtain ⟨hheld, done, hdone, hbuilt⟩ := hplace
  have hnew := not_mem_done hn hdone
  dsimp only [startStep] at hy
  split at hy
  case isFalse => cases hy
  case isTrue hpos =>
    obtain rfl := Option.some.inj hy
    have hnot := h.posted w hpos
    have hself : Function.update y.object w
        { y.object w with mSemaphore := (y.object w).mSemaphore - 1 } w =
        { y.object w with mSemaphore := (y.object w).mSemaphore - 1 } := Function.update_self ..
    have hnot' : Notified tid { y.setObject w
        { y.object w with mSemaphore := (y.object w).mSemaphore - 1 } with
        start := .getId w workers } w := by
      refine hnot.keep ?_ ?_ ?_ fun _ => ⟨hloop, rfl, rfl⟩
      all_goals
        dsimp only [setObject]
        rw [hself]
    refine h.inLoop (w := w) hloop rfl rfl (fun w' hw => Function.update_of_ne hw ..)
      (fun _ _ => rfl) ?_ (fun _ => hnot') ?_ hheld
    · intro p hp
      obtain ⟨hrun, hthread, hfits⟩ := h.entry w p hp
      dsimp only [setObject]
      rw [hself]
      refine ⟨hrun, hthread, ?_⟩
      -- the thread has notified, so that it goes to its callback
      cases p with
      | setId => exact absurd hfits.2 (Nat.ne_of_gt hpos)
      | swapCb => exact absurd hfits.2.2 (Nat.ne_of_gt hpos)
      | notify cb => exact absurd hfits.2.2.2 (Nat.ne_of_gt hpos)
      | call cb => exact hfits
    · intro hkeep hheld'
      refine ⟨hheld', done, hdone, ⟨hbuilt.pool, hbuilt.ids, fun w' hw' => ?_, hbuilt.fresh⟩, hnot'⟩
      exact hkeep w' (fun heq => hnew (heq ▸ hw')) (hbuilt.notified w' hw')

/-- The id that is recorded is the one of the thread. -/
theorem Handshake.getId (h : Handshake cfg tid y) {w : W} {workers : List W}
    (hstart : y.start = .getId w workers) {created : Bool}
    (hy : y.startStep cfg created (.getId w workers) = some y') :
    Handshake cfg tid y' ∧ y'.abstract = y.abstract := by
  have hloop : y.start.inLoop = true := by
    rw [hstart]
    rfl
  have hplace := h.place
  rw [hstart] at hplace
  obtain ⟨hheld, done, hdone, hbuilt, hlast⟩ := hplace
  obtain rfl := Option.some.inj hy
  have hkeep : ∀ w', Notified tid y w' → Notified tid { y with
      threadpoll := y.threadpoll ++ [w]
      threadIds := y.threadIds ++ [(y.object w).mId]
      start := .loop workers } w' :=
    fun w' hw' => hw'.keep rfl rfl rfl fun _ => ⟨hloop, rfl, rfl⟩
  refine h.inLoop (w := w) hloop rfl rfl (fun _ _ => rfl) (fun _ _ => rfl) (h.entry w)
    (fun hpos => hkeep w (h.posted w hpos)) (fun _ hheld' => ?_) hheld
  refine ⟨hheld', done ++ [w], by rw [← hdone]; simp, ?_, ?_, ?_, hbuilt.fresh⟩
  · exact congrArg (· ++ [w]) hbuilt.pool
  · show y.threadIds ++ [(y.object w).mId] = _
    rw [hbuilt.ids, hlast.id]
    simp
  · intro w' hw'
    rcases List.mem_append.mp hw' with hw' | hw'
    · exact hkeep w' (hbuilt.notified w' hw')
    · rw [List.mem_singleton.mp hw']
      exact hkeep w hlast

/-- Who waits for `m_mutex` finds all that `start` has done. -/
theorem Handshake.leave (h : Handshake cfg tid y) (hstart : y.start = .loop [])
    {created : Bool} (hy : y.startStep cfg created (.loop []) = some y') :
    Handshake cfg tid y' ∧ Scheduler.step cfg y.abstract (.thread .caller) = some y'.abstract := by
  have hplace := h.place
  rw [hstart] at hplace
  obtain ⟨hheld, done, hdone, hbuilt⟩ := hplace
  rw [List.append_nil] at hdone
  rw [hdone] at hbuilt
  have hloop : y.start.inLoop = true := by
    rw [hstart]
    rfl
  obtain ⟨cbs, hcaller⟩ := hheld.caller
  dsimp only [startStep, Startup.leave] at hy
  rw [hcaller] at hy
  dsimp only at hy
  obtain rfl := Option.some.inj hy
  have hother : ∀ w, (y.state.setPc .caller (.caller (.add cbs))).pc (.worker w) =
      y.state.pc (.worker w) := by
    intro w
    have hne : Thread.worker w ≠ .caller := nofun
    exact update_pc_of_ne (.caller (.add cbs)) hne
  -- every thread is in `run` or on its way
  have hworker : ∀ w, (if (y.entry w).isSome then .run none .scan else y.state.pc (.worker w)) =
      if w ∈ cfg.workers then Pc.run none .scan else .notStarted := by
    intro w
    by_cases hw : w ∈ cfg.workers
    · rw [if_pos hw]
      rcases hheld.scan w with hrun | hrun
      · rw [if_pos ((hbuilt.notified w hw).arrived hloop hrun)]
      · rw [hrun, ite_self]
    · obtain ⟨hentry, hrun⟩ := hbuilt.fresh w hw
      rw [if_neg hw, hentry, hrun]
      rfl
  have hstep : Scheduler.step cfg y.abstract (.thread .caller) = some (abstract { y with
      start := .after, state := y.state.setPc .caller (.caller (.add cbs)) }) := by
    have hpc : y.abstract.pc .caller = .caller (.start cbs) := hcaller
    dsimp only [Scheduler.step]
    rw [hpc]
    dsimp only [callerStep]
    rw [abstract_held hloop, if_pos rfl, abstract_free rfl]
    refine congrArg some ?_
    show State.withPc { y.state with stopping := false } _ = y.state.withPc _
    rw [← hheld.stopping]
    refine congrArg (State.withPc y.state) (funext fun t => ?_)
    cases t with
    | caller =>
      dsimp only
      rw [Function.update_self, State.setPc_pc_self]
    | worker w =>
      have hne : Thread.worker w ≠ .caller := nofun
      dsimp only
      rw [Function.update_of_ne hne, hother w]
      exact (hworker w).symm
  refine ⟨⟨h.active.step hstep, ?_, ?_, ?_⟩, hstep⟩
  · intro w p hp
    obtain ⟨hrun, hrest⟩ := h.entry w p hp
    exact ⟨(hother w).trans hrun, hrest⟩
  · intro w hpos
    exact (h.posted w hpos).keep rfl rfl rfl nofun
  · refine ⟨hbuilt.pool, hbuilt.ids, fun w hw => ?_, fun w hw => ?_⟩
    · exact (hbuilt.notified w hw).keep rfl rfl rfl nofun
    · obtain ⟨hentry, hrun⟩ := hbuilt.fresh w hw
      exact ⟨hentry, (hother w).trans hrun⟩

/-! ### The others -/

/-- The caller is in `start`, and whoever is in `run` needs `m_mutex`: nothing else moves. -/
theorem Handshake.quiet (h : Handshake cfg tid y) (hstart : y.start ≠ .after) {l : Label W}
    {s' : State W} (hl : isStart y.state l = false)
    (hmutex : ¬ (y.start.inLoop = true ∧ needsMutex y.state l = true))
    (hs : Scheduler.step cfg y.state l = some s') :
    s'.pc = y.state.pc ∧ s'.stopping = y.state.stopping ∧
      (y.start.inLoop = true → Scheduler.step cfg y.abstract l =
        some (abstract { y with state := s' })) := by
  obtain ⟨⟨cbs, hcaller⟩, hworker⟩ : (∃ cbs, y.state.pc .caller = .caller (.start cbs)) ∧
      ∀ w, y.state.pc (.worker w) = .notStarted ∨
        y.start.inLoop = true ∧ y.state.pc (.worker w) = .run none .scan := by
    have hplace := h.place
    have hheld : Held y → y.start.inLoop = true →
        (∃ cbs, y.state.pc .caller = .caller (.start cbs)) ∧ ∀ w,
        y.state.pc (.worker w) = .notStarted ∨
          y.start.inLoop = true ∧ y.state.pc (.worker w) = .run none .scan :=
      fun hheld hloop => ⟨hheld.caller, fun w => (hheld.scan w).imp_right fun hrun => ⟨hloop, hrun⟩⟩
    cases hst : y.start with
    | before =>
      rw [hst] at hplace
      exact ⟨hplace.2.1, fun w => Or.inl (hplace.1.fresh w List.not_mem_nil).2⟩
    | after => exact absurd hst hstart
    | _ =>
      rw [hst] at hplace hheld
      exact hheld hplace.1 rfl
  cases l with
  | thread t =>
    cases t with
    | caller =>
      dsimp only [isStart] at hl
      rw [hcaller] at hl
      cases hl
    | worker w =>
      rcases hworker w with hrun | ⟨hloop, hrun⟩
      · dsimp only [Scheduler.step] at hs
        rw [hrun] at hs
        cases hs
      · refine absurd ⟨hloop, ?_⟩ hmutex
        dsimp only [needsMutex]
        rw [hrun]
  | body t a =>
    dsimp only [Scheduler.step] at hs
    cases t with
    | caller =>
      rw [hcaller] at hs
      cases hs
    | worker w =>
      rcases hworker w with hrun | ⟨-, hrun⟩ <;>
      · rw [hrun] at hs
        cases hs
  | addTask task =>
    dsimp only [Scheduler.step] at hs
    split at hs
    case isTrue =>
      rw [← Option.some.inj hs]
      refine ⟨State.addTask_pc .., ?_, fun hloop => absurd ⟨hloop, rfl⟩ hmutex⟩
      unfold State.addTask
      split <;> rfl
    case isFalse => cases hs
  | create cb st =>
    rw [← Option.some.inj hs]
    exact ⟨rfl, rfl, fun _ => rfl⟩
  | reset c cb =>
    dsimp only [Scheduler.step] at hs
    split at hs
    case isTrue hc =>
      rw [← Option.some.inj hs]
      refine ⟨rfl, rfl, fun hloop => if_pos ⟨hc.1, fun t ht => ?_⟩⟩
      rw [abstract_held hloop]
      cases t with
      | caller => exact hc.2 .caller ht
      | worker w => exact nofun
    case isFalse => cases hs

/-- Where `m_mutex` is free, a thread that is on its way to `run` could as well be there. -/
theorem Handshake.other_free (h : Handshake cfg tid y) (hfree : y.start.inLoop = false)
    {l : Label W} {s' : State W} (hl : isStart y.state l = false)
    (hs : Scheduler.step cfg y.state l = some s') :
    Scheduler.step cfg y.abstract l = some (abstract { y with state := s' }) ∧
      ∀ t, y.state.pc t = .notStarted → s'.pc t = .notStarted := by
  have hpc : ∀ t, y.state.pc t ≠ .notStarted → y.abstract.pc t = y.state.pc t := by
    intro t hrun
    rw [abstract_free hfree]
    cases t with
    | caller => rfl
    | worker w =>
      show (if (y.entry w).isSome then _ else _) = _
      cases hentry : y.entry w with
      | none => rfl
      | some p => exact absurd (h.entry w p hentry).1 hrun
  have hhand : ∀ t, y.state.pc t = .notStarted → (y.abstract.pc t).inHand t = none := by
    intro t hrun
    rw [abstract_free hfree]
    cases t with
    | caller =>
      show (y.state.pc .caller).inHand _ = none
      rw [hrun]
      rfl
    | worker w =>
      show (if (y.entry w).isSome then _ else _ : Pc W).inHand _ = none
      rw [hrun]
      split <;> rfl
  have hcaller : ∀ t q, y.state.pc t = .caller q → t = .caller := by
    intro t q hq
    refine (h.active.at_caller (q := q) ?_).1
    rw [hpc t (by rw [hq]; exact nofun), hq]
  obtain ⟨hstep, hnot⟩ := step_withPc hpc hhand hcaller hl hs
  refine ⟨?_, hnot⟩
  have habs : y.state.withPc y.abstract.pc = y.abstract := by
    rw [abstract_free hfree]
    rfl
  have habs' : s'.withPc (mask y.state s' y.abstract.pc) = abstract { y with state := s' } := by
    rw [abstract_free hfree, abstract_free (y := { y with state := s' }) hfree]
    refine congrArg s'.withPc (funext fun t => ?_)
    unfold mask
    by_cases hrun : y.state.pc t = .notStarted
    · rw [if_pos hrun]
      cases t with
      | caller => exact hrun.trans (hnot .caller hrun).symm
      | worker w =>
        show (if (y.entry w).isSome then _ else y.state.pc (.worker w)) = _
        rw [hrun, ← hnot _ hrun]
    · rw [if_neg hrun]
      cases t with
      | caller => rfl
      | worker w =>
        cases hentry : y.entry w with
        | none =>
          show _ = if (y.entry w).isSome then _ else _
          rw [hentry]
          rfl
        | some p => exact absurd (h.entry w p hentry).1 hrun
  rw [habs, habs'] at hstep
  exact hstep

/-- A step of anything else is the same step of the scheduler whose `start` is one step. -/
theorem Handshake.other (h : Handshake cfg tid y) {l : Label W} {s' : State W}
    (hl : isStart y.state l = false)
    (hmutex : ¬ (y.start.inLoop = true ∧ needsMutex y.state l = true))
    (hs : Scheduler.step cfg y.state l = some s') :
    Handshake cfg tid { y with state := s' } ∧
      Scheduler.step cfg y.abstract l = some (abstract { y with state := s' }) := by
  have hafter : y.start.inLoop = true → y.start ≠ .after := by
    intro hloop heq
    rw [heq] at hloop
    cases hloop
  obtain ⟨hstep, hnot⟩ : Scheduler.step cfg y.abstract l = some (abstract { y with state := s' }) ∧
      ∀ w, y.state.pc (.worker w) = .notStarted → s'.pc (.worker w) = .notStarted := by
    by_cases hloop : y.start.inLoop = true
    · obtain ⟨hpc, -, hstep⟩ := h.quiet (hafter hloop) hl hmutex hs
      exact ⟨hstep hloop, fun w hrun => by rw [hpc, hrun]⟩
    · obtain ⟨hstep, hnot⟩ := h.other_free (Bool.not_eq_true _ ▸ hloop) hl hs
      exact ⟨hstep, fun w => hnot (.worker w)⟩
  have hnotified : ∀ w, Notified tid y w → Notified tid { y with state := s' } w := by
    intro w hw
    refine hw.keep rfl rfl rfl fun hloop => ⟨hloop, ?_, rfl⟩
    exact congrFun (h.quiet (hafter hloop) hl hmutex hs).1 _
  have hbuilt : ∀ done created, Built cfg tid y done created →
      Built cfg tid { y with state := s' } done created :=
    fun done created hb => ⟨hb.pool, hb.ids, fun w hw => hnotified w (hb.notified w hw),
      fun w hw => ⟨(hb.fresh w hw).1, hnot w (hb.fresh w hw).2⟩⟩
  refine ⟨⟨h.active.step hstep, fun w p hp => ?_, fun w hpos => ?_, ?_⟩, hstep⟩
  · obtain ⟨hrun, hrest⟩ := h.entry w p hp
    exact ⟨hnot w hrun, hrest⟩
  · exact hnotified w (h.posted w hpos)
  · have hheld : y.start ≠ .after → Held y → Held { y with state := s' } := by
      intro hst hheld
      obtain ⟨hpc, hstopping, -⟩ := h.quiet hst hl hmutex hs
      refine ⟨?_, ?_, hstopping.trans hheld.stopping⟩
      · show ∃ cbs, s'.pc .caller = _
        rw [hpc]
        exact hheld.caller
      · show ∀ w, s'.pc (.worker w) = _ ∨ s'.pc (.worker w) = _
        rw [hpc]
        exact hheld.scan
    have hreached : ∀ p, (p ≠ .after → y.start ≠ .after) → Reached cfg tid y p →
        Reached cfg tid { y with state := s' } p := by
      intro p hp hplace
      cases p with
      | before =>
        obtain ⟨hb, hcaller, hstopping, hsem⟩ := hplace
        obtain ⟨hpc, hsame, -⟩ := h.quiet (hp nofun) hl hmutex hs
        refine ⟨hbuilt _ _ hb, ?_, hsame.trans hstopping, hsem⟩
        show ∃ cbs, s'.pc .caller = _
        rw [hpc]
        exact hcaller
      | loop workers =>
        obtain ⟨hh, done, hdone, hb⟩ := hplace
        exact ⟨hheld (hp nofun) hh, done, hdone, hbuilt _ _ hb⟩
      | wait w workers =>
        obtain ⟨hh, done, hdone, hb⟩ := hplace
        exact ⟨hheld (hp nofun) hh, done, hdone, hbuilt _ _ hb⟩
      | getId w workers =>
        obtain ⟨hh, done, hdone, hb, hlast⟩ := hplace
        exact ⟨hheld (hp nofun) hh, done, hdone, hbuilt _ _ hb, hnotified w hlast⟩
      | after => exact hbuilt _ _ hplace
    exact hreached y.start id h.place

/-! ### The run -/

/-- Each step keeps the invariant, and is a step of the abstract scheduler or none. -/
theorem Handshake.step (h : Handshake cfg tid y) (hn : cfg.workers.Nodup) {l : StartLabel W}
    (hok : Uninterrupted y l) (hy : Startup.step tid cfg y l = some y') :
    Handshake cfg tid y' ∧ Run (Scheduler.step cfg) anyStep y.abstract y'.abstract := by
  -- what is not seen is no step
  have hstay : Handshake cfg tid y' ∧ y'.abstract = y.abstract →
      Handshake cfg tid y' ∧ Run (Scheduler.step cfg) anyStep y.abstract y'.abstract := by
    rintro ⟨hy', habs⟩
    rw [habs]
    exact ⟨hy', .refl⟩
  cases l with
  | start created =>
    dsimp only [Startup.step] at hy
    cases hst : y.start with
    | before =>
      rw [hst] at hy
      exact hstay (h.enter hst hy)
    | loop workers =>
      rw [hst] at hy
      cases workers with
      | nil =>
        obtain ⟨hy', hstep⟩ := h.leave hst hy
        exact ⟨hy', Run.single trivial hstep⟩
      | cons w workers => exact hstay (h.construct hn hst hy)
    | wait w workers =>
      rw [hst] at hy
      exact hstay (h.wait hn hst hy)
    | getId w workers =>
      rw [hst] at hy
      exact hstay (h.getId hst hy)
    | after =>
      rw [hst] at hy
      cases hy
  | interrupted => exact hok.elim
  | entry w =>
    obtain ⟨p, hp, hy⟩ := Option.bind_eq_some_iff.mp hy
    exact hstay (h.entryStep hp hy)
  | other l =>
    dsimp only [Startup.step] at hy
    split at hy
    case isTrue => cases hy
    case isFalse hcond =>
      obtain ⟨s', hs, rfl⟩ := Option.map_eq_some_iff.mp hy
      have hl : isStart y.state l = false := by
        cases hl : isStart y.state l with
        | false => rfl
        | true => exact absurd (Or.inl hl) hcond
      obtain ⟨hy', hstep⟩ := h.other hl (fun hmutex => hcond (Or.inr hmutex)) hs
      exact ⟨hy', Run.single trivial hstep⟩

/-- In every uninterrupted run the invariant holds, and the abstract scheduler runs along. -/
theorem handshake_of_run (hn : cfg.workers.Nodup) {cbs : List ℕ}
    (h : Run (Startup.step tid cfg) Uninterrupted (init tid cfg cbs) y) :
    Handshake cfg tid y ∧ Run (Scheduler.step cfg) anyStep (Scheduler.init cbs) y.abstract :=
  h.refines (I := fun y => Handshake cfg tid y) (f := abstract) (handshake_init cbs)
    fun _ _ _ ht hok htu => ht.step hn hok htu

end Steps

variable [DecidableEq W] {cfg : Config W} {tid : Thread W → ℤ} {y : Startup W}

/-- As long as no `sem_wait` is interrupted, every run with the threads started one after the other
is a run of the scheduler whose `start` is one step. -/
theorem start_refines (hn : cfg.workers.Nodup) {cbs : List ℕ}
    (h : Run (Startup.step tid cfg) Uninterrupted (init tid cfg cbs) y) :
    Run (Scheduler.step cfg) anyStep (Scheduler.init cbs) y.abstract := (handshake_of_run hn h).2

/-- One thread is started, and takes a task before the owner has left `start`'s `addTask`. -/
theorem start_refines_witness : ∃ y : Startup Unit, y.start = .after ∧
    Run (Scheduler.step ⟨true, [()]⟩) anyStep (Scheduler.init [7]) y.abstract := by
  obtain ⟨y, hy, hst⟩ : ∃ y, runLabels (Startup.step (fun _ => 5) ⟨true, [()]⟩)
      (init (fun _ => 5) ⟨true, [()]⟩ [7] : Startup Unit) [.start true, .start true, .entry (),
        .entry (), .entry (), .start true, .start true, .start true, .other (.thread .caller),
        .entry ()] = some y ∧ y.start = .after :=
    ⟨_, rfl, rfl⟩
  exact ⟨y, hst, start_refines (by decide) (.of_allowed (by simp [Uninterrupted]) hy)⟩

end Startup

end CoKV.Scheduler
