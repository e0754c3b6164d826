import CoKV.Scheduler.FrameTheorems
import CoKV.Lib.Shares
import Mathlib.Algebra.Order.Ring.Int
import Mathlib.Data.List.Dedup

/-!
# Who is active

`active_balanced`: in every run, double takes or not, `m_activethreadcount` is the number of run
loops that have taken a task and are not yet back from it, and `stopping` is true only when there
are none and the queue is empty. The increment is in the critical section of `run`, and a decrement
in each of three branches; `ThreadMove` says that a step of a thread leaves the difference as it is.
-/

namespace CoKV.Scheduler

variable {W : Type}

/-! ## Where a run loop stands -/

/-- A run loop that stands here has taken a task: it is about to resume a coroutine for it or to
discard it, or is in `resuem`, behind which it decrements the counter. -/
def RunPc.isBusy : RunPc W → Bool
  | .dispatch _ isActive => isActive
  | .turn .idle _ => false
  | .turn _ .resume | .turn _ .swapIn | .turn _ .back => true
  | _ => false

def Pc.runPc : Pc W → Option (RunPc W)
  | .run _ p => some p
  | _ => none

/-- Where the run loop of a thread stands. While the thread is on the stack of a coroutine, or when
it has exited on one, that is in the context of `sched_co`. -/
def runLoop (cfg : Config W) (s : State W) (t : Thread W) : Option (RunPc W) :=
  match s.pc t with
  | .co .. | .exited => (s.co (schedCo cfg t)).mCtx.runPc
  | p => p.runPc

def isBusy (cfg : Config W) (s : State W) (t : Thread W) : Bool :=
  (runLoop cfg s t).any RunPc.isBusy

/-- What is to be known of the counter. -/
structure Balanced [DecidableEq W] (cfg : Config W) (s : State W) : Prop where
  count : s.activethreadcount = (cfg.threads.dedup.filter (isBusy cfg s)).length
  nonneg : 0 ≤ s.activethreadcount
  stopping : s.isStopping = true → s.tasks = [] ∧ ∀ t, isBusy cfg s t = false

/-- The part of the counter that a thread stands for. -/
def share (cfg : Config W) (s : State W) (t : Thread W) : ℤ := if isBusy cfg s t then 1 else 0

/-! ## The invariant -/

/-- Coroutines that run loops resume have their own contexts. -/
def AllSaved (co : Co W → Selfco (Pc W)) : Prop := ∀ t c, Co.Of t c → SavedCo c (co c)

/-- What holds of a thread: while it is on the stack of a coroutine, its run loop stands behind
`swapcontext`, and its idle coroutine is `TERM` only until the last `yield` writes `HOLD`. -/
structure Place (cfg : Config W) (s : State W) (t : Thread W) : Prop where
  pc : match s.pc t with
    | .caller p => t = .caller ∧ (p = .resume ∨ p = .swapIn → cfg.useCaller = true)
    | .run _ p => t ≠ .caller ∧ p ≠ .left ∧ ∀ task, p = .dispatch task false → task = .empty
    | .co c _ => t ≠ .caller ∧ c.Of t ∧
      ∃ cbCo x, (s.co (schedCo cfg t)).mCtx = .run cbCo (.turn x .back)
    | _ => True
  idle : (∀ y, s.pc t ≠ .co (.idle t) (.yield y)) → (s.co (.idle t)).mState ≠ .term

/-- The invariant. -/
structure Active [DecidableEq W] (cfg : Config W) (s : State W) : Prop where
  saved : AllSaved s.co
  place : ∀ t, Place cfg s t
  started : ∀ cbs, s.pc .caller = .caller (.start cbs) → ∀ w, s.pc (.worker w) = .notStarted
  threads : ∀ w, w ∉ cfg.workers → s.pc (.worker w) = .notStarted
  count : s.activethreadcount = (cfg.threads.dedup.map (share cfg s)).sum

section Shares

variable {cfg : Config W} {s : State W} {t : Thread W}

/-- A run loop's share depends on where it stands. -/
theorem share_of_runLoop {q : RunPc W} (h : runLoop cfg s t = some q) :
    share cfg s t = if q.isBusy then 1 else 0 := by
  unfold share isBusy
  rw [h]
  rfl

/-- The share of a thread in `run` itself. -/
theorem share_run {cbCo : Option ℕ} {p : RunPc W} (h : s.pc t = .run cbCo p) :
    share cfg s t = if p.isBusy then 1 else 0 := by
  apply share_of_runLoop
  unfold runLoop
  rw [h]
  rfl

/-- The run loop of a thread that is elsewhere has been saved. -/
theorem share_of_saved {cbCo : Option ℕ} {q : RunPc W}
    (hloop : runLoop cfg s t = (s.co (schedCo cfg t)).mCtx.runPc)
    (hctx : (s.co (schedCo cfg t)).mCtx = .run cbCo q) :
    share cfg s t = if q.isBusy then 1 else 0 := by
  apply share_of_runLoop
  rw [hloop, hctx]
  rfl

/-- The share of a thread in a coroutine that its loop has resumed. -/
theorem share_co {c : Co W} {p : CoPc} {cbCo : Option ℕ} {q : RunPc W} (h : s.pc t = .co c p)
    (hctx : (s.co (schedCo cfg t)).mCtx = .run cbCo q) :
    share cfg s t = if q.isBusy then 1 else 0 := by
  refine share_of_saved ?_ hctx
  unfold runLoop
  rw [h]

/-- The share of a thread that has left from a coroutine. -/
theorem share_exited {cbCo : Option ℕ} {q : RunPc W} (h : s.pc t = .exited)
    (hctx : (s.co (schedCo cfg t)).mCtx = .run cbCo q) :
    share cfg s t = if q.isBusy then 1 else 0 := by
  refine share_of_saved ?_ hctx
  unfold runLoop
  rw [h]

/-- A thread that has not started has no share. -/
theorem share_notStarted (h : s.pc t = .notStarted) : share cfg s t = 0 := by
  unfold share isBusy runLoop
  rw [h]
  rfl

/-- The thread that calls `start` and `stop` has no share. -/
theorem share_caller {q : CallerPc W} (h : s.pc t = .caller q) : share cfg s t = 0 := by
  unfold share isBusy runLoop
  rw [h]
  rfl

/-- The share depends on the thread's place and the context of its loop only. -/
theorem share_congr {s' : State W} (hpc : s'.pc t = s.pc t)
    (hctx : (s'.co (schedCo cfg t)).mCtx = (s.co (schedCo cfg t)).mCtx) :
    share cfg s' t = share cfg s t := by
  unfold share isBusy runLoop
  rw [hpc, hctx]

/-- As a number of threads. -/
theorem sum_share (cfg : Config W) (s : State W) (l : List (Thread W)) :
    (l.map (share cfg s)).sum = (l.filter (isBusy cfg s)).length := by
  induction l with
  | nil => rfl
  | cons t l ih =>
    rw [List.map_cons, List.sum_cons, ih]
    unfold share
    cases hb : isBusy cfg s t with
    | false => simp [hb]
    | true =>
      rw [List.filter_cons_of_pos hb, List.length_cons]
      push_cast
      exact add_comm ..

end Shares

/-! ## The frame rule -/

section Frame

variable {cfg : Config W} {s s' : State W} {t : Thread W}

/-- What a step of `t` may do to the coroutines: it leaves what other threads' run loops have saved,
and other threads' idle coroutines. -/
structure Touches (cfg : Config W) (t : Thread W) (co co' : Co W → Selfco (Pc W)) : Prop where
  sched : ∀ t', t' ≠ t → co' (schedCo cfg t') = co (schedCo cfg t')
  idle : ∀ t', t' ≠ t → co' (.idle t') = co (.idle t')
  saved : AllSaved co → AllSaved co'

/-- A step that touches no coroutine. -/
theorem Touches.refl (cfg : Config W) (t : Thread W) (co : Co W → Selfco (Pc W)) :
    Touches cfg t co co := ⟨fun _ _ => rfl, fun _ _ => rfl, id⟩

/-- A thread that does not move. -/
theorem Place.other {t' : Thread W} (h : Place cfg s t') (hpc : s'.pc t' = s.pc t')
    (hsched : s'.co (schedCo cfg t') = s.co (schedCo cfg t'))
    (hidle : s'.co (.idle t') = s.co (.idle t')) : Place cfg s' t' := by
  refine ⟨?_, ?_⟩
  · rw [hpc, hsched]
    exact h.pc
  · rw [hpc, hidle]
    exact h.idle

/-- The calling thread resumes a coroutine in `stop` only, and only with `use_caller`. -/
theorem Place.caller {q : CallerPc W} (hpc : s.pc .caller = .caller q)
    (huse : q = .resume ∨ q = .swapIn → cfg.useCaller = true)
    (hidle : (s.co (.idle .caller)).mState ≠ .term) : Place cfg s .caller := by
  refine ⟨?_, fun _ => hidle⟩
  rw [hpc]
  exact ⟨rfl, huse⟩

end Frame

variable [DecidableEq W] {cfg : Config W} {s s' : State W} {t : Thread W}

/-- The invariant is what the balance needs. -/
theorem Active.balanced (h : Active cfg s) : Balanced cfg s := by
  have hcount := h.count
  rw [sum_share] at hcount
  refine ⟨hcount, by rw [hcount]; exact Int.natCast_nonneg _, fun hstopping => ?_⟩
  unfold State.isStopping at hstopping
  simp only [Bool.and_eq_true, List.isEmpty_iff, beq_iff_eq] at hstopping
  refine ⟨hstopping.1.2, fun t => ?_⟩
  have hnone : cfg.threads.dedup.filter (isBusy cfg s) = [] := by
    rw [hstopping.2] at hcount
    exact List.length_eq_zero_iff.mp (by omega)
  rw [← Bool.not_eq_true]
  intro hbusy
  by_cases ht : t ∈ cfg.threads
  · rw [List.filter_eq_nil_iff] at hnone
    exact hnone t (List.mem_dedup.mpr ht) hbusy
  · -- only the threads of the scheduler ever run
    cases t with
    | caller => exact ht (List.mem_cons_self ..)
    | worker w =>
      have hw : w ∉ cfg.workers := fun hw =>
        ht (List.mem_cons_of_mem _ (List.mem_map_of_mem hw))
      unfold isBusy runLoop at hbusy
      rw [h.threads w hw] at hbusy
      cases hbusy

/-- The invariant holds before `start`. -/
theorem Active.init (cfg : Config W) (cbs : List ℕ) : Active cfg (Scheduler.init cbs) where
  saved := (Inv.init cfg cbs).saved
  place t := by
    refine ⟨?_, fun _ => ?_⟩
    · cases t with
      | caller => exact ⟨rfl, by simp⟩
      | worker w => trivial
    · simp [Scheduler.init, freshCo]
  started := (Inv.init cfg cbs).started
  threads := (Inv.init cfg cbs).threads
  count := by
    rw [List.sum_eq_zero]
    · rfl
    · intro n hn
      obtain ⟨t, -, rfl⟩ := List.mem_map.mp hn
      cases t <;> rfl

/-- A coroutine of its own is written. -/
theorem Touches.off {co co' : Co W → Selfco (Pc W)} {d : Co W} (hd : d.Of t)
    (hne : ∀ c ≠ d, co' c = co c) (hx : SavedCo d (co d) → SavedCo d (co' d)) :
    Touches cfg t co co' where
  sched t' _ := hne _ (hd.ne_schedCo t').symm
  idle t' ht' := by
    apply hne
    rintro rfl
    exact ht' hd
  saved h t' c hc := by
    by_cases hcd : c = d
    · rw [hcd]
      exact hx (h t d hd)
    · rw [hne c hcd]
      exact h t' c hc

/-- A thread may touch the coroutines that it runs. -/
theorem Touches.own {co : Co W → Selfco (Pc W)} {d : Co W} {x : Selfco (Pc W)} (hd : d.Of t)
    (hx : SavedCo d (co d) → SavedCo d x) : Touches cfg t co (Function.update co d x) := by
  refine .off hd (fun c hc => Function.update_of_ne hc ..) ?_
  rwa [Function.update_self]

/-- What is written is no coroutine that run loops resume, but `sched_co` or `m_schedulerco`. -/
theorem Touches.root {co : Co W → Selfco (Pc W)} {d : Co W} {x : Selfco (Pc W)}
    (hof : ∀ t', ¬ d.Of t') (hne : ∀ t', t' ≠ t → schedCo cfg t' ≠ d) :
    Touches cfg t co (Function.update co d x) where
  sched t' ht' := Function.update_of_ne (hne t' ht') ..
  idle t' _ := by
    apply Function.update_of_ne
    rintro rfl
    exact hof t' rfl
  saved h t' c hc := by
    rw [Function.update_of_ne]
    · exact h t' c hc
    · rintro rfl
      exact hof t' hc

/-- A thread may touch the coroutine of its loop. -/
theorem Touches.sched_self {co : Co W → Selfco (Pc W)} {x : Selfco (Pc W)} :
    Touches cfg t co (Function.update co (schedCo cfg t) x) :=
  .root (fun _ hof => hof.ne_schedCo t rfl) fun _ ht' heq => ht' (schedCo_injective heq)

/-- A step of thread `t`. -/
structure ThreadMove (cfg : Config W) (s s' : State W) (t : Thread W) : Prop where
  other : ∀ t', t' ≠ t → s'.pc t' = s.pc t'
  co : Touches cfg t s.co s'.co
  place : Place cfg s' t
  running : s.pc t ≠ .notStarted
  notStart : ∀ cbs, s'.pc t ≠ .caller (.start cbs)
  count : s'.activethreadcount + share cfg s t = s.activethreadcount + share cfg s' t

/-- A step in which one thread moves, and pays for the change of its share, keeps the invariant. -/
theorem Active.move (hi : Active cfg s) (hm : ThreadMove cfg s s' t) : Active cfg s' := by
  have hplace : ∀ t', Place cfg s' t' := by
    intro t'
    by_cases ht : t' = t
    · rw [ht]
      exact hm.place
    · exact (hi.place t').other (hm.other t' ht) (hm.co.sched t' ht) (hm.co.idle t' ht)
  refine ⟨hm.co.saved hi.saved, hplace, ?_, ?_, ?_⟩
  · intro cbs hstart w
    by_cases hc : Thread.caller = t
    · rw [hc] at hstart
      exact absurd hstart (hm.notStart cbs)
    · rw [hm.other _ hc] at hstart
      have hw := hi.started cbs hstart w
      rw [hm.other, hw]
      rintro rfl
      exact hm.running hw
  · intro w hw
    have hns := hi.threads w hw
    rw [hm.other, hns]
    rintro rfl
    exact hm.running hns
  · have ht : t ∈ cfg.threads.dedup := by
      rw [List.mem_dedup]
      cases t with
      | caller => exact List.mem_cons_self ..
      | worker w =>
        refine List.mem_cons_of_mem _ (List.mem_map_of_mem ?_)
        by_contra hw
        exact hm.running (hi.threads w hw)
    have hsum : s.activethreadcount + (cfg.threads.dedup.map (share cfg s')).sum
        = s'.activethreadcount + (cfg.threads.dedup.map (share cfg s)).sum := by
      refine sum_of_share (List.nodup_dedup cfg.threads) ht (fun t' ht' => ?_) hm.count.symm
      exact share_congr (hm.other t' ht') (congrArg Selfco.mCtx (hm.co.sched t' ht'))
    have hcount := hi.count
    omega

/-! ## The run loop -/

/-- What holds of a thread in the loop of `run`. -/
theorem Active.at_run {cbCo : Option ℕ} {p : RunPc W} (hi : Active cfg s) (h : s.pc t = .run cbCo p) :
    t ≠ .caller ∧ p ≠ .left ∧ (∀ task, p = .dispatch task false → task = .empty) ∧
      (s.co (.idle t)).mState ≠ .term := by
  obtain ⟨hplace, hidle⟩ := hi.place t
  rw [h] at hplace hidle
  exact ⟨hplace.1, hplace.2.1, hplace.2.2, hidle (by simp)⟩

/-- `TERM` does not come from a change that does not write it. -/
theorem mState_ne_term {c d : Co W} {f : Selfco (Pc W) → Selfco (Pc W)}
    (h : (s.co c).mState ≠ .term) (hf : ∀ x, (f x).mState ≠ .term) :
    ((s.modifyCo d f).co c).mState ≠ .term := by
  by_cases hcd : c = d
  · rw [hcd, State.modifyCo_co_self]
    exact hf _
  · rwa [State.modifyCo_co_of_ne _ _ hcd]

/-- `TERM` does not come from `setState` with another state. -/
theorem setState_ne_term {c d : Co W} {st : CoState} (h : (s.co c).mState ≠ .term) (hst : st ≠ .term) :
    ((s.setState d st).co c).mState ≠ .term := mState_ne_term h fun _ => hst

/-- `TERM` does not come from a coroutine that is made anew. -/
theorem fresh_ne_term {c d : Co W} {cb : Option Callback} (h : (s.co c).mState ≠ .term) :
    ((s.modifyCo d fun _ => freshCo d cb).co c).mState ≠ .term := mState_ne_term h fun _ => by simp [freshCo]

/-- A thread stays in its run loop. -/
theorem ThreadMove.inRun {cbCo cbCo' : Option ℕ} {p q : RunPc W} (hi : Active cfg s)
    (hpc : s.pc t = .run cbCo p) (hpc' : s'.pc t = .run cbCo' q)
    (hother : ∀ t', t' ≠ t → s'.pc t' = s.pc t') (hco : Touches cfg t s.co s'.co)
    (hidle : (s'.co (.idle t)).mState ≠ .term) (hleft : q ≠ .left)
    (hempty : ∀ task, q = .dispatch task false → task = .empty)
    (hcount : s'.activethreadcount + (if p.isBusy then 1 else 0)
      = s.activethreadcount + if q.isBusy then 1 else 0) : ThreadMove cfg s s' t := by
  refine ⟨hother, hco, ⟨?_, fun _ => hidle⟩, ?_, ?_, ?_⟩
  · rw [hpc']
    exact ⟨(hi.at_run hpc).1, hleft, hempty⟩
  · rw [hpc]
    simp
  · rw [hpc']
    simp
  · rw [share_run hpc, share_run hpc']
    exact hcount

/-- A turn of a task is counted until the `--` behind `resuem`; a turn of `idle` is not. -/
theorem ThreadMove.turnStep {cbCo : Option ℕ} {x : Turn} {ph : Phase} (hi : Active cfg s)
    (hpc : s.pc t = .run cbCo (.turn x ph)) :
    ThreadMove cfg s (Scheduler.turnStep cfg s t cbCo x ph) t := by
  obtain ⟨hcaller, -, -, hidle⟩ := hi.at_run hpc
  have hother : ∀ t', t' ≠ t → (Scheduler.turnStep cfg s t cbCo x ph).pc t' = s.pc t' :=
    fun t' ht' => turnStep_pc ht' cbCo x ph
  cases ph with
  | resume =>
    refine .inRun hi hpc (State.setPc_pc_self ..) hother ?_ ?_ (by simp) (by simp) (by cases x <;> rfl)
    · exact .own (Turn.of t x) fun h => h.setState _
    · show ((s.setState (x.co t) .exec).co (.idle t)).mState ≠ .term
      exact setState_ne_term hidle (by simp)
  | swapIn =>
    -- the loop is left for the stack of the coroutine, and stands in the context of `sched_co`
    have hne : x.co t ≠ schedCo cfg t := (Turn.of t x).ne_schedCo t
    obtain ⟨p, hp, -⟩ := (hi.saved t _ (Turn.of t x)).ctx
    have hpc' : (Scheduler.turnStep cfg s t cbCo x .swapIn).pc t = .co (x.co t) p := by
      rw [Scheduler.turnStep, State.swapcontext_pc _ _ _ hne, Function.update_self, hp]
    have hctx : ((Scheduler.turnStep cfg s t cbCo x .swapIn).co (schedCo cfg t)).mCtx
        = .run cbCo (.turn x .back) := by
      rw [Scheduler.turnStep, State.swapcontext_co_self]
    have hof : (Co.idle t).Of t := rfl
    refine ⟨hother, .sched_self, ⟨?_, fun _ => ?_⟩, ?_, ?_, ?_⟩
    · rw [hpc']
      exact ⟨hcaller, Turn.of t x, cbCo, x, hctx⟩
    · rw [Scheduler.turnStep, State.swapcontext_co_of_ne _ _ _ _ (hof.ne_schedCo t)]
      exact hidle
    · rw [hpc]
      simp
    · rw [hpc']
      simp
    · rw [share_run hpc, share_co hpc' hctx]
      cases x <;> rfl
  | back =>
    have hback : (Scheduler.turnStep cfg s t cbCo x .back).co = s.co := by cases x <;> rfl
    have hpc' : (Scheduler.turnStep cfg s t cbCo x .back).pc t = .run cbCo (.turn x .check) := by
      cases x <;> exact State.setPc_pc_self ..
    refine .inRun hi hpc hpc' hother ?_ ?_ (by simp) (by simp) ?_
    · rw [hback]
      exact .refl ..
    · rwa [hback]
    · cases x with
      | idle => rfl
      | _ =>
        show s.activethreadcount - 1 + 1 = s.activethreadcount + 0
        omega
  | check =>
    -- nothing is written but the coroutine of the turn
    have hgo : ∀ (s' : State W) cbCo' q, q = .scan ∨ q = .turn x .setHold →
        s'.activethreadcount = s.activethreadcount → (∀ t', t' ≠ t → s'.pc t' = s.pc t') →
        Touches cfg t s.co s'.co → (s'.co (.idle t)).mState ≠ .term →
        ThreadMove cfg s (s'.setPc t (.run cbCo' q)) t := by
      intro s' cbCo' q hq hactive hother hco hidle'
      refine .inRun hi hpc (State.setPc_pc_self ..) ?_ hco hidle' ?_ ?_ ?_
      · exact fun t' ht' => (update_pc_of_ne _ ht').trans (hother t' ht')
      · rcases hq with rfl | rfl <;> simp
      · rcases hq with rfl | rfl <;> simp
      · show s'.activethreadcount + _ = _
        rw [hactive]
        rcases hq with rfl | rfl <;> cases x <;> rfl
    have hadd : ∀ (task : Task W) cbCo',
        ThreadMove cfg s ((s.addTask task).setPc t (.run cbCo' .scan)) t := by
      intro task cbCo'
      refine hgo _ cbCo' _ (Or.inl rfl) (State.addTask_activethreadcount ..) ?_ ?_ ?_
      · exact fun t' _ => congrFun (State.addTask_pc ..) t'
      · rw [State.addTask_co]
        exact .refl ..
      · rwa [State.addTask_co]
    have hkeep : ∀ cbCo' q, q = .scan ∨ q = .turn x .setHold →
        ThreadMove cfg s (s.setPc t (.run cbCo' q)) t :=
      fun cbCo' q hq => hgo s cbCo' q hq rfl (fun _ _ => rfl) (.refl ..) hidle
    unfold Scheduler.turnStep
    dsimp only
    split
    case h_1 => exact hadd ..
    case h_2 => exact hadd ..
    case h_3 c _ =>
      refine hgo (s.modifyCo (.made c) fun _ => freshCo (.made c) none) cbCo .scan (Or.inl rfl) rfl
        (fun _ _ => rfl) (.own trivial fun _ => SavedCo.fresh (by simp)) ?_
      exact fresh_ne_term hidle
    case h_4 => exact hkeep _ _ (Or.inl rfl)
    case h_5 => exact hkeep _ _ (Or.inr rfl)
  | setHold =>
    cases x with
    | callback c =>
      refine .inRun hi hpc (State.setPc_pc_self ..) hother ?_ ?_ (by simp) (by simp) rfl
      · exact .own trivial fun h => h.setState _
      · show ((s.setState (.made c) .hold).co (.idle t)).mState ≠ .term
        exact setState_ne_term hidle (by simp)
    | _ =>
      refine .inRun hi hpc (State.setPc_pc_self ..) hother ?_ ?_ (by simp) (by simp) rfl
      · exact .own (Turn.of t _) fun h => h.setState _
      · show ((s.setState (Turn.co t _) .hold).co (.idle t)).mState ≠ .term
        exact setState_ne_term hidle (by simp)

/-- Behind the critical section. -/
theorem ThreadMove.dispatch {cbCo : Option ℕ} {task : Task W} {isActive : Bool} (hi : Active cfg s)
    (hpc : s.pc t = .run cbCo (.dispatch task isActive)) :
    ThreadMove cfg s (Scheduler.dispatch s t cbCo task isActive) t := by
  obtain ⟨-, -, hempty, hidle⟩ := hi.at_run hpc
  have hother : ∀ t', t' ≠ t → (runStep cfg s t cbCo (.dispatch task isActive)).pc t' = s.pc t' :=
    fun t' ht' => runStep_pc ht' cbCo _
  cases isActive with
  | false =>
    -- without a task the loop goes to its idle coroutine, which is never found `TERM` here
    obtain rfl := hempty task rfl
    have hdispatch : Scheduler.dispatch s t cbCo .empty false
        = { s with idlethreadcount := s.idlethreadcount + 1 }.setPc t
          (.run cbCo (.turn .idle .resume)) := by
      show (if (s.co (.idle t)).mState = .term then _ else _) = _
      rw [if_neg hidle]
    rw [hdispatch]
    exact .inRun hi hpc (State.setPc_pc_self ..) (fun t' ht' => update_pc_of_ne _ ht') (.refl ..)
      hidle (by simp) (by simp) rfl
  | true =>
    revert hother
    show (∀ t', t' ≠ t → (Scheduler.dispatch s t cbCo task true).pc t' = s.pc t') → _
    unfold Scheduler.dispatch
    intro hother
    split at hother
    · exact .inRun hi hpc (State.setPc_pc_self ..) hother (.refl ..) hidle (by simp) (by simp) rfl
    · split at hother
      case h_1 f c _ _ =>
        refine .inRun hi hpc (State.setPc_pc_self ..) hother ?_ ?_ (by simp) (by simp) rfl
        · exact .own trivial fun _ => SavedCo.fresh (by simp)
        · exact fresh_ne_term hidle
      case h_2 f _ _ =>
        refine .inRun hi hpc (State.setPc_pc_self ..) hother ?_ ?_ (by simp) (by simp) rfl
        · exact .own trivial fun _ => SavedCo.fresh (by simp)
        · exact fresh_ne_term hidle
      case h_3 =>
        refine .inRun hi hpc (State.setPc_pc_self ..) hother (.refl ..) hidle (by simp) (by simp) ?_
        show s.activethreadcount - 1 + 1 = s.activethreadcount + 0
        omega

/-- The critical section. -/
theorem ThreadMove.scan {cbCo : Option ℕ} (hi : Active cfg s) (hpc : s.pc t = .run cbCo .scan) :
    ThreadMove cfg s (runStep cfg s t cbCo .scan) t := by
  obtain ⟨-, -, -, hidle⟩ := hi.at_run hpc
  have hother : ∀ t', t' ≠ t → (runStep cfg s t cbCo .scan).pc t' = s.pc t' :=
    fun t' ht' => runStep_pc ht' cbCo _
  unfold runStep at hother ⊢
  dsimp only at hother ⊢
  cases hfind : s.tasks.find? (eligible s t) with
  | none =>
    rw [hfind] at hother
    refine .inRun hi hpc (State.setPc_pc_self ..) hother (.refl ..) hidle (by simp) ?_ rfl
    intro task htask
    cases htask
    rfl
  | some task =>
    rw [hfind] at hother
    refine .inRun hi hpc (State.setPc_pc_self ..) hother (.refl ..) hidle (by simp) (by simp) ?_
    show s.activethreadcount + 1 + 0 = s.activethreadcount + 1
    omega

/-- All steps of `run` pay for their share. -/
theorem ThreadMove.runStep {cbCo : Option ℕ} {p : RunPc W} (hi : Active cfg s)
    (hpc : s.pc t = .run cbCo p) : ThreadMove cfg s (Scheduler.runStep cfg s t cbCo p) t := by
  cases p with
  | scan => exact .scan hi hpc
  | dispatch task isActive => exact .dispatch hi hpc
  | turn x ph => exact .turnStep hi hpc
  | left => exact absurd rfl (hi.at_run hpc).2.1

/-! ## The stack of a coroutine -/

/-- A thread in a coroutine has its run loop waiting behind `swapcontext`. -/
theorem Active.at_co {c : Co W} {p : CoPc} (hi : Active cfg s) (h : s.pc t = .co c p) :
    t ≠ .caller ∧ c.Of t ∧ ∃ cbCo x, (s.co (schedCo cfg t)).mCtx = .run cbCo (.turn x .back) := by
  have hplace := (hi.place t).pc
  rw [h] at hplace
  exact hplace

/-- An idle coroutine is not left `TERM`. -/
theorem Active.idle_ne_term {c : Co W} {p : CoPc} (hi : Active cfg s) (h : s.pc t = .co c p)
    (hp : ∀ y, p ≠ .yield y) : (s.co (.idle t)).mState ≠ .term := by
  apply (hi.place t).idle
  intro y hy
  rw [h] at hy
  cases hy
  exact hp y rfl

/-- A thread stays on the stack of its coroutine. -/
theorem ThreadMove.onStack {c : Co W} {p q : CoPc} (hi : Active cfg s) (hpc : s.pc t = .co c p)
    (hpc' : s'.pc t = .co c q) (hother : ∀ t', t' ≠ t → s'.pc t' = s.pc t')
    (hne : ∀ d ≠ c, s'.co d = s.co d) (hsaved : SavedCo c (s.co c) → SavedCo c (s'.co c))
    (hidle : c = .idle t → (s'.co c).mState ≠ .term ∨ ∃ y, q = .yield y)
    (hactive : s'.activethreadcount = s.activethreadcount) : ThreadMove cfg s s' t := by
  obtain ⟨hcaller, hof, cbCo, x, hctx⟩ := hi.at_co hpc
  have hctx' : (s'.co (schedCo cfg t)).mCtx = .run cbCo (.turn x .back) := by
    rw [hne _ (hof.ne_schedCo t).symm, hctx]
  refine ⟨hother, .off hof hne hsaved, ⟨?_, fun hy => ?_⟩, ?_, ?_, ?_⟩
  · rw [hpc']
    exact ⟨hcaller, hof, cbCo, x, hctx'⟩
  · by_cases hc : c = .idle t
    · rcases hidle hc with hterm | ⟨y, rfl⟩
      · rwa [hc] at hterm
      · rw [hpc', hc] at hy
        exact absurd rfl (hy y)
    · rw [hne _ (Ne.symm hc)]
      apply (hi.place t).idle
      intro y hy
      rw [hpc] at hy
      cases hy
      exact hc rfl
  · rw [hpc]
    simp
  · rw [hpc']
    simp
  · rw [hactive, share_co hpc hctx, share_co hpc' hctx']

/-- `yield` goes back to the run loop. -/
theorem ThreadMove.swapOut {c : Co W} {y : YieldOf} (hi : Active cfg s)
    (hpc : s.pc t = .co c (.swapOut y)) :
    ThreadMove cfg s (s.swapcontext t (.co c y.cont) c (schedCo cfg t)) t := by
  obtain ⟨hcaller, hof, cbCo, x, hctx⟩ := hi.at_co hpc
  have hpc' : (s.swapcontext t (.co c y.cont) c (schedCo cfg t)).pc t = .run cbCo (.turn x .back) := by
    rw [State.swapcontext_pc _ _ _ (hof.ne_schedCo t).symm, Function.update_self, hctx]
  refine ⟨fun t' ht' => update_pc_of_ne _ ht', ?_, ⟨?_, fun _ => ?_⟩, ?_, ?_, ?_⟩
  · exact .own hof fun h => ⟨h.cb, y.cont, rfl, y.saved_cont⟩
  · rw [hpc']
    exact ⟨hcaller, by simp, by simp⟩
  · have hidle := hi.idle_ne_term hpc (by simp)
    by_cases hc : .idle t = c
    · rw [hc, State.swapcontext_co_self]
      rwa [hc] at hidle
    · rwa [State.swapcontext_co_of_ne _ _ _ _ hc]
  · rw [hpc]
    simp
  · rw [hpc']
    simp
  · rw [share_co hpc hctx, share_run hpc']
    rfl

/-- `MainFunc` returns, and its thread exits without coming back to the run loop. -/
theorem ThreadMove.fallOff {c : Co W} {b : Bool} (hi : Active cfg s)
    (hpc : s.pc t = .co c (.fallOff b)) : ThreadMove cfg s (s.setPc t .exited) t := by
  obtain ⟨hcaller, hof, cbCo, x, hctx⟩ := hi.at_co hpc
  have hpc' : (s.setPc t .exited).pc t = .exited := State.setPc_pc_self ..
  refine ⟨fun t' ht' => update_pc_of_ne _ ht', .refl .., ⟨?_, fun _ => ?_⟩, ?_, ?_, ?_⟩
  · rw [hpc']
    trivial
  · exact hi.idle_ne_term hpc (by simp)
  · rw [hpc]
    simp
  · rw [hpc']
    simp
  · rw [share_co hpc hctx, share_exited hpc' hctx]
    rfl

/-- In `MainFunc` and `yield` the share stays. -/
theorem ThreadMove.coStep {c : Co W} {p : CoPc} (hi : Active cfg s) (hpc : s.pc t = .co c p)
    (hs : Scheduler.coStep cfg s t c p = some s') : ThreadMove cfg s s' t := by
  obtain ⟨-, hof, -⟩ := hi.at_co hpc
  have hsaved := hi.saved t c hof
  have hother : ∀ t', t' ≠ t → s'.pc t' = s.pc t' := (coStep_frame hs).pc
  have hne : ∀ d ≠ c, s'.co d = s.co d := (coStep_frame hs).co
  have hkeep : (∀ y, p ≠ .yield y) → c = .idle t → (s.co c).mState ≠ .term := by
    rintro hp rfl
    exact hi.idle_ne_term hpc hp
  cases p with
  | entry =>
    unfold Scheduler.coStep at hs
    dsimp only at hs
    split at hs
    case h_1 =>
      rw [← Option.some.inj hs] at hother hne ⊢
      exact .onStack hi hpc (State.setPc_pc_self ..) hother hne id (fun _ => Or.inr ⟨_, rfl⟩) rfl
    case h_2 hrun => exact absurd hrun hsaved.cb
    case h_3 =>
      rw [← Option.some.inj hs] at hother hne ⊢
      exact .onStack hi hpc (State.setPc_pc_self ..) hother hne id
        (fun hc => Or.inl (hkeep (by simp) hc)) rfl
  | body =>
    unfold Scheduler.coStep at hs
    dsimp only at hs
    split at hs
    · rw [← Option.some.inj hs] at hother hne ⊢
      exact .onStack hi hpc (State.setPc_pc_self ..) hother hne id
        (fun hc => Or.inl (hkeep (by simp) hc)) rfl
    · cases hs
  | returned =>
    unfold Scheduler.coStep at hs
    dsimp only at hs
    split at hs <;> rw [← Option.some.inj hs] at hother hne ⊢
    all_goals
      refine .onStack hi hpc (State.setPc_pc_self ..) hother hne ?_ (fun _ => Or.inr ⟨_, rfl⟩) rfl
      intro h
      rw [State.setPc_co, State.modifyCo_co_self]
      exact ⟨by simp, h.ctx⟩
  | yieldtohold =>
    rw [← Option.some.inj hs] at hother hne ⊢
    refine .onStack hi hpc (State.setPc_pc_self ..) hother hne ?_ (fun _ => Or.inr ⟨_, rfl⟩) rfl
    rw [State.setPc_co, State.setState_co_self]
    exact fun h => h.setState _
  | yield y =>
    rw [← Option.some.inj hs] at hother hne ⊢
    refine .onStack hi hpc (State.setPc_pc_self ..) hother hne ?_ (fun _ => Or.inl ?_) rfl
    all_goals rw [State.setPc_co, State.setState_co_self]
    · exact fun h => h.setState _
    · simp
  | swapOut y =>
    rw [← Option.some.inj hs]
    exact .swapOut hi hpc
  | fallOff b =>
    rw [← Option.some.inj hs]
    exact .fallOff hi hpc

/-- In the functions of the coroutines it stays, too. -/
theorem ThreadMove.bodyStep {c : Co W} {a : Act} (hi : Active cfg s) (hpc : s.pc t = .co c .body)
    (hs : Scheduler.bodyStep s t c a = some s') : ThreadMove cfg s s' t := by
  obtain ⟨hco, hother, -, hactive⟩ := bodyStep_frame hs
  -- the callback goes on, waits, or returns
  obtain ⟨q, hpc'⟩ : ∃ q, s'.pc t = .co c q := by
    unfold Scheduler.bodyStep at hs
    split at hs
    case h_1 | h_2 =>
      split at hs <;> cases hs
      exact ⟨_, hpc⟩
    case h_3 | h_4 =>
      cases hs
      exact ⟨_, State.setPc_pc_self ..⟩
    case h_5 =>
      split at hs <;> cases hs
      exact ⟨_, State.setPc_pc_self ..⟩
  refine .onStack hi hpc hpc' hother (fun d _ => congrFun hco d) ?_ ?_ hactive
  · rw [hco]
    exact id
  · rintro rfl
    rw [hco]
    exact Or.inl (hi.idle_ne_term hpc (by simp))

/-! ## The owner's thread -/

/-- Only the calling thread is in `start` and `stop`. -/
theorem Active.at_caller {q : CallerPc W} (hi : Active cfg s) (h : s.pc t = .caller q) :
    t = .caller ∧ (q = .resume ∨ q = .swapIn → cfg.useCaller = true) := by
  have hplace := (hi.place t).pc
  rwa [h] at hplace

/-- What the code of `start` and `stop` does to its own thread. -/
theorem callerStep_self {q : CallerPc W} (huse : q = .resume ∨ q = .swapIn → cfg.useCaller = true)
    (hs : callerStep cfg s q = some s') : ∃ q', s'.pc .caller = .caller q' ∧
      (q' = .resume ∨ q' = .swapIn → cfg.useCaller = true) ∧ ∀ cbs, q' ≠ .start cbs := by
  unfold callerStep at hs
  split at hs
  · rw [← Option.some.inj hs]
    exact ⟨_, State.setPc_pc_self .., by simp, by simp⟩
  · rw [← Option.some.inj hs]
    exact ⟨_, State.setPc_pc_self .., by simp, by simp⟩
  · rw [← Option.some.inj hs]
    exact ⟨_, State.setPc_pc_self .., by simp, by simp⟩
  · dsimp only at hs
    split at hs <;> rw [← Option.some.inj hs] <;>
      exact ⟨_, State.setPc_pc_self .., by simp, by simp⟩
  · rw [← Option.some.inj hs]
    refine ⟨_, State.setPc_pc_self .., ?_, ?_⟩
    · split
      · exact fun _ => ‹_›
      · simp
    · intro cbs
      split <;> simp
  · rw [← Option.some.inj hs]
    exact ⟨_, State.setPc_pc_self .., fun _ => huse (Or.inl rfl), by simp⟩
  · rw [← Option.some.inj hs]
    have hsched : schedCo cfg .caller = .schedulerco := by
      rw [schedCo, if_pos (huse (Or.inr rfl))]
    -- the context loaded is the one just saved
    refine ⟨.join cfg.workers, ?_, by simp, by simp⟩
    rw [hsched, State.swapcontext_pc_self, Function.update_self]
  · rw [← Option.some.inj hs]
    exact ⟨_, State.setPc_pc_self .., by simp, by simp⟩
  · split at hs
    · rw [← Option.some.inj hs]
      exact ⟨_, State.setPc_pc_self .., by simp, by simp⟩
    · cases hs
  · cases hs

/-- `m_schedulerco` and the context of the owner's thread are resumed by no run loop. -/
theorem Touches.caller {q : CallerPc W} (hs : callerStep cfg s q = some s') :
    Touches cfg .caller s.co s'.co where
  sched t' ht' := by
    apply (callerStep_frame hs).co
    · exact fun heq => ht' (schedCo_injective heq)
    · cases t' with
      | caller => exact absurd rfl ht'
      | worker w => simp [schedCo]
  idle t' _ := by
    have hof : (Co.idle t').Of t' := rfl
    exact (callerStep_frame hs).co _ (hof.ne_schedCo _) (by simp)
  saved h t' c hc := by
    rw [(callerStep_frame hs).co c (hc.ne_schedCo _) (by rintro rfl; exact hc)]
    exact h t' c hc

/-- `idle` of the calling thread never terminates, since no thread runs it. -/
theorem Active.caller_idle {q q' : CallerPc W} (hi : Active cfg s) (h : s.pc .caller = .caller q)
    (hs : callerStep cfg s q' = some s') : (s'.co (.idle .caller)).mState ≠ .term := by
  have hof : (Co.idle (W := W) .caller).Of .caller := rfl
  rw [(callerStep_frame hs).co _ (hof.ne_schedCo _) (by simp)]
  apply (hi.place .caller).idle
  rw [h]
  simp

/-- `addTask` and `stop` keep the invariant. -/
theorem Active.callerStep {q : CallerPc W} (hi : Active cfg s) (h : s.pc .caller = .caller q)
    (hq : ∀ cbs, q ≠ .start cbs) (hs : Scheduler.callerStep cfg s q = some s') : Active cfg s' := by
  obtain ⟨-, huse⟩ := hi.at_caller h
  obtain ⟨q', hpc', huse', hstart⟩ := callerStep_self huse hs
  apply hi.move (t := .caller)
  constructor
  case other => exact (callerStep_frame hs).pc hq
  case co => exact .caller hs
  case place => exact .caller hpc' huse' (hi.caller_idle h hs)
  case running =>
    rw [h]
    simp
  case notStart =>
    intro cbs hcbs
    rw [hpc'] at hcbs
    exact hstart cbs (Pc.caller.inj hcbs)
  case count => rw [(callerStep_frame hs).active, share_caller h, share_caller hpc']

/-- `start`: the workers are at the top of their loops. -/
theorem Active.start {cbs : List ℕ} (hi : Active cfg s) (h : s.pc .caller = .caller (.start cbs))
    (hs : Scheduler.callerStep cfg s (.start cbs) = some s') : Active cfg s' := by
  obtain ⟨q', hpc', huse', hstart⟩ := callerStep_self (by simp) hs
  have hworker : ∀ w, s'.pc (.worker w) = .notStarted ∨
      w ∈ cfg.workers ∧ s'.pc (.worker w) = .run none .scan := by
    intro w
    have hns := hi.started cbs h w
    rw [← Option.some.inj hs]
    split
    · by_cases hw : w ∈ cfg.workers
      · exact Or.inr ⟨hw, if_pos hw⟩
      · exact Or.inl ((if_neg hw).trans hns)
    · exact Or.inl hns
  have hco : s'.co = s.co := by
    rw [← Option.some.inj hs]
    split <;> rfl
  constructor
  case saved =>
    rw [hco]
    exact hi.saved
  case place =>
    intro t
    cases t with
    | caller => exact .caller hpc' huse' (hi.caller_idle h hs)
    | worker w =>
      refine ⟨?_, fun _ => ?_⟩
      · rcases hworker w with hns | ⟨-, hrun⟩
        · rw [hns]
          trivial
        · rw [hrun]
          exact ⟨by simp, by simp, by simp⟩
      · rw [hco]
        apply (hi.place (.worker w)).idle
        rw [hi.started cbs h w]
        simp
  case started =>
    intro cbs' hcbs'
    rw [hpc'] at hcbs'
    exact absurd (Pc.caller.inj hcbs') (hstart cbs')
  case threads =>
    intro w hw
    rcases hworker w with hns | ⟨hmem, -⟩
    · exact hns
    · exact absurd hmem hw
  case count =>
    -- nobody has taken a task, before and after
    rw [(callerStep_frame hs).active, hi.count]
    refine (sum_congr fun t _ => ?_).symm
    cases t with
    | caller => rw [share_caller h, share_caller hpc']
    | worker w =>
      have hns : share cfg s (.worker w) = 0 := share_notStarted (hi.started cbs h w)
      rcases hworker w with hns' | ⟨-, hrun⟩
      · rw [hns, share_notStarted hns']
      · rw [hns, share_run hrun]
        rfl

/-! ## Every step -/

/-- What the rest of the program does moves no thread. -/
theorem Active.env (hi : Active cfg s) (hpc : s'.pc = s.pc)
    (hactive : s'.activethreadcount = s.activethreadcount) {k : ℕ}
    (hne : ∀ c ≠ .made k, s'.co c = s.co c) (hsaved : SavedCo (.made k) (s'.co (.made k))) :
    Active cfg s' := by
  have hsched : ∀ t, s'.co (schedCo cfg t) = s.co (schedCo cfg t) := by
    intro t
    have hof : (Co.made k).Of t := trivial
    exact hne _ (hof.ne_schedCo t).symm
  constructor
  case saved =>
    intro t c hc
    by_cases hk : c = .made k
    · rwa [hk]
    · rw [hne c hk]
      exact hi.saved t c hc
  case place => exact fun t => (hi.place t).other (congrFun hpc t) (hsched t) (hne _ (by simp))
  case started =>
    rw [hpc]
    exact hi.started
  case threads =>
    rw [hpc]
    exact hi.threads
  case count =>
    rw [hactive, hi.count]
    refine (sum_congr fun t _ => ?_).symm
    exact share_congr (congrFun hpc t) (congrArg Selfco.mCtx (hsched t))

/-- Every step keeps the invariant. -/
theorem Active.step {l : Label W} (hi : Active cfg s) (hs : Scheduler.step cfg s l = some s') :
    Active cfg s' := by
  cases l with
  | thread t =>
    dsimp only [Scheduler.step] at hs
    split at hs
    case h_1 q hpc =>
      obtain rfl := (hi.at_caller hpc).1
      by_cases hq : ∃ cbs, q = .start cbs
      · obtain ⟨cbs, rfl⟩ := hq
        exact hi.start hpc hs
      · exact hi.callerStep hpc (fun cbs hcbs => hq ⟨cbs, hcbs⟩) hs
    case h_2 cbCo p hpc =>
      rw [← Option.some.inj hs]
      exact hi.move (.runStep hi hpc)
    case h_3 c p hpc => exact hi.move (.coStep hi hpc hs)
    case h_4 => cases hs
  | body t a =>
    dsimp only [Scheduler.step] at hs
    split at hs
    case h_1 c hpc => exact hi.move (.bodyStep hi hpc hs)
    case h_2 => cases hs
  | addTask task =>
    dsimp only [Scheduler.step] at hs
    split at hs
    · rw [← Option.some.inj hs]
      refine hi.env (k := 0) (State.addTask_pc ..) (State.addTask_activethreadcount ..) ?_ ?_
      · intro c _
        rw [State.addTask_co]
      · rw [State.addTask_co]
        exact hi.saved .caller _ trivial
    · cases hs
  | create cb st =>
    rw [← Option.some.inj hs]
    refine hi.env (k := s.nextCo) rfl rfl ?_ ?_
    · intro c hc
      rw [State.setState_co_of_ne _ _ hc, State.newCo_co_of_ne _ hc]
    · rw [State.setState_co_self, State.newCo_co_self]
      exact (SavedCo.fresh (by cases cb <;> simp)).setState st
  | reset c cb =>
    dsimp only [Scheduler.step] at hs
    split at hs
    · rw [← Option.some.inj hs]
      refine hi.env (k := c) rfl rfl (fun d hd => State.modifyCo_co_of_ne _ _ hd) ?_
      rw [State.modifyCo_co_self]
      exact SavedCo.fresh (by cases cb <;> simp)
    · cases hs

/-- In every run, whatever the tasks are and however the steps of the threads are interleaved, the
counter is that of the run loops with a task in hand, and `stopping` is true only without any. -/
theorem active_balanced (cfg : Config W) (cbs : List ℕ) (s : State W)
    (h : Run (step cfg) anyStep (init cbs) s) : Balanced cfg s :=
  (h.invariant (Active.init cfg cbs) fun _ _ _ hi _ hs => hi.step hs).balanced

/-- A worker has taken a callback and is on the stack of its coroutine. -/
theorem active_balanced_witness : ∃ s, Run (step ⟨false, [()]⟩) anyStep (init [7]) s ∧
    s.activethreadcount = 1 ∧ Balanced ⟨false, [()]⟩ s := by
  have hrun : (runLabels (step ⟨false, [()]⟩) (init [7])
      (List.replicate 2 (.thread .caller) ++ List.replicate 4 (.thread (.worker ())))).map
      State.activethreadcount = some 1 := rfl
  obtain ⟨s, hs, hcount⟩ := Option.map_eq_some_iff.mp hrun
  exact ⟨s, .of_labels hs, hcount, active_balanced _ _ s (.of_labels hs)⟩

end CoKV.Scheduler
