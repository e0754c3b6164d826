import CoKV.Scheduler.Accounts

/-!
# What has been executed when `stop` returns

`stop_executes`: a scheduler that has a worker, or that does not use its owner's thread, has
executed each added callback exactly once when `stop` returns. The owner's thread executes none:
`resuem` saves into the context of `sched_co`, which on that thread is `m_schedulerco` itself, so
that `swapcontext` loads what it has just saved and `run` is never entered. With `use_caller` and a
thread count of one there is no other thread, and `stop_misses` is a run of that kind.
-/

namespace CoKV.Scheduler

/-- The constructor: with `use_caller` one thread less is created. -/
def construct (threadcount : ℕ) (useCaller : Bool) : Config ℕ :=
  ⟨useCaller, List.range (if useCaller then threadcount - 1 else threadcount)⟩

variable {W : Type}

/-- The invariant of the runs in which callbacks only return. -/
structure Accounts (cfg : Config W) (cbs : List ℕ) (s : State W) : Prop where
  inv : Inv cfg s
  caller : ∃ q, s.pc .caller = .caller q
  tasks : ∀ task ∈ s.tasks, task.selfco = none
  plain : ∀ w, (s.pc (.worker w)).Plain cfg s (.worker w)
  idle : ∀ w, IdleAt s (.worker w)
  adding : ∀ l, s.pc .caller = .caller (.start l) ∨ s.pc .caller = .caller (.add l) →
    s.autostop = false
  joined : ∀ rest, s.pc .caller = .caller (.join rest) ∨
    rest = [] ∧ s.pc .caller = .caller .returned →
    ∀ w ∈ cfg.workers, w ∉ rest → s.pc (.worker w) = .exited
  total : pending s + queued s + s.executed + (cfg.workers.map fun w => held s (.worker w)).sum
    = cbs

theorem Accounts.init (cfg : Config W) (cbs : List ℕ) : Accounts cfg cbs (Scheduler.init cbs) where
  inv := Inv.init cfg cbs
  caller := ⟨_, rfl⟩
  tasks task h := by cases h
  plain w := trivial
  idle w := ⟨fun _ _ => rfl, fun b h => (by cases h), rfl⟩
  adding l _ := rfl
  joined rest h := by
    rcases h with h | ⟨-, h⟩ <;> cases h
  total := by
    have hsum : (cfg.workers.map fun w => held (Scheduler.init cbs) (.worker w)).sum = 0 := by
      apply List.sum_eq_zero
      intro m hm
      obtain ⟨w, -, rfl⟩ := List.mem_map.mp hm
      rfl
    rw [hsum]
    show (cbs : Multiset ℕ) + 0 + 0 + 0 = cbs
    simp only [add_zero]

/-! ## Every step keeps the account -/

section Steps

variable {cfg : Config W} {cbs : List ℕ} {s s' : State W}

/-- A worker that thread `t` leaves where it is, or starts. -/
theorem Accounts.other {t : Thread W} {w : W} (ha : Accounts cfg cbs s) (hne : .worker w ≠ t)
    (hco : ∀ c, c ≠ schedCo cfg t → c ≠ .schedulerco → (s.pc t).inHand t ≠ some c →
      c ≠ .made s.nextCo → s'.co c = s.co c)
    (hpc : s'.pc (.worker w) = s.pc (.worker w) ∨
      s.pc (.worker w) = .notStarted ∧ s'.pc (.worker w) = .run none .scan)
    (hdrained : Drained s → Drained s') :
    (s'.pc (.worker w)).Plain cfg s' (.worker w) ∧ IdleAt s' (.worker w) ∧
      held s' (.worker w) = held s (.worker w) := by
  -- nobody else writes what the worker has in hand, or its idle coroutine
  have hof : ∀ c, c.Of (.worker w) → (s.pc (.worker w)).inHand (.worker w) = some c ∨
      c = .idle (.worker w) → s'.co c = s.co c := by
    intro c hof hc
    apply hco c (hof.ne_schedCo t)
    · rintro rfl
      exact hof
    · intro hhand
      rcases hc with hc | rfl
      · exact hne (ha.inv.distinct _ _ _ hc hhand)
      · exact ha.inv.free_idle _ t (Ne.symm hne) hhand
    · rintro rfl
      rcases hc with hc | hc
      · exact ha.inv.free_nextCo _ hc
      · cases hc
  have hhand : ∀ c, (s.pc (.worker w)).inHand (.worker w) = some c → s'.co c = s.co c :=
    fun c hc => hof c ((ha.inv.thread _).of hc) (Or.inl hc)
  have hidle : s'.co (.idle (.worker w)) = s.co (.idle (.worker w)) := hof _ rfl (Or.inr rfl)
  have hsched : s'.co (schedCo cfg (.worker w)) = s.co (schedCo cfg (.worker w)) := by
    apply hco
    · exact fun h => hne (schedCo_injective h)
    · exact fun h => nomatch h
    · exact fun h => (((ha.inv.thread t).of h).ne_schedCo (.worker w)) rfl
    · exact fun h => nomatch h
  refine ⟨?_, ?_, ?_⟩
  · rcases hpc with hpc | ⟨-, hpc⟩
    · rw [hpc]
      exact (ha.plain w).congr hhand hsched hdrained
    · rw [hpc]
      trivial
  · refine (ha.idle w).congr ?_ (by rw [hidle]) (by rw [hidle]) hdrained
    rcases hpc with hpc | ⟨hpc, -⟩
    · rw [hpc]
      exact id
    · rw [hpc]
      exact fun _ => trivial
  · rcases hpc with hpc | ⟨hpc, hpc'⟩
    · unfold held
      rw [hpc]
      exact Pc.held_congr hhand
    · unfold held
      rw [hpc, hpc']
      rfl

/-- When all workers have left and there was one, everything is executed. -/
theorem Accounts.executed (ha : Accounts cfg cbs s) (hreturned : s.pc .caller = .caller .returned)
    (hworkers : cfg.workers ≠ [] ∨ cbs = []) : s.executed.Perm cbs := by
  have hexited : ∀ w ∈ cfg.workers, s.pc (.worker w) = .exited :=
    fun w hw => ha.joined [] (Or.inr ⟨rfl, hreturned⟩) w hw (by simp)
  have hheld : (cfg.workers.map fun w => held s (.worker w)).sum = 0 := by
    apply List.sum_eq_zero
    intro m hm
    obtain ⟨w, hw, rfl⟩ := List.mem_map.mp hm
    unfold held
    rw [hexited w hw]
    rfl
  have hpending : pending s = 0 := by
    unfold pending
    rw [hreturned]
    rfl
  have htotal := ha.total
  rw [hpending, hheld, zero_add, add_zero] at htotal
  apply Multiset.coe_eq_coe.mp
  rcases hworkers with hworkers | rfl
  · -- the worker has left with the queue drained
    obtain ⟨w, hw⟩ := List.exists_mem_of_ne_nil _ hworkers
    have hdrained := ha.plain w
    rw [hexited w hw] at hdrained
    unfold queued at htotal
    rw [hdrained.2] at htotal
    rw [← htotal]
    exact (zero_add _).symm
  · -- nothing has been added
    apply Multiset.le_zero.mp
    rw [← Multiset.coe_nil, ← htotal]
    exact Multiset.le_add_left ..

variable [DecidableEq W]

/-- A step of a worker. -/
theorem Accounts.ofWorker {w : W} (hnodup : cfg.workers.Nodup) (ha : Accounts cfg cbs s)
    (hi : Inv cfg s') (hrun : s.pc (.worker w) ≠ .notStarted) (hexit : s.pc (.worker w) ≠ .exited)
    (hpc : ∀ t ≠ .worker w, s'.pc t = s.pc t)
    (hco : ∀ c, c ≠ schedCo cfg (.worker w) → c ≠ .schedulerco →
      (s.pc (.worker w)).inHand (.worker w) ≠ some c → c ≠ .made s.nextCo → s'.co c = s.co c)
    (hm : WorkerMove cfg s s' (.worker w)) : Accounts cfg cbs s' := by
  have hcaller : s'.pc .caller = s.pc .caller := hpc .caller fun h => nomatch h
  have hother := fun w' (h : Thread.worker w' ≠ .worker w) =>
    ha.other h hco (Or.inl (hpc _ h)) (drained_of_le hm.tasks hm.autostop)
  have hworker : w ∈ cfg.workers := by
    by_contra hw
    exact hrun (hi.threads w hw ▸ ha.inv.threads w hw)
  constructor
  case inv => exact hi
  case caller =>
    rw [hcaller]
    exact ha.caller
  case tasks => exact fun task h => ha.tasks task (hm.tasks task h)
  case plain =>
    intro w'
    by_cases h : Thread.worker w' = .worker w
    · rw [h]
      exact hm.plain
    · exact (hother w' h).1
  case idle =>
    intro w'
    by_cases h : Thread.worker w' = .worker w
    · rw [h]
      exact hm.idle
    · exact (hother w' h).2.1
  case adding =>
    rw [hcaller, hm.autostop]
    exact ha.adding
  case joined =>
    rw [hcaller]
    intro rest hrest w' hw' hmem
    have hgone := ha.joined rest hrest w' hw' hmem
    -- who has exited is not the worker that moves
    rw [hpc, hgone]
    intro h
    rw [h] at hgone
    exact hexit hgone
  case total =>
    have hpending : pending s' = pending s := by
      unfold pending
      rw [hcaller]
    -- of what the workers hold, only the share of `w` has changed
    rw [← ha.total, hpending]
    apply sum_of_share hnodup hworker
    · intro w' hw'
      apply (hother w' _).2.2
      exact fun h => hw' (Thread.worker.inj h)
    · have hacc := hm.account
      unfold account at hacc
      simp only [add_assoc] at hacc ⊢
      rw [hacc]

/-- A step of the owner's thread. -/
theorem Accounts.ofCaller {q : CallerPc W} (q' : CallerPc W) (ha : Accounts cfg cbs s) (hi : Inv cfg s')
    (hs : step cfg s (.thread .caller) = some s') (h : s.pc .caller = .caller q)
    (hpc : s'.pc .caller = .caller q')
    (hworker : ∀ w, s'.pc (.worker w) = s.pc (.worker w) ∨
      s.pc (.worker w) = .notStarted ∧ s'.pc (.worker w) = .run none .scan)
    (hdrained : Drained s → Drained s') (htasks : ∀ task ∈ s'.tasks, task.selfco = none)
    (hadding : ∀ l, q' = .start l ∨ q' = .add l → s'.autostop = false)
    (hjoined : ∀ rest, q' = .join rest ∨ rest = [] ∧ q' = .returned →
      ∀ w ∈ cfg.workers, w ∉ rest → s.pc (.worker w) = .exited)
    (htotal : q'.owed + queued s' = q.owed + queued s) (hexec : s'.executed = s.executed) :
    Accounts cfg cbs s' := by
  have hother := fun w => @Accounts.other _ cfg cbs s s' .caller w ha (fun h => nomatch h)
    (fun c h h' => step_co ha.inv hs h h') (hworker w) hdrained
  constructor
  case inv => exact hi
  case caller => exact ⟨q', hpc⟩
  case tasks => exact htasks
  case plain => exact fun w => (hother w).1
  case idle => exact fun w => (hother w).2.1
  case adding =>
    rw [hpc]
    simpa only [Pc.caller.injEq] using hadding
  case joined =>
    rw [hpc]
    intro rest hrest w hw hmem
    have hgone := hjoined rest (by simpa only [Pc.caller.injEq] using hrest) w hw hmem
    rcases hworker w with h | ⟨h, -⟩
    · rw [h, hgone]
    · rw [hgone] at h
      cases h
  case total =>
    have hheld := @sum_congr _ _ _ cfg.workers _ _ fun w _ => (hother w).2.2
    have hpending : pending s = q.owed := by
      unfold pending
      rw [h]
    have hpending' : pending s' = q'.owed := by
      unfold pending
      rw [hpc]
    rw [hpending', htotal, hexec, hheld, ← hpending, ha.total]

/-- A step of the owner's thread in `stop`. -/
theorem Accounts.inStop {q : CallerPc W} (q' : CallerPc W) (ha : Accounts cfg cbs s) (hi : Inv cfg s')
    (hs : step cfg s (.thread .caller) = some s') (h : s.pc .caller = .caller q)
    (hpc : s'.pc .caller = .caller q') (hworker : ∀ w, s'.pc (.worker w) = s.pc (.worker w))
    (htasks : s'.tasks = s.tasks) (hauto : s'.autostop = s.autostop)
    (hexec : s'.executed = s.executed) (howed : q.owed = 0)
    (hadding : ∀ l, q' ≠ .start l ∧ q' ≠ .add l)
    (hjoined : ∀ rest, q' = .join rest ∨ rest = [] ∧ q' = .returned →
      ∀ w ∈ cfg.workers, w ∉ rest → s.pc (.worker w) = .exited) : Accounts cfg cbs s' := by
  refine ha.ofCaller _ hi hs h hpc (fun w => Or.inl (hworker w)) ?_ ?_ ?_ hjoined ?_ hexec
  · exact drained_of_le (fun task htask => htasks ▸ htask) hauto
  · rw [htasks]
    exact ha.tasks
  · intro l hl
    rcases hl with hl | hl
    · exact absurd hl (hadding l).1
    · exact absurd hl (hadding l).2
  · have howed' : q'.owed = 0 := by
      unfold CallerPc.owed
      split
      · exact absurd rfl (hadding _).1
      · exact absurd rfl (hadding _).2
      · rfl
    unfold queued
    rw [howed, howed', htasks]

/-- What `start` does: the workers begin with their scans. -/
theorem callerStep_start {l : List ℕ} (hs : callerStep cfg s (.start l) = some s') :
    s'.pc .caller = .caller (.add l) ∧
      (∀ w, s'.pc (.worker w) = s.pc (.worker w) ∨ s'.pc (.worker w) = .run none .scan) ∧
      s'.tasks = s.tasks ∧ s'.autostop = s.autostop ∧ s'.executed = s.executed := by
  dsimp only [callerStep] at hs
  split at hs
  · rw [← Option.some.inj hs]
    refine ⟨State.setPc_pc_self .., fun w => ?_, rfl, rfl, rfl⟩
    show (if w ∈ cfg.workers then _ else _) = _ ∨ (if w ∈ cfg.workers then _ else _) = _
    by_cases hw : w ∈ cfg.workers
    · exact Or.inr (if_pos hw)
    · exact Or.inl (if_neg hw)
  · rw [← Option.some.inj hs]
    exact ⟨State.setPc_pc_self .., fun w => Or.inl rfl, rfl, rfl, rfl⟩

/-- `start`, the callbacks added, and `stop`. -/
theorem Accounts.callerStep {q : CallerPc W} (ha : Accounts cfg cbs s) (hi : Inv cfg s')
    (h : s.pc .caller = .caller q) (hs : step cfg s (.thread .caller) = some s') :
    Accounts cfg cbs s' := by
  have hs' : Scheduler.callerStep cfg s q = some s' := by
    rwa [step, h] at hs
  have hworker : (∀ l, q ≠ .start l) → ∀ w, s'.pc (.worker w) = s.pc (.worker w) :=
    fun hq w => (callerStep_frame hs').pc hq (.worker w) fun h => nomatch h
  cases q with
  | start l =>
    obtain ⟨hpc, hpcs, htasks, hauto, hexec⟩ := callerStep_start hs'
    have hadding : s.autostop = false := ha.adding l (Or.inl h)
    refine ha.ofCaller _ hi hs h hpc ?_ ?_ ?_ (fun _ _ => hauto.trans hadding) (by simp) ?_ hexec
    · intro w
      rcases hpcs w with hw | hw
      · exact Or.inl hw
      · exact Or.inr ⟨ha.inv.started l h w, hw⟩
    · exact drained_of_le (fun task htask => htasks ▸ htask) hauto
    · rw [htasks]
      exact ha.tasks
    · unfold queued
      rw [htasks]
      rfl
  | add l =>
    have hadding : s.autostop = false := ha.adding l (Or.inr h)
    have hworker' := hworker fun _ h => nomatch h
    have hdrained : Drained s → Drained s' := by
      intro hdrained
      rw [hdrained.1] at hadding
      cases hadding
    cases l with
    | nil =>
      rw [← Option.some.inj hs'] at hi hs hworker' hdrained ⊢
      exact ha.ofCaller .stopCheck hi hs h (State.setPc_pc_self ..)
        (fun w => Or.inl (hworker' w)) hdrained ha.tasks (by simp) (by simp) rfl rfl
    | cons f l =>
      have htasks : s'.tasks = s.tasks ++ [⟨some f, none, none⟩] := by
        rw [← Option.some.inj hs']
        rfl
      have hpc : s'.pc .caller = .caller (.add l) := by
        rw [← Option.some.inj hs']
        exact State.setPc_pc_self ..
      have hexec : s'.executed = s.executed := by
        rw [← Option.some.inj hs']
        rfl
      refine ha.ofCaller _ hi hs h hpc (fun w => Or.inl (hworker' w)) hdrained ?_ (fun _ _ => ?_)
        (by simp) ?_ hexec
      · rw [htasks]
        intro task htask
        rcases List.mem_append.mp htask with htask | htask
        · exact ha.tasks task htask
        · rw [List.mem_singleton.mp htask]
      · rw [← Option.some.inj hs', ← hadding]
        rfl
      · unfold queued
        rw [htasks, List.map_append, List.sum_append]
        show (l : Multiset ℕ) + (_ + ({f} + 0)) = (f ::ₘ (l : Multiset ℕ)) + _
        rw [add_zero, ← Multiset.singleton_add]
        ac_rfl
  | stopCheck =>
    have hworker' := hworker fun _ h => nomatch h
    dsimp only [Scheduler.callerStep] at hs'
    split at hs'
    case isTrue hearly =>
      rw [← Option.some.inj hs'] at hi hs hworker' ⊢
      refine ha.inStop .returned hi hs h (State.setPc_pc_self ..) hworker' rfl rfl rfl rfl
        (by simp) ?_
      intro _ _ w hw
      rw [List.eq_nil_of_length_eq_zero hearly.2.2.1] at hw
      cases hw
    case isFalse =>
      rw [← Option.some.inj hs'] at hi hs hworker' ⊢
      exact ha.inStop .setStopping hi hs h (State.setPc_pc_self ..) hworker' rfl rfl rfl
        rfl (by simp) (by simp)
  | setStopping =>
    have hworker' := hworker fun _ h => nomatch h
    rw [← Option.some.inj hs'] at hi hs hworker' ⊢
    refine ha.inStop (if cfg.useCaller then .resume else .join cfg.workers) hi hs h
      (State.setPc_pc_self ..) hworker' rfl rfl rfl rfl ?_ ?_
    · split <;> simp
    · intro rest hrest w hw hmem
      split at hrest
      · simp at hrest
      · have heq : cfg.workers = rest := by simpa using hrest
        exact absurd (heq ▸ hw) hmem
  | resume =>
    have hworker' := hworker fun _ h => nomatch h
    rw [← Option.some.inj hs'] at hi hs hworker' ⊢
    exact ha.inStop .swapIn hi hs h (State.setPc_pc_self ..) hworker' rfl rfl rfl rfl
      (by simp) (by simp)
  | swapIn =>
    have hworker' := hworker fun _ h => nomatch h
    -- the context loaded is the one just saved
    have hpc : s'.pc .caller = .caller (.join cfg.workers) := by
      have huse : cfg.useCaller = true := (ha.inv.at_caller h).2 (Or.inr rfl)
      have hsched : schedCo cfg .caller = .schedulerco := if_pos huse
      rw [← Option.some.inj hs', hsched, State.swapcontext_pc_self, Function.update_self]
    rw [← Option.some.inj hs'] at hi hs hworker' hpc ⊢
    refine ha.inStop _ hi hs h hpc hworker' rfl rfl rfl rfl (by simp) ?_
    intro rest hrest w hw hmem
    have heq : cfg.workers = rest := by simpa using hrest
    exact absurd (heq ▸ hw) hmem
  | join rest =>
    have hworker' := hworker fun _ h => nomatch h
    have hgone := ha.joined rest (Or.inl h)
    cases rest with
    | nil =>
      rw [← Option.some.inj hs'] at hi hs hworker' ⊢
      refine ha.inStop .returned hi hs h (State.setPc_pc_self ..) hworker' rfl rfl rfl rfl
        (by simp) ?_
      intro rest _ w hw _
      exact hgone w hw (by simp)
    | cons w rest =>
      dsimp only [Scheduler.callerStep] at hs'
      split at hs'
      case h_1 hexited =>
        rw [← Option.some.inj hs'] at hi hs hworker' ⊢
        refine ha.inStop (.join rest) hi hs h (State.setPc_pc_self ..) hworker' rfl rfl rfl
          rfl (by simp) ?_
        intro rest' hrest w' hw' hmem
        have heq : rest = rest' := by simpa using hrest
        by_cases hw : w' = w
        · rw [hw, hexited]
        · apply hgone w' hw'
          rw [heq]
          simp [hw, hmem]
      case h_2 => cases hs'
  | returned => cases hs'

theorem Accounts.workerMove {w : W} (ha : Accounts cfg cbs s)
    (hs : step cfg s (.thread (.worker w)) = some s') : WorkerMove cfg s s' (.worker w) := by
  have hplain := ha.plain w
  have hidle := ha.idle w
  dsimp only [step] at hs
  split at hs
  case h_1 q hpc => cases ha.inv.eq_caller hpc
  case h_2 cbCo q hpc =>
    rw [← Option.some.inj hs]
    cases q with
    | scan => exact .scan ha.tasks hidle hpc
    | dispatch task isActive => exact .dispatch ha.inv hplain hidle hpc
    | turn x ph => exact .turnStep ha.inv hplain hidle hpc
    | left => exact (ha.inv.at_run hpc).2.2.elim
  case h_3 c q hpc =>
    have hof : c.Of (.worker w) := (ha.inv.at_co hpc).2.1
    cases c with
    | made k => exact .coStep_made ha.inv hplain hidle hpc hs
    | idle t =>
      cases hof
      exact .coStep_idle ha.inv hplain hidle hpc hs
    | _ => exact hof.elim
  case h_4 => cases hs

/-- Every step whose callbacks only return. -/
theorem Accounts.step {l : Label W} (hnodup : cfg.workers.Nodup) (ha : Accounts cfg cbs s)
    (hplain : Plain s l) (hs : Scheduler.step cfg s l = some s') : Accounts cfg cbs s' := by
  have hi : Inv cfg s' := ha.inv.step (freeTake_of_callbacks ha.tasks l) hs
  cases l with
  | thread t =>
    cases t with
    | caller =>
      obtain ⟨q, hq⟩ := ha.caller
      exact ha.callerStep hi hq hs
    | worker w =>
      refine ha.ofWorker hnodup hi ?_ ?_ (fun t ht => workerStep_pc ht ha.inv hs)
        (fun c => step_co ha.inv hs) (ha.workerMove hs)
      · intro h
        rw [Scheduler.step, h] at hs
        cases hs
      · intro h
        rw [Scheduler.step, h] at hs
        cases hs
  | body t a =>
    cases a with
    | ret =>
      dsimp only [Scheduler.step] at hs
      split at hs
      case h_1 c hpc =>
        cases t with
        | caller =>
          obtain ⟨q, hq⟩ := ha.caller
          rw [hq] at hpc
          cases hpc
        | worker w =>
          have hco := (bodyStep_frame hs).co
          refine ha.ofWorker hnodup hi ?_ ?_ (bodyStep_frame hs).pc
            (fun c _ _ _ _ => by rw [hco]) (.ret (ha.plain w) (ha.idle w) hpc hs)
          · rw [hpc]
            exact fun h => nomatch h
          · rw [hpc]
            exact fun h => nomatch h
      case h_2 => cases hs
    | _ => exact hplain.elim
  | _ => exact hplain.elim

theorem Accounts.of_run (hnodup : cfg.workers.Nodup)
    (h : Run (Scheduler.step cfg) Plain (Scheduler.init cbs) s) : Accounts cfg cbs s :=
  h.invariant (Accounts.init cfg cbs) fun _ _ _ ha hplain hs => ha.step hnodup hplain hs

/-! ## The owner's thread executes nothing -/

theorem step_caller {q : CallerPc W} (h : s.pc .caller = .caller q) :
    Scheduler.step cfg s (.thread .caller) = callerStep cfg s q := by
  rw [Scheduler.step, h]

/-- One after the other, the callbacks are added. -/
theorem add_run (cfg : Config W) (l : List ℕ) (h : s.pc .caller = .caller (.add l)) :
    ∃ s', Run (Scheduler.step cfg) Plain s s' ∧ s'.pc .caller = .caller (.add []) ∧
      s'.executed = s.executed ∧ s'.stopping = s.stopping := by
  induction l generalizing s with
  | nil => exact ⟨s, .refl, h, rfl, rfl⟩
  | cons f l ih =>
    obtain ⟨s', hrun, hpc, hexec, hstop⟩ := ih (State.setPc_pc_self ..)
    exact ⟨s', (Run.single trivial (step_caller h)).trans hrun, hpc, hexec, hstop⟩

/-- Without workers `stop` switches to itself and returns. -/
theorem stop_run (hcaller : cfg.useCaller = true) (hworkers : cfg.workers = [])
    (h : s.pc .caller = .caller (.add [])) (hstop : s.stopping = false) :
    ∃ s', Run (Scheduler.step cfg) Plain s s' ∧ s'.pc .caller = .caller .returned ∧
      s'.executed = s.executed := by
  have hsched : schedCo cfg .caller = .schedulerco := if_pos hcaller
  let s₁ := { s with autostop := true }.setPc .caller (.caller .stopCheck)
  let s₂ := s₁.setPc .caller (.caller .setStopping)
  let s₃ := { s₂ with stopping := true }.setPc .caller (.caller .resume)
  let s₄ := (s₃.setState .schedulerco .exec).setPc .caller (.caller .swapIn)
  let s₅ := s₄.swapcontext .caller (.caller (.join [])) .schedulerco .schedulerco
  let s₆ := s₅.setPc .caller (.caller .returned)
  have h₁ : callerStep cfg s (.add []) = some s₁ := rfl
  have h₂ : callerStep cfg s₁ .stopCheck = some s₂ := by
    have hrunning : s₁.isStopping = false := by
      show (true && s.stopping && _ && _) = false
      rw [hstop]
      rfl
    apply if_neg
    rw [hrunning]
    exact fun h => nomatch h.2.2.2
  have h₃ : callerStep cfg s₂ .setStopping = some s₃ := by
    rw [callerStep, if_pos hcaller]
  have h₅ : callerStep cfg s₄ .swapIn = some s₅ := by
    rw [callerStep, hworkers, hsched]
  have hpc₅ : s₅.pc .caller = .caller (.join []) := by
    rw [State.swapcontext_pc_self, Function.update_self]
  have hpc : ∀ (s : State W) (q : Pc W), (s.setPc .caller q).pc .caller = q :=
    fun s q => State.setPc_pc_self s .caller q
  refine ⟨s₆, ?_, hpc .., rfl⟩
  refine Run.tail (t := s₅) (Run.tail (t := s₄) (Run.tail (t := s₃) (Run.tail (t := s₂)
    (Run.tail (t := s₁) (Run.single (a := .thread .caller) trivial ?_) (a := .thread .caller)
    trivial ?_) (a := .thread .caller) trivial ?_) (a := .thread .caller) trivial ?_)
    (a := .thread .caller) trivial ?_) (a := .thread .caller) trivial ?_
  · rw [step_caller h, h₁]
  · rw [step_caller (hpc ..), h₂]
  · rw [step_caller (hpc ..), h₃]
  · rw [step_caller (hpc ..)]
    rfl
  · rw [step_caller (hpc ..), h₅]
  · rw [step_caller hpc₅]
    rfl

/-- What is in the queue stays there. -/
theorem stop_misses (hcaller : cfg.useCaller = true) (hworkers : cfg.workers = [])
    (cbs : List ℕ) : ∃ s, Run (Scheduler.step cfg) Plain (Scheduler.init cbs) s ∧
      s.pc .caller = .caller .returned ∧ s.executed = [] := by
  have hstart : (Scheduler.init (W := W) cbs).pc .caller = .caller (.start cbs) := rfl
  obtain ⟨s₁, hs₁⟩ : ∃ s₁, callerStep cfg (Scheduler.init cbs) (.start cbs) = some s₁ := ⟨_, rfl⟩
  have hstop₁ : s₁.stopping = false := by
    rw [← Option.some.inj hs₁]
    rfl
  obtain ⟨hpc₁, -, -, -, hexec₁⟩ := callerStep_start hs₁
  obtain ⟨s₂, hrun₂, hpc₂, hexec₂, hstop₂⟩ := add_run cfg cbs hpc₁
  obtain ⟨s₃, hrun₃, hpc₃, hexec₃⟩ := stop_run hcaller hworkers hpc₂ (hstop₂.trans hstop₁)
  have hrun₁ : Run (Scheduler.step cfg) Plain (Scheduler.init cbs) s₁ :=
    Run.single (a := .thread .caller) trivial ((step_caller hstart).trans hs₁)
  refine ⟨s₃, (hrun₁.trans hrun₂).trans hrun₃, hpc₃, ?_⟩
  rw [hexec₃, hexec₂, hexec₁]
  rfl

end Steps

/-! ## `stop` -/

/-- **What `stop` waits for**: with any thread count and any callbacks, each callback has been
executed exactly once in every run in which `stop` has returned, if and only if there is a worker
or nothing to execute. -/
theorem stop_executes (threadcount : ℕ) (useCaller : Bool) (cbs : List ℕ) (hn : 1 ≤ threadcount) :
    (∀ s, Run (step (construct threadcount useCaller)) Plain (init cbs) s →
      s.pc .caller = .caller .returned → s.executed.Perm cbs) ↔
    (useCaller = false ∨ 2 ≤ threadcount ∨ cbs = []) := by
  constructor
  · intro h
    by_contra hcond
    simp only [not_or, Bool.not_eq_false] at hcond
    obtain ⟨hcaller, hcount, hcbs⟩ := hcond
    have hone : threadcount = 1 := by omega
    subst hone hcaller
    obtain ⟨s, hrun, hpc, hexec⟩ := @stop_misses _ (construct 1 true) _ rfl rfl cbs
    have hperm := h s hrun hpc
    rw [hexec] at hperm
    exact hcbs (List.nil_perm.mp hperm)
  · intro hcond s hrun hpc
    apply (Accounts.of_run List.nodup_range hrun).executed hpc
    by_cases hcbs : cbs = []
    · exact Or.inr hcbs
    · left
      have hpos : 0 < (if useCaller then threadcount - 1 else threadcount) := by
        rcases hcond with rfl | h | h
        · exact hn
        · split <;> omega
        · exact absurd h hcbs
      intro hnil
      have hlen := congrArg List.length hnil
      rw [construct, List.length_range] at hlen
      exact Nat.ne_of_gt hpos hlen

/-- One worker beside the owner's thread: the callback is executed, `idle` returns, the worker exits,
and `stop` returns. Where `exit()` is called in the worker's stead, the run ends before that. -/
def stopLabels : List (Label ℕ) :=
  List.replicate 7 (.thread .caller) ++ List.replicate 5 (.thread (.worker 0)) ++
    [.body (.worker 0) .ret] ++ List.replicate 23 (.thread (.worker 0)) ++
    List.replicate 2 (.thread .caller)

theorem stop_executes_two : ∃ s,
    runLabels (step (construct 2 true)) (init [7]) stopLabels = some s ∧
      s.pc .caller = .caller .returned ∧ s.executed.Perm [7] := by
  have hok : ∀ a ∈ stopLabels, ∀ s : State ℕ, Plain s a := by
    simp [stopLabels, Plain]
  exact ⟨_, rfl, rfl, (stop_executes 2 true [7] (by decide)).mpr (by decide) _
    (Run.of_allowed hok rfl) rfl⟩

/-- **The callback is missed**: a scheduler of one thread that uses its owner's. -/
theorem stop_not_executes : ¬ ∀ s, Run (step (construct 1 true)) Plain (init [7]) s →
    s.pc .caller = .caller .returned → s.executed.Perm [7] := by
  intro h
  obtain ⟨s, hrun, hpc, hexec⟩ := @stop_misses _ (construct 1 true) _ rfl rfl [7]
  have hperm := h s hrun hpc
  rw [hexec] at hperm
  exact absurd (List.nil_perm.mp hperm) (by decide)

end CoKV.Scheduler
