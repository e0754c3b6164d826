import CoKV.Lib.Run
import CoKV.Scheduler.Turns

/-!
# Every step keeps the invariant

One lemma for each function of the step: the phases of a turn, the branch behind the critical
section, the critical section, the code on a coroutine's stack, callbacks, `start` and `stop`.
`Inv.of_run` is the invariant of every run in which `FreeTake` allows each scan.
-/

namespace CoKV.Scheduler

variable {W : Type}

/-! ## The steps of a thread -/

section Steps

variable [DecidableEq W] {cfg : Config W} {s s' : State W} {t : Thread W} {cbCo : Option ℕ}

/-- A move of a thread that goes on with the coroutine in its hand, or lets it go. -/
theorem Inv.moves {d : Co W} {p : Pc W} (hi : Inv cfg s) (h : (s.pc t).inHand t = some d)
    (hpc : s'.pc = Function.update s.pc t p)
    (hco : ∀ c, c ≠ d → c ≠ schedCo cfg t → s'.co c = s.co c)
    (hand : ∀ c, p.inHand t = some c → c = d) (hsaved : SavedCo d (s'.co d))
    (hnext : s'.nextCo = s.nextCo := by rfl)
    (htasks : ∀ task ∈ s'.tasks, task ∈ s.tasks ∨ ∀ k ∈ task.selfco, k < s.nextCo := by
      exact fun _ h => Or.inl h)
    (hwaiting : ∀ k ∈ s'.waiting, k ∈ s.waiting ∨ k < s.nextCo := by
      exact fun _ h => Or.inl h)
    (hstart : ∀ cbs, p ≠ .caller (.start cbs) := by exact fun _ h => nomatch h) :
    Moves cfg s s' t d p where
  pc := hpc
  co := hco
  free := hi.free h
  of := (hi.thread t).of h
  hand := hand
  bound k hk := by
    rw [← hand _ hk] at h
    rw [hnext]
    exact hi.bound t k h
  saved := hsaved
  before hb := Option.some.inj (h.symm.trans hb)
  running hr := by
    rw [hr] at h
    cases h
  notStart := hstart
  nextCo := Nat.le_of_eq hnext.symm
  tasks := htasks
  waiting := hwaiting

/-- A move of a thread that lets go what it has in hand, or takes its idle coroutine. -/
theorem Inv.moves_idle {p : Pc W} (hi : Inv cfg s)
    (hrun : s.pc t ≠ .notStarted) (hpc : s'.pc = Function.update s.pc t p)
    (hco : ∀ c, c ≠ schedCo cfg t → s'.co c = s.co c)
    (hand : ∀ c, p.inHand t = some c → c = .idle t)
    (hnext : s'.nextCo = s.nextCo := by rfl)
    (htasks : ∀ task ∈ s'.tasks, task ∈ s.tasks ∨ ∀ k ∈ task.selfco, k < s.nextCo := by
      exact fun _ h => Or.inl h)
    (hwaiting : s'.waiting = s.waiting := by rfl)
    (hstart : ∀ cbs, p ≠ .caller (.start cbs) := by exact fun _ h => nomatch h) :
    Moves cfg s s' t (.idle t) p where
  pc := hpc
  co c _ hc := hco c hc
  free := hi.free_idle t
  of := rfl
  hand := hand
  bound k hk := nomatch hand _ hk
  saved := by
    have hof : (Co.idle t).Of t := rfl
    rw [hco _ (hof.ne_schedCo t)]
    exact hi.saved t _ hof
  before _ := rfl
  running := hrun
  notStart := hstart
  nextCo := Nat.le_of_eq hnext.symm
  tasks := htasks
  waiting k hk := Or.inl (hwaiting ▸ hk)

/-- A thread goes on with the same coroutine in hand, and nothing else changes. -/
theorem Inv.jump {d : Co W} {p : Pc W} (hi : Inv cfg s) (h : (s.pc t).inHand t = some d)
    (hpc : s'.pc = Function.update s.pc t p) (hco : s'.co = s.co) (hand : p.inHand t = some d)
    (hlocal : Local cfg s' t) (hnext : s'.nextCo = s.nextCo) (htasks : s'.tasks = s.tasks)
    (hwaiting : s'.waiting = s.waiting) : Inv cfg s' := by
  have hsaved : SavedCo d (s'.co d) := by
    rw [hco]
    exact hi.saved t d ((hi.thread t).of h)
  refine hi.move (hi.moves h hpc (fun c _ _ => by rw [hco]) ?_ hsaved hnext
    (fun task ht => Or.inl (htasks ▸ ht)) (fun k hk => Or.inl (hwaiting ▸ hk)) ?_) hlocal ?_
  · intro c hc
    exact Option.some.inj (hc.symm.trans hand)
  · rintro tasks rfl
    cases hand
  · intro hd hne
    rw [hand, hd] at hne
    exact absurd rfl hne

theorem turnStep_check_hold {x : Turn} (h : (s.co (x.co t)).mState = .hold) :
    turnStep cfg s t cbCo x .check = s.setPc t (.run cbCo (.turn x .setHold)) := by
  unfold turnStep
  cases x <;> simp only [h]

/-- A turn, phase by phase. -/
theorem Inv.turnStep {x : Turn} {ph : Phase} (hi : Inv cfg s)
    (h : s.pc t = .run cbCo (.turn x ph)) : Inv cfg (Scheduler.turnStep cfg s t cbCo x ph) := by
  obtain ⟨hcaller, hcb, hstate⟩ := hi.at_run h
  have hhand : (s.pc t).inHand t = some (x.co t) := by rw [h]; rfl
  have hof : (x.co t).Of t := Turn.of t x
  have hsaved := hi.saved t _ hof
  cases ph with
  | resume =>
    apply hi.move (hi.moves hhand rfl ?_ ?_ ?_)
    · apply Local.turn x .swapIn hcaller
      · rw [Scheduler.turnStep, State.setPc_pc_self, hcb]
        rfl
      · rw [Scheduler.turnStep, State.setPc_co, State.setState_co_self]
        rfl
    · intro hd hne
      exact absurd (congrArg some hd) hne
    · intro c hc _
      exact s.setState_co_of_ne .exec hc
    · intro c hc
      exact (Option.some.inj hc).symm
    · rw [Scheduler.turnStep, State.setPc_co, State.setState_co_self]
      exact hsaved.setState .exec
  | swapIn =>
    obtain ⟨q, hq, hqs⟩ := hsaved.ctx
    have hpc : (Scheduler.turnStep cfg s t cbCo x .swapIn).pc = Function.update s.pc t (.co (x.co t) q) := by
      rw [Scheduler.turnStep, State.swapcontext_pc _ _ _ (hof.ne_schedCo t), hq]
    have hco : (Scheduler.turnStep cfg s t cbCo x .swapIn).co (x.co t) = s.co (x.co t) :=
      s.swapcontext_co_of_ne t _ _ (hof.ne_schedCo t)
    apply hi.move (hi.moves hhand hpc ?_ ?_ ?_)
    · apply Local.onStack (x := x) hcaller (by rw [hpc, Function.update_self]) rfl
      · have hexec : (s.co (x.co t)).mState = .exec := hstate
        rw [hco, hexec]
        exact hqs.stateOk
      · rw [Scheduler.turnStep, State.swapcontext_co_self, hcb]
        rfl
    · intro hd hne
      exact absurd (congrArg some hd) hne
    · intro c _ hc
      exact s.swapcontext_co_of_ne t _ _ hc
    · intro c hc
      exact (Option.some.inj hc).symm
    · rw [hco]
      exact hsaved
  | back =>
    have hpc : (Scheduler.turnStep cfg s t cbCo x .back).pc
        = Function.update s.pc t (.run cbCo (.turn x .check)) := by
      cases x <;> rfl
    have hco : (Scheduler.turnStep cfg s t cbCo x .back).co = s.co := by cases x <;> rfl
    apply hi.jump hhand hpc hco rfl ?_ (by cases x <;> rfl) (by cases x <;> rfl)
      (by cases x <;> rfl)
    apply Local.turn x .check hcaller
    · rw [hpc, Function.update_self, hcb]
      rfl
    · rw [hco]
      exact hstate
  | check =>
    -- the last write of the state was the `HOLD` of `yield`
    rw [turnStep_check_hold hstate]
    refine hi.jump (p := .run cbCo (.turn x .setHold)) hhand rfl rfl rfl ?_ rfl rfl rfl
    apply Local.turn x .setHold hcaller
    · rw [State.setPc_pc_self, hcb]
      rfl
    · exact hstate
  | setHold =>
    have hpc : (Scheduler.turnStep cfg s t cbCo x .setHold).pc
        = Function.update s.pc t (.run none .scan) := by
      cases x
      · rw [hcb]; rfl
      · rfl
      · rw [hcb]; rfl
    have hself : (Scheduler.turnStep cfg s t cbCo x .setHold).co (x.co t)
        = { s.co (x.co t) with mState := .hold } := by
      cases x <;> exact Function.update_self ..
    refine hi.move (hi.moves hhand hpc ?_ ?_ ?_ (by cases x <;> rfl) (fun task ht => Or.inl ?_)
      (fun k hk => Or.inl ?_)) ?_ ?_
    · intro c hc _
      cases x <;> exact Function.update_of_ne hc ..
    · intro c hc
      cases hc
    · rw [hself]
      exact hsaved.setState .hold
    · cases x <;> exact ht
    · cases x <;> exact hk
    · exact Local.scan hcaller (by rw [hpc, Function.update_self])
    · intro _ _ hterm
      rw [hself] at hterm
      cases hterm

/-- `cb_co.reset(new Selfco(task.cb))`: the new coroutine is one nobody else has heard of. -/
theorem Inv.newCallback (hi : Inv cfg s) (hcaller : t ≠ .caller) (hrun : s.pc t ≠ .notStarted)
    (hne : (s.pc t).inHand t ≠ some (.idle t)) (f : ℕ) :
    Inv cfg ((s.newCo (some (.user f))).setPc t
      (.run (some s.nextCo) (.turn (.callback s.nextCo) .resume))) := by
  have hm : Moves cfg s ((s.newCo (some (.user f))).setPc t
      (.run (some s.nextCo) (.turn (.callback s.nextCo) .resume))) t (.made s.nextCo)
      (.run (some s.nextCo) (.turn (.callback s.nextCo) .resume)) := by
    refine ⟨rfl, fun c hc _ => State.newCo_co_of_ne _ hc _, fun t' _ ht' => ?_, trivial, ?_, ?_,
      ?_, ?_, hrun, ?_, Nat.le_succ _, fun _ h => Or.inl h, fun _ h => Or.inl h⟩
    · -- what is in hand has been made before
      exact Nat.lt_irrefl _ (hi.bound t' s.nextCo ht')
    · intro c hc
      exact (Option.some.inj hc).symm
    · intro k hk
      cases hk
      exact Nat.lt_succ_self _
    · rw [State.setPc_co, State.newCo_co_self]
      exact SavedCo.fresh (fun h => nomatch h)
    · intro hb
      exact absurd hb hne
    · intro _ h
      cases h
  apply hi.move hm
  · exact Local.turn (.callback s.nextCo) .resume hcaller
      (State.setPc_pc_self ..) trivial
  · intro hd
    cases hd

/-- The branch behind the critical section. -/
theorem Inv.dispatch {task : Task W} {isActive : Bool} (hi : Inv cfg s)
    (h : s.pc t = .run cbCo (.dispatch task isActive)) :
    Inv cfg (Scheduler.dispatch s t cbCo task isActive) := by
  obtain ⟨hcaller, hcb, -⟩ := hi.at_run h
  have hnone : cbCo = none := hcb
  subst hnone
  have hhand : (s.pc t).inHand t = task.selfco.map .made := by rw [h]; rfl
  have hrun : s.pc t ≠ .notStarted := by rw [h]; exact fun h => nomatch h
  -- the task has no idle coroutine
  have hne : (s.pc t).inHand t ≠ some (.idle t) := by
    rw [hhand]
    intro heq
    obtain ⟨k, -, hk⟩ := Option.map_eq_some_iff.mp heq
    cases hk
  have hidle := hi.idle t hne
  unfold Scheduler.dispatch
  split
  case h_1 c hc =>
    have hselfco : task.selfco = some c := (Option.filter_eq_some_iff.mp hc).1
    have hhand' : (s.pc t).inHand t = some (.made c) := by rw [hhand, hselfco]; rfl
    refine hi.jump (p := .run none (.turn (.task c) .resume)) hhand' rfl rfl rfl ?_ rfl rfl rfl
    exact Local.turn (.task c) .resume hcaller
      (State.setPc_pc_self ..) trivial
  case h_2 =>
    cases task.cb with
    | some f => exact hi.newCallback hcaller hrun hne f
    | none =>
      dsimp only
      -- `idle_co` is not in `TERM`, so the loop does not break
      split
      · refine hi.move (hi.moves_idle (p := .run none .scan) hrun rfl (fun _ _ => rfl) ?_) ?_ ?_
        · intro c hc
          cases hc
        · exact Local.scan hcaller (State.setPc_pc_self ..)
        · exact fun _ _ => hidle
      · refine hi.move (hi.moves_idle (p := .run none (.turn .idle .resume)) hrun rfl
          (fun _ _ => rfl) ?_) ?_ ?_
        · intro c hc
          exact (Option.some.inj hc).symm
        · exact Local.turn .idle .resume hcaller (State.setPc_pc_self ..) trivial
        · exact fun _ _ => hidle

/-- Thread `t` is not about to take a coroutine from the queue that a run loop has in hand: one
that it has taken itself, or goes through a turn with. -/
def FreeTake (s : State W) : Label W → Prop
  | .thread t => ∀ cbCo, s.pc t = .run cbCo .scan → ∀ task ∈ s.tasks.find? (eligible s t),
    ∀ c ∈ task.selfco, ∀ t', (s.pc t').inHand t' ≠ some (.made c)
  | _ => True

/-- The critical section. -/
theorem Inv.scan (hi : Inv cfg s) (h : s.pc t = .run cbCo .scan) (hfree : FreeTake s (.thread t)) :
    Inv cfg (runStep cfg s t cbCo .scan) := by
  obtain ⟨hcaller, hcb, -⟩ := hi.at_run h
  have hnone : cbCo = none := hcb
  subst hnone
  have hrun : s.pc t ≠ .notStarted := by rw [h]; exact fun h => nomatch h
  have hidle : (s.co (.idle t)).mState ≠ .term := by
    apply hi.idle t
    rw [h]
    exact fun h => nomatch h
  unfold runStep
  dsimp only
  split
  case h_1 =>
    refine hi.move (hi.moves_idle (p := .run none (.dispatch .empty false)) hrun rfl
      (fun _ _ => rfl) ?_) ?_ ?_
    · intro c hc
      cases hc
    · exact Local.dispatch hcaller (State.setPc_pc_self ..)
    · exact fun _ _ => hidle
  case h_2 task htask =>
    have hmem : task ∈ s.tasks := List.mem_of_find?_eq_some htask
    have herase : ∀ task' ∈ s.tasks.eraseP (eligible s t),
        task' ∈ s.tasks ∨ ∀ k ∈ task'.selfco, k < s.nextCo :=
      fun task' ht' => Or.inl (List.mem_of_mem_eraseP ht')
    cases hselfco : task.selfco with
    | none =>
      refine hi.move (hi.moves_idle (p := .run none (.dispatch task true)) hrun rfl
        (fun _ _ => rfl) ?_ rfl herase) ?_ ?_
      · intro c hc
        rw [Pc.inHand, hselfco] at hc
        cases hc
      · exact Local.dispatch hcaller (State.setPc_pc_self ..)
      · exact fun _ _ => hidle
    | some c =>
      have hm : Moves cfg s ({ s with
          tasks := s.tasks.eraseP (eligible s t)
          activethreadcount := s.activethreadcount + 1 }.setPc t (.run none (.dispatch task true)))
          t (.made c) (.run none (.dispatch task true)) := by
        refine ⟨rfl, fun _ _ _ => rfl, fun t' _ => ?_, trivial, ?_, ?_, ?_, ?_, hrun, ?_, Nat.le_refl _,
          herase, fun _ h => Or.inl h⟩
        · -- the condition on the scan, and nothing else, keeps two loops apart
          exact hfree none h task htask c hselfco t'
        · intro d hd
          rw [Pc.inHand, hselfco] at hd
          exact (Option.some.inj hd).symm
        · intro k hk
          rw [Pc.inHand, hselfco] at hk
          cases hk
          exact hi.tasks task hmem c hselfco
        · exact hi.saved t _ trivial
        · intro hb
          rw [h] at hb
          cases hb
        · intro _ h
          cases h
      apply hi.move hm
      · exact Local.dispatch hcaller (State.setPc_pc_self ..)
      · intro hd
        cases hd

/-- The code on the stack of `c` goes on to `q'`, writing the fields of `c`. -/
theorem Inv.write {c : Co W} {q q' : CoPc} {x' : Selfco (Pc W)} (hi : Inv cfg s)
    (h : s.pc t = .co c q) (hpc : s'.pc = Function.update s.pc t (.co c q'))
    (hco : s'.co = Function.update s.co c x') (hsaved : SavedCo c x')
    (hstate : q'.StateOk x'.mState) (hnext : s'.nextCo = s.nextCo)
    (htasks : ∀ task ∈ s'.tasks, task ∈ s.tasks ∨ ∀ k ∈ task.selfco, k < s.nextCo)
    (hwaiting : ∀ k ∈ s'.waiting, k ∈ s.waiting ∨ k < s.nextCo) : Inv cfg s' := by
  obtain ⟨hcaller, hof, -, x, hx, hback⟩ := hi.at_co h
  have hhand : (s.pc t).inHand t = some c := by rw [h]; rfl
  have hself : s'.co c = x' := by rw [hco, Function.update_self]
  refine hi.move (hi.moves (p := .co c q') hhand hpc ?_ ?_ (by rwa [hself]) hnext htasks
    hwaiting) ?_ ?_
  · intro c' hc' _
    rw [hco, Function.update_of_ne hc']
  · intro c' hc'
    exact (Option.some.inj hc').symm
  · apply Local.onStack (x := x) hcaller (by rw [hpc, Function.update_self]) hx
    · rwa [hself]
    · rw [hco, Function.update_of_ne (hof.ne_schedCo t).symm]
      exact hback
  · intro hd hne
    exact absurd (congrArg some hd) hne

/-- The code on the stack of `c` goes on to `q'`. -/
theorem Inv.goto {c : Co W} {q q' : CoPc} (hi : Inv cfg s) (h : s.pc t = .co c q)
    (hstate : q'.StateOk (s.co c).mState) : Inv cfg (s.setPc t (.co c q')) := by
  have hof : c.Of t := (hi.thread t).of (by rw [h]; rfl)
  exact hi.write h rfl (Function.update_eq_self c s.co).symm (hi.saved t c hof) hstate rfl
    (fun _ h => Or.inl h) (fun _ h => Or.inl h)

/-- The code on a coroutine's stack. -/
theorem Inv.coStep {c : Co W} {q : CoPc} (hi : Inv cfg s) (h : s.pc t = .co c q)
    (hs : Scheduler.coStep cfg s t c q = some s') : Inv cfg s' := by
  obtain ⟨hcaller, hof, hstate, x, hx, hback⟩ := hi.at_co h
  have hhand : (s.pc t).inHand t = some c := by rw [h]; rfl
  have hsaved := hi.saved t c hof
  cases q with
  | entry =>
    dsimp only [Scheduler.coStep] at hs
    split at hs
    · rw [← Option.some.inj hs]
      exact hi.goto h trivial
    · exact absurd ‹_› hsaved.cb
    · rw [← Option.some.inj hs]
      exact hi.goto h hstate
  | body =>
    cases c with
    | idle t' =>
      rw [← Option.some.inj hs]
      apply hi.goto h
      split <;> exact hstate
    | _ => cases hs
  | returned =>
    rw [← Option.some.inj hs]
    have hsaved' : SavedCo c { s.co c with mCb := none, mState := .term } :=
      ⟨fun h => (nomatch h), hsaved.ctx⟩
    -- the callbacks that have returned are recorded
    split <;> exact hi.write h rfl rfl hsaved' trivial rfl (fun _ h => Or.inl h)
      (fun _ h => Or.inl h)
  | yieldtohold =>
    rw [← Option.some.inj hs]
    exact hi.write h rfl rfl (hsaved.setState .hold) trivial rfl (fun _ h => Or.inl h)
      (fun _ h => Or.inl h)
  | yield y =>
    rw [← Option.some.inj hs]
    exact hi.write h rfl rfl (hsaved.setState .hold) rfl rfl (fun _ h => Or.inl h)
      (fun _ h => Or.inl h)
  | swapOut y =>
    rw [← Option.some.inj hs]
    have hne : schedCo cfg t ≠ c := (hof.ne_schedCo t).symm
    have hpc : (s.swapcontext t (.co c y.cont) c (schedCo cfg t)).pc
        = Function.update s.pc t (.run x.cbCo (.turn x .back)) := by
      rw [State.swapcontext_pc _ _ _ hne, hback]
    refine hi.move (hi.moves hhand hpc ?_ ?_ ?_) ?_ ?_
    · intro c' hc' _
      exact State.swapcontext_co_of_ne _ _ _ _ hc'
    · intro c' hc'
      rw [← hx]
      exact (Option.some.inj hc').symm
    · rw [State.swapcontext_co_self]
      exact ⟨hsaved.cb, y.cont, rfl, y.saved_cont⟩
    · apply Local.turn x .back hcaller (by rw [hpc, Function.update_self])
      rw [hx, State.swapcontext_co_self]
      exact hstate
    · intro hd hne'
      rw [Pc.inHand, hx, hd] at hne'
      exact absurd rfl hne'
  | fallOff b =>
    rw [← Option.some.inj hs]
    refine hi.move (hi.moves (p := .exited) hhand rfl (fun _ _ _ => rfl) ?_ hsaved) ?_ ?_
    · intro c' hc'
      cases hc'
    · unfold Local
      rw [State.setPc_pc_self]
      trivial
    · intro _ _ hterm
      have hexec : (s.co c).mState = .exec := hstate
      rw [State.setPc_co, hexec] at hterm
      cases hterm

/-- The callbacks of the program, and an overriding `idle`. -/
theorem Inv.bodyStep {c : Co W} {a : Act} (hi : Inv cfg s) (h : s.pc t = .co c .body)
    (hs : Scheduler.bodyStep s t c a = some s') : Inv cfg s' := by
  obtain ⟨-, hof, hstate, -⟩ := hi.at_co h
  have hstay : s.pc = Function.update s.pc t (.co c .body) := by
    rw [← h, Function.update_eq_self]
  cases a with
  | addEvent =>
    cases c with
    | made k =>
      rw [← Option.some.inj hs]
      refine hi.write h hstay (Function.update_eq_self _ s.co).symm (hi.saved t _ hof) hstate rfl
        (fun _ h => Or.inl h) ?_
      -- the waiter that is added is the coroutine itself
      intro k' hk'
      rcases List.mem_append.mp hk' with hk' | hk'
      · exact Or.inl hk'
      · rw [List.mem_singleton.mp hk']
        exact Or.inr (hi.bound t k (by rw [h]; rfl))
    | _ => cases hs
  | trigerEvent i =>
    cases c with
    | idle t' =>
      cases hget : s.waiting[i]? with
      | none =>
        simp only [Scheduler.bodyStep, hget] at hs
        cases hs
      | some k =>
        simp only [Scheduler.bodyStep, hget] at hs
        rw [← Option.some.inj hs]
        have hk : k < s.nextCo := hi.waiting k (List.mem_of_getElem? hget)
        refine hi.write h (by rw [State.addTask_pc]; exact hstay) ?_ (hi.saved t _ hof) hstate
          (State.addTask_nextCo ..) ?_ ?_
        · rw [State.addTask_co]
          exact (Function.update_eq_self _ s.co).symm
        · intro task htask
          rcases State.mem_addTask htask with htask | rfl
          · exact Or.inl htask
          · exact Or.inr fun k' hk' => Option.some.inj hk' ▸ hk
        · intro k' hk'
          rw [State.addTask_waiting] at hk'
          exact Or.inl (List.mem_of_mem_eraseIdx hk')
    | _ => cases hs
  | yieldtohold =>
    rw [← Option.some.inj hs]
    exact hi.goto h hstate
  | yield =>
    rw [← Option.some.inj hs]
    exact hi.goto h hstate
  | ret =>
    cases c with
    | made k =>
      rw [← Option.some.inj hs]
      exact hi.goto h hstate
    | _ => cases hs

/-- The owner's thread goes on to `q'`. -/
theorem Inv.callerMove {q : CallerPc W} (hi : Inv cfg s) (q' : CallerPc W)
    (h : s.pc .caller = .caller q)
    (hpc : s'.pc = Function.update s.pc .caller (.caller q'))
    (hco : ∀ c, c ≠ schedCo cfg .caller → s'.co c = s.co c)
    (huse : q' = .resume ∨ q' = .swapIn → cfg.useCaller = true) (hstart : ∀ cbs, q' ≠ .start cbs)
    (hnext : s'.nextCo = s.nextCo)
    (htasks : ∀ task ∈ s'.tasks, task ∈ s.tasks ∨ ∀ k ∈ task.selfco, k < s.nextCo)
    (hwaiting : s'.waiting = s.waiting) : Inv cfg s' := by
  have hrun : s.pc .caller ≠ .notStarted := by rw [h]; exact fun h => nomatch h
  have hof : (Co.idle (W := W) .caller).Of .caller := rfl
  refine hi.move (hi.moves_idle (p := .caller q') hrun hpc hco ?_ hnext htasks hwaiting ?_) ?_ ?_
  · intro c hc
    cases hc
  · intro cbs heq
    exact hstart cbs (Pc.caller.inj heq)
  · unfold Local
    rw [hpc, Function.update_self]
    exact ⟨rfl, huse⟩
  · -- the owner's thread has no idle coroutine in hand, before and after
    intro _ _
    rw [hco _ (hof.ne_schedCo .caller)]
    apply hi.idle
    rw [h]
    exact fun h => nomatch h

/-- `start`: the workers are at the top of their loops. -/
theorem Inv.start {cbs : List ℕ} (hi : Inv cfg s) (h : s.pc .caller = .caller (.start cbs))
    (hs : Scheduler.callerStep cfg s (.start cbs) = some s') : Inv cfg s' := by
  dsimp only [Scheduler.callerStep] at hs
  split at hs
  case isFalse =>
    rw [← Option.some.inj hs]
    exact hi.callerMove (.add cbs) h rfl (fun _ _ => rfl) (by simp) (by simp) rfl
      (fun _ h => Or.inl h) rfl
  case isTrue =>
    have hcaller : s'.pc .caller = .caller (.add cbs) := by
      rw [← Option.some.inj hs]
      exact State.setPc_pc_self ..
    have hworker : ∀ w, s'.pc (.worker w)
        = if w ∈ cfg.workers then .run none .scan else .notStarted := by
      intro w
      rw [← Option.some.inj hs, ← hi.started cbs h w]
      rfl
    -- no thread has a coroutine in hand
    have hnone : ∀ t', (s'.pc t').inHand t' = none := by
      intro t'
      cases t' with
      | caller => rw [hcaller]; rfl
      | worker w =>
        rw [hworker]
        split <;> rfl
    have hco : s'.co = s.co := by rw [← Option.some.inj hs]; rfl
    constructor
    case thread =>
      intro t'
      cases t' with
      | caller =>
        unfold Local
        rw [hcaller]
        exact ⟨rfl, by simp⟩
      | worker w =>
        by_cases hw : w ∈ cfg.workers
        · exact Local.scan (by simp) (by rw [hworker, if_pos hw])
        · unfold Local
          rw [hworker, if_neg hw]
          trivial
    case distinct =>
      intro t₁ t₂ c h₁
      rw [hnone] at h₁
      cases h₁
    case saved =>
      rw [hco]
      exact hi.saved
    case idle =>
      intro t' _
      rw [hco]
      apply hi.idle
      cases t' with
      | caller => rw [h]; exact fun h => nomatch h
      | worker w => rw [hi.started cbs h w]; exact fun h => nomatch h
    case bound =>
      intro t' k hk
      rw [hnone] at hk
      cases hk
    case tasks =>
      rw [← Option.some.inj hs]
      exact hi.tasks
    case waiting =>
      rw [← Option.some.inj hs]
      exact hi.waiting
    case started =>
      intro cbs' hstart
      rw [hcaller] at hstart
      cases hstart
    case threads =>
      intro w hw
      rw [hworker, if_neg hw]

/-- `start` and `stop`. -/
theorem Inv.callerStep {q : CallerPc W} (hi : Inv cfg s) (h : s.pc .caller = .caller q)
    (hs : Scheduler.callerStep cfg s q = some s') : Inv cfg s' := by
  obtain ⟨-, huse⟩ := hi.at_caller h
  have hsame : ∀ task ∈ s.tasks, task ∈ s.tasks ∨ ∀ k ∈ task.selfco, k < s.nextCo :=
    fun _ h => Or.inl h
  cases q with
  | start cbs => exact hi.start h hs
  | add cbs =>
    cases cbs with
    | nil =>
      rw [← Option.some.inj hs]
      exact hi.callerMove .stopCheck h rfl (fun _ _ => rfl) (by simp) (by simp) rfl hsame rfl
    | cons f cbs =>
      rw [← Option.some.inj hs]
      refine hi.callerMove (.add cbs) h ?_ ?_ (by simp) (by simp) ?_ ?_ ?_
      · show Function.update (s.addTask _).pc _ _ = _
        rw [State.addTask_pc]
      · intro c _
        rw [State.setPc_co, State.addTask_co]
      · exact State.addTask_nextCo ..
      · intro task htask
        rcases State.mem_addTask htask with htask | rfl
        · exact Or.inl htask
        · exact Or.inr fun k hk => nomatch hk
      · exact State.addTask_waiting ..
  | stopCheck =>
    unfold Scheduler.callerStep at hs
    dsimp only at hs
    split at hs
    · rw [← Option.some.inj hs]
      exact hi.callerMove .returned h rfl (fun _ _ => rfl) (by simp) (by simp) rfl hsame rfl
    · rw [← Option.some.inj hs]
      exact hi.callerMove .setStopping h rfl (fun _ _ => rfl) (by simp) (by simp) rfl
        hsame rfl
  | setStopping =>
    rw [← Option.some.inj hs]
    refine hi.callerMove (if cfg.useCaller then .resume else .join cfg.workers) h rfl
      (fun _ _ => rfl) ?_ ?_ rfl hsame rfl
    · split
      · exact fun _ => ‹_›
      · simp
    · intro cbs
      split <;> simp
  | resume =>
    rw [← Option.some.inj hs]
    have huse' := huse (Or.inl rfl)
    refine hi.callerMove .swapIn h rfl ?_ (fun _ => huse') (by simp) rfl hsame rfl
    intro c hc
    rw [schedCo, if_pos huse'] at hc
    exact s.setState_co_of_ne .exec hc
  | swapIn =>
    rw [← Option.some.inj hs]
    have huse' := huse (Or.inr rfl)
    have hsched : schedCo cfg .caller = .schedulerco := by rw [schedCo, if_pos huse']
    -- the context loaded is the one just saved
    refine hi.callerMove (.join cfg.workers) h ?_ ?_ (by simp) (by simp) rfl hsame rfl
    · rw [hsched, State.swapcontext_pc_self]
    · intro c hc
      exact State.swapcontext_co_of_ne _ _ _ _ hc
  | join workers =>
    cases workers with
    | nil =>
      rw [← Option.some.inj hs]
      exact hi.callerMove .returned h rfl (fun _ _ => rfl) (by simp) (by simp) rfl hsame rfl
    | cons w workers =>
      unfold Scheduler.callerStep at hs
      dsimp only at hs
      split at hs
      · rw [← Option.some.inj hs]
        exact hi.callerMove (.join workers) h rfl (fun _ _ => rfl) (by simp) (by simp) rfl
          hsame rfl
      · cases hs
  | returned => cases hs

end Steps

/-! ## Every step -/

section Run

variable [DecidableEq W] {cfg : Config W} {s s' : State W}

theorem Inv.addTask {task : Task W} (hi : Inv cfg s) (h : ∀ c ∈ task.selfco, c < s.nextCo) :
    Inv cfg (s.addTask task) := by
  refine hi.env (k := s.nextCo) (State.addTask_pc ..) (fun c _ => by rw [State.addTask_co])
    hi.free_nextCo ?_ (Nat.le_of_eq (State.addTask_nextCo ..).symm) ?_ (State.addTask_waiting ..)
  · rw [State.addTask_co]
    exact hi.saved .caller _ trivial
  · intro task' htask'
    rcases State.mem_addTask htask' with htask' | rfl
    · exact Or.inl htask'
    · exact Or.inr h

theorem Inv.create (hi : Inv cfg s) (cb : Option ℕ) (st : CoState) :
    Inv cfg ((s.newCo (cb.map .user)).setState (.made s.nextCo) st) := by
  refine hi.env (k := s.nextCo) rfl ?_ hi.free_nextCo ?_ (Nat.le_succ _) (fun _ h => Or.inl h) rfl
  · intro c hc
    rw [State.setState_co_of_ne _ _ hc, State.newCo_co_of_ne _ hc]
  · rw [State.setState_co_self, State.newCo_co_self]
    exact (SavedCo.fresh (by cases cb <;> simp)).setState st

theorem Inv.reset {c : ℕ} (hi : Inv cfg s)
    (h : ∀ t ∈ cfg.threads, (s.pc t).inHand t ≠ some (.made c)) (cb : Option ℕ) :
    Inv cfg (s.modifyCo (.made c) fun _ => freshCo (.made c) (cb.map .user)) := by
  refine hi.env (k := c) rfl (fun _ hc => State.modifyCo_co_of_ne _ _ hc) ?_ ?_ (Nat.le_refl _)
    (fun _ h => Or.inl h) rfl
  · intro t
    cases t with
    | caller => exact h _ (List.mem_cons_self ..)
    | worker w =>
      by_cases hw : w ∈ cfg.workers
      · exact h _ (List.mem_cons_of_mem _ (List.mem_map_of_mem hw))
      · rw [hi.threads w hw]
        exact fun h => nomatch h
  · rw [State.modifyCo_co_self]
    exact SavedCo.fresh (by cases cb <;> simp)

/-- One step of the system. -/
theorem Inv.step {l : Label W} (hi : Inv cfg s) (hfree : FreeTake s l)
    (hs : Scheduler.step cfg s l = some s') : Inv cfg s' := by
  cases l with
  | thread t =>
    dsimp only [Scheduler.step] at hs
    split at hs
    case h_1 q hpc =>
      have hcaller : t = .caller := hi.eq_caller hpc
      subst hcaller
      exact hi.callerStep hpc hs
    case h_2 cbCo q hpc =>
      rw [← Option.some.inj hs]
      cases q with
      | scan => exact hi.scan hpc hfree
      | dispatch task isActive => exact hi.dispatch hpc
      | turn x ph => exact hi.turnStep hpc
      | left => exact (hi.at_run hpc).2.2.elim
    case h_3 c q hpc => exact hi.coStep hpc hs
    case h_4 => cases hs
  | body t a =>
    dsimp only [Scheduler.step] at hs
    split at hs
    case h_1 c hpc => exact hi.bodyStep hpc hs
    case h_2 => cases hs
  | addTask task =>
    dsimp only [Scheduler.step] at hs
    split at hs
    case isTrue hbound =>
      rw [← Option.some.inj hs]
      exact hi.addTask hbound
    case isFalse => cases hs
  | create cb st =>
    rw [← Option.some.inj hs]
    exact hi.create cb st
  | reset c cb =>
    dsimp only [Scheduler.step] at hs
    split at hs
    case isTrue hreset =>
      rw [← Option.some.inj hs]
      exact hi.reset hreset.2 cb
    case isFalse => cases hs

/-- Every state of a run without double takes. -/
theorem Inv.of_run {cbs : List ℕ} (h : Run (Scheduler.step cfg) FreeTake (Scheduler.init cbs) s) :
    Inv cfg s :=
  h.invariant (Inv.init cfg cbs) fun _ _ _ hi hfree hs => hi.step hfree hs

end Run

end CoKV.Scheduler
