import CoKV.Scheduler.TurnTheorems

/-!
# What a step leaves alone

`step_co` and `step_ctx` say who writes a coroutine and its context, `step_pc` who moves a thread.
-/

namespace CoKV.Scheduler

variable {W : Type} [DecidableEq W]

/-! ## The code of a coroutine, of a callback, and of the owner -/

section Frames

variable {cfg : Config W} {s s' : State W} {t : Thread W} {c : Co W}

theorem update_pc_of_ne {t t' : Thread W} (p : Pc W) (h : t' ≠ t) :
    Function.update s.pc t p t' = s.pc t' := Function.update_of_ne h ..

/-- What changes other fields of a coroutine leaves every saved context alone. -/
theorem modifyCo_ctx (d : Co W) {f : Selfco (Pc W) → Selfco (Pc W)}
    (hf : ∀ x, (f x).mCtx = x.mCtx) : ((s.modifyCo d f).co c).mCtx = (s.co c).mCtx := by
  by_cases h : c = d
  · rw [h, State.modifyCo_co_self, hf]
  · rw [State.modifyCo_co_of_ne _ _ h]

/-- So does `setState`. -/
theorem setState_ctx (d : Co W) (st : CoState) :
    ((s.setState d st).co c).mCtx = (s.co c).mCtx :=
  modifyCo_ctx d fun _ => rfl

/-- What the code on the stack of coroutine `d` leaves alone. -/
structure CoFrame (s s' : State W) (t : Thread W) (d : Co W) : Prop where
  co : ∀ c ≠ d, s'.co c = s.co c
  pc : ∀ t' ≠ t, s'.pc t' = s.pc t'
  tasks : s'.tasks = s.tasks
  active : s'.activethreadcount = s.activethreadcount

/-- A step of `MainFunc` or `yield` concerns its own thread and its own coroutine. -/
theorem coStep_frame {d : Co W} {q : CoPc} (hs : coStep cfg s t d q = some s') :
    CoFrame s s' t d := by
  have hpc : ∀ (p : Pc W), ∀ t' ≠ t, Function.update s.pc t p t' = s.pc t' :=
    fun p t' h => update_pc_of_ne p h
  unfold coStep at hs
  split at hs
  · split at hs <;> rw [← Option.some.inj hs] <;> exact ⟨fun _ _ => rfl, hpc _, rfl, rfl⟩
  · split at hs
    · rw [← Option.some.inj hs]
      exact ⟨fun _ _ => rfl, hpc _, rfl, rfl⟩
    · cases hs
  · -- whatever is recorded of the callback
    dsimp only at hs
    split at hs
    all_goals
      rw [← Option.some.inj hs]
      exact ⟨fun c hc => Function.update_of_ne hc .., hpc _, rfl, rfl⟩
  · rw [← Option.some.inj hs]
    exact ⟨fun c hc => State.setState_co_of_ne _ _ hc, hpc _, rfl, rfl⟩
  · rw [← Option.some.inj hs]
    exact ⟨fun c hc => State.setState_co_of_ne _ _ hc, hpc _, rfl, rfl⟩
  · rw [← Option.some.inj hs]
    exact ⟨fun c hc => State.swapcontext_co_of_ne _ _ _ _ hc, hpc _, rfl, rfl⟩
  · rw [← Option.some.inj hs]
    exact ⟨fun _ _ => rfl, hpc _, rfl, rfl⟩

/-- What a callback leaves alone. -/
structure BodyFrame (s s' : State W) (t : Thread W) : Prop where
  co : s'.co = s.co
  pc : ∀ t' ≠ t, s'.pc t' = s.pc t'
  tasks : s'.tasks = s.tasks ∨ ∃ k, s'.tasks = (s.addTask ⟨none, some k, none⟩).tasks
  active : s'.activethreadcount = s.activethreadcount

/-- A step of the function in a coroutine changes no coroutine, and at most adds a task. -/
theorem bodyStep_frame {d : Co W} {a : Act} (hs : bodyStep s t d a = some s') :
    BodyFrame s s' t := by
  have hgoto : ∀ p : Pc W, BodyFrame s (s.setPc t p) t :=
    fun p => ⟨rfl, fun t' h => update_pc_of_ne p h, Or.inl rfl, rfl⟩
  unfold bodyStep at hs
  split at hs
  · split at hs
    · rw [← Option.some.inj hs]
      exact ⟨rfl, fun _ _ => rfl, Or.inl rfl, rfl⟩
    · cases hs
  · split at hs
    · rw [← Option.some.inj hs]
      refine ⟨?_, fun _ _ => ?_, Or.inr ⟨_, rfl⟩, State.addTask_activethreadcount ..⟩
      · rw [State.addTask_co]
      · rw [State.addTask_pc]
    · cases hs
  · rw [← Option.some.inj hs]
    exact hgoto _
  · rw [← Option.some.inj hs]
    exact hgoto _
  · split at hs
    · rw [← Option.some.inj hs]
      exact hgoto _
    · cases hs

/-- What the code of `start` and `stop` leaves alone: `stop` writes `m_schedulerco` and the context
of its own thread, and past `start` the owner's thread moves nobody else. -/
structure CallerFrame (cfg : Config W) (s s' : State W) (q : CallerPc W) : Prop where
  co : ∀ c, c ≠ schedCo cfg .caller → c ≠ .schedulerco → s'.co c = s.co c
  ctx : ∀ c, (∀ t, c ≠ schedCo cfg t) → (s'.co c).mCtx = (s.co c).mCtx
  pc : (∀ cbs, q ≠ .start cbs) → ∀ t ≠ .caller, s'.pc t = s.pc t
  tasks : s'.tasks = s.tasks ∨ ∃ f, s'.tasks = (s.addTask ⟨some f, none, none⟩).tasks
  active : s'.activethreadcount = s.activethreadcount

/-- `start`, `addTask` and `stop` touch the coroutines of the threads only, and only `start` starts
a thread. -/
theorem callerStep_frame {q : CallerPc W} (hs : callerStep cfg s q = some s') :
    CallerFrame cfg s s' q := by
  -- most of it writes nothing but the program counter
  have hgoto : ∀ q', CallerFrame cfg s (s.setPc .caller (.caller q')) q :=
    fun q' => ⟨fun _ _ _ => rfl, fun _ _ => rfl, fun _ t h => update_pc_of_ne _ h, Or.inl rfl, rfl⟩
  unfold callerStep at hs
  split at hs
  · rw [← Option.some.inj hs]
    refine ⟨fun _ _ _ => ?_, fun _ _ => ?_, fun h => absurd rfl (h _), Or.inl ?_, ?_⟩ <;>
      split <;> rfl
  · rw [← Option.some.inj hs]
    refine ⟨fun _ _ _ => ?_, fun _ _ => ?_, fun _ t h => ?_, Or.inr ⟨_, rfl⟩,
      State.addTask_activethreadcount ..⟩
    · rw [State.setPc_co, State.addTask_co]
    · rw [State.setPc_co, State.addTask_co]
    · exact (update_pc_of_ne _ h).trans (congrFun (State.addTask_pc ..) t)
  · rw [← Option.some.inj hs]
    exact ⟨fun _ _ _ => rfl, fun _ _ => rfl, fun _ t h => update_pc_of_ne _ h, Or.inl rfl, rfl⟩
  · dsimp only at hs
    split at hs <;> rw [← Option.some.inj hs] <;> exact hgoto _
  · rw [← Option.some.inj hs]
    exact ⟨fun _ _ _ => rfl, fun _ _ => rfl, fun _ t h => update_pc_of_ne _ h, Or.inl rfl, rfl⟩
  · rw [← Option.some.inj hs]
    exact ⟨fun c _ h => State.setState_co_of_ne _ _ h, fun c _ => setState_ctx _ _,
      fun _ t h => update_pc_of_ne _ h, Or.inl rfl, rfl⟩
  · rw [← Option.some.inj hs]
    refine ⟨fun c h _ => State.swapcontext_co_of_ne _ _ _ _ h, fun c h => ?_,
      fun _ t h => update_pc_of_ne _ h, Or.inl rfl, rfl⟩
    -- what `resuem` saves is the context of a run loop
    rw [State.swapcontext_co_of_ne _ _ _ _ (h _)]
  · rw [← Option.some.inj hs]
    exact hgoto _
  · split at hs
    · rw [← Option.some.inj hs]
      exact hgoto _
    · cases hs
  · cases hs

end Frames

/-! ## Who writes a context -/

section Ctx

variable {cfg : Config W} {s s' : State W} {t : Thread W} {c : Co W}

/-- A coroutine that is made anew is at its entry; the others are where they were. -/
theorem modifyCo_fresh_ctx (d : Co W) (cb : Option Callback) :
    ((s.modifyCo d fun _ => freshCo d cb).co c).mCtx = (s.co c).mCtx ∨
      ((s.modifyCo d fun _ => freshCo d cb).co c).mCtx = .co c .entry := by
  by_cases h : c = d
  · right
    rw [h, State.modifyCo_co_self]
    rfl
  · left
    rw [State.modifyCo_co_of_ne _ _ h]

/-- A turn saves no context but that of the loop; another one can only be made anew by `reset`. -/
theorem turnStep_ctx (hc : c ≠ schedCo cfg t) (cbCo : Option ℕ) (x : Turn) (ph : Phase) :
    ((turnStep cfg s t cbCo x ph).co c).mCtx = (s.co c).mCtx ∨
      ((turnStep cfg s t cbCo x ph).co c).mCtx = .co c .entry := by
  unfold turnStep
  cases ph with
  | resume => exact Or.inl (setState_ctx _ _)
  | swapIn =>
    left
    rw [State.swapcontext_co_of_ne _ _ _ _ hc]
  | back => cases x <;> exact Or.inl rfl
  | check =>
    dsimp only
    split
    · exact Or.inl (by rw [State.setPc_co, State.addTask_co])
    · exact Or.inl (by rw [State.setPc_co, State.addTask_co])
    · exact modifyCo_fresh_ctx _ _
    · exact Or.inl rfl
    · exact Or.inl rfl
  | setHold => cases x <;> exact Or.inl (setState_ctx _ _)

/-- What `run` does with a task leaves a context alone or makes it anew. -/
theorem dispatch_ctx (cbCo : Option ℕ) (task : Task W) (isActive : Bool) :
    ((dispatch s t cbCo task isActive).co c).mCtx = (s.co c).mCtx ∨
      ((dispatch s t cbCo task isActive).co c).mCtx = .co c .entry := by
  unfold dispatch
  split
  · exact Or.inl rfl
  · split
    · exact modifyCo_fresh_ctx _ _
    · exact modifyCo_fresh_ctx _ _
    · split
      · exact Or.inl rfl
      · split <;> exact Or.inl rfl

/-- A coroutine's own code saves its context in `yield`, and nowhere else. -/
theorem coStep_ctx {d : Co W} {q : CoPc} (hs : coStep cfg s t d q = some s')
    (hc : ∀ t, c ≠ schedCo cfg t) : (s'.co c).mCtx = (s.co c).mCtx ∨
      ∃ y, d = c ∧ q = .swapOut y ∧ (s'.co c).mCtx = .co c y.cont ∧
        s'.pc t = (s.co (schedCo cfg t)).mCtx := by
  cases q with
  | entry =>
    dsimp only [coStep] at hs
    split at hs <;> rw [← Option.some.inj hs] <;> exact Or.inl rfl
  | body =>
    cases d with
    | idle t' =>
      rw [← Option.some.inj hs]
      exact Or.inl rfl
    | _ => cases hs
  | returned =>
    rw [← Option.some.inj hs]
    left
    rw [State.setPc_co]
    refine (modifyCo_ctx d ?_).trans ?_
    · exact fun _ => rfl
    · split <;> rfl
  | yieldtohold =>
    rw [← Option.some.inj hs]
    exact Or.inl (setState_ctx _ _)
  | yield y =>
    rw [← Option.some.inj hs]
    exact Or.inl (setState_ctx _ _)
  | swapOut y =>
    rw [← Option.some.inj hs]
    -- `swapcontext` saves the coroutine that leaves
    by_cases hd : c = d
    · subst hd
      right
      refine ⟨y, rfl, rfl, ?_, ?_⟩
      · rw [State.swapcontext_co_self]
      · rw [State.swapcontext_pc _ _ _ (hc t).symm, Function.update_self]
    · left
      rw [State.swapcontext_co_of_ne _ _ _ _ hd]
  | fallOff b =>
    rw [← Option.some.inj hs]
    exact Or.inl rfl

/-- A context is written by `makecontext`, by the `yield` of its own coroutine, or, that of a run
loop, by `resuem`. -/
theorem step_ctx {l : Label W} (hs : step cfg s l = some s') (hc : ∀ t, c ≠ schedCo cfg t) :
    (s'.co c).mCtx = (s.co c).mCtx ∨ (s'.co c).mCtx = .co c .entry ∨
      ∃ t y, l = .thread t ∧ s.pc t = .co c (.swapOut y) ∧ (s'.co c).mCtx = .co c y.cont ∧
        s'.pc t = (s.co (schedCo cfg t)).mCtx := by
  cases l with
  | thread t =>
    dsimp only [step] at hs
    split at hs
    case h_1 q _ => exact Or.inl ((callerStep_frame hs).ctx c hc)
    case h_2 cbCo q _ =>
      rw [← Option.some.inj hs]
      -- a run loop makes contexts, for callbacks, and saves none but its own
      have hkeep : ((runStep cfg s t cbCo q).co c).mCtx = (s.co c).mCtx ∨
          ((runStep cfg s t cbCo q).co c).mCtx = .co c .entry := by
        unfold runStep
        split
        · split <;> exact Or.inl rfl
        · exact dispatch_ctx ..
        · exact turnStep_ctx (hc t) ..
        · cases t <;> exact Or.inl rfl
      rcases hkeep with h | h
      · exact Or.inl h
      · exact Or.inr (Or.inl h)
    case h_3 d q hpc =>
      rcases coStep_ctx hs hc with h | ⟨y, rfl, rfl, h⟩
      · exact Or.inl h
      · exact Or.inr (Or.inr ⟨t, y, rfl, hpc, h⟩)
    case h_4 => cases hs
  | body t a =>
    dsimp only [step] at hs
    split at hs
    · exact Or.inl (congrArg Selfco.mCtx (congrFun (bodyStep_frame hs).co c))
    · cases hs
  | addTask task =>
    dsimp only [step] at hs
    split at hs
    · rw [← Option.some.inj hs, State.addTask_co]
      exact Or.inl rfl
    · cases hs
  | create cb st =>
    rw [← Option.some.inj hs, setState_ctx]
    rcases modifyCo_fresh_ctx (s := s) (c := c) (.made s.nextCo) (cb.map .user) with h | h
    · exact Or.inl h
    · exact Or.inr (Or.inl h)
  | reset k cb =>
    dsimp only [step] at hs
    split at hs
    · rw [← Option.some.inj hs]
      rcases modifyCo_fresh_ctx (s := s) (c := c) (.made k) (cb.map .user) with h | h
      · exact Or.inl h
      · exact Or.inr (Or.inl h)
    · cases hs

end Ctx

/-! ## Who writes a coroutine -/

section Cos

variable {cfg : Config W} {s s' : State W} {t : Thread W} {c : Co W}

/-- A turn changes no coroutine but the resumed one and that of the loop. -/
theorem turnStep_co {x : Turn} (hc : c ≠ schedCo cfg t) (hx : c ≠ x.co t) (cbCo : Option ℕ)
    (ph : Phase) : (turnStep cfg s t cbCo x ph).co c = s.co c := by
  unfold turnStep
  split
  · exact State.setState_co_of_ne _ _ hx
  · exact State.swapcontext_co_of_ne _ _ _ _ hc
  · split <;> rfl
  · split
    · rw [State.setPc_co, State.addTask_co]
    · rw [State.setPc_co, State.addTask_co]
    · rename_i k _
      have hk : c ≠ .made k := hx
      rw [State.setPc_co, State.modifyCo_co_of_ne _ _ hk]
    · rfl
    · rfl
  · split
    · exact State.setState_co_of_ne _ _ hx
    · exact State.setState_co_of_ne _ _ hx

/-- Without a callback coroutine at hand, `run` changes none that exists. -/
theorem dispatch_co (hnew : c ≠ .made s.nextCo) (task : Task W) (isActive : Bool) :
    (dispatch s t none task isActive).co c = s.co c := by
  unfold dispatch
  split
  · rfl
  · cases task.cb with
    | some f =>
      show (s.newCo (some (.user f))).co c = _
      exact State.newCo_co_of_ne _ hnew _
    | none =>
      dsimp only
      split
      · rfl
      · split <;> rfl

/-- A thread writes the coroutine in its hand, the one it makes, and what its run loop saves. -/
theorem step_co (hi : Inv cfg s) (hs : step cfg s (.thread t) = some s')
    (hsched : c ≠ schedCo cfg t) (hroot : c ≠ .schedulerco)
    (hhand : (s.pc t).inHand t ≠ some c) (hnew : c ≠ .made s.nextCo) : s'.co c = s.co c := by
  dsimp only [step] at hs
  split at hs
  case h_1 q hpc =>
    have hcaller : t = .caller := hi.eq_caller hpc
    subst hcaller
    exact (callerStep_frame hs).co c hsched hroot
  case h_2 cbCo q hpc =>
    rw [hpc] at hhand
    rw [← Option.some.inj hs]
    cases q with
    | scan =>
      unfold runStep
      dsimp only
      split <;> rfl
    | dispatch task isActive =>
      have hnone : cbCo = none := (hi.at_run hpc).2.1
      subst hnone
      exact dispatch_co hnew task isActive
    | turn x ph =>
      apply turnStep_co hsched
      rintro rfl
      exact hhand rfl
    | left => exact (hi.at_run hpc).2.2.elim
  case h_3 d q hpc =>
    rw [hpc] at hhand
    apply (coStep_frame hs).co
    rintro rfl
    exact hhand rfl
  case h_4 => cases hs

end Cos

/-! ## Who moves a thread -/

section Pcs

variable {cfg : Config W} {s s' : State W}

/-- A turn moves its own thread only. -/
theorem turnStep_pc {t t' : Thread W} (h : t' ≠ t) (cbCo : Option ℕ) (x : Turn) (ph : Phase) :
    (turnStep cfg s t cbCo x ph).pc t' = s.pc t' := by
  unfold turnStep
  split
  · exact update_pc_of_ne _ h
  · exact update_pc_of_ne _ h
  · split <;> exact update_pc_of_ne _ h
  · split
    · rw [← State.addTask_pc s ⟨none, some _, none⟩]
      exact update_pc_of_ne _ h
    · rw [← State.addTask_pc s ⟨none, some _, none⟩]
      exact update_pc_of_ne _ h
    all_goals exact update_pc_of_ne _ h
  · split <;> exact update_pc_of_ne _ h

/-- So does every step of `run`. -/
theorem runStep_pc {t t' : Thread W} (h : t' ≠ t) (cbCo : Option ℕ) (q : RunPc W) :
    (runStep cfg s t cbCo q).pc t' = s.pc t' := by
  unfold runStep
  split
  · split <;> exact update_pc_of_ne _ h
  · unfold dispatch
    split
    · exact update_pc_of_ne _ h
    · split
      · exact update_pc_of_ne _ h
      · exact update_pc_of_ne _ h
      · split
        · exact update_pc_of_ne _ h
        · split <;> exact update_pc_of_ne _ h
  · exact turnStep_pc h ..
  · split <;> exact update_pc_of_ne _ h

/-- A worker moves nobody else. -/
theorem workerStep_pc {w : W} {t : Thread W} (h : t ≠ .worker w) (hi : Inv cfg s)
    (hs : step cfg s (.thread (.worker w)) = some s') : s'.pc t = s.pc t := by
  dsimp only [step] at hs
  split at hs
  case h_1 q hpc => cases hi.eq_caller hpc
  case h_2 =>
    rw [← Option.some.inj hs]
    exact runStep_pc h ..
  case h_3 => exact (coStep_frame hs).pc t h
  case h_4 => cases hs

/-- A step moves the thread it belongs to, or `start` lets the workers begin. -/
theorem step_pc {l : Label W} {t : Thread W} (hi : Inv cfg s) (hs : step cfg s l = some s')
    (hrun : s.pc t ≠ .notStarted) (hl : l ≠ .thread t) (hb : ∀ a, l ≠ .body t a) :
    s'.pc t = s.pc t := by
  cases l with
  | thread t' =>
    have hne : t ≠ t' := fun h => hl (h ▸ rfl)
    dsimp only [step] at hs
    split at hs
    case h_1 q hpc =>
      have hcaller : t' = .caller := hi.eq_caller hpc
      subst hcaller
      refine (callerStep_frame hs).pc ?_ t hne
      -- behind `start` nobody runs yet whom it could move
      rintro cbs rfl
      cases t with
      | caller => exact hne rfl
      | worker w => exact hrun (hi.started cbs hpc w)
    case h_2 =>
      rw [← Option.some.inj hs]
      exact runStep_pc hne ..
    case h_3 => exact (coStep_frame hs).pc t hne
    case h_4 => cases hs
  | body t' a =>
    have hne : t ≠ t' := fun h => hb a (h ▸ rfl)
    dsimp only [step] at hs
    split at hs
    · exact (bodyStep_frame hs).pc t hne
    · cases hs
  | addTask task =>
    dsimp only [step] at hs
    split at hs
    · rw [← Option.some.inj hs, State.addTask_pc]
    · cases hs
  | create cb st =>
    rw [← Option.some.inj hs]
    rfl
  | reset k cb =>
    dsimp only [step] at hs
    split at hs
    · rw [← Option.some.inj hs]
      rfl
    · cases hs

end Pcs

end CoKV.Scheduler
