import CoKV.Scheduler.ActiveTheorems
import CoKV.Scheduler.ThreadLocals

/-!
# `getThis` is the coroutine that runs

`locals_refine`: with the `thread_local` variables the scheduler does exactly what it does without
them, so that what is shown of the runs of `Scheduler.step` is shown of the code with `getThis`; and
wherever the code on a stack asks for `getThis`, it gets the coroutine of that stack.

A coroutine goes from thread to thread, and two threads may even have the same one in hand. But
`resuem` sets `co` on the thread that it switches from, the context that is loaded lies on the
coroutine's own stack, and `co` is left alone until the `yield` of that stack.
-/

namespace CoKV.Scheduler

namespace System

variable {W : Type}

/-- The code on a stack, before the `yield` that sets `co` to `main_co`. -/
def hasThis : CoPc → Bool
  | .swapOut _ | .fallOff _ => false
  | _ => true

/-- In a `yield`. -/
def inYield : CoPc → Bool
  | .yield _ | .swapOut _ => true
  | _ => false

/-- What the variables of a worker thread hold, and what is in the locals of the stack it is on. -/
def LocalsOk (t : Thread W) (x : Locals W) (frame : Co W → StackFrame W) : Pc W → Prop
  | .run _ p => x.mainCo = some (.main t) ∧ x.schedCo = some (.main t) ∧
    ∀ x', p = .turn x' .swapIn → x.co = some (x'.co t)
  | .co c p => x.mainCo = some (.main t) ∧ x.schedCo = some (.main t) ∧
    (hasThis p = true → x.co = some c) ∧ (p ≠ .entry → (frame c).cur = some c) ∧
    (inYield p = true → (frame c).this = some c)
  | _ => True

/-- What is written to the locals of a stack is the coroutine of the stack. -/
structure Keeps (frame frame' : Co W → StackFrame W) : Prop where
  cur : ∀ c, (frame c).cur = some c → (frame' c).cur = some c
  this : ∀ c, (frame c).this = some c → (frame' c).this = some c

/-- Unchanged frames keep what they hold. -/
theorem Keeps.refl (frame : Co W → StackFrame W) : Keeps frame frame :=
  ⟨fun _ h => h, fun _ h => h⟩

/-- What is said of a thread stays true while the frames keep what they hold. -/
theorem LocalsOk.keep {t : Thread W} {x : Locals W} {frame frame' : Co W → StackFrame W} {p : Pc W}
    (h : LocalsOk t x frame p) (hk : Keeps frame frame') : LocalsOk t x frame' p := by
  cases p with
  | co c p =>
    obtain ⟨hmain, hsched, hco, hcur, hthis⟩ := h
    exact ⟨hmain, hsched, hco, fun hp => hk.cur c (hcur hp), fun hp => hk.this c (hthis hp)⟩
  | _ => exact h

/-- A step that is one of the scheduler, with what it does to the variables. -/
theorem map_state (o : Option (State W)) (f : State W → System W) (hf : ∀ s, (f s).state = s) :
    (o.map f).map state = o := by
  cases o with
  | none => rfl
  | some s => exact congrArg some (hf s)

/-- The loop of a worker runs on its main coroutine. -/
theorem schedCo_of_ne {cfg : Config W} {t : Thread W} (h : t ≠ .caller) : schedCo cfg t = .main t := by
  cases t with
  | caller => exact absurd rfl h
  | worker w => rfl

variable [DecidableEq W]

/-- A frame may be written, if what it held of its own coroutine stays. -/
theorem Keeps.update {frame : Co W → StackFrame W} {c : Co W} {f : StackFrame W}
    (hcur : (frame c).cur = some c → f.cur = some c)
    (hthis : (frame c).this = some c → f.this = some c) :
    Keeps frame (Function.update frame c f) := by
  constructor
  · intro d hd
    by_cases h : d = c
    · rw [h] at hd ⊢
      rw [Function.update_self]
      exact hcur hd
    · rwa [Function.update_of_ne h]
  · intro d hd
    by_cases h : d = c
    · rw [h] at hd ⊢
      rw [Function.update_self]
      exact hthis hd
    · rwa [Function.update_of_ne h]

/-- The invariant. -/
structure Tracks (cfg : Config W) (y : System W) : Prop where
  active : Active cfg y.state
  locals : ∀ t, LocalsOk t (y.locals t) y.frame (y.state.pc t)
  caller : cfg.useCaller = true → (y.locals .caller).schedCo = some .schedulerco
  fresh : ∀ w, y.state.pc (.worker w) = .notStarted → y.locals (.worker w) = .null
  saved : ∀ t c p, Co.Of t c → (y.state.co c).mCtx = .co c p → p ≠ .entry →
    (y.frame c).cur = some c

variable {cfg : Config W} {y y' : System W} {t : Thread W} {c : Co W}

/-- At first no thread is in a coroutine. -/
theorem tracks_init (cfg : Config W) (cbs : List ℕ) : Tracks cfg (init cfg cbs) where
  active := Active.init cfg cbs
  locals t := by
    cases t <;> trivial
  caller h := by
    show (Locals.construct cfg).schedCo = _
    unfold Locals.construct
    rw [if_pos h]
  fresh _ _ := rfl
  saved t c p hof hctx hp := by
    cases c with
    | made k => cases hctx; exact absurd rfl hp
    | idle t' => cases hctx; exact absurd rfl hp
    | _ => exact hof.elim

/-- A context that is saved is that of a stack whose `MainFunc` has asked for `getThis`. -/
theorem Tracks.cur_of_saved (h : Tracks cfg y) {l : Label W} {s : State W} {p : CoPc}
    (hs : Scheduler.step cfg y.state l = some s) (hof : c.Of t)
    (hctx : (s.co c).mCtx = .co c p) (hp : p ≠ .entry) : (y.frame c).cur = some c := by
  rcases step_ctx hs fun t₁ => hof.ne_schedCo t₁ with hold | hentry | ⟨t₁, k, -, hpc₁, -⟩
  · rw [hold] at hctx
    exact h.saved t c p hof hctx hp
  · rw [hentry] at hctx
    cases hctx
    exact absurd rfl hp
  · -- the context has been saved by the `yield` of its own stack
    have hlocals₁ := h.locals t₁
    rw [hpc₁] at hlocals₁
    exact hlocals₁.2.2.2.1 nofun

/-- A step of thread `t`, which is to be looked at for `t` alone. -/
theorem Tracks.move {l : Label W} (h : Tracks cfg y)
    (hs : Scheduler.step cfg y.state l = some y'.state)
    (hpc : ∀ t', t' ≠ t → y'.state.pc t' = y.state.pc t')
    (hlocals : ∀ t', t' ≠ t → y'.locals t' = y.locals t') (hframe : Keeps y.frame y'.frame)
    (hself : LocalsOk t (y'.locals t) y'.frame (y'.state.pc t))
    (hsched : t = .caller → (y'.locals t).schedCo = (y.locals t).schedCo)
    (hfresh : y'.state.pc t ≠ .notStarted) : Tracks cfg y' where
  active := h.active.step hs
  locals t' := by
    by_cases ht : t' = t
    · rw [ht]
      exact hself
    · rw [hlocals t' ht, hpc t' ht]
      exact (h.locals t').keep hframe
  caller hu := by
    by_cases ht : .caller = t
    · rw [← ht] at hsched
      rw [hsched rfl]
      exact h.caller hu
    · rw [hlocals _ ht]
      exact h.caller hu
  fresh w hw := by
    by_cases ht : .worker w = t
    · rw [ht] at hw
      exact absurd hw hfresh
    · rw [hpc _ ht] at hw
      rw [hlocals _ ht]
      exact h.fresh w hw
  saved t' c p hof hctx hp := hframe.cur c (h.cur_of_saved hs hof hctx hp)

/-! ## The run loop -/

/-- Where the loop goes on, but for `resuem`. -/
theorem runStep_self {s : State W} {cbCo : Option ℕ} {p : RunPc W} (hleft : p ≠ .left)
    (hresume : ∀ x, p ≠ .turn x .resume) (hswap : ∀ x, p ≠ .turn x .swapIn) :
    ∃ cbCo' q, (Scheduler.runStep cfg s t cbCo p).pc t = .run cbCo' q ∧ ∀ x, q ≠ .turn x .swapIn := by
  have hself : ∀ (s : State W) cbCo' q, (∀ x, q ≠ .turn x .swapIn) →
      ∃ cbCo'' q', (s.setPc t (.run cbCo' q)).pc t = .run cbCo'' q' ∧ ∀ x, q' ≠ .turn x .swapIn :=
    fun s cbCo' q hq => ⟨cbCo', q, State.setPc_pc_self .., hq⟩
  cases p with
  | scan =>
    unfold Scheduler.runStep
    dsimp only
    split
    · exact hself _ _ _ (by simp)
    · exact hself _ _ _ (by simp)
  | dispatch task isActive =>
    show ∃ cbCo' q, (Scheduler.dispatch s t cbCo task isActive).pc t = _ ∧ _
    unfold Scheduler.dispatch
    split
    · exact hself _ _ _ (by simp)
    · split
      · exact hself _ _ _ (by simp)
      · exact hself _ _ _ (by simp)
      · split
        · exact hself _ _ _ (by simp)
        · split
          · exact hself _ _ _ (by simp)
          · exact hself _ _ _ (by simp)
  | turn x ph =>
    cases ph with
    | resume => exact absurd rfl (hresume x)
    | swapIn => exact absurd rfl (hswap x)
    | back => cases x <;> exact hself _ _ _ (by simp)
    | check =>
      show ∃ cbCo' q, (Scheduler.turnStep cfg s t cbCo x .check).pc t = _ ∧ _
      unfold Scheduler.turnStep
      dsimp only
      split <;> exact hself _ _ _ (by simp)
    | setHold => cases x <;> exact hself _ _ _ (by simp)
  | left => exact absurd rfl hleft

/-- In `run` the three thread-locals are the thread's own, and before a swap `co` is the coroutine
to swap to. -/
theorem Tracks.at_run (h : Tracks cfg y) {cbCo : Option ℕ} {p : RunPc W}
    (hpc : y.state.pc t = .run cbCo p) : t ≠ .caller ∧ p ≠ .left ∧
      (y.locals t).mainCo = some (.main t) ∧ (y.locals t).schedCo = some (.main t) ∧
      ∀ x, p = .turn x .swapIn → (y.locals t).co = some (x.co t) := by
  obtain ⟨hcaller, hleft, -⟩ := h.active.at_run hpc
  have hlocals := h.locals t
  rw [hpc] at hlocals
  exact ⟨hcaller, hleft, hlocals⟩

/-- With the thread-locals in step, `run` does what it does without them. -/
theorem runStep_state (h : Tracks cfg y) {cbCo : Option ℕ} {p : RunPc W}
    (hpc : y.state.pc t = .run cbCo p) :
    (y.runStep cfg t cbCo p).map state = some (Scheduler.runStep cfg y.state t cbCo p) := by
  obtain ⟨hcaller, -, -, hsched, -⟩ := h.at_run hpc
  cases p with
  | turn x ph =>
    cases ph with
    | swapIn =>
      show ((y.locals t).schedCo.map _).map state = _
      rw [hsched]
      show some (y.state.swapcontext t _ (.main t) (x.co t)) = some (y.state.swapcontext t _ (schedCo cfg t) _)
      rw [schedCo_of_ne hcaller]
    | _ => rfl
  | _ => rfl

/-- `run` keeps the thread-locals in step. -/
theorem Tracks.runStep (h : Tracks cfg y) {cbCo : Option ℕ} {p : RunPc W}
    (hpc : y.state.pc t = .run cbCo p)
    (hs : Scheduler.step cfg y.state (.thread t) = some y'.state)
    (hy : y.runStep cfg t cbCo p = some y') : Tracks cfg y' := by
  obtain ⟨hcaller, hleft, hmain, hsched, hco⟩ := h.at_run hpc
  have hstate : y'.state = Scheduler.runStep cfg y.state t cbCo p := by
    have hmap := runStep_state h hpc
    rw [hy] at hmap
    exact Option.some.inj hmap
  have hother : ∀ t', t' ≠ t → y'.state.pc t' = y.state.pc t' := by
    intro t' ht'
    rw [hstate]
    exact runStep_pc ht' cbCo p
  by_cases hresume : ∃ x, p = .turn x .resume
  · obtain ⟨x, rfl⟩ := hresume
    have hpc' : y'.state.pc t = .run cbCo (.turn x .swapIn) := by
      rw [hstate]
      exact State.setPc_pc_self ..
    rw [← Option.some.inj hy] at hother hpc' hs ⊢
    refine h.move hs hother (fun t' ht' => Function.update_of_ne ht' _ _) (.refl _) ?_ ?_ ?_
    · rw [hpc']
      dsimp only [setLocals]
      rw [Function.update_self]
      refine ⟨hmain, hsched, ?_⟩
      intro x' hx'
      cases hx'
      rfl
    · exact fun ht => absurd ht hcaller
    · rw [hpc']
      exact nofun
  by_cases hswap : ∃ x, p = .turn x .swapIn
  · obtain ⟨x, rfl⟩ := hswap
    have hof := Turn.of t x
    obtain ⟨p, hctx, hp⟩ := (h.active.saved t _ hof).ctx
    have hpc' : y'.state.pc t = .co (x.co t) p := by
      rw [hstate]
      show (y.state.swapcontext t _ (schedCo cfg t) (x.co t)).pc t = _
      rw [State.swapcontext_pc _ _ _ (hof.ne_schedCo t), Function.update_self, hctx]
    obtain ⟨sched, hsched', rfl⟩ := Option.map_eq_some_iff.mp hy
    refine h.move hs hother (fun _ _ => rfl) (.refl _) ?_ (fun _ => rfl) ?_
    · rw [hpc']
      refine ⟨hmain, hsched, fun _ => hco x rfl, fun hne => h.saved t _ p hof hctx hne, ?_⟩
      rcases hp with rfl | rfl | ⟨b, rfl⟩ <;> nofun
    · rw [hpc']
      exact nofun
  have hsame : y' = { y with state := Scheduler.runStep cfg y.state t cbCo p } := by
    cases p with
    | turn x ph =>
      cases ph with
      | resume => exact absurd ⟨x, rfl⟩ hresume
      | swapIn => exact absurd ⟨x, rfl⟩ hswap
      | _ => exact (Option.some.inj hy).symm
    | _ => exact (Option.some.inj hy).symm
  obtain ⟨cbCo', q, hpc', hq⟩ : ∃ cbCo' q, y'.state.pc t = .run cbCo' q ∧ ∀ x, q ≠ .turn x .swapIn := by
    rw [hstate]
    exact runStep_self hleft (fun x hx => hresume ⟨x, hx⟩) fun x hx => hswap ⟨x, hx⟩
  rw [hsame] at hs hother hpc' ⊢
  refine h.move hs hother (fun _ _ => rfl) (.refl _) ?_ (fun _ => rfl) ?_
  · rw [hpc']
    exact ⟨hmain, hsched, fun x hx => absurd hx (hq x)⟩
  · rw [hpc']
    exact nofun

/-! ## The stack of a coroutine -/

/-- In a coroutine `co` is that coroutine, and the pointers on its stack point to it. -/
theorem Tracks.at_co (h : Tracks cfg y) {p : CoPc} (hpc : y.state.pc t = .co c p) :
    t ≠ .caller ∧ c.Of t ∧ (y.locals t).mainCo = some (.main t) ∧
      (y.locals t).schedCo = some (.main t) ∧ (hasThis p = true → (y.locals t).co = some c) ∧
      (p ≠ .entry → (y.frame c).cur = some c) ∧ (inYield p = true → (y.frame c).this = some c) := by
  obtain ⟨hcaller, hof, -⟩ := h.active.at_co hpc
  have hlocals := h.locals t
  rw [hpc] at hlocals
  exact ⟨hcaller, hof, hlocals⟩

/-- `getThis()` on a stack is the coroutine of the stack. -/
theorem Tracks.getThis (h : Tracks cfg y) {p : CoPc} (hpc : y.state.pc t = .co c p)
    (hp : hasThis p = true) : (y.locals t).getThis t = (c, y.locals t) := by
  obtain ⟨-, -, -, -, hco, -⟩ := h.at_co hpc
  unfold Locals.getThis
  rw [hco hp]

/-- Where a thread stays on its stack. -/
theorem Tracks.onStack (h : Tracks cfg y) {p q : CoPc} {s : State W} {x : Locals W} {f : StackFrame W}
    (hpc : y.state.pc t = .co c p) (hs : Scheduler.step cfg y.state (.thread t) = some s ∨
      ∃ a, Scheduler.step cfg y.state (.body t a) = some s)
    (hother : ∀ t', t' ≠ t → s.pc t' = y.state.pc t') (hpc' : s.pc t = .co c q)
    (hmain : x.mainCo = (y.locals t).mainCo) (hsched : x.schedCo = (y.locals t).schedCo)
    (hco : hasThis q = true → x.co = some c) (hcur : f.cur = some c)
    (hthis : f.this = some c ∨ inYield q = false ∧ f.this = (y.frame c).this) :
    Tracks cfg { (y.setLocals t x).setFrame c f with state := s } := by
  obtain ⟨hcaller, -, hmain', hsched', -⟩ := h.at_co hpc
  obtain ⟨l, hs⟩ : ∃ l, Scheduler.step cfg y.state l = some s := by
    rcases hs with hs | ⟨a, hs⟩
    · exact ⟨_, hs⟩
    · exact ⟨_, hs⟩
  have hkeep : Keeps y.frame (Function.update y.frame c f) := by
    refine .update (fun _ => hcur) fun hold => ?_
    rcases hthis with hthis | ⟨-, hthis⟩
    · exact hthis
    · rw [hthis, hold]
  refine h.move hs hother (fun t' ht' => Function.update_of_ne ht' _ _) hkeep ?_ ?_ ?_
  · dsimp only [setFrame, setLocals]
    rw [hpc', Function.update_self]
    refine ⟨hmain.trans hmain', hsched.trans hsched', hco, fun _ => ?_, fun hq => ?_⟩
    · rw [Function.update_self]
      exact hcur
    · rw [Function.update_self]
      rcases hthis with hthis | ⟨hnot, -⟩
      · exact hthis
      · rw [hq] at hnot
        cases hnot
  · exact fun ht => absurd ht hcaller
  · dsimp only [setFrame, setLocals]
    rw [hpc']
    exact nofun

/-- Writing the thread-locals that are there changes nothing. -/
theorem setLocals_self (y : System W) (t : Thread W) : y.setLocals t (y.locals t) = y := by
  unfold setLocals
  rw [Function.update_eq_self]

/-- Writing the frame that is there changes nothing. -/
theorem setFrame_self (y : System W) (c : Co W) : y.setFrame c (y.frame c) = y := by
  unfold setFrame
  rw [Function.update_eq_self]

/-- Where the thread stays on its stack and nothing else is written. -/
theorem Tracks.stays (h : Tracks cfg y) {p q : CoPc} {s : State W} (hpc : y.state.pc t = .co c p)
    (hs : Scheduler.step cfg y.state (.thread t) = some s ∨
      ∃ a, Scheduler.step cfg y.state (.body t a) = some s)
    (hother : ∀ t', t' ≠ t → s.pc t' = y.state.pc t') (hpc' : s.pc t = .co c q) (hp : p ≠ .entry)
    (hthis : hasThis p = true) (hyield : inYield q = false) : Tracks cfg { y with state := s } := by
  obtain ⟨-, -, -, -, hco, hcur, -⟩ := h.at_co hpc
  have hmove := h.onStack (x := y.locals t) (f := y.frame c) hpc hs hother hpc' rfl rfl
    (fun _ => hco hthis) (hcur hp) (Or.inr ⟨hyield, rfl⟩)
  rwa [setLocals_self, setFrame_self] at hmove

/-- With the thread-locals in step, `MainFunc` and `yield` do what they do without them. -/
theorem coStep_state (h : Tracks cfg y) {p : CoPc} (hpc : y.state.pc t = .co c p) :
    (y.coStep cfg t c p).map state = Scheduler.coStep cfg y.state t c p := by
  obtain ⟨hcaller, -, -, hsched, -, hcur, hthis⟩ := h.at_co hpc
  cases p with
  | entry =>
    unfold coStep Scheduler.coStep
    rw [h.getThis hpc rfl]
    dsimp only
    cases (y.state.co c).mCb with
    | none => rfl
    | some cb => cases cb <;> rfl
  | returned =>
    unfold coStep
    rw [hcur nofun]
    rfl
  | yieldtohold =>
    unfold coStep
    rw [h.getThis hpc rfl]
    rfl
  | yield k =>
    unfold coStep
    rw [hthis rfl]
    rfl
  | swapOut k =>
    unfold coStep Scheduler.coStep
    rw [hthis rfl, hsched, schedCo_of_ne hcaller]
    rfl
  | body => exact map_state _ _ fun _ => rfl
  | fallOff b => rfl

/-- `MainFunc` and `yield` keep the thread-locals in step. -/
theorem Tracks.coStep (h : Tracks cfg y) {p : CoPc} (hpc : y.state.pc t = .co c p)
    (hs : Scheduler.step cfg y.state (.thread t) = some y'.state)
    (hy : y.coStep cfg t c p = some y') : Tracks cfg y' := by
  obtain ⟨hcaller, hof, hmain, hsched, hco, hcur, hthis⟩ := h.at_co hpc
  have hbase : Scheduler.coStep cfg y.state t c p = some y'.state := by
    rw [← coStep_state h hpc, hy]
    rfl
  have hother := (coStep_frame hbase).pc
  cases p with
  | entry =>
    unfold System.coStep at hy
    rw [h.getThis hpc rfl] at hy
    dsimp only at hy
    split at hy
    case h_1 =>
      rw [← Option.some.inj hy] at hs hother ⊢
      exact h.onStack hpc (Or.inl hs) hother (State.setPc_pc_self ..) rfl rfl (fun _ => hco rfl) rfl
        (Or.inl rfl)
    case h_2 hrun => exact absurd hrun (h.active.saved t c hof).cb
    case h_3 =>
      rw [← Option.some.inj hy] at hs hother ⊢
      exact h.onStack hpc (Or.inl hs) hother (State.setPc_pc_self ..) rfl rfl (fun _ => hco rfl) rfl
        (Or.inr ⟨rfl, rfl⟩)
  | returned =>
    unfold System.coStep at hy
    rw [hcur nofun] at hy
    have hpc' : y'.state.pc t = .co c (.yield (.mainFunc true)) := by
      rw [← Option.some.inj hy]
      exact State.setPc_pc_self ..
    have hmove := h.onStack (x := y.locals t) (f := { y.frame c with this := some c }) hpc
      (Or.inl hs) hother hpc' rfl rfl (fun _ => hco rfl) (hcur nofun) (Or.inl rfl)
    rw [setLocals_self] at hmove
    rw [← Option.some.inj hy] at hmove ⊢
    exact hmove
  | yieldtohold =>
    unfold System.coStep at hy
    rw [h.getThis hpc rfl] at hy
    rw [← Option.some.inj hy] at hs hother ⊢
    exact h.onStack hpc (Or.inl hs) hother (State.setPc_pc_self ..) rfl rfl (fun _ => hco rfl)
      (hcur nofun) (Or.inl rfl)
  | yield k =>
    unfold System.coStep at hy
    rw [hthis rfl] at hy
    rw [← Option.some.inj hy] at hs hother ⊢
    have hmove := h.onStack (x := (y.locals t).setThis (y.locals t).mainCo) (f := y.frame c) hpc
      (Or.inl hs) hother (State.setPc_pc_self ..) rfl rfl nofun (hcur nofun) (Or.inl (hthis rfl))
    rwa [show (y.setLocals t _).setFrame c (y.frame c) = y.setLocals t _ from setFrame_self _ c]
      at hmove
  | swapOut k =>
    unfold System.coStep at hy
    rw [hthis rfl, hsched] at hy
    obtain ⟨-, -, cbCo, x, hctx⟩ := h.active.at_co hpc
    have hpc' : y'.state.pc t = .run cbCo (.turn x .back) := by
      rw [← Option.some.inj hbase, State.swapcontext_pc _ _ _ (hof.ne_schedCo t).symm,
        Function.update_self, hctx]
    rw [← Option.some.inj hy] at hs hother hpc' ⊢
    refine h.move hs hother (fun _ _ => rfl) (.refl _) ?_ (fun _ => rfl) ?_
    · rw [hpc']
      exact ⟨hmain, hsched, nofun⟩
    · rw [hpc']
      exact nofun
  | body =>
    obtain ⟨s, hbody, rfl⟩ := Option.map_eq_some_iff.mp hy
    obtain ⟨q, hpc', hq⟩ : ∃ q, s.pc t = .co c q ∧ inYield q = false := by
      unfold Scheduler.coStep at hbody
      dsimp only at hbody
      split at hbody
      · rw [← Option.some.inj hbody]
        refine ⟨_, State.setPc_pc_self .., ?_⟩
        split <;> rfl
      · cases hbody
    exact h.stays hpc (Or.inl hs) hother hpc' nofun rfl hq
  | fallOff b =>
    rw [← Option.some.inj hy] at hs hother ⊢
    refine h.move hs hother (fun _ _ => rfl) (.refl _) ?_ (fun _ => rfl) ?_
    · rw [State.setPc_pc_self]
      trivial
    · rw [State.setPc_pc_self]
      exact nofun

/-- With the thread-locals in step, what runs in the coroutine does what it does without them. -/
theorem bodyStep_state (h : Tracks cfg y) (hpc : y.state.pc t = .co c .body) (a : Act) :
    (y.bodyStep t c a).map state = Scheduler.bodyStep y.state t c a := by
  cases a with
  | addEvent =>
    unfold bodyStep Scheduler.bodyStep
    dsimp only
    rw [h.getThis hpc rfl]
    cases c <;> rfl
  | yield =>
    unfold bodyStep Scheduler.bodyStep
    dsimp only
    rw [h.getThis hpc rfl]
    rfl
  | yieldtohold => rfl
  | trigerEvent i => exact map_state (Scheduler.bodyStep y.state t c (.trigerEvent i)) _ fun _ => rfl
  | ret => exact map_state (Scheduler.bodyStep y.state t c .ret) _ fun _ => rfl

/-- What runs in the coroutine keeps the thread-locals in step. -/
theorem Tracks.bodyStep (h : Tracks cfg y) {a : Act} (hpc : y.state.pc t = .co c .body)
    (hs : Scheduler.step cfg y.state (.body t a) = some y'.state)
    (hy : y.bodyStep t c a = some y') : Tracks cfg y' := by
  obtain ⟨-, -, -, -, hco, hcur, -⟩ := h.at_co hpc
  have hbase : Scheduler.bodyStep y.state t c a = some y'.state := by
    rw [← bodyStep_state h hpc, hy]
    rfl
  have hother := (bodyStep_frame hbase).pc
  cases a with
  | addEvent =>
    unfold System.bodyStep at hy
    dsimp only at hy
    rw [h.getThis hpc rfl] at hy
    split at hy
    case h_1 k x hthis =>
      cases hthis
      rw [← Option.some.inj hy, setLocals_self] at hs hother ⊢
      exact h.stays hpc (Or.inr ⟨_, hs⟩) hother hpc nofun rfl rfl
    case h_2 => cases hy
  | yield =>
    unfold System.bodyStep at hy
    dsimp only at hy
    rw [h.getThis hpc rfl] at hy
    rw [← Option.some.inj hy] at hs hother ⊢
    exact h.onStack hpc (Or.inr ⟨_, hs⟩) hother (State.setPc_pc_self ..) rfl rfl (fun _ => hco rfl)
      (hcur nofun) (Or.inl rfl)
  | yieldtohold =>
    rw [← Option.some.inj hy] at hs hother ⊢
    exact h.stays hpc (Or.inr ⟨_, hs⟩) hother (State.setPc_pc_self ..) nofun rfl rfl
  | trigerEvent i =>
    obtain ⟨s, hbody, rfl⟩ := Option.map_eq_some_iff.mp hy
    have hpc' : s.pc t = .co c .body := by
      unfold Scheduler.bodyStep at hbody
      dsimp only at hbody
      split at hbody
      · rw [← Option.some.inj hbody, State.addTask_pc]
        exact hpc
      · cases hbody
    exact h.stays hpc (Or.inr ⟨_, hs⟩) hother hpc' nofun rfl rfl
  | ret =>
    obtain ⟨s, hbody, rfl⟩ := Option.map_eq_some_iff.mp hy
    have hpc' : s.pc t = .co c .returned := by
      unfold Scheduler.bodyStep at hbody
      dsimp only at hbody
      split at hbody
      · rw [← Option.some.inj hbody]
        exact State.setPc_pc_self ..
      · cases hbody
    exact h.stays hpc (Or.inr ⟨_, hs⟩) hother hpc' nofun rfl rfl

/-! ## The owner's thread -/

/-- Apart from the swap in `stop`, the caller's step sets its thread-locals beside it. -/
theorem callerStep_of_ne {q : CallerPc W} (hq : q ≠ .swapIn) : y.callerStep cfg q =
    (Scheduler.callerStep cfg y.state q).map fun s => ⟨s, y.callerLocals cfg q, y.frame⟩ := by
  cases q with
  | swapIn => exact absurd rfl hq
  | _ => rfl

/-- With the thread-locals in step, `start`, `addTask` and `stop` do what they do without them. -/
theorem callerStep_state (h : Tracks cfg y) {q : CallerPc W} (hpc : y.state.pc .caller = .caller q) :
    (y.callerStep cfg q).map state = Scheduler.callerStep cfg y.state q := by
  obtain ⟨-, huse⟩ := h.active.at_caller hpc
  by_cases hq : q = .swapIn
  · subst hq
    have hu := huse (Or.inr rfl)
    have hsched : schedCo cfg .caller = .schedulerco := if_pos hu
    unfold callerStep Scheduler.callerStep
    dsimp only
    rw [h.caller hu, hsched]
    rfl
  · rw [callerStep_of_ne hq]
    exact map_state _ _ fun _ => rfl

/-- No step of the owner touches `sched_co` of its thread. -/
theorem callerLocals_schedCo (q : CallerPc W) :
    (y.callerLocals cfg q .caller).schedCo = (y.locals .caller).schedCo := by
  cases q <;> rfl

/-- Only `start` sets the thread-locals of a worker. -/
theorem callerLocals_worker {q : CallerPc W} (hq : ∀ cbs, q ≠ .start cbs) (w : W) :
    y.callerLocals cfg q (.worker w) = y.locals (.worker w) := by
  cases q with
  | start cbs => exact absurd rfl (hq cbs)
  | _ => rfl

/-- `start` leaves every new thread where `run` has set its thread-locals. -/
theorem Tracks.start (h : Tracks cfg y) {cbs : List ℕ}
    (hpc : y.state.pc .caller = .caller (.start cbs))
    (hs : Scheduler.step cfg y.state (.thread .caller) = some y'.state)
    (hy : y.callerStep cfg (.start cbs) = some y') : Tracks cfg y' := by
  rw [callerStep_of_ne (by simp)] at hy
  obtain ⟨s, hbase, rfl⟩ := Option.map_eq_some_iff.mp hy
  obtain ⟨q', hpc', -, -⟩ := callerStep_self (by simp) hbase
  -- a worker has been started and has asked for `getThis`, or is where it was
  have hworker : ∀ w, (s.pc (.worker w) = .notStarted ∧
        y.callerLocals cfg (.start cbs) (.worker w) = .null) ∨
      s.pc (.worker w) = .run none .scan ∧ y.callerLocals cfg (.start cbs) (.worker w) =
        (Locals.null : Locals W).enterRun cfg (.worker w) := by
    intro w
    have hns := h.active.started cbs hpc w
    have hlocals : y.callerLocals cfg (.start cbs) (.worker w) =
        if y.state.stopping = true ∧ w ∈ cfg.workers then
          (Locals.null : Locals W).enterRun cfg (.worker w)
        else .null := by
      rw [← h.fresh w hns]
      rfl
    rw [hlocals, ← Option.some.inj hbase]
    by_cases hstop : y.state.stopping = true
    · rw [if_pos hstop]
      by_cases hw : w ∈ cfg.workers
      · right
        rw [if_pos ⟨hstop, hw⟩]
        exact ⟨if_pos hw, rfl⟩
      · left
        rw [if_neg fun hand => hw hand.2]
        exact ⟨(if_neg hw).trans hns, rfl⟩
    · left
      rw [if_neg hstop, if_neg fun hand => hstop hand.1]
      exact ⟨hns, rfl⟩
  constructor
  case active => exact h.active.step hs
  case locals =>
    intro t
    cases t with
    | caller =>
      rw [hpc']
      trivial
    | worker w =>
      rcases hworker w with ⟨hns, -⟩ | ⟨hrun, hlocals⟩
      · rw [hns]
        trivial
      · rw [hrun]
        dsimp only
        rw [hlocals]
        exact ⟨rfl, rfl, nofun⟩
  case caller => exact h.caller
  case fresh =>
    intro w hw
    rcases hworker w with ⟨-, hnull⟩ | ⟨hrun, -⟩
    · exact hnull
    · rw [hrun] at hw
      cases hw
  case saved =>
    exact fun t c p hof hctx hp => h.cur_of_saved hs hof hctx hp

/-- The other steps of the caller keep the thread-locals in step. -/
theorem Tracks.callerStep (h : Tracks cfg y) {q : CallerPc W}
    (hpc : y.state.pc .caller = .caller q) (hq : ∀ cbs, q ≠ .start cbs)
    (hs : Scheduler.step cfg y.state (.thread .caller) = some y'.state)
    (hy : y.callerStep cfg q = some y') : Tracks cfg y' := by
  obtain ⟨-, huse⟩ := h.active.at_caller hpc
  have hbase : Scheduler.callerStep cfg y.state q = some y'.state := by
    rw [← callerStep_state h hpc, hy]
    rfl
  obtain ⟨q', hpc', -, -⟩ := callerStep_self huse hbase
  have hother := (callerStep_frame hbase).pc hq
  have hnotStarted : y'.state.pc .caller ≠ .notStarted := by
    rw [hpc']
    exact nofun
  have hself : ∀ x : Locals W, LocalsOk .caller x y.frame (y'.state.pc .caller) := by
    intro x
    rw [hpc']
    trivial
  by_cases hswap : q = .swapIn
  · subst hswap
    obtain ⟨sched, -, rfl⟩ := Option.map_eq_some_iff.mp hy
    exact h.move hs hother (fun _ _ => rfl) (.refl _) (hself _) (fun _ => rfl) hnotStarted
  · rw [callerStep_of_ne hswap] at hy
    obtain ⟨s, -, rfl⟩ := Option.map_eq_some_iff.mp hy
    refine h.move hs hother ?_ (.refl _) (hself _) (fun _ => callerLocals_schedCo q) hnotStarted
    intro t' ht'
    cases t' with
    | caller => exact absurd rfl ht'
    | worker w => exact callerLocals_worker hq w

/-! ## Every step -/

/-- One step of the model with thread-locals is one step of the model without. -/
theorem step_state (h : Tracks cfg y) (l : Label W) :
    (y.step cfg l).map state = Scheduler.step cfg y.state l := by
  cases l with
  | thread t =>
    unfold step Scheduler.step
    dsimp only
    cases hpc : y.state.pc t with
    | caller q =>
      obtain rfl := (h.active.at_caller hpc).1
      exact callerStep_state h hpc
    | run cbCo p => exact runStep_state h hpc
    | co c p => exact coStep_state h hpc
    | _ => rfl
  | body t a =>
    unfold step Scheduler.step
    dsimp only
    cases hpc : y.state.pc t with
    | co c p =>
      cases p with
      | body => exact bodyStep_state h hpc a
      | _ => rfl
    | _ => rfl
  | addTask task => exact map_state (Scheduler.step cfg y.state (.addTask task)) _ fun _ => rfl
  | create cb st => rfl
  | reset c cb => exact map_state (Scheduler.step cfg y.state (.reset c cb)) _ fun _ => rfl

/-- What the rest of the program does. -/
theorem Tracks.env (h : Tracks cfg y) {l : Label W} {s : State W}
    (hs : Scheduler.step cfg y.state l = some s) (hpc : s.pc = y.state.pc) :
    Tracks cfg { y with state := s } where
  active := h.active.step hs
  locals t := by
    dsimp only
    rw [hpc]
    exact h.locals t
  caller := h.caller
  fresh w hw := h.fresh w ((congrFun hpc _).symm.trans hw)
  saved _ _ _ hof hctx hp := h.cur_of_saved hs hof hctx hp

/-- Every step keeps the invariant. -/
theorem Tracks.step (h : Tracks cfg y) {l : Label W} (hy : y.step cfg l = some y') :
    Tracks cfg y' := by
  have hs : Scheduler.step cfg y.state l = some y'.state := by
    rw [← step_state h l, hy]
    rfl
  cases l with
  | thread t =>
    unfold System.step at hy
    dsimp only at hy
    split at hy
    case h_1 q hpc =>
      obtain rfl := (h.active.at_caller hpc).1
      by_cases hq : ∃ cbs, q = .start cbs
      · obtain ⟨cbs, rfl⟩ := hq
        exact h.start hpc hs hy
      · exact h.callerStep hpc (fun cbs hcbs => hq ⟨cbs, hcbs⟩) hs hy
    case h_2 cbCo p hpc => exact h.runStep hpc hs hy
    case h_3 c p hpc => exact h.coStep hpc hs hy
    case h_4 => cases hy
  | body t a =>
    unfold System.step at hy
    dsimp only at hy
    split at hy
    case h_1 c hpc => exact h.bodyStep hpc hs hy
    case h_2 => cases hy
  | addTask task =>
    obtain ⟨s, hadd, rfl⟩ := Option.map_eq_some_iff.mp hy
    refine h.env hadd ?_
    obtain ⟨-, heq⟩ := Option.ite_none_right_eq_some.mp hadd
    rw [← Option.some.inj heq]
    exact State.addTask_pc ..
  | create cb st =>
    rw [← Option.some.inj hy] at hs ⊢
    exact h.env hs rfl
  | reset c cb =>
    obtain ⟨s, hreset, rfl⟩ := Option.map_eq_some_iff.mp hy
    refine h.env hreset ?_
    obtain ⟨-, heq⟩ := Option.ite_none_right_eq_some.mp hreset
    rw [← Option.some.inj heq]
    rfl

/-- The code with the `thread_local` variables does, step for step, what `Scheduler.step` does, so
that it follows no null pointer and has the same runs; and `getThis()` on the stack of a coroutine,
wherever the code there asks for it, is that coroutine. -/
theorem locals_refine (cfg : Config W) (cbs : List ℕ) :
    (∀ y, Run (System.step cfg) anyStep (init cfg cbs) y →
      Run (Scheduler.step cfg) anyStep (Scheduler.init cbs) y.state ∧
        (∀ l, (y.step cfg l).map state = Scheduler.step cfg y.state l) ∧
        ∀ t c p, y.state.pc t = .co c p → hasThis p = true → ((y.locals t).getThis t).1 = c) ∧
      ∀ s, Run (Scheduler.step cfg) anyStep (Scheduler.init cbs) s →
        ∃ y, Run (System.step cfg) anyStep (init cfg cbs) y ∧ y.state = s := by
  constructor
  · intro y h
    have hsim : Tracks cfg y ∧
        Run (Scheduler.step cfg) anyStep (init cfg cbs).state y.state := by
      refine h.simulates (tracks_init cfg cbs) fun y l y' hy _ hs => ⟨hy.step hs, l, trivial, ?_⟩
      rw [← step_state hy l, hs]
      rfl
    obtain ⟨htracks, hrun⟩ := hsim
    refine ⟨hrun, step_state htracks, fun t c p hpc hp => ?_⟩
    rw [htracks.getThis hpc hp]
  · intro s h
    have hlift : ∃ y, Run (System.step cfg) anyStep (init cfg cbs) y ∧ y.state = s ∧ Tracks cfg y := by
      refine Run.lifts h (tracks_init cfg cbs) fun y l s' hy _ hs => ?_
      rw [← step_state hy l] at hs
      obtain ⟨y', hy', heq⟩ := Option.map_eq_some_iff.mp hs
      exact ⟨l, y', trivial, hy', heq, hy.step hy'⟩
    obtain ⟨y, hrun, heq, -⟩ := hlift
    exact ⟨y, hrun, heq⟩

end System

end CoKV.Scheduler
