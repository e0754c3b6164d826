import CoKV.Hook.Waits
import CoKV.IOManager.Contexts
import CoKV.Lib.Run
import CoKV.Time.ExpireTheorems
import CoKV.Time.OnceTheorems

/-!
# Callbacks in time

`callbacks_in_time`: no callback runs behind its call, and none cancels what a later call has
registered, as long as no coroutine goes on while its callback is in the task queue, no timer is
collected whose coroutine has gone on, and no later call waits for the same event meanwhile.
`timer->cancel()` does not reach a callback that has been collected.
-/

namespace CoKV.Hook

/-! ## Timers -/

section Timers

variable {s s' : Time.State}

/-- Timers have left the set, and those that are left are as they were. -/
structure Fewer (s s' : Time.State) : Prop where
  holds : Time.Holds s' []
  nextTimer : s.nextTimer ≤ s'.nextTimer
  timers : ∀ t ∈ s'.timers, t ∈ s.timers ∧ s'.timer t = s.timer t

/-- `cancel` takes its timer out of the set and touches no other. -/
theorem fewer_cancel {t : ℕ} (h : Time.Holds s []) (hs : Time.step s (.cancel t) = some s') :
    Fewer s s' ∧ t ∉ s'.timers := by
  have hholds := h.step hs
  cases h.effect hs with
  | idle hidle => exact ⟨⟨h, le_rfl, fun _ ht => ⟨ht, rfl⟩⟩, h.not_pending hidle⟩
  | cancel ht =>
    have hnot : t ∉ (({ s with timers := s.timers.erase t } : Time.State).setTimer t
        { s.timer t with cb := none }).timers :=
      hholds.not_pending (congrArg Time.Timer.cb (Time.setTimer_timer_self ..))
    refine ⟨⟨hholds, le_rfl, fun a ha => ⟨List.mem_of_mem_erase ha, ?_⟩⟩, hnot⟩
    refine Time.setTimer_timer_of_ne _ _ ?_
    rintro rfl
    exact hnot ha

/-- One-shot timers are collected with their callbacks, and have left the set. -/
theorem fewer_listExpiredCb {now : UInt64} {probe : ℕ} (h : Time.Holds s [])
    (honce : ∀ t ∈ s.timers, (s.timer t).recurring = false)
    (hs : Time.step s (.listExpiredCb now probe) = some s') :
    Fewer s s' ∧ ∀ f ∈ (s.listExpiredCb now probe).1.filterMap Prod.snd,
      ∃ t ∈ s.timers, (s.timer t).next ≤ now ∧ (s.timer t).cb = some f := by
  have hholds := h.step hs
  have he := h.inOrder.expires now probe
  have hnext := (h.later hs).nextTimer
  cases hs
  refine ⟨⟨hholds, hnext, ?_⟩, ?_⟩
  · intro t ht
    obtain ⟨hmem, hlater⟩ := (he.timers t).mp ht
    rw [honce t hmem, or_iff_left Bool.false_ne_true] at hlater
    exact ⟨hmem, he.unchanged t fun hexpired => absurd hlater (UInt64.not_lt.mpr hexpired.2)⟩
  · intro f hf
    obtain ⟨⟨t, cb⟩, hmem, hcb⟩ := List.mem_filterMap.mp hf
    rw [he.collected] at hmem
    obtain ⟨t', ht', heq⟩ := List.mem_map.mp hmem
    cases heq
    obtain ⟨hpending, hle⟩ := List.mem_filter.mp ht'
    exact ⟨t, hpending, by simpa using hle, hcb⟩

/-- A new timer. -/
structure Added (s s' : Time.State) (cb : ℕ) : Prop where
  holds : Time.Holds s' []
  nextTimer : s'.nextTimer = s.nextTimer + 1
  timers : ∀ t ∈ s'.timers, t = s.nextTimer ∨ t ∈ s.timers ∧ s'.timer t = s.timer t
  recurring : (s'.timer s.nextTimer).recurring = false
  cb : (s'.timer s.nextTimer).cb = some cb

/-- A new timer is the only one that is new in the set. -/
theorem added_addTimer {ms now : UInt64} {cb addr : ℕ} (h : Time.Holds s [])
    (hs : Time.step s (.addTimer ms cb false now addr) = some s') : Added s s' cb := by
  have hholds := h.step hs
  cases h.effect hs with
  | idle hidle => exact absurd hidle id
  | addTimer haddr =>
    have hself : (s.newTimer ms cb false now addr).timer s.nextTimer
        = ⟨false, ms, now + ms, some cb, addr⟩ := Time.setTimer_timer_self ..
    refine ⟨hholds, rfl, ?_, by rw [hself], by rw [hself]⟩
    intro t ht
    by_cases heq : t = s.nextTimer
    · exact Or.inl heq
    · right
      have hsame : (s.newTimer ms cb false now addr).timer t = s.timer t :=
        Time.setTimer_timer_of_ne s _ heq
      obtain ⟨hlt, hcb⟩ := (hholds.pending t).mp ht
      rw [hsame] at hcb
      have hlt' : t < s.nextTimer + 1 := hlt
      exact ⟨(h.pending t).mpr ⟨by omega, hcb⟩, hsame⟩

end Timers

/-! ## Where a callback belongs -/

/-- The coroutine that has made a timer is in the call for which it has, with this timer. -/
def Waits.InStage (s : Waits) (f : ℕ) (P : Stage → Prop) : Prop :=
  ∃ stage, P stage ∧ s.pc (s.call (s.armedBy f)).co = some ⟨s.armedBy f, stage, some f⟩

/-- Behind `addTimer`, and before `timer->cancel()`. -/
def Stage.Holding (stage : Stage) : Prop :=
  stage = .armed ∨ stage = .refused ∨ stage = .yielded ∨ stage = .resumed

/-- Before the coroutine goes on. -/
def Stage.Waiting (stage : Stage) : Prop := stage = .armed ∨ stage = .yielded

/-- The callback is in the task queue, or has been begun. -/
def Pending (s : Waits) (f : ℕ) : Prop := s.callback f = .queued ∨ s.callback f = .written

/-- The event of a callback is registered for a later call. -/
def LaterRegistered (s : Waits) (f : ℕ) : Prop :=
  let c := s.call (s.armedBy f)
  ((s.ctx c.fd).getEventContext c.event).co ≠ none ∧ s.armedBy f < s.registrant c.fd c.event

/-- A callback runs in its call, and the waiter that it schedules is not that of a later call. -/
def Deed.InTime : Deed → Prop
  | .wrote _ returned => returned = false
  | .cancelled call returned victim => returned = false ∧ ∀ v, victim = some v → v ≤ call

def InTime (s : Waits) : Prop := ∀ d ∈ s.log, d.InTime

/-- No coroutine goes on while its callback is pending; no timer is collected whose coroutine has
gone on; and while a callback is pending no later call has registered its event. -/
def Orderly (s : Waits) : Label → Prop
  | .resume co => ∀ p f, s.pc co = some p → p.timer = some f → ¬ Pending s f
  | .addEvent co success => ∀ p, s.pc co = some p →
      (success = false → ∀ f, p.timer = some f → ¬ Pending s f) ∧
      ∀ f, Pending s f → (s.call (s.armedBy f)).fd = (s.call p.call).fd →
        (s.call (s.armedBy f)).event = (s.call p.call).event → p.call ≤ s.armedBy f
  | .listExpiredCb now _ => ∀ t ∈ s.timers.timers, (s.timers.timer t).next ≤ now →
      s.InStage t Stage.Waiting ∧ ¬ LaterRegistered s t
  | _ => True

/-- What the runs keep. -/
structure Inv (s : Waits) : Prop where
  holds : Time.Holds s.timers []
  oneShot : ∀ t ∈ s.timers.timers,
    (s.timers.timer t).recurring = false ∧ (s.timers.timer t).cb = some t
  holding : ∀ t ∈ s.timers.timers, s.InStage t Stage.Holding
  waiting : ∀ f, Pending s f → s.InStage f Stage.Waiting
  first : ∀ f, Pending s f → ¬ LaterRegistered s f
  made : ∀ f, Pending s f → f < s.timers.nextTimer
  places : ∀ co p, s.pc co = some p → p.call < s.nextCall ∧ (s.call p.call).co = co
  events : ∀ c < s.nextCall, (s.call c).event ≠ .none
  inTime : InTime s

section Runs

variable {s s' : Waits} {f co : ℕ} {P : Stage → Prop} {p : Place} {p' : Option Place}

/-- A call in a stage has not returned. -/
theorem Waits.InStage.inside (h : s.InStage f P) : s.returned (s.armedBy f) = false := by
  obtain ⟨stage, -, hpc⟩ := h
  unfold Waits.returned
  rw [hpc]
  simp

/-- A call stays in its stage while its coroutine stays where it is. -/
theorem Waits.InStage.congr (h : s.InStage f P) (harmed : s'.armedBy f = s.armedBy f)
    (hcall : s'.call (s.armedBy f) = s.call (s.armedBy f))
    (hpc : ∀ p, s.pc (s.call (s.armedBy f)).co = some p → s'.pc (s.call (s.armedBy f)).co = some p) :
    s'.InStage f P := by
  obtain ⟨stage, hP, hplace⟩ := h
  refine ⟨stage, hP, ?_⟩
  rw [harmed, hcall]
  exact hpc _ hplace

/-- A later waiter that is in the slot was in it before. -/
theorem LaterRegistered.congr (h : LaterRegistered s' f) (harmed : s'.armedBy f = s.armedBy f)
    (hcall : s'.call (s.armedBy f) = s.call (s.armedBy f))
    (hslot : ∀ fd ev, ((s'.ctx fd).getEventContext ev).co ≠ none →
      ((s.ctx fd).getEventContext ev).co ≠ none)
    (hregistrant : s'.registrant = s.registrant) : LaterRegistered s f := by
  unfold LaterRegistered at h
  rw [harmed, hcall, hregistrant] at h
  exact ⟨hslot _ _ h.1, h.2⟩

/-- A coroutine moves; its own callback has to be looked at. -/
theorem Waits.InStage.setPc (h : s.InStage f P) (hpc : s.pc co = some p)
    (hown : p.timer = some f → P p.stage → ∃ stage, P stage ∧ p' = some ⟨p.call, stage, some f⟩) :
    (s.setPc co p').InStage f P := by
  by_cases hco : (s.call (s.armedBy f)).co = co
  · obtain ⟨stage, hstage, hplace⟩ := h
    rw [hco, hpc] at hplace
    cases hplace
    obtain ⟨stage', hstage', hp'⟩ := hown rfl hstage
    refine ⟨stage', hstage', ?_⟩
    show Function.update s.pc co p' (s.call (s.armedBy f)).co = some ⟨s.armedBy f, stage', some f⟩
    rw [hco, Function.update_self, hp']
  · refine h.congr rfl rfl fun q hq => ?_
    show Function.update s.pc co p' (s.call (s.armedBy f)).co = some q
    rw [Function.update_of_ne hco]
    exact hq

/-- At first there is no call. -/
theorem Inv.start : Inv Waits.start where
  holds := Time.Holds.init
  oneShot t ht := by cases ht
  holding t ht := by cases ht
  waiting f hf := by rcases hf with hf | hf <;> cases hf
  first f hf := by rcases hf with hf | hf <;> cases hf
  made f hf := by rcases hf with hf | hf <;> cases hf
  places co p hp := by cases hp
  events c hc := absurd hc (Nat.not_lt_zero c)
  inTime d hd := by cases hd

/-- A coroutine moves within its call, or leaves it. -/
theorem Inv.setPc (h : Inv s) (hpc : s.pc co = some p) (hcall : ∀ q, p' = some q → q.call = p.call)
    (hholding : ∀ f ∈ s.timers.timers, p.timer = some f → p.stage.Holding →
      ∃ stage, stage.Holding ∧ p' = some ⟨p.call, stage, some f⟩)
    (hwaiting : ∀ f, Pending s f → p.timer = some f → p.stage.Waiting →
      ∃ stage, stage.Waiting ∧ p' = some ⟨p.call, stage, some f⟩) : Inv (s.setPc co p') where
  holds := h.holds
  oneShot := h.oneShot
  holding t ht := (h.holding t ht).setPc hpc (hholding t ht)
  waiting f hf := (h.waiting f hf).setPc hpc (hwaiting f hf)
  first := h.first
  made := h.made
  places co' q hq := by
    change Function.update s.pc co p' co' = some q at hq
    by_cases hco : co' = co
    · subst hco
      rw [Function.update_self] at hq
      rw [hcall q hq]
      exact h.places co' p hpc
    · rw [Function.update_of_ne hco] at hq
      exact h.places co' q hq
  events := h.events
  inTime := h.inTime

/-- A coroutine moves that holds no timer. -/
theorem Inv.move (h : Inv s) (hpc : s.pc co = some p) (hstage : ¬ p.stage.Holding)
    (hcall : ∀ q, p' = some q → q.call = p.call) : Inv (s.setPc co p') := by
  refine h.setPc hpc hcall (fun _ _ _ hp => absurd hp hstage) fun _ _ _ hp => absurd ?_ hstage
  rcases hp with hp | hp
  · exact Or.inl hp
  · exact Or.inr (Or.inr (Or.inl hp))

/-- Timers leave the set. -/
theorem Inv.fewer (h : Inv s) {timers : Time.State} (hf : Fewer s.timers timers) :
    Inv { s with timers := timers } where
  holds := hf.holds
  oneShot t ht := by
    obtain ⟨hmem, hsame⟩ := hf.timers t ht
    show (timers.timer t).recurring = false ∧ (timers.timer t).cb = some t
    rw [hsame]
    exact h.oneShot t hmem
  holding t ht := h.holding t (hf.timers t ht).1
  waiting := h.waiting
  first := h.first
  made f hp := Nat.lt_of_lt_of_le (h.made f hp) hf.nextTimer
  places := h.places
  events := h.events
  inTime := h.inTime

/-- Waiters have been scheduled, and nothing else has changed. -/
structure Scheduled (s s' : Waits) : Prop where
  same : ∃ ctx tasks, s' = { s with ctx := ctx, tasks := tasks }
  slots : ∀ fd ev, ((s'.ctx fd).getEventContext ev).co ≠ none →
    ((s.ctx fd).getEventContext ev).co ≠ none

/-- Nobody is scheduled. -/
theorem Scheduled.refl (s : Waits) : Scheduled s s := ⟨⟨s.ctx, s.tasks, rfl⟩, fun _ _ h => h⟩

/-- One after the other. -/
theorem Scheduled.trans {s₁ s₂ s₃ : Waits} (h : Scheduled s₁ s₂) (h' : Scheduled s₂ s₃) :
    Scheduled s₁ s₃ := by
  obtain ⟨ctx, tasks, rfl⟩ := h.same
  obtain ⟨ctx', tasks', rfl⟩ := h'.same
  exact ⟨⟨ctx', tasks', rfl⟩, fun fd ev hco => h.slots fd ev (h'.slots fd ev hco)⟩

/-- `trigerEvent` puts nobody into a slot. -/
theorem co_triger {x : IOManager.FdContext} {ev ev' : IOManager.Event}
    (h : ((x.triger ev).getEventContext ev').co ≠ none) : (x.getEventContext ev').co ≠ none := by
  have htaken : ∀ e : IOManager.EventContext, e.taken.co ≠ none → e.co ≠ none := by
    intro e he
    unfold IOManager.EventContext.taken at he
    split at he
    · exact he
    · exact absurd rfl he
  cases ev <;> cases ev' <;> first | exact h | exact htaken _ h

/-- `trigerEvent` schedules whoever is in the slot, and puts nobody in. -/
theorem fire_scheduled {fd : ℕ} {ev : IOManager.Event} (h : s.fire fd ev = some s') :
    Scheduled s s' := by
  unfold Waits.fire at h
  dsimp only at h
  split at h
  · cases h
  · cases h
    refine ⟨⟨_, _, rfl⟩, ?_⟩
    intro fd' ev' hco
    by_cases hfd : fd' = fd
    · subst hfd
      dsimp only at hco
      rw [Function.update_self] at hco
      exact co_triger hco
    · dsimp only at hco
      rw [Function.update_of_ne hfd] at hco
      exact hco

/-- Scheduling a coroutine keeps the invariant: it moves only when it is resumed. -/
theorem Inv.scheduled (h : Inv s) (hs : Scheduled s s') : Inv s' := by
  obtain ⟨ctx, tasks, rfl⟩ := hs.same
  exact {
    holds := h.holds
    oneShot := h.oneShot
    holding := h.holding
    waiting := h.waiting
    first := fun f hf hlater => h.first f hf ⟨hs.slots _ _ hlater.1, hlater.2⟩
    made := h.made
    places := h.places
    events := h.events
    inTime := h.inTime }

/-- Behind the test of a bit, too. -/
theorem fireIf_scheduled {b : Bool} {fd : ℕ} {ev : IOManager.Event}
    (h : s.fireIf b fd ev = some s') : Scheduled s s' := by
  cases b with
  | false =>
    cases h
    exact Scheduled.refl s
  | true => exact fire_scheduled h

/-- Both events are looked at in turn. -/
theorem fireBoth_scheduled {read : Bool} {write : Waits → Bool} {fd : ℕ}
    (h : ((s.fireIf read fd .read).bind fun s => s.fireIf (write s) fd .write) = some s') :
    Scheduled s s' := by
  obtain ⟨s₁, hread, hwrite⟩ := Option.bind_eq_some_iff.mp h
  exact (fireIf_scheduled hread).trans (fireIf_scheduled hwrite)

/-- A report schedules the waiters of its events. -/
theorem ready_scheduled {fd : ℕ} {events : BitVec 32} (h : s.ready fd events = some s') :
    Scheduled s s' := by
  unfold Waits.ready at h
  dsimp only at h
  split at h
  · cases h
    exact Scheduled.refl s
  · exact fireBoth_scheduled h

/-- `cancelAll` schedules both waiters. -/
theorem cancelAll_scheduled {fd : ℕ} (h : s.cancelAll fd = some s') : Scheduled s s' := by
  unfold Waits.cancelAll at h
  split at h
  · cases h
    exact Scheduled.refl s
  · exact fireBoth_scheduled h

/-- Whom `cancelEvent` has scheduled. -/
theorem cancelEvent_scheduled {fd : ℕ} {ev : IOManager.Event} {victim : Option ℕ}
    (h : s.cancelEvent fd ev = some (victim, s')) : Scheduled s s' ∧
      ∀ v, victim = some v → ((s.ctx fd).getEventContext ev).co ≠ none ∧ v = s.registrant fd ev := by
  unfold Waits.cancelEvent at h
  dsimp only at h
  by_cases htest : (if (s.ctx fd).events = .none then 1#32 else 0#32) &&& ev.bits ≠ 0#32
  · rw [if_pos htest] at h
    cases h
    exact ⟨Scheduled.refl s, fun v hv => by cases hv⟩
  · rw [if_neg htest] at h
    obtain ⟨s₁, hfire, heq⟩ := Option.map_eq_some_iff.mp h
    cases heq
    refine ⟨fire_scheduled hfire, fun v hv => ?_⟩
    obtain ⟨k, hk, rfl⟩ := Option.map_eq_some_iff.mp hv
    exact ⟨by rw [hk]; exact Option.some_ne_none k, rfl⟩

/-- A callback goes on in its call. -/
theorem Inv.setCallback (h : Inv s) {progress : Progress} (hf : Pending s f) {d : Deed}
    (hd : d.InTime) (cancel : ℕ → Bool) :
    Inv { s.setCallback f progress with cancel := cancel, log := d :: s.log } := by
  have hpending : ∀ g, Pending { s.setCallback f progress with cancel := cancel, log := d :: s.log } g →
      Pending s g := by
    intro g hg
    by_cases hgf : g = f
    · rw [hgf]
      exact hf
    · unfold Pending at hg
      dsimp only [Waits.setCallback] at hg
      rw [Function.update_of_ne hgf] at hg
      exact hg
  exact {
    holds := h.holds
    oneShot := h.oneShot
    holding := h.holding
    waiting := fun g hg => h.waiting g (hpending g hg)
    first := fun g hg => h.first g (hpending g hg)
    made := fun g hg => h.made g (hpending g hg)
    places := h.places
    events := h.events
    inTime := List.forall_mem_cons.mpr ⟨hd, h.inTime⟩ }

/-- A call in a stage has been made. -/
theorem Waits.InStage.lt (h : s.InStage f P) (hs : Inv s) : s.armedBy f < s.nextCall := by
  obtain ⟨stage, -, hplace⟩ := h
  exact (hs.places _ _ hplace).1

/-- A call begins. -/
theorem Inv.enter (h : Inv s) {c : Call} (hev : c.event ≠ .none) (hpc : s.pc c.co = none) :
    Inv (s.enter c) := by
  have hcall {n : ℕ} (hn : n < s.nextCall) : (s.enter c).call n = s.call n :=
    Function.update_of_ne (Nat.ne_of_lt hn) ..
  have hother {co : ℕ} (p : Place) (hp : s.pc co = some p) : (s.enter c).pc co = some p := by
    have hne : co ≠ c.co := by
      rintro rfl
      rw [hpc] at hp
      cases hp
    exact (Function.update_of_ne hne ..).trans hp
  have hstage {f : ℕ} {P : Stage → Prop} (hf : s.InStage f P) : (s.enter c).InStage f P :=
    hf.congr rfl (hcall (hf.lt h)) hother
  refine ⟨h.holds, h.oneShot, fun t ht => hstage (h.holding t ht),
    fun f hf => hstage (h.waiting f hf), ?_, h.made, ?_, ?_, h.inTime⟩
  · intro f hf hlater
    exact h.first f hf (hlater.congr rfl (hcall ((h.waiting f hf).lt h)) (fun _ _ hco => hco) rfl)
  · intro co p hp
    change Function.update s.pc c.co (some ⟨s.nextCall, .retry, none⟩) co = some p at hp
    by_cases hco : co = c.co
    · rw [hco, Function.update_self] at hp
      cases hp
      refine ⟨Nat.lt_succ_self _, ?_⟩
      show (Function.update s.call s.nextCall c s.nextCall).co = co
      rw [Function.update_self, hco]
    · rw [Function.update_of_ne hco] at hp
      obtain ⟨hlt, hown⟩ := h.places co p hp
      exact ⟨Nat.lt_succ_of_lt hlt, by rw [hcall hlt]; exact hown⟩
  · intro n hn
    have hle : n < s.nextCall + 1 := hn
    by_cases hnew : n = s.nextCall
    · show (Function.update s.call s.nextCall c n).event ≠ .none
      rw [hnew, Function.update_self]
      exact hev
    · rw [hcall (by omega)]
      exact h.events n (by omega)

/-- A timer is made. -/
theorem Inv.addTimer (h : Inv s) (hpc : s.pc co = some p) (hstage : ¬ p.stage.Holding) {now : UInt64}
    {addr : ℕ} (hs : s.addTimer co p now addr = some s') : Inv s' := by
  unfold Waits.addTimer at hs
  split at hs
  · cases hs
    exact h.move hpc hstage fun q hq => by cases hq; rfl
  · obtain ⟨timers, htimers, rfl⟩ := Option.map_eq_some_iff.mp hs
    have ha := added_addTimer h.holds htimers
    have hmoved : Inv (s.setPc co (some ⟨p.call, .armed, some s.timers.nextTimer⟩)) :=
      h.move hpc hstage fun q hq => by cases hq; rfl
    have hold {f : ℕ} (hf : f ≠ s.timers.nextTimer) :
        Function.update s.armedBy s.timers.nextTimer p.call f = s.armedBy f :=
      Function.update_of_ne hf ..
    refine ⟨ha.holds, ?_, ?_, ?_, ?_, ?_, hmoved.places, h.events, h.inTime⟩
    · intro t ht
      rcases ha.timers t ht with rfl | ⟨hmem, hsame⟩
      · exact ⟨ha.recurring, ha.cb⟩
      · show (timers.timer t).recurring = false ∧ (timers.timer t).cb = some t
        rw [hsame]
        exact h.oneShot t hmem
    · intro t ht
      rcases ha.timers t ht with rfl | ⟨hmem, hsame⟩
      · refine ⟨.armed, Or.inl rfl, ?_⟩
        show Function.update s.pc co _ (s.call (Function.update s.armedBy _ _ _)).co
          = some ⟨Function.update s.armedBy _ _ _, _, _⟩
        rw [Function.update_self, (h.places co p hpc).2, Function.update_self]
      · have hlt := ((h.holds.pending t).mp hmem).1
        exact (hmoved.holding t hmem).congr (hold (Nat.ne_of_lt hlt)) rfl fun _ hq => hq
    · intro f hf
      exact (hmoved.waiting f hf).congr (hold (Nat.ne_of_lt (h.made f hf))) rfl fun _ hq => hq
    · intro f hf hlater
      exact hmoved.first f hf
        (hlater.congr (hold (Nat.ne_of_lt (h.made f hf))) rfl (fun _ _ hco => hco) rfl)
    · intro f hf
      exact Nat.lt_of_lt_of_le (h.made f hf) (by rw [ha.nextTimer]; exact Nat.le_succ _)

/-- A waiter is put into a slot, which a pending callback of an earlier call does not name. -/
theorem Inv.addEvent (h : Inv s) {success : Bool} (hpc : s.pc co = some p)
    (hok : Orderly s (.addEvent co success))
    (hs : s.addEvent co p success = some s') : Inv s' := by
  obtain ⟨hrefused, hfirst⟩ := hok p hpc
  unfold Waits.addEvent at hs
  dsimp only at hs
  split at hs
  · cases hs
  · split at hs
    · cases hs
    · cases hs
      have hmoved : Inv (s.setPc co
          (some ⟨p.call, if success then .yielded else .refused, p.timer⟩)) := by
        refine h.setPc hpc (fun q hq => by cases hq; rfl) ?_ ?_
        · intro f hf htimer hholding
          rw [htimer]
          refine ⟨_, ?_, rfl⟩
          cases success
          · exact Or.inr (Or.inl rfl)
          · exact Or.inr (Or.inr (Or.inl rfl))
        · intro f hf htimer hwaiting
          cases success with
          | false => exact absurd hf (hrefused rfl f htimer)
          | true =>
            rw [htimer]
            exact ⟨.yielded, Or.inr rfl, rfl⟩
      refine ⟨hmoved.holds, hmoved.oneShot, hmoved.holding, hmoved.waiting, ?_, hmoved.made,
        hmoved.places, hmoved.events, hmoved.inTime⟩
      intro f hf hlater
      obtain ⟨hco, hlt⟩ := hlater
      dsimp only [Waits.setPc] at hco hlt
      have hev : (s.call (s.armedBy f)).event ≠ .none := h.events _ ((h.waiting f hf).lt h)
      have hev' : (s.call p.call).event ≠ .none := h.events _ (h.places co p hpc).1
      by_cases hfd : (s.call (s.armedBy f)).fd = (s.call p.call).fd
      · rw [hfd, Function.update_self] at hco hlt
        by_cases hevent : (s.call (s.armedBy f)).event = (s.call p.call).event
        · -- the slot it names is the one that is filled
          rw [hevent, Function.update_self] at hlt
          exact absurd (hfirst f hf hfd hevent) (Nat.not_le.mpr hlt)
        · rw [Function.update_of_ne hevent] at hlt
          unfold IOManager.FdContext.add at hco
          rw [IOManager.FdContext.getEventContext_set_of_ne hev' hev hevent] at hco
          refine h.first f hf ⟨?_, ?_⟩
          · rw [hfd]
            exact hco
          · rw [hfd]
            exact hlt
      · rw [Function.update_of_ne hfd] at hco hlt
        exact h.first f hf ⟨hco, hlt⟩

/-- The expired callbacks are pending, and their coroutines have not gone on. -/
theorem Inv.listExpiredCb (h : Inv s) {now : UInt64} {probe : ℕ}
    (hok : Orderly s (.listExpiredCb now probe)) (hs : s.listExpiredCb now probe = some s') :
    Inv s' := by
  unfold Waits.listExpiredCb at hs
  obtain ⟨timers, htimers, rfl⟩ := Option.map_eq_some_iff.mp hs
  obtain ⟨hfewer, hcollected⟩ :=
    fewer_listExpiredCb h.holds (fun t ht => (h.oneShot t ht).1) htimers
  have hleft := h.fewer hfewer
  have hpending : ∀ f, Pending { s with
      timers := timers
      callback := fun f => if f ∈ (s.timers.listExpiredCb now probe).1.filterMap Prod.snd
        then .queued else s.callback f } f →
      (f ∈ s.timers.timers ∧ (s.timers.timer f).next ≤ now) ∨ Pending s f := by
    intro f hf
    by_cases hmem : f ∈ (s.timers.listExpiredCb now probe).1.filterMap Prod.snd
    · left
      obtain ⟨t, ht, hle, hcb⟩ := hcollected f hmem
      rw [(h.oneShot t ht).2] at hcb
      cases hcb
      exact ⟨ht, hle⟩
    · right
      unfold Pending at hf ⊢
      dsimp only at hf
      rwa [if_neg hmem] at hf
  refine ⟨hleft.holds, hleft.oneShot, hleft.holding, ?_, ?_, ?_, hleft.places, hleft.events,
    hleft.inTime⟩
  · intro f hf
    rcases hpending f hf with ⟨ht, hle⟩ | hf
    · exact (hok f ht hle).1
    · exact h.waiting f hf
  · intro f hf
    rcases hpending f hf with ⟨ht, hle⟩ | hf
    · exact (hok f ht hle).2
    · exact h.first f hf
  · intro f hf
    rcases hpending f hf with ⟨ht, hle⟩ | hf
    · exact Nat.lt_of_lt_of_le ((h.holds.pending f).mp ht).1 hfewer.nextTimer
    · exact hleft.made f hf

/-- `timer->cancel()` takes the timer out of the set, if it has not been collected. -/
theorem Inv.cancelTimer (h : Inv s) (hpc : s.pc co = some p) (hstage : ¬ p.stage.Waiting)
    (hcall : ∀ q, p' = some q → q.call = p.call) (hs : s.cancelTimer p.timer = some s') :
    Inv (s'.setPc co p') := by
  unfold Waits.cancelTimer at hs
  split at hs
  case h_1 hnone =>
    cases hs
    refine h.setPc hpc hcall (fun f _ htimer => ?_) fun _ _ _ hw => absurd hw hstage
    rw [hnone] at htimer
    cases htimer
  case h_2 t ht =>
    obtain ⟨timers, htimers, rfl⟩ := Option.map_eq_some_iff.mp hs
    obtain ⟨hfewer, hnot⟩ := fewer_cancel h.holds htimers
    refine (h.fewer hfewer).setPc hpc hcall (fun f hf htimer => ?_) fun _ _ _ hw => absurd hw hstage
    rw [ht] at htimer
    cases htimer
    exact absurd hf hnot

/-- Every step of an orderly run keeps the invariant. -/
theorem Inv.step (h : Inv s) {l : Label} (hok : Orderly s l) (hs : s.step l = some s') : Inv s' := by
  cases l with
  | call c =>
    obtain ⟨hnot, heq⟩ := Option.ite_none_left_eq_some.mp hs
    cases heq
    rw [not_or, not_not] at hnot
    exact h.enter hnot.1 hnot.2
  | attempt co r =>
    unfold Waits.step at hs
    dsimp only at hs
    split at hs
    case h_1 =>
      cases hs
      exact h
    case h_2 call timer hpc =>
      cases hs
      exact h.move hpc (by simp [Stage.Holding]) fun q hq => by cases hq; rfl
    case h_3 call timer hpc _ _ =>
      cases hs
      exact h.move hpc (by simp [Stage.Holding]) fun q hq => by cases hq
    case h_4 => cases hs
  | addTimer co now addr =>
    unfold Waits.step at hs
    dsimp only at hs
    split at hs
    case h_1 call timer hpc => exact h.addTimer hpc (by simp [Stage.Holding]) hs
    case h_2 => cases hs
  | addEvent co success =>
    unfold Waits.step at hs
    dsimp only at hs
    split at hs
    case h_1 call timer hpc => exact h.addEvent hpc hok hs
    case h_2 => cases hs
  | resume co =>
    unfold Waits.step at hs
    dsimp only at hs
    split at hs
    case h_1 call timer hpc =>
      obtain ⟨-, heq⟩ := Option.ite_none_right_eq_some.mp hs
      cases heq
      have hmoved : Inv (s.setPc co (some ⟨call, .resumed, timer⟩)) := by
        refine h.setPc hpc (fun q hq => by cases hq; rfl) ?_ ?_
        · intro f _ htimer _
          exact ⟨.resumed, Or.inr (Or.inr (Or.inr rfl)), by rw [← htimer]⟩
        · intro f hf htimer _
          exact absurd hf (hok _ f hpc htimer)
      exact hmoved.scheduled ⟨⟨_, _, rfl⟩, fun _ _ hco => hco⟩
    case h_2 => cases hs
  | cancelTimer co =>
    unfold Waits.step at hs
    dsimp only at hs
    split at hs
    case h_1 call timer hpc =>
      obtain ⟨s₁, hcancel, rfl⟩ := Option.map_eq_some_iff.mp hs
      exact h.cancelTimer hpc (by simp [Stage.Waiting]) (fun q hq => by cases hq) hcancel
    case h_2 call timer hpc =>
      obtain ⟨s₁, hcancel, rfl⟩ := Option.map_eq_some_iff.mp hs
      exact h.cancelTimer hpc (by simp [Stage.Waiting]) (fun q hq => by cases hq; rfl) hcancel
    case h_3 => cases hs
  | testCancel co =>
    unfold Waits.step at hs
    dsimp only at hs
    split at hs
    case h_1 call timer hpc =>
      split at hs
      · cases hs
        exact h.move hpc (by simp [Stage.Holding]) fun q hq => by cases hq
      · cases hs
        exact h.move hpc (by simp [Stage.Holding]) fun q hq => by cases hq; rfl
    case h_2 => cases hs
  | listExpiredCb now probe => exact h.listExpiredCb hok hs
  | writeCancel f =>
    obtain ⟨hqueued, heq⟩ := Option.ite_none_right_eq_some.mp hs
    cases heq
    have hpending : Pending s f := Or.inl hqueued
    exact h.setCallback hpending (d := .wrote (s.armedBy f) (s.returned (s.armedBy f)))
      (h.waiting f hpending).inside _
  | cancelEvent f =>
    obtain ⟨hwritten, heq⟩ := Option.ite_none_right_eq_some.mp hs
    obtain ⟨⟨victim, s₁⟩, hcancel, rfl⟩ := Option.map_eq_some_iff.mp heq
    have hpending : Pending s f := Or.inr hwritten
    obtain ⟨hscheduled, hvictim⟩ := cancelEvent_scheduled hcancel
    have hrest := h.scheduled hscheduled
    obtain ⟨ctx, tasks, rfl⟩ := hscheduled.same
    refine hrest.setCallback hpending
      (d := .cancelled (s.armedBy f) (s.returned (s.armedBy f)) victim)
      ⟨(h.waiting f hpending).inside, ?_⟩ _
    -- a waiter of a later call would have been there before
    intro v hv
    obtain ⟨hco, rfl⟩ := hvictim v hv
    by_contra hlater
    exact h.first f hpending ⟨hco, Nat.lt_of_not_le hlater⟩
  | ready fd events => exact h.scheduled (ready_scheduled hs)
  | cancelAll fd => exact h.scheduled (cancelAll_scheduled hs)

end Runs

/-- **Callbacks in time**: in every orderly run, of any number of coroutines and threads and with any
timeouts, no callback runs when its call has returned, and none cancels what a later call has
registered. -/
theorem callbacks_in_time (s : Waits) (h : Run Waits.step Orderly Waits.start s) : InTime s :=
  (h.invariant Inv.start fun _ _ _ hi hok hs => hi.step hok hs).inTime

/-- A call that waits for 10 seconds at most. -/
def readCall : Call := ⟨1, 5, .read, 10⟩

/-- Without a pending callback `addEvent` is orderly. -/
theorem orderly_addEvent {s : Waits} {co : ℕ} {success : Bool} (h : ∀ f, ¬ Pending s f) :
    Orderly s (.addEvent co success) :=
  fun _ _ => ⟨fun _ f _ => h f, fun f hf => absurd hf (h f)⟩

/-- The time is over, and the coroutine is resumed by its callback. -/
theorem callbacks_in_time_witness : ∃ s, InTime s ∧
    s.log = [.cancelled 0 false (some 0), .wrote 0 false] ∧ s.pc 1 = none := by
  have hcall : Run Waits.step Orderly Waits.start _ :=
    Run.refl.tail (a := .call readCall) trivial rfl
  have hattempt : Run Waits.step Orderly Waits.start _ :=
    hcall.tail (a := .attempt 1 (.error .eagain)) trivial rfl
  have htimer : Run Waits.step Orderly Waits.start _ :=
    hattempt.tail (a := .addTimer 1 0 100) trivial rfl
  have hadded : Run Waits.step Orderly Waits.start _ :=
    htimer.tail (a := .addEvent 1 true)
      (orderly_addEvent fun f => by rintro (hf | hf) <;> cases hf) rfl
  have hcollected : Run Waits.step Orderly Waits.start _ :=
    hadded.tail (a := .listExpiredCb 10000 300)
      (fun t ht _ => by
        obtain rfl : t = 0 := List.mem_singleton.mp ht
        exact ⟨⟨.yielded, Or.inr rfl, rfl⟩, fun hlater => absurd hlater.2 (Nat.lt_irrefl 0)⟩) rfl
  have hwritten : Run Waits.step Orderly Waits.start _ :=
    hcollected.tail (a := .writeCancel 0) trivial rfl
  have hcancelled : Run Waits.step Orderly Waits.start _ :=
    hwritten.tail (a := .cancelEvent 0) trivial rfl
  have hresumed : Run Waits.step Orderly Waits.start _ :=
    hcancelled.tail (a := .resume 1)
      (fun p f hp htimer hf => by
        cases hp
        cases htimer
        rcases hf with hf | hf <;> cases hf) rfl
  have hended : Run Waits.step Orderly Waits.start _ :=
    hresumed.tail (a := .cancelTimer 1) trivial rfl
  have hreturned : Run Waits.step Orderly Waits.start _ :=
    hended.tail (a := .testCancel 1) trivial rfl
  exact ⟨_, callbacks_in_time _ hreturned, rfl, rfl⟩

@[simp]
theorem Waits.setPc_pc (s : Waits) (co : ℕ) (p : Option Place) : (s.setPc co p).pc co = p :=
  Function.update_self ..

/-- A coroutine that has been resumed can cancel its timer, find its descriptor ready and return. -/
theorem leave_resumed {s : Waits} {co call f : ℕ} (hpc : s.pc co = some ⟨call, .resumed, some f⟩)
    (hmade : f < s.timers.nextTimer) (hcancel : s.cancel f = false) :
    ∃ t, Run Waits.step anyStep s t ∧ t.pc co = none ∧ t.call = s.call ∧ t.armedBy = s.armedBy ∧
      t.callback = s.callback := by
  let s₁ := Waits.setPc { s with timers := (s.timers.cancel f).2 } co
    (some ⟨call, .cancelled, some f⟩)
  let s₂ := s₁.setPc co (some ⟨call, .retry, none⟩)
  have htimer : s.step (.cancelTimer co) = some s₁ := by
    simp [Waits.step, hpc, Waits.cancelTimer, Time.step, hmade, s₁]
  have htest : s₁.step (.testCancel co) = some s₂ := by
    have hpc₁ : s₁.pc co = some ⟨call, .cancelled, some f⟩ := Waits.setPc_pc ..
    have hcancel₁ : s₁.cancel f = false := hcancel
    simp [Waits.step, hpc₁, hcancel₁, s₂]
  have hattempt : s₂.step (.attempt co (.ok 0)) = some (s₂.setPc co none) := by
    have hpc₂ : s₂.pc co = some ⟨call, .retry, none⟩ := Waits.setPc_pc ..
    simp [Waits.step, hpc₂]
  have hrun : Run Waits.step anyStep s s₂ := (Run.single trivial htimer).tail trivial htest
  exact ⟨_, hrun.tail trivial hattempt, Waits.setPc_pc .., rfl, rfl, rfl⟩

/-- A coroutine that goes on while its callback is in the task queue can return before it. -/
theorem late_of_resume {s s' : Waits} {f : ℕ} (h : Inv s) (hqueued : s.callback f = .queued)
    (hcancel : s.cancel f = false)
    (hs : s.step (.resume (s.call (s.armedBy f)).co) = some s') :
    ∃ t, Run Waits.step anyStep s' t ∧ ¬ InTime t := by
  obtain ⟨stage, hstage, hpc⟩ := h.waiting f (Or.inl hqueued)
  have hmade := h.made f (Or.inl hqueued)
  unfold Waits.step at hs
  dsimp only at hs
  rw [hpc] at hs
  rcases hstage with rfl | rfl
  · cases hs
  · obtain ⟨-, heq⟩ := Option.ite_none_right_eq_some.mp hs
    have hresumed : s'.pc (s.call (s.armedBy f)).co = some ⟨s.armedBy f, .resumed, some f⟩ := by
      cases heq
      exact Waits.setPc_pc ..
    cases heq
    obtain ⟨t, hrun, hout, hcall, harmed, hcallback⟩ := leave_resumed hresumed hmade hcancel
    have hreturned : t.returned (t.armedBy f) = true := by
      have hpc' : t.pc (t.call (t.armedBy f)).co = none := by
        rw [hcall, harmed]
        exact hout
      simp [Waits.returned, hpc']
    have hwrite : t.callback f = .queued := by
      rw [hcallback]
      exact hqueued
    refine ⟨_, hrun.tail (a := .writeCancel f) trivial (if_pos hwrite), fun hinTime => ?_⟩
    have hdeed := hinTime _ (List.mem_cons_self ..)
    rw [hreturned] at hdeed
    cases hdeed

/-- The descriptor is ready, and the time is over before the coroutine is resumed, which reads and
waits again; then the first callback is run. -/
def lateLabels : List Label :=
  [.call readCall, .attempt 1 (.error .eagain), .addTimer 1 0 100, .addEvent 1 true,
    .ready 5 IOManager.EPOLLIN, .listExpiredCb 10000 300, .resume 1, .cancelTimer 1, .testCancel 1,
    .attempt 1 (.ok 7), .call readCall, .attempt 1 (.error .eagain), .addTimer 1 10001 200,
    .addEvent 1 true, .writeCancel 0, .cancelEvent 0]

/-- A callback that comes late writes to a returned call and cancels the waiter of the next. -/
theorem late_log : (runLabels Waits.step Waits.start lateLabels).map Waits.log
    = some [.cancelled 0 true (some 1), .wrote 0 true] := by
  rfl

/-- **A late callback**: it writes to a variable that is no more, and ends the wait of the next call. -/
theorem late_not_in_time : ¬ ∀ s, Run Waits.step anyStep Waits.start s → InTime s := by
  intro h
  obtain ⟨s, hrun, hlog⟩ := Option.map_eq_some_iff.mp late_log
  have hdeed := h s (Run.of_labels hrun) (.wrote 0 true) (by rw [hlog]; simp)
  cases hdeed

end CoKV.Hook
