import CoKV.Scheduler.FrameTheorems
import CoKV.Scheduler.ExclusiveTheorems

/-!
# The state after a callback has returned

`MainFunc` writes `TERM` when the callback has returned, and then leaves through `yield`, which
writes `HOLD`. So the state that `run` looks at after `resuem` is never `TERM` but `HOLD`: no run
loop ever breaks on `idle_co`, and after `idle()` has returned its coroutine is resumed once more,
falls off the end of `MainFunc` and takes the thread with it. `term_seen` says in which runs the
comparison with `TERM` does what it is there for: those in which `resuem` never comes back from a
coroutine whose callback has returned.
-/

namespace CoKV.Scheduler

variable {W : Type}

/-- The callback of `c` has returned and its stack has been left. -/
def Finished (s : State W) (c : Co W) : Prop := (s.co c).mCtx = .co c (.fallOff true)

/-- The coroutine that thread `t` is about to resume. -/
def Pc.resumes (t : Thread W) : Pc W → Option (Co W)
  | run _ (.turn x .resume) => some (x.co t)
  | _ => none

/-- What `run` relies on: the state it observes after `resuem` is `TERM` once the callback has
returned, so that it breaks and does not resume such a coroutine again. -/
structure TermSeen (s : State W) : Prop where
  observed : ∀ t cbCo x, s.pc t = .run cbCo (.turn x .check) → Finished s (x.co t) →
    (s.co (x.co t)).mState = .term
  notResumed : ∀ t c, (s.pc t).resumes t = some c → ¬ Finished s c

/-- This step is not the return of `resuem` from a coroutine whose callback has returned. -/
def NoReturn (s : State W) : Label W → Prop
  | .thread t => ∀ cbCo x, s.pc t = .run cbCo (.turn x .back) → ¬ Finished s (x.co t)
  | _ => True

theorem Pc.inHand_of_resumes {t : Thread W} {p : Pc W} {c : Co W} (h : p.resumes t = some c) :
    p.inHand t = some c := by
  cases p with
  | run cbCo q =>
    cases q with
    | turn x ph =>
      cases ph with
      | resume => exact h
      | _ => cases h
    | _ => cases h
  | _ => cases h

/-- A coroutine whose callback has returned is in the hand of a run loop to which `resuem` is about
to return. -/
def Held (s : State W) : Prop :=
  ∀ t c, c.Of t → Finished s c → ∃ t' cbCo x, s.pc t' = .run cbCo (.turn x .back) ∧ x.co t' = c

theorem held_init (cbs : List ℕ) : Held (init (W := W) cbs) := by
  intro t c hof hfin
  unfold Finished at hfin
  cases c with
  | made k => cases hfin
  | idle t' => cases hfin
  | _ => exact hof.elim

/-- While nobody returns from them, finished coroutines only wait to be returned from. -/
theorem Inv.termSeen {cfg : Config W} {s : State W} (hi : Inv cfg s) (hh : Held s) :
    TermSeen s where
  observed t cbCo x hpc hfin := by
    exfalso
    obtain ⟨t', cbCo', x', hback, hx'⟩ := hh t _ (Turn.of t x) hfin
    have ht : t' = t := hi.distinct t' t (x.co t) (by rw [hback, ← hx']; rfl) (by rw [hpc]; rfl)
    rw [ht, hpc] at hback
    cases hback
  notResumed t c hc hfin := by
    have hhand : (s.pc t).inHand t = some c := Pc.inHand_of_resumes hc
    obtain ⟨t', cbCo', x', hback, hx'⟩ := hh t c ((hi.thread t).of hhand) hfin
    have ht : t' = t := hi.distinct t' t c (by rw [hback, ← hx']; rfl) hhand
    rw [← ht, hback] at hc
    cases hc

section Steps

variable [DecidableEq W] {cfg : Config W} {s s' : State W} {l : Label W}

theorem Held.step (hh : Held s) (hi : Inv cfg s) (hno : NoReturn s l)
    (hs : step cfg s l = some s') : Held s' := by
  intro t c hof hfin
  rcases step_ctx hs hof.ne_schedCo with hctx | hctx | ⟨t', y, -, hpc, -, hpc'⟩
  · -- the coroutine was finished before, and the one step of its holder is excluded
    have hfin' : Finished s c := by rwa [Finished, ← hctx]
    obtain ⟨t', cbCo, x, hback, hx⟩ := hh t c hof hfin'
    refine ⟨t', cbCo, x, ?_, hx⟩
    rw [step_pc hi hs, hback]
    · rw [hback]
      exact fun h => nomatch h
    · rintro rfl
      rw [← hx] at hfin'
      exact hno cbCo x hback hfin'
    · rintro a rfl
      rw [Scheduler.step, hback] at hs
      cases hs
  · -- a context that `makecontext` has just written is at its entry
    rw [Finished, hctx] at hfin
    cases hfin
  · -- it has just left its stack, and its run loop goes on behind `resuem`
    obtain ⟨-, -, -, x, hx, hback⟩ := hi.at_co hpc
    exact ⟨t', _, x, hpc'.trans hback, hx⟩

/-- When `resuem` comes back from a coroutine whose callback has returned, the state is `HOLD`. -/
theorem not_termSeen_of_return (hi : Inv cfg s) (hs : step cfg s l = some s')
    (hret : ¬ NoReturn s l) : ¬ TermSeen s' := by
  intro hterm
  cases l with
  | thread t =>
    simp only [NoReturn, not_forall, not_not] at hret
    obtain ⟨cbCo, x, hpc, hfin⟩ := hret
    have hstep : s' = turnStep cfg s t cbCo x .back := by
      rw [Scheduler.step, hpc] at hs
      exact (Option.some.inj hs).symm
    have hco : s'.co = s.co := by
      rw [hstep]
      cases x <;> rfl
    have hpc' : s'.pc t = .run cbCo (.turn x .check) := by
      rw [hstep]
      cases x <;> exact State.setPc_pc_self ..
    have hobs := hterm.observed t cbCo x hpc' (by rwa [Finished, hco])
    -- `yield` wrote `HOLD` before it switched back
    have hhold : (s.co (x.co t)).mState = .hold := (hi.at_run hpc).2.2
    rw [hco, hhold] at hobs
    cases hobs
  | _ => exact hret trivial

end Steps

variable [DecidableEq W]

/-- With one worker every scan is free. -/
theorem freeTake_of_single {cfg : Config W} {s : State W} (hi : Inv cfg s)
    (hone : ∀ w ∈ cfg.workers, ∀ w' ∈ cfg.workers, w = w') (l : Label W) : FreeTake s l := by
  cases l with
  | thread t =>
    intro cbCo hscan task _ c _ t' ht'
    have hworks : ∀ t'', (s.pc t'').inHand t'' ≠ none ∨ s.pc t'' = .run cbCo .scan →
        ∃ w ∈ cfg.workers, t'' = .worker w := by
      intro t'' h
      cases t'' with
      | caller =>
        -- the owner's thread is in no run loop and on no stack
        exfalso
        rcases h with h | h
        · cases hp : s.pc .caller with
          | run _ _ => exact (hi.at_run hp).1 rfl
          | co _ _ => exact (hi.at_co hp).1 rfl
          | _ => rw [hp] at h; exact h rfl
        · exact (hi.at_run h).1 rfl
      | worker w =>
        by_cases hw : w ∈ cfg.workers
        · exact ⟨w, hw, rfl⟩
        · rw [hi.threads w hw] at h
          rcases h with h | h
          · exact absurd rfl h
          · cases h
    obtain ⟨w, hw, rfl⟩ := hworks t (Or.inr hscan)
    obtain ⟨w', hw', rfl⟩ := hworks t' (Or.inl (by rw [ht']; exact fun h => nomatch h))
    rw [hone w' hw' w hw, hscan] at ht'
    cases ht'
  | _ => trivial

/-- **When the comparison with `TERM` works**: on any number of workers, with any callbacks and
whatever the rest of the program adds, makes and resets, a run in which `resuem` never comes back
from a coroutine whose callback has returned has the property throughout, and every step that does
come back from one leads to a state without it: `HOLD` is observed. Nobody ever breaks out of
`run`. The runs are those in which each scan is free, with one worker all of them. -/
theorem term_seen (cfg : Config W) (cbs : List ℕ) :
    (∀ s, Run (step cfg) (fun s l => FreeTake s l ∧ NoReturn s l) (init cbs) s → TermSeen s) ∧
    (∀ s l s', Run (step cfg) FreeTake (init cbs) s → step cfg s l = some s' → ¬ NoReturn s l →
      ¬ TermSeen s') ∧
    (∀ s t cbCo, Run (step cfg) FreeTake (init cbs) s → s.pc t ≠ .run cbCo .left) ∧
    ((∀ w ∈ cfg.workers, ∀ w' ∈ cfg.workers, w = w') →
      ∀ s, Run (step cfg) anyStep (init cbs) s → Run (step cfg) FreeTake (init cbs) s) := by
  refine ⟨?_, ?_, ?_, ?_⟩
  · intro s hrun
    have hinv : Inv cfg s ∧ Held s := by
      apply hrun.invariant ⟨Inv.init cfg cbs, held_init cbs⟩
      intro s l s' hi hok hs
      exact ⟨hi.1.step hok.1 hs, hi.2.step hi.1 hok.2 hs⟩
    exact hinv.1.termSeen hinv.2
  · intro s l s' hrun hs hret
    exact not_termSeen_of_return (Inv.of_run hrun) hs hret
  · intro s t cbCo hrun hleft
    exact ((Inv.of_run hrun).at_run hleft).2.2
  · intro hone s hrun
    induction hrun with
    | refl => exact .refl
    | tail _ _ hs ih => exact ih.tail (freeTake_of_single (Inv.of_run ih) hone _) hs

/-! ## `idle()` returns -/

/-- One worker; its owner's thread takes no tasks. -/
def oneWorker : Config Unit := ⟨false, [()]⟩

/-- A scan that finds no task is free, and no run loop comes back behind `resuem`. -/
def quietTest (s : State Unit) : Label Unit → Bool
  | .thread t =>
    s.tasks.isEmpty && match s.pc t with
      | .run _ (.turn _ .back) => false
      | _ => true
  | _ => true

theorem quiet_of_test (s : State Unit) (l : Label Unit) (h : quietTest s l = true) :
    FreeTake s l ∧ NoReturn s l := by
  cases l with
  | thread t =>
    obtain ⟨hempty, hpc⟩ := Bool.and_eq_true_iff.mp h
    refine ⟨freeTake_of_callbacks (fun task htask => ?_) _, fun cbCo x hback => ?_⟩
    · rw [List.isEmpty_iff.mp hempty] at htask
      cases htask
    · rw [hback] at hpc
      cases hpc
  | _ => exact ⟨trivial, trivial⟩

/-- An `idle()` has returned, and its `yield` has switched back; then `resuem` comes back from it. -/
theorem term_seen_witness : ∃ s s' : State Unit, TermSeen s ∧
    step oneWorker s (.thread (.worker ())) = some s' ∧ ¬ TermSeen s' := by
  obtain ⟨hholds, hfails, -, hfree⟩ := term_seen oneWorker []
  obtain ⟨s, hs, hpc, hfin, s', hs'⟩ : ∃ s,
      runLabels (fun s l => if quietTest s l then step oneWorker s l else none) (init [])
        (List.replicate 4 (.thread .caller) ++ List.replicate 9 (.thread (.worker ()))) = some s ∧
      s.pc (.worker ()) = .run none (.turn .idle .back) ∧
      (s.co (.idle (.worker ()))).mCtx = .co (.idle (.worker ())) (.fallOff true) ∧
      ∃ s', step oneWorker s (.thread (.worker ())) = some s' :=
    ⟨_, rfl, rfl, rfl, _, rfl⟩
  have hrun := hfree (fun _ _ _ _ => rfl) s (.of_tested (fun _ _ _ => trivial) hs)
  refine ⟨s, s', hholds s (.of_tested quiet_of_test hs), hs', hfails s _ s' hrun hs' ?_⟩
  exact fun hno => hno none .idle hpc hfin

/-- `stop` is called on an idle scheduler. The worker's `idle()` finds it stopping and returns; the
run loop comes back from it, writes `HOLD`, finds no task, and is about to resume `idle_co`. -/
def idleLabels : List (Label Unit) :=
  List.replicate 4 (.thread .caller) ++ List.replicate 14 (.thread (.worker ()))

theorem idle_state : (runLabels (step oneWorker) (init []) idleLabels).map
    (fun s => (s.pc (.worker ()), s.co (.idle (.worker ()))))
    = some (.run none (.turn .idle .resume),
      ⟨.hold, none, .co (.idle (.worker ())) (.fallOff true)⟩) := by
  rfl

/-- **The break is missed**: `idle_co` is resumed although `idle()` has returned. -/
theorem idle_not_termSeen : ¬ ∀ s, Run (step oneWorker) anyStep (init []) s → TermSeen s := by
  intro h
  obtain ⟨s, hs, hstate⟩ := Option.map_eq_some_iff.mp idle_state
  have hpc : s.pc (.worker ()) = .run none (.turn .idle .resume) := congrArg (·.1) hstate
  have hco := congrArg (·.2) hstate
  refine (h s (Run.of_labels hs)).notResumed (.worker ()) (.idle (.worker ())) ?_ ?_
  · rw [hpc]
    rfl
  · exact congrArg Selfco.mCtx hco

end CoKV.Scheduler
