import CoKV.Scheduler.Defs

/-!
# Who has a coroutine in hand

The invariant of the runs in which no run loop takes a coroutine from the queue that another one
has in hand: each coroutine is in hand of one thread at most, its state follows that thread's
program counter, and the contexts point where they should. `Inv.move` is the frame rule: a step
changes one thread's counter and the coroutine in that thread's hand, and no other thread can
tell the difference.
-/

namespace CoKV.Scheduler

variable {W : Type}

/-! ## What a program counter says about its coroutine -/

/-- The coroutines that the run loop of thread `t` may resume. -/
def Co.Of (t : Thread W) : Co W → Prop
  | made _ => True
  | idle t' => t' = t
  | _ => False

/-- Where a coroutine stands that is not running. -/
def CoPc.Saved (p : CoPc) : Prop := p = .entry ∨ p = .body ∨ ∃ b, p = .fallOff b

/-- The state of a coroutine during its turn: `EXEC` is written before the switch to it, and
`HOLD` is the last write before the switch back. -/
def Phase.StateOk : Phase → CoState → Prop
  | .resume, _ => True
  | .swapIn, st => st = .exec
  | _, st => st = .hold

/-- The state of a coroutine while its stack is running. On the way out, from the first write of
its own, nothing is said before the `HOLD` of `yield`. -/
def CoPc.StateOk : CoPc → CoState → Prop
  | .yield .callback, st => st = .exec
  | .yield _, _ => True
  | .swapOut _, st => st = .hold
  | _, st => st = .exec

/-- The local `cb_co` during a turn; between two turns it is null. -/
def Turn.cbCo : Turn → Option ℕ
  | callback c => some c
  | _ => none

def RunPc.cbCo : RunPc W → Option ℕ
  | turn x _ => x.cbCo
  | _ => none

/-- A coroutine that run loops resume: its context, when it is not running, lies on its own
stack, and its callback is not a run loop. -/
structure SavedCo (c : Co W) (x : Selfco (Pc W)) : Prop where
  cb : x.mCb ≠ some .run
  ctx : ∃ p : CoPc, x.mCtx = .co c p ∧ p.Saved

/-- What the invariant says about thread `t` alone. -/
def Local (cfg : Config W) (s : State W) (t : Thread W) : Prop :=
  match s.pc t with
  | .notStarted | .exited => True
  | .undefined => False
  | .caller p => t = .caller ∧ (p = .resume ∨ p = .swapIn → cfg.useCaller = true)
  | .run cbCo p => t ≠ .caller ∧ cbCo = p.cbCo ∧
    match p with
    | .turn x ph => ph.StateOk (s.co (x.co t)).mState
    | .left => False
    | _ => True
  | .co c p => t ≠ .caller ∧ c.Of t ∧ p.StateOk (s.co c).mState ∧
    ∃ x : Turn, x.co t = c ∧ (s.co (schedCo cfg t)).mCtx = .run x.cbCo (.turn x .back)

/-- The invariant. -/
structure Inv (cfg : Config W) (s : State W) : Prop where
  thread : ∀ t, Local cfg s t
  distinct : ∀ t t' c, (s.pc t).inHand t = some c → (s.pc t').inHand t' = some c → t = t'
  saved : ∀ t c, c.Of t → SavedCo c (s.co c)
  idle : ∀ t, (s.pc t).inHand t ≠ some (.idle t) → (s.co (.idle t)).mState ≠ .term
  bound : ∀ t k, (s.pc t).inHand t = some (.made k) → k < s.nextCo
  tasks : ∀ task ∈ s.tasks, ∀ k ∈ task.selfco, k < s.nextCo
  waiting : ∀ k ∈ s.waiting, k < s.nextCo
  started : ∀ cbs, s.pc .caller = .caller (.start cbs) → ∀ w, s.pc (.worker w) = .notStarted
  threads : ∀ w, w ∉ cfg.workers → s.pc (.worker w) = .notStarted

theorem SavedCo.fresh {c : Co W} {cb : Option Callback} (h : cb ≠ some .run) :
    SavedCo c (freshCo c cb) := ⟨h, .entry, rfl, Or.inl rfl⟩

theorem SavedCo.setState {c : Co W} {x : Selfco (Pc W)} (h : SavedCo c x) (st : CoState) :
    SavedCo c { x with mState := st } := ⟨h.cb, h.ctx⟩

theorem YieldOf.saved_cont (y : YieldOf) : y.cont.Saved := by
  cases y
  · exact Or.inr (Or.inl rfl)
  · exact Or.inr (Or.inl rfl)
  · exact Or.inr (Or.inr ⟨_, rfl⟩)

theorem CoPc.Saved.stateOk {p : CoPc} (h : p.Saved) : p.StateOk .exec := by
  rcases h with rfl | rfl | ⟨b, rfl⟩ <;> rfl

theorem Inv.init (cfg : Config W) (cbs : List ℕ) : Inv cfg (Scheduler.init cbs) where
  thread t := by
    cases t with
    | caller => exact ⟨rfl, by simp⟩
    | worker w => trivial
  distinct t t' c h := by
    cases t <;> cases h
  saved t c hof := by
    cases c with
    | made k => exact SavedCo.fresh (by simp)
    | idle t' => exact SavedCo.fresh (by simp)
    | _ => exact hof.elim
  idle t _ := by simp [Scheduler.init, freshCo]
  bound t k h := by
    cases t <;> cases h
  tasks task h := by cases h
  waiting k h := by cases h
  started cbs _ w := rfl
  threads w _ := rfl

/-! ## The frame rule -/

section Frame

variable {cfg : Config W} {s s' : State W} {t : Thread W} {d : Co W} {p : Pc W}

theorem schedCo_injective {t t' : Thread W} (h : schedCo cfg t = schedCo cfg t') : t = t' := by
  unfold schedCo at h
  by_cases hu : cfg.useCaller = true <;> cases t <;> cases t' <;> simp_all

theorem Co.Of.ne_schedCo {c : Co W} (h : c.Of t) (t' : Thread W) : c ≠ schedCo cfg t' := by
  intro heq
  unfold schedCo at heq
  cases t'
  · by_cases hu : cfg.useCaller <;> simp [hu] at heq <;> rw [heq] at h <;> exact h
  · rw [heq] at h
    exact h

theorem Turn.of (t : Thread W) (x : Turn) : (x.co t).Of t := by
  cases x <;> trivial

/-- What a thread has in hand is a coroutine of its own kind. -/
theorem Local.of {c : Co W} (h : Local cfg s t) (hc : (s.pc t).inHand t = some c) : c.Of t := by
  unfold Local at h
  cases hp : s.pc t with
  | run cbCo q =>
    rw [hp] at hc
    cases q with
    | dispatch task isActive =>
      obtain ⟨k, -, rfl⟩ := Option.map_eq_some_iff.mp hc
      trivial
    | turn x ph =>
      rw [← Option.some.inj hc]
      exact Turn.of t x
    | _ => cases hc
  | co c' q =>
    rw [hp] at h hc
    rw [← Option.some.inj hc]
    exact h.2.1
  | _ => rw [hp] at hc; cases hc

/-- A thread whose counter, whose coroutine and whose scheduler context are as before sees the
same. -/
theorem Local.congr (h : Local cfg s t) (hpc : s'.pc t = s.pc t)
    (hco : ∀ c, (s.pc t).inHand t = some c → s'.co c = s.co c)
    (hsched : (s'.co (schedCo cfg t)).mCtx = (s.co (schedCo cfg t)).mCtx) : Local cfg s' t := by
  unfold Local at h ⊢
  rw [hpc]
  cases hp : s.pc t with
  | run cbCo q =>
    rw [hp] at h hco
    refine ⟨h.1, h.2.1, ?_⟩
    cases q with
    | turn x ph =>
      -- the state of the coroutine in hand is all that a phase says
      show ph.StateOk (s'.co (x.co t)).mState
      rw [hco _ rfl]
      exact h.2.2
    | left => exact h.2.2
    | _ => trivial
  | co c q =>
    rw [hp] at h hco
    dsimp only at h ⊢
    rw [hco c rfl, hsched]
    exact h
  | _ =>
    rw [hp] at h
    exact h

/-- A run loop between two turns. -/
theorem Local.scan (hcaller : t ≠ .caller) (h : s.pc t = .run none .scan) : Local cfg s t := by
  unfold Local
  rw [h]
  exact ⟨hcaller, rfl, trivial⟩

theorem Local.dispatch {task : Task W} {isActive : Bool} (hcaller : t ≠ .caller)
    (h : s.pc t = .run none (.dispatch task isActive)) : Local cfg s t := by
  unfold Local
  rw [h]
  exact ⟨hcaller, rfl, trivial⟩

theorem Local.turn (x : Turn) (ph : Phase) (hcaller : t ≠ .caller)
    (h : s.pc t = .run x.cbCo (.turn x ph)) (hstate : ph.StateOk (s.co (x.co t)).mState) :
    Local cfg s t := by
  unfold Local
  rw [h]
  exact ⟨hcaller, rfl, hstate⟩

theorem Local.onStack {c : Co W} {q : CoPc} {x : Turn} (hcaller : t ≠ .caller)
    (h : s.pc t = .co c q) (hx : x.co t = c) (hstate : q.StateOk (s.co c).mState)
    (hback : (s.co (schedCo cfg t)).mCtx = .run x.cbCo (.turn x .back)) : Local cfg s t := by
  unfold Local
  rw [h]
  exact ⟨hcaller, hx ▸ Turn.of t x, hstate, x, hx, hback⟩

theorem Inv.free {c : Co W} (hi : Inv cfg s) (h : (s.pc t).inHand t = some c) :
    ∀ t' ≠ t, (s.pc t').inHand t' ≠ some c := by
  intro t' ht' h'
  exact ht' (hi.distinct t' t c h' h)

/-- No other thread has the idle coroutine of `t` in hand. -/
theorem Inv.free_idle (hi : Inv cfg s) (t : Thread W) :
    ∀ t' ≠ t, (s.pc t').inHand t' ≠ some (.idle t) := by
  intro t' ht' h'
  have hof : t = t' := (hi.thread t').of h'
  exact ht' hof.symm

/-- Only the owner's thread runs the code of `start` and `stop`. -/
theorem Inv.at_caller {q : CallerPc W} (hi : Inv cfg s) (h : s.pc t = .caller q) :
    t = .caller ∧ (q = .resume ∨ q = .swapIn → cfg.useCaller = true) := by
  have hlocal := hi.thread t
  unfold Local at hlocal
  rwa [h] at hlocal

/-- What holds of a thread in the loop of `run`. -/
theorem Inv.at_run {cbCo : Option ℕ} {q : RunPc W} (hi : Inv cfg s) :
    s.pc t = .run cbCo q → t ≠ .caller ∧ cbCo = q.cbCo ∧
    match q with
    | .turn x ph => ph.StateOk (s.co (x.co t)).mState
    | .left => False
    | _ => True := by
  intro h
  have hlocal := hi.thread t
  unfold Local at hlocal
  rwa [h] at hlocal

/-- What holds of a thread on the stack of a coroutine. -/
theorem Inv.at_co {c : Co W} {q : CoPc} (hi : Inv cfg s) (h : s.pc t = .co c q) :
    t ≠ .caller ∧ c.Of t ∧ q.StateOk (s.co c).mState ∧
    ∃ x : Turn, x.co t = c ∧ (s.co (schedCo cfg t)).mCtx = .run x.cbCo (.turn x .back) := by
  have hlocal := hi.thread t
  unfold Local at hlocal
  rwa [h] at hlocal

theorem Inv.eq_caller {q : CallerPc W} (hi : Inv cfg s) (h : s.pc t = .caller q) :
    t = .caller := (hi.at_caller h).1

/-- The next address of `new` is in nobody's hand. -/
theorem Inv.free_nextCo (hi : Inv cfg s) (t : Thread W) :
    (s.pc t).inHand t ≠ some (.made s.nextCo) := by
  intro h
  exact Nat.lt_irrefl _ (hi.bound t _ h)

variable [DecidableEq W]

/-- A move of thread `t` to `p`: what is changed of the coroutines is `d`, which no other thread
has in hand and which is the only one `t` may have in hand afterwards, and what the run loop of
`t` has saved. -/
structure Moves (cfg : Config W) (s s' : State W) (t : Thread W) (d : Co W) (p : Pc W) : Prop where
  pc : s'.pc = Function.update s.pc t p
  co : ∀ c, c ≠ d → c ≠ schedCo cfg t → s'.co c = s.co c
  free : ∀ t' ≠ t, (s.pc t').inHand t' ≠ some d
  of : d.Of t
  hand : ∀ c, p.inHand t = some c → c = d
  bound : ∀ k, p.inHand t = some (.made k) → k < s'.nextCo
  saved : SavedCo d (s'.co d)
  before : (s.pc t).inHand t = some (.idle t) → d = .idle t
  running : s.pc t ≠ .notStarted
  notStart : ∀ cbs, p ≠ .caller (.start cbs)
  nextCo : s.nextCo ≤ s'.nextCo := by exact le_rfl
  tasks : ∀ task ∈ s'.tasks, task ∈ s.tasks ∨ ∀ k ∈ task.selfco, k < s.nextCo := by
    exact fun _ h => Or.inl h
  waiting : ∀ k ∈ s'.waiting, k ∈ s.waiting ∨ k < s.nextCo := by exact fun _ h => Or.inl h

theorem Moves.pc_self (hm : Moves cfg s s' t d p) : s'.pc t = p := by
  rw [hm.pc, Function.update_self]

theorem Moves.pc_of_ne (hm : Moves cfg s s' t d p) {t' : Thread W} (h : t' ≠ t) :
    s'.pc t' = s.pc t' := by
  rw [hm.pc, Function.update_of_ne h]

/-- The frame rule: after a move of `t` the invariant has to be shown for `t` alone. -/
theorem Inv.move (hi : Inv cfg s) (hm : Moves cfg s s' t d p) (hlocal : Local cfg s' t)
    (hidle : d = .idle t → p.inHand t ≠ some (.idle t) → (s'.co d).mState ≠ .term) :
    Inv cfg s' := by
  -- the coroutine in another thread's hand is not touched
  have hother : ∀ t' ≠ t, ∀ c, (s.pc t').inHand t' = some c → s'.co c = s.co c := by
    intro t' ht' c hc
    apply hm.co
    · rintro rfl
      exact hm.free t' ht' hc
    · exact ((hi.thread t').of hc).ne_schedCo t
  constructor
  case thread =>
    intro t'
    by_cases ht : t' = t
    · rw [ht]
      exact hlocal
    · apply (hi.thread t').congr (hm.pc_of_ne ht) (hother t' ht)
      rw [hm.co]
      · intro heq
        exact hm.of.ne_schedCo t' heq.symm
      · intro heq
        exact ht (schedCo_injective heq)
  case distinct =>
    intro t₁ t₂ c h₁ h₂
    by_cases ht₁ : t₁ = t <;> by_cases ht₂ : t₂ = t
    · rw [ht₁, ht₂]
    · rw [ht₁, hm.pc_self] at h₁
      rw [hm.pc_of_ne ht₂, hm.hand c h₁] at h₂
      exact absurd h₂ (hm.free t₂ ht₂)
    · rw [ht₂, hm.pc_self] at h₂
      rw [hm.pc_of_ne ht₁, hm.hand c h₂] at h₁
      exact absurd h₁ (hm.free t₁ ht₁)
    · rw [hm.pc_of_ne ht₁] at h₁
      rw [hm.pc_of_ne ht₂] at h₂
      exact hi.distinct t₁ t₂ c h₁ h₂
  case saved =>
    intro t' c hc
    by_cases hd : c = d
    · rw [hd]
      exact hm.saved
    · rw [hm.co c hd (hc.ne_schedCo t)]
      exact hi.saved t' c hc
  case idle =>
    intro t' h
    by_cases ht : t' = t
    · rw [ht, hm.pc_self] at h
      rw [ht]
      by_cases hd : d = .idle t
      · rw [← hd]
        exact hidle hd h
      · have hof : (Co.idle t).Of t := rfl
        rw [hm.co _ (Ne.symm hd) (hof.ne_schedCo t)]
        exact hi.idle t fun hb => hd (hm.before hb)
    · have hne : Co.idle t' ≠ d := by
        intro heq
        have hof := hm.of
        rw [← heq] at hof
        exact ht hof
      rw [hm.pc_of_ne ht] at h
      have hof : (Co.idle t').Of t' := rfl
      rw [hm.co _ hne (hof.ne_schedCo t)]
      exact hi.idle t' h
  case bound =>
    intro t' k h
    by_cases ht : t' = t
    · rw [ht, hm.pc_self] at h
      exact hm.bound k h
    · rw [hm.pc_of_ne ht] at h
      exact Nat.lt_of_lt_of_le (hi.bound t' k h) hm.nextCo
  case tasks =>
    intro task htask k hk
    rcases hm.tasks task htask with h | h
    · exact Nat.lt_of_lt_of_le (hi.tasks task h k hk) hm.nextCo
    · exact Nat.lt_of_lt_of_le (h k hk) hm.nextCo
  case waiting =>
    intro k hk
    rcases hm.waiting k hk with h | h
    · exact Nat.lt_of_lt_of_le (hi.waiting k h) hm.nextCo
    · exact Nat.lt_of_lt_of_le h hm.nextCo
  case started =>
    intro cbs hstart w
    by_cases hc : Thread.caller = t
    · rw [← hc] at hm
      rw [hm.pc_self] at hstart
      exact absurd hstart (hm.notStart cbs)
    · rw [hm.pc_of_ne hc] at hstart
      have hw := hi.started cbs hstart w
      rw [hm.pc_of_ne, hw]
      rintro rfl
      exact hm.running hw
  case threads =>
    intro w hw
    have hns := hi.threads w hw
    rw [hm.pc_of_ne, hns]
    rintro rfl
    exact hm.running hns

/-- What the rest of the program does to a coroutine that no thread has in hand. -/
theorem Inv.env {k : ℕ} (hi : Inv cfg s) (hpc : s'.pc = s.pc)
    (hco : ∀ c, c ≠ .made k → s'.co c = s.co c) (hfree : ∀ t, (s.pc t).inHand t ≠ some (.made k))
    (hsaved : SavedCo (.made k) (s'.co (.made k))) (hnext : s.nextCo ≤ s'.nextCo)
    (htasks : ∀ task ∈ s'.tasks, task ∈ s.tasks ∨ ∀ k ∈ task.selfco, k < s.nextCo)
    (hwaiting : s'.waiting = s.waiting) : Inv cfg s' := by
  have hof : (Co.made k : Co W).Of Thread.caller := trivial
  constructor
  case thread =>
    intro t
    apply (hi.thread t).congr (by rw [hpc])
    · intro c hc
      apply hco
      rintro rfl
      exact hfree t hc
    · -- no run loop saves its context in a coroutine that was made
      rw [hco]
      intro heq
      exact hof.ne_schedCo t heq.symm
  case saved =>
    intro t c hc
    by_cases hk : c = .made k
    · rw [hk]
      exact hsaved
    · rw [hco c hk]
      exact hi.saved t c hc
  case idle =>
    intro t h
    rw [hpc] at h
    rw [hco _ (by simp)]
    exact hi.idle t h
  case tasks =>
    intro task htask k hk
    rcases htasks task htask with h | h
    · exact Nat.lt_of_lt_of_le (hi.tasks task h k hk) hnext
    · exact Nat.lt_of_lt_of_le (h k hk) hnext
  case waiting =>
    rw [hwaiting]
    intro k hk
    exact Nat.lt_of_lt_of_le (hi.waiting k hk) hnext
  case bound =>
    rw [hpc]
    intro t k h
    exact Nat.lt_of_lt_of_le (hi.bound t k h) hnext
  all_goals rw [hpc]
  · exact hi.distinct
  · exact hi.started
  · exact hi.threads

end Frame

end CoKV.Scheduler
