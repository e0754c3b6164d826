import CoKV.Scheduler.TurnTheorems

/-!
# No coroutine on two threads

`run_exclusive`: as long as no run loop takes a coroutine from the queue that another one still has
in hand, no coroutine is resumed by one thread while it is on another one, and a coroutine that is
executing is in state `EXEC`. `run` only steps over coroutines in state `EXEC`, and that is not
enough: `yieldtohold` and `yield` write `HOLD` before the context is saved, and the run loop that
resumed a coroutine writes `HOLD` again after it has come back. `race_not_exclusive` is such a run
of three workers.
-/

namespace CoKV.Scheduler

variable {W : Type}

/-- The coroutine that thread `t` is resuming: it has entered `resuem` and not yet switched. -/
def Pc.resuming (t : Thread W) : Pc W → Option (Co W)
  | run _ (.turn x .resume) | run _ (.turn x .swapIn) => some (x.co t)
  | _ => none

/-- The coroutine whose stack the code runs on: it is executing, or has not yet saved its
context. -/
def Pc.onStack : Pc W → Option (Co W)
  | co c _ => some c
  | _ => none

/-- The coroutine is executing: it has not begun to write a state of its own on the way out. -/
def CoPc.Executing : CoPc → Prop
  | .yield .callback => True
  | .yield _ | .swapOut _ => False
  | _ => True

/-- No coroutine is resumed by one thread while it is on another one, and a coroutine that is
executing is in state `EXEC`. -/
structure Exclusive (s : State W) : Prop where
  alone : ∀ t t' c, t ≠ t' → (s.pc t).resuming t = some c ∨ (s.pc t).onStack = some c →
    (s.pc t').onStack ≠ some c
  exec : ∀ t c p, s.pc t = .co c p → p.Executing → (s.co c).mState = .exec

/-- Whoever resumes a coroutine or runs on its stack has it in hand. -/
theorem Pc.inHand_of_resuming {t : Thread W} {p : Pc W} {c : Co W}
    (h : p.resuming t = some c ∨ p.onStack = some c) : p.inHand t = some c := by
  cases p with
  | run cbCo q =>
    cases q with
    | turn x ph => cases ph <;> rcases h with h | h <;> first | exact h | cases h
    | _ => rcases h with h | h <;> cases h
  | co d q =>
    rcases h with h | h
    · cases h
    · exact h
  | _ => rcases h with h | h <;> cases h

theorem CoPc.StateOk.exec {p : CoPc} {st : CoState} (h : p.StateOk st) (hp : p.Executing) :
    st = .exec := by
  cases p with
  | yield y => cases y <;> first | exact h | exact hp.elim
  | swapOut y => exact hp.elim
  | _ => exact h

theorem Inv.exclusive {cfg : Config W} {s : State W} (hi : Inv cfg s) : Exclusive s where
  alone t t' c hne h h' :=
    hne (hi.distinct t t' c (Pc.inHand_of_resuming h) (Pc.inHand_of_resuming (Or.inr h')))
  exec _ _ _ hp hexec := (hi.at_co hp).2.2.1.exec hexec

variable [DecidableEq W]

/-- **Exclusive coroutines**: on any number of workers, with any callbacks, and whatever the rest
of the program adds, makes and resets, every state of a run is exclusive in which each scan takes
a coroutine that no run loop has in hand. -/
theorem run_exclusive {cfg : Config W} {cbs : List ℕ} {s : State W}
    (h : Run (step cfg) FreeTake (init cbs) s) : Exclusive s :=
  (Inv.of_run h).exclusive

/-- Callbacks may be taken at any time. -/
theorem freeTake_of_callbacks {s : State W} (h : ∀ task ∈ s.tasks, task.selfco = none)
    (l : Label W) : FreeTake s l := by
  cases l with
  | thread t =>
    intro cbCo _ task htask c hc
    rw [h task (List.mem_of_find?_eq_some htask)] at hc
    cases hc
  | _ => trivial

/-- Three workers; their owner's thread takes no tasks. -/
def threeWorkers : Config (Fin 3) := ⟨false, [0, 1, 2]⟩

/-- What `FreeTake` asks of a scan, where there are three workers. -/
def freeTest (s : State (Fin 3)) : Label (Fin 3) → Bool
  | .thread t =>
    match s.pc t, s.tasks.find? (eligible s t) with
    | .run _ .scan, some ⟨_, some c, _⟩ =>
      [.caller, .worker 0, .worker 1, .worker 2].all fun t' => (s.pc t').inHand t' != some (.made c)
    | _, _ => true
  | _ => true

theorem freeTake_of_test (s : State (Fin 3)) (l : Label (Fin 3)) (h : freeTest s l = true) :
    FreeTake s l := by
  cases l with
  | thread t =>
    rintro cbCo hscan ⟨cb, selfco, thr⟩ htask c hc t'
    cases hc
    have hall : ∀ t' ∈ [Thread.caller, .worker 0, .worker 1, .worker 2],
        (s.pc t').inHand t' ≠ some (.made c) := by
      unfold freeTest at h
      dsimp only at h
      rw [hscan, htask] at h
      simpa using h
    match t' with
    | .caller | .worker 0 | .worker 1 | .worker 2 => exact hall _ (by simp)
  | _ => trivial

/-- Worker `0` runs a callback that registers itself and yields; worker `1`, in `idle`, hands its
coroutine over; and worker `2` takes and resumes it. -/
def handOver : List (Label (Fin 3)) :=
  List.replicate 2 (.thread .caller) ++ List.replicate 5 (.thread (.worker 0)) ++
  [.body (.worker 0) .addEvent, .body (.worker 0) .yieldtohold] ++
  List.replicate 6 (.thread (.worker 0)) ++ List.replicate 5 (.thread (.worker 1)) ++
  [.body (.worker 1) (.trigerEvent 0)] ++ List.replicate 4 (.thread (.worker 2))

theorem run_exclusive_witness : ∃ s : State (Fin 3),
    s.pc (.worker 2) = .co (.made 0) .body ∧ s.pc (.worker 0) = .run none .scan ∧
      (s.co (.made 0)).mState = .exec ∧ Exclusive s := by
  obtain ⟨s, hs, h2, h0, hstate⟩ : ∃ s,
      runLabels (fun s l => if freeTest s l then step threeWorkers s l else none) (init [7])
        handOver = some s ∧ s.pc (.worker 2) = .co (.made 0) .body ∧
        s.pc (.worker 0) = .run none .scan ∧ (s.co (.made 0)).mState = .exec :=
    ⟨_, rfl, rfl, rfl, rfl⟩
  exact ⟨s, h2, h0, hstate, run_exclusive (.of_tested freeTake_of_test hs)⟩

/-! ## The race -/

/-- Worker `0` runs a callback that registers itself and is in the middle of `yieldtohold`, behind
the first write of `HOLD`; worker `1`, in `idle`, hands the coroutine over; worker `2` takes and
resumes it; and then worker `0` goes on in `yield`. -/
def raceLabels : List (Label (Fin 3)) :=
  [.thread .caller, .thread .caller,
   .thread (.worker 0), .thread (.worker 0), .thread (.worker 0), .thread (.worker 0),
   .thread (.worker 0), .body (.worker 0) .addEvent, .body (.worker 0) .yieldtohold,
   .thread (.worker 0),
   .thread (.worker 1), .thread (.worker 1), .thread (.worker 1), .thread (.worker 1),
   .thread (.worker 1), .body (.worker 1) (.trigerEvent 0),
   .thread (.worker 2), .thread (.worker 2), .thread (.worker 2), .thread (.worker 2),
   .thread (.worker 0)]

/-- Workers `0` and `2` are both on the stack of the coroutine, which worker `2` has started a
second time, and its state is `HOLD`. -/
theorem race_state : (runLabels (step threeWorkers) (init [7]) raceLabels).map
    (fun s => (s.pc (.worker 0), s.pc (.worker 2), (s.co (.made 0)).mState))
    = some (.co (.made 0) (.swapOut .yieldtohold), .co (.made 0) .entry, .hold) := by
  rfl

/-- **The race**: a coroutine is resumed before its context is saved, and is executing in state
`HOLD`. -/
theorem race_not_exclusive :
    ¬ ∀ s, Run (step threeWorkers) anyStep (init [7]) s → Exclusive s := by
  intro h
  obtain ⟨s, hs, hstate⟩ := Option.map_eq_some_iff.mp race_state
  have hexcl := h s (Run.of_labels hs)
  have h2 : s.pc (.worker 2) = .co (.made 0) .entry := congrArg (·.2.1) hstate
  have hexec := hexcl.exec _ _ _ h2 trivial
  have hhold : (s.co (.made 0)).mState = .hold := congrArg (·.2.2) hstate
  rw [hexec] at hhold
  cases hhold

end CoKV.Scheduler
