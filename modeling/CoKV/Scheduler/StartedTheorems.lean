import CoKV.Scheduler.StartupTheorems

/-!
# `start` ends, with the ids of its threads

`start_ends`: where `pthread_create` succeeds and nothing interrupts `sem_wait`, `start` can always be
brought to its end by its owner and the new threads alone, though `m_mutex` is held all the while; and
then `m_threadIds` has the id of each thread, in the order of `m_threadpoll`. Where a wait is
interrupted, an id may be read that has not been written (`interrupted_id`).
-/

namespace CoKV.Scheduler

namespace Startup

/-- Nothing interrupts `sem_wait`, and `pthread_create` succeeds. -/
def NoFailure {W : Type} (_ : Startup W) : StartLabel W → Prop
  | .interrupted => False
  | .start created => created = true
  | _ => True

/-- The owner goes on in `start`, or a thread in `Thread::run`. -/
def Starting {W : Type} (_ : Startup W) : StartLabel W → Prop
  | .start created => created = true
  | .entry _ => True
  | _ => False

/-- The steps of a thread until it has notified. -/
def entryLeft : Option EntryPc → ℕ
  | some .setId => 3
  | some .swapCb => 2
  | some (.notify _) => 1
  | _ => 0

variable {W : Type}

/-- More than the steps that are left of `start`. -/
def left (cfg : Config W) (y : Startup W) : ℕ :=
  match y.start with
  | .before => 7 * cfg.workers.length + 2
  | .loop workers => 7 * workers.length + 1
  | .wait w workers => 7 * workers.length + 3 + entryLeft (y.entry w)
  | .getId _ workers => 7 * workers.length + 2
  | .after => 0

/-- Whom the constructor waits for has notified or will. -/
def Waiting (y : Startup W) : Prop :=
  ∀ w workers, y.start = .wait w workers →
    0 < (y.object w).mSemaphore ∨ 0 < entryLeft (y.entry w)

theorem waiting_of_ne {y : Startup W} (h : ∀ w workers, y.start ≠ .wait w workers) : Waiting y :=
  fun w workers heq => absurd heq (h w workers)

variable [DecidableEq W] {cfg : Config W} {tid : Thread W → ℤ} {y y' : Startup W}

theorem leave_start (y : Startup W) : y.leave.start = .after ∨ y.leave = y := by
  unfold leave
  split
  · exact Or.inl rfl
  · exact Or.inr rfl

/-- Releasing `m_mutex` is waiting for nobody. -/
theorem waiting_leave (h : ∀ w workers, y.start ≠ .wait w workers) : Waiting y.leave := by
  rcases leave_start y with hstart | hsame
  · apply waiting_of_ne
    rw [hstart]
    exact nofun
  · rw [hsame]
    exact waiting_of_ne h

/-- A thread that goes on in `Thread::run` comes nearer to its callback. -/
theorem entryLeft_lt {w : W} {p : EntryPc} (hp : 0 < entryLeft (some p))
    (hy : y.entryStep tid w p = some y') :
    (0 < (y'.object w).mSemaphore ∨ 0 < entryLeft (y'.entry w)) ∧
      entryLeft (y'.entry w) < entryLeft (some p) := by
  cases p with
  | setId =>
    obtain rfl := Option.some.inj hy
    dsimp only [setEntry, setObject]
    rw [Function.update_self, Function.update_self]
    exact ⟨Or.inr (by decide), by decide⟩
  | swapCb =>
    obtain rfl := Option.some.inj hy
    dsimp only [setEntry, setObject]
    rw [Function.update_self, Function.update_self]
    exact ⟨Or.inr (by simp [entryLeft]), by simp [entryLeft]⟩
  | notify cb =>
    obtain rfl := Option.some.inj hy
    dsimp only [setEntry, setObject]
    rw [Function.update_self, Function.update_self]
    exact ⟨Or.inl (Nat.succ_pos _), by simp [entryLeft]⟩
  | call cb => cases hp

theorem Waiting.step (hw : Waiting y) {l : StartLabel W} (hok : NoFailure y l)
    (hy : Startup.step tid cfg y l = some y') : Waiting y' := by
  cases l with
  | start created =>
    obtain rfl : created = true := hok
    dsimp only [Startup.step] at hy
    cases hst : y.start with
    | before =>
      rw [hst] at hy
      dsimp only [startStep] at hy
      split at hy
      · obtain rfl := Option.some.inj hy
        exact waiting_leave (by rw [hst]; exact nofun)
      · obtain rfl := Option.some.inj hy
        exact waiting_of_ne nofun
    | loop workers =>
      rw [hst] at hy
      cases workers with
      | nil =>
        obtain rfl := Option.some.inj hy
        exact waiting_leave (by rw [hst]; exact nofun)
      | cons w workers =>
        obtain rfl := Option.some.inj hy
        intro w' workers' heq
        cases heq
        right
        dsimp only [setEntry, setObject]
        rw [Function.update_self]
        exact Nat.succ_pos _
    | wait w workers =>
      rw [hst] at hy
      dsimp only [startStep] at hy
      split at hy
      · obtain rfl := Option.some.inj hy
        exact waiting_of_ne nofun
      · cases hy
    | getId w workers =>
      rw [hst] at hy
      obtain rfl := Option.some.inj hy
      exact waiting_of_ne nofun
    | after =>
      rw [hst] at hy
      cases hy
  | interrupted => exact hok.elim
  | entry w =>
    obtain ⟨p, hp, hy⟩ := Option.bind_eq_some_iff.mp hy
    have hf := entryStep_frame hy
    intro w' workers heq
    rw [hf.start] at heq
    by_cases hne : w' = w
    · rw [hne] at heq ⊢
      by_cases hleft : 0 < entryLeft (some p)
      · exact (entryLeft_lt hleft hy).1
      · have hpos : 0 < (y.object w).mSemaphore := by
          rcases hw w workers heq with hpos | hleft'
          · exact hpos
          · rw [hp] at hleft'
            exact absurd hleft' hleft
        cases p with
        | call cb =>
          -- the thread that has notified calls its callback
          left
          cases cb with
          | none => cases hy
          | some f =>
            cases f with
            | run =>
              obtain rfl := Option.some.inj hy
              exact hpos
            | _ => cases hy
        | _ => exact absurd (by simp [entryLeft]) hleft
    · rw [hf.object w' hne, hf.entry w' hne]
      exact hw w' workers heq
  | other l =>
    dsimp only [Startup.step] at hy
    split at hy
    case isTrue => cases hy
    case isFalse =>
      obtain ⟨s', -, rfl⟩ := Option.map_eq_some_iff.mp hy
      exact hw

/-- Until `start` is over, its owner can go on, or the thread it waits for. -/
theorem goes_on (h : Handshake cfg tid y) (hw : Waiting y) (hst : y.start ≠ .after) :
    ∃ l z, Starting y l ∧ Startup.step tid cfg y l = some z ∧ left cfg z < left cfg y := by
  have hplace := h.place
  -- the owner's step, or that of thread `w`
  have howner : ∀ p z, y.start = p → y.startStep cfg true p = some z → left cfg z < left cfg y →
      ∃ l z, Starting y l ∧ Startup.step tid cfg y l = some z ∧ left cfg z < left cfg y := by
    rintro p z rfl hz hlt
    exact ⟨.start true, z, rfl, hz, hlt⟩
  cases hp : y.start with
  | before =>
    rw [hp] at hplace
    refine howner _ { y with
      state := { y.state with stopping := false }, start := .loop cfg.workers } hp ?_ ?_
    · dsimp only [startStep]
      rw [hplace.2.2.1]
      rfl
    · unfold left
      rw [hp]
      exact Nat.lt_succ_self _
  | loop workers =>
    rw [hp] at hplace
    cases workers with
    | nil =>
      obtain ⟨cbs, hcaller⟩ := hplace.1.caller
      refine howner _ y.leave hp rfl ?_
      unfold left Startup.leave
      rw [hcaller, hp]
      exact Nat.succ_pos _
    | cons w workers =>
      refine howner _ _ hp rfl ?_
      unfold left
      dsimp only [setEntry, setObject]
      rw [hp, if_pos rfl, Function.update_self]
      simp only [entryLeft, List.length_cons]
      omega
  | wait w workers =>
    have hleft : left cfg y = 7 * workers.length + 3 + entryLeft (y.entry w) := by
      unfold left
      rw [hp]
    rcases hw w workers hp with hpos | hentry
    · refine howner _ _ hp (if_pos hpos) ?_
      rw [hleft]
      show 7 * workers.length + 2 < _
      omega
    · cases hp' : y.entry w with
      | none =>
        rw [hp'] at hentry
        cases hentry
      | some p =>
        rw [hp'] at hentry
        obtain ⟨z, hz⟩ : ∃ z, y.entryStep tid w p = some z := by
          cases p with
          | call cb => cases hentry
          | _ => exact ⟨_, rfl⟩
        refine ⟨.entry w, z, trivial, ?_, ?_⟩
        · dsimp only [Startup.step]
          rw [hp']
          exact hz
        · have hlt := (entryLeft_lt hentry hz).2
          rw [hleft, hp']
          unfold left
          rw [(entryStep_frame hz).start, hp]
          dsimp only
          omega
  | getId w workers =>
    refine howner _ _ hp rfl ?_
    unfold left
    rw [hp]
    exact Nat.lt_succ_self _
  | after => exact absurd hp hst

/-- Where nothing fails, `start` can be brought to its end from wherever it stands, by its owner and
the threads that it creates; and when it is over, `m_threadIds` has the ids of all of them in the
order of `m_threadpoll`, and each has taken its callback. -/
theorem start_ends (hn : cfg.workers.Nodup) {cbs : List ℕ}
    (h : Run (Startup.step tid cfg) NoFailure (init tid cfg cbs) y) :
    (∃ z, Run (Startup.step tid cfg) Starting y z ∧ z.start = .after) ∧
    (y.start = .after → y.threadpoll = cfg.workers ∧
      y.threadIds = rootIds tid cfg ++ cfg.workers.map (fun w => tid (.worker w)) ∧
      ∀ w ∈ cfg.workers, (y.object w).mThread = true ∧ (y.object w).mId = tid (.worker w) ∧
        (y.object w).mCb = none) := by
  have hstep : ∀ y l z, Handshake cfg tid y ∧ Waiting y → NoFailure y l →
      Startup.step tid cfg y l = some z → Handshake cfg tid z ∧ Waiting z := by
    intro y l z hy hok hz
    have hok' : Uninterrupted y l := by
      cases l with
      | interrupted => exact hok
      | _ => trivial
    exact ⟨(hy.1.step hn hok' hz).1, hy.2.step hok hz⟩
  have hinv : Handshake cfg tid y ∧ Waiting y :=
    h.invariant ⟨handshake_init cbs, waiting_of_ne nofun⟩ fun y l z => hstep y l z
  refine ⟨?_, fun hst => ?_⟩
  · refine Run.exists_done (I := fun y => Handshake cfg tid y ∧ Waiting y) (left cfg) ?_ hinv
    intro y hy hst
    obtain ⟨l, z, hl, hz, hlt⟩ := goes_on hy.1 hy.2 hst
    have hok : NoFailure y l := by
      cases l with
      | start created => exact hl
      | entry w => trivial
      | _ => exact hl.elim
    exact ⟨l, z, hl, hz, hstep y l z hy hok hz, hlt⟩
  · have hplace := hinv.1.place
    rw [hst] at hplace
    refine ⟨hplace.pool, hplace.ids, fun w hw => ?_⟩
    have hnot := hplace.notified w hw
    exact ⟨hnot.thread, hnot.id, hnot.cb⟩

/-- What the kernel gives an owner and two threads. -/
def threeIds : Thread Bool → ℤ
  | .caller => 1
  | .worker false => 5
  | .worker true => 6

/-- An owner that takes part and two threads: before the second has been constructed, and when `start`
is over. -/
theorem start_ends_witness : ∃ y z : Startup Bool, y.start = .loop [true] ∧
    (∃ u, Run (Startup.step threeIds ⟨true, [false, true]⟩) Starting y u ∧ u.start = .after) ∧
    z.threadpoll = [false, true] ∧ z.threadIds = [1, 5, 6] ∧ (z.object true).mCb = none := by
  obtain ⟨y, hy, hst⟩ : ∃ y, runLabels (Startup.step threeIds ⟨true, [false, true]⟩)
      (init threeIds ⟨true, [false, true]⟩ [] : Startup Bool) [.start true, .start true,
        .entry false, .entry false, .entry false, .start true, .start true] = some y ∧
        y.start = .loop [true] :=
    ⟨_, rfl, rfl⟩
  obtain ⟨z, hz, hover⟩ : ∃ z, runLabels (Startup.step threeIds ⟨true, [false, true]⟩) y
      [.start true, .entry true, .entry true, .entry true, .start true, .start true, .start true]
        = some z ∧ z.start = .after := by
    cases hy
    exact ⟨_, rfl, rfl⟩
  have hrun : Run (Startup.step threeIds ⟨true, [false, true]⟩) NoFailure _ y :=
    .of_allowed (by simp [NoFailure]) hy
  obtain ⟨hpool, hids, hthreads⟩ := (start_ends (by decide)
    (hrun.trans (.of_allowed (by simp [NoFailure]) hz))).2 hover
  exact ⟨y, z, hst, (start_ends (by decide) hrun).1, hpool, hids,
    (hthreads true (List.mem_cons_of_mem _ (List.mem_cons_self ..))).2.2⟩

/-- The wait for the thread is interrupted before it has written its id. -/
theorem interrupted_id : ∃ y : Startup Unit,
    Run (Startup.step (fun _ => 5) ⟨false, [()]⟩) anyStep (init (fun _ => 5) ⟨false, [()]⟩ []) y ∧
      y.start = .after ∧ y.threadIds = [-1] := by
  obtain ⟨y, hy, hst, hids⟩ : ∃ y : Startup Unit,
      runLabels (Startup.step (fun _ => 5) ⟨false, [()]⟩) (init (fun _ => 5) ⟨false, [()]⟩ [])
        [.start true, .start true, .interrupted, .start true, .start true] = some y ∧
        y.start = .after ∧ y.threadIds = [-1] :=
    ⟨_, rfl, rfl, rfl⟩
  exact ⟨y, .of_labels hy, hst, hids⟩

end Startup

end CoKV.Scheduler
