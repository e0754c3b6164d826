import CoKV.Scheduler.Queue
import CoKV.Scheduler.FrameTheorems
import Mathlib.Data.List.Nodup
import Mathlib.Data.List.Range

/-!
# What happens to a task

`tasks_served`: in every run of the queue, a non-empty task is taken once at most, by one thread,
and that is the one it is pinned to; what has not been taken waits in the order in which it was
added; and a scan takes the first task that it may take.
-/

namespace CoKV.Scheduler

variable {W : Type}

/-- The tasks that have been made, numbered. -/
def Queue.entries (q : Queue W) : List (Entry W) := q.added.mapIdx Entry.mk

/-- The numbers of the tasks that have been taken. -/
def Queue.takenIds (q : Queue W) : List ℕ := q.taken.map fun x => x.2.id

/-- What a scan by `t` does that reads the states `getState`: it takes the first task that is
eligible, or nothing. -/
def ScansFirst [DecidableEq W] (q : Queue W) (t : Thread W) (getState : ℕ → CoState) : Prop :=
  (∃ tickleMe, q.scan t getState = some (.empty, false, tickleMe, q) ∧
    ∀ e ∈ q.tasks, ¬ e.Eligible t getState) ∨
  ∃ pre e post tickleMe, q.tasks = pre ++ e :: post ∧ (∀ a ∈ pre, ¬ a.Eligible t getState) ∧
    e.Eligible t getState ∧ q.scan t getState = some (e.task, true, tickleMe,
      { q with tasks := pre ++ post, taken := q.taken ++ [(t, e)] })

/-- What is to be known of the tasks. -/
structure Served [DecidableEq W] (q : Queue W) : Prop where
  once : q.takenIds.Nodup
  made : ∀ x ∈ q.taken, x.2 ∈ q.entries ∧ x.2.task.isNonempty = true
  pinned : ∀ x ∈ q.taken, ∀ t, x.2.task.threadNum = some t → x.1 = t
  waiting : q.tasks = q.entries.filter fun e => e.task.isNonempty && !q.takenIds.contains e.id
  scan : ∀ t getState, ScansFirst q t getState

/-! ## The invariant -/

/-- `Served`, but for what the next scan does. -/
structure Waiting (q : Queue W) : Prop where
  once : q.takenIds.Nodup
  made : ∀ x ∈ q.taken, x.2 ∈ q.entries ∧ x.2.task.isNonempty = true
  pinned : ∀ x ∈ q.taken, ∀ t, x.2.task.threadNum = some t → x.1 = t
  waiting : q.tasks = q.entries.filter fun e => e.task.isNonempty && !q.takenIds.contains e.id

section Entries

variable {q : Queue W}

/-- An entry has the number of a task that was added. -/
theorem id_lt_of_mem {e : Entry W} (h : e ∈ q.entries) : e.id < q.added.length := by
  obtain ⟨i, hi, rfl⟩ := List.mem_mapIdx.mp h
  exact hi

/-- Each added task has one entry. -/
theorem nodup_entries (q : Queue W) : (q.entries.map Entry.id).Nodup := by
  have hids : q.entries.map Entry.id = List.range q.added.length := by
    unfold Queue.entries
    exact List.ext_getElem (by simp) fun i _ _ => by simp
  rw [hids]
  exact List.nodup_range

variable (h : Waiting q)
include h

/-- What is in the queue has been added, is not empty, and has not been taken. -/
theorem Waiting.mem_tasks {e : Entry W} (he : e ∈ q.tasks) :
    e ∈ q.entries ∧ e.task.isNonempty = true ∧ e.id ∉ q.takenIds := by
  rw [h.waiting, List.mem_filter] at he
  simpa using he

/-- What has been taken has been added. -/
theorem Waiting.lt_of_taken {i : ℕ} (hi : i ∈ q.takenIds) : i < q.added.length := by
  obtain ⟨x, hx, rfl⟩ := List.mem_map.mp hi
  exact id_lt_of_mem (h.made x hx).1

/-- No task is in the queue twice. -/
theorem Waiting.nodup_tasks : (q.tasks.map Entry.id).Nodup := by
  have hsub : q.tasks.Sublist q.entries := by
    rw [h.waiting]
    exact List.filter_sublist
  exact (nodup_entries q).sublist (hsub.map Entry.id)

/-- A task that is added waits, unless it is empty. -/
theorem Waiting.addTaskNoLock (task : Task W) : Waiting (q.addTaskNoLock task).2 := by
  have hentries : (q.addTaskNoLock task).2.entries = q.entries ++ [⟨q.added.length, task⟩] :=
    List.mapIdx_concat
  refine ⟨h.once, ?_, h.pinned, ?_⟩
  · intro x hx
    rw [hentries]
    exact ⟨List.mem_append_left _ (h.made x hx).1, (h.made x hx).2⟩
  · -- the new task has a number that no task has had
    have hnew : q.takenIds.contains q.added.length = false := by
      rw [← Bool.not_eq_true, List.contains_iff_mem]
      exact fun hmem => Nat.lt_irrefl _ (h.lt_of_taken hmem)
    rw [hentries, List.filter_append]
    show (if task.isNonempty then q.tasks ++ [⟨q.added.length, task⟩] else q.tasks) = _
    have htaken : (q.addTaskNoLock task).2.takenIds = q.takenIds := rfl
    rw [htaken, ← h.waiting]
    cases hne : task.isNonempty with
    | false => simp [hne]
    | true =>
      rw [List.filter_cons_of_pos (by rw [hne, hnew]; rfl)]
      rfl

/-- So do those of a range. -/
theorem Waiting.addRange (fcs : List Fc) : Waiting (Queue.addRange fcs q).2.2 := by
  induction fcs generalizing q with
  | nil => exact h
  | cons fc fcs ih => exact ih (h.addTaskNoLock _)

/-- A task is taken out of the queue by a thread that may take it. -/
theorem Waiting.take {pre post : List (Entry W)} {e : Entry W} {t : Thread W}
    (hq : q.tasks = pre ++ e :: post) (hpin : e.task.threadNum = none ∨ e.task.threadNum = some t) :
    Waiting { q with tasks := pre ++ post, taken := q.taken ++ [(t, e)] } := by
  have he : e ∈ q.tasks := by simp [hq]
  obtain ⟨hmade, hne, hnot⟩ := h.mem_tasks he
  have hids : Queue.takenIds { q with tasks := pre ++ post, taken := q.taken ++ [(t, e)] }
      = q.takenIds ++ [e.id] := List.map_append
  refine ⟨?_, ?_, ?_, ?_⟩
  · rw [hids]
    exact List.nodup_append.mpr ⟨h.once, List.nodup_singleton _, by
      rintro i hi j hj rfl
      exact hnot (List.mem_singleton.mp hj ▸ hi)⟩
  · intro x hx
    rcases List.mem_append.mp hx with hx | hx
    · exact h.made x hx
    · rw [List.mem_singleton.mp hx]
      exact ⟨hmade, hne⟩
  · intro x hx t' ht'
    rcases List.mem_append.mp hx with hx | hx
    · exact h.pinned x hx t' ht'
    · rw [List.mem_singleton.mp hx] at ht' ⊢
      rcases hpin with hnone | hsome
      · cases hnone.symm.trans ht'
      · exact Option.some.inj (hsome.symm.trans ht')
  · have hnodup := h.nodup_tasks
    rw [hq, List.map_append, List.map_cons] at hnodup
    obtain ⟨hcons, hdisjoint⟩ := (List.nodup_append.mp hnodup).2
    have hpre : ∀ a ∈ pre, (a.id != e.id) = true := by
      intro a ha
      rw [bne_iff_ne]
      exact hdisjoint a.id (List.mem_map_of_mem ha) e.id (List.mem_cons_self ..)
    have hpost : ∀ a ∈ post, (a.id != e.id) = true := by
      intro a ha
      rw [bne_iff_ne]
      intro heq
      exact (List.nodup_cons.mp hcons).1 (heq ▸ List.mem_map_of_mem ha)
    calc
      pre ++ post = (pre ++ e :: post).filter fun a => a.id != e.id := by
        rw [List.filter_append, List.filter_cons_of_neg (by simp), List.filter_eq_self.mpr hpre,
          List.filter_eq_self.mpr hpost]
      _ = (q.entries.filter fun a => a.task.isNonempty && !q.takenIds.contains a.id).filter
          fun a => a.id != e.id := by
        rw [← hq, h.waiting]
      _ = _ := by
        rw [List.filter_filter, hids]
        refine List.filter_congr fun a _ => ?_
        have hone : [e.id].contains a.id = (a.id == e.id) := by
          rw [List.contains_cons, List.contains_nil, Bool.or_false]
        rw [List.contains_append, hone, bne, Bool.not_or, Bool.and_comm, Bool.and_assoc]

variable [DecidableEq W]

/-- The next scan. -/
theorem Waiting.scansFirst (t : Thread W) (getState : ℕ → CoState) : ScansFirst q t getState := by
  have hne : ∀ e ∈ q.tasks, e.task.isNonempty = true := fun e he => (h.mem_tasks he).2.1
  unfold ScansFirst Queue.scan
  rcases scanFrom_first (t := t) hne with
    ⟨b, hscan, hall⟩ | ⟨pre, e, post, b, hq, hpre, he, hscan⟩
  · rw [hscan]
    exact Or.inl ⟨b, rfl, hall⟩
  · rw [hscan]
    exact Or.inr ⟨pre, e, post, b, hq, hpre, he, rfl⟩

/-- The invariant includes what is promised. -/
theorem Waiting.served : Served q := ⟨h.once, h.made, h.pinned, h.waiting, h.scansFirst⟩

/-- Each step of the queue keeps the invariant. -/
theorem Waiting.step {q' : Queue W} {l : QueueLabel W} (hs : q.step l = some q') : Waiting q' := by
  cases l with
  | addTask fc threadNum =>
    cases hs
    exact h.addTaskNoLock _
  | addRange fcs =>
    cases hs
    exact h.addRange fcs
  | scan t getState =>
    unfold Queue.step at hs
    dsimp only at hs
    rcases h.scansFirst t getState with ⟨b, hscan, -⟩ | ⟨pre, e, post, b, hq, -, he, hscan⟩
    · rw [hscan] at hs
      cases hs
      exact h
    · rw [hscan] at hs
      cases hs
      exact h.take hq he.1

end Entries

/-- It holds in every run. -/
theorem Waiting.of_run [DecidableEq W] {q : Queue W} (h : Run Queue.step anyStep Queue.empty q) :
    Waiting q := by
  have hinit : Waiting (Queue.empty : Queue W) := ⟨List.nodup_nil, nofun, nofun, rfl⟩
  exact h.invariant hinit fun _ _ _ hi _ hs => hi.step hs

/-- **The queue**: in every run of it, each task is taken once at most and by the thread it is
pinned to, the others wait in their order, and a scan takes the first task that it may take. -/
theorem tasks_served [DecidableEq W] (q : Queue W) (h : Run Queue.step anyStep Queue.empty q) :
    Served q := (Waiting.of_run h).served

/-- A pinned callback, an empty one, and a range with a coroutine: a worker steps over what is
pinned to another one. -/
theorem tasks_served_witness : ∃ q : Queue (Fin 2), Served q ∧ q.takenIds = [2] ∧
    q.tasks.map Entry.id = [0] := by
  have hrun : Run Queue.step anyStep (Queue.empty : Queue (Fin 2)) _ :=
    (((Run.refl.tail (a := .addTask (.cb (some 7)) (some (.worker 1))) trivial rfl).tail
      (a := .addTask (.cb none) none) trivial rfl).tail
      (a := .addRange [.selfco (some 3)]) trivial rfl).tail
      (a := .scan (.worker 0) fun _ => .hold) trivial rfl
  exact ⟨_, tasks_served _ hrun, rfl, rfl⟩

/-! ## The queue of a scheduler -/

section Scheduler

variable [DecidableEq W] {cfg : Config W} {s s' : State W}

/-- Tasks are added by the constructors of `Task`, which do not fill both members. -/
def OneMember (_ : State W) : Label W → Prop
  | .addTask task => task.cb = none ∨ task.selfco = none
  | _ => True

/-- What a step does to `m_tasks`. -/
inductive MovesTasks (s s' : State W) : Prop
  | keep : s'.tasks = s.tasks → MovesTasks s s'
  | add (task : Task W) : (task.cb = none ∨ task.selfco = none) →
      s'.tasks = (s.addTask task).tasks → MovesTasks s s'
  | scan (t : Thread W) : s'.tasks = s.tasks.eraseP (eligible s t) → MovesTasks s s'

/-- A turn does not touch `m_tasks`. -/
theorem turnStep_tasks (t : Thread W) (cbCo : Option ℕ) (x : Turn) (ph : Phase) :
    MovesTasks s (turnStep cfg s t cbCo x ph) := by
  unfold turnStep
  split
  · exact .keep rfl
  · exact .keep rfl
  · split <;> exact .keep rfl
  · split
    · exact .add ⟨none, some _, none⟩ (Or.inl rfl) rfl
    · exact .add ⟨none, some _, none⟩ (Or.inl rfl) rfl
    all_goals exact .keep rfl
  · split <;> exact .keep rfl

/-- Only the scan in `run` does. -/
theorem runStep_tasks (t : Thread W) (cbCo : Option ℕ) (p : RunPc W) :
    MovesTasks s (runStep cfg s t cbCo p) := by
  unfold runStep
  split
  · split
    case h_1 hnone => exact .keep rfl
    case h_2 task _ => exact .scan t rfl
  · unfold dispatch
    refine .keep ?_
    split
    · rfl
    · split
      · rfl
      · rfl
      · split
        · rfl
        · split <;> rfl
  · exact turnStep_tasks t cbCo ..
  · refine .keep ?_
    split <;> rfl

/-- Every step of the scheduler leaves `m_tasks`, adds to it or scans it. -/
theorem step_tasks {l : Label W} (hok : OneMember s l) (hs : step cfg s l = some s') :
    MovesTasks s s' := by
  cases l with
  | thread t =>
    dsimp only [step] at hs
    split at hs
    · rcases (callerStep_frame hs).tasks with htasks | ⟨f, htasks⟩
      · exact .keep htasks
      · exact .add ⟨some f, none, none⟩ (Or.inr rfl) htasks
    · rw [← Option.some.inj hs]
      exact runStep_tasks ..
    · exact .keep (coStep_frame hs).tasks
    · cases hs
  | body t a =>
    dsimp only [step] at hs
    split at hs
    · rcases (bodyStep_frame hs).tasks with htasks | ⟨k, htasks⟩
      · exact .keep htasks
      · exact .add ⟨none, some k, none⟩ (Or.inl rfl) htasks
    · cases hs
  | addTask task =>
    dsimp only [step] at hs
    split at hs <;> cases hs
    exact .add task hok rfl
  | create cb st =>
    cases hs
    exact .keep rfl
  | reset c cb =>
    dsimp only [step] at hs
    split at hs <;> cases hs
    exact .keep rfl

/-- The states that a scan of the scheduler reads, which do not change while it goes on. -/
def readStates (s : State W) (q : Queue W) (i : ℕ) : CoState :=
  match q.added[i]? with
  | some task => task.selfco.elim .init fun c => (s.co (.made c)).mState
  | none => .init

/-- The scheduler's test of a task is that of the queue, at the states that the coroutines have. -/
theorem eligible_iff {q : Queue W} {e : Entry W} (he : e ∈ q.entries) (t : Thread W) :
    eligible s t e.task = true ↔ e.Eligible t (readStates s q) := by
  obtain ⟨i, hi, rfl⟩ := List.mem_mapIdx.mp he
  unfold eligible Entry.Eligible readStates
  rw [List.getElem?_eq_getElem hi]
  cases hselfco : q.added[i].selfco <;> simp [hselfco]

omit [DecidableEq W] in
/-- `addTask` on the queue and in the scheduler. -/
theorem addTask_tasks {q : Queue W} (hq : q.tasks.map Entry.task = s.tasks) (fc : Fc)
    (thr : Option (Thread W)) :
    (q.addTask fc thr).2.tasks.map Entry.task = (s.addTask (.ofFc fc thr)).tasks := by
  unfold Queue.addTask Queue.addTaskNoLock State.addTask Task.isNonempty
  cases fc with
  | cb f => cases f <;> simp [Task.ofFc, hq]
  | selfco c => cases c <;> simp [Task.ofFc, hq]

omit [DecidableEq W] in
/-- A task with one member is what one of the constructors makes. -/
theorem exists_ofFc {task : Task W} (h : task.cb = none ∨ task.selfco = none) :
    ∃ fc, Task.ofFc fc task.threadNum = task := by
  obtain ⟨cb, selfco, thr⟩ := task
  rcases h with rfl | rfl
  · exact ⟨.selfco selfco, rfl⟩
  · exact ⟨.cb cb, rfl⟩

/-- A scan of the queue that reads the states of the scheduler finds what a scan of the scheduler
finds. -/
theorem Waiting.scan_agrees {q : Queue W} (h : Waiting q) (hq : q.tasks.map Entry.task = s.tasks)
    (t : Thread W) :
    (s.tasks.find? (eligible s t) = none ∧ s.tasks.eraseP (eligible s t) = s.tasks ∧
      ∃ b, q.scan t (readStates s q) = some (.empty, false, b, q)) ∨
    ∃ task b q', s.tasks.find? (eligible s t) = some task ∧
      q.scan t (readStates s q) = some (task, true, b, q') ∧
      q'.tasks.map Entry.task = s.tasks.eraseP (eligible s t) := by
  rcases h.scansFirst t (readStates s q) with ⟨b, hscan, hall⟩ | ⟨pre, e, post, b, hsplit, hpre, he, hscan⟩
  · have hnone : ∀ task ∈ s.tasks, ¬ eligible s t task = true := by
      intro task htask
      rw [← hq] at htask
      obtain ⟨e, he, rfl⟩ := List.mem_map.mp htask
      rw [eligible_iff (h.mem_tasks he).1]
      exact hall e he
    exact Or.inl ⟨List.find?_eq_none.mpr hnone, List.eraseP_of_forall_not hnone, b, hscan⟩
  · right
    have hin : ∀ a ∈ pre ++ e :: post, a ∈ q.entries := by
      rw [← hsplit]
      exact fun a ha => (h.mem_tasks ha).1
    have hel : eligible s t e.task = true := (eligible_iff (hin e (by simp)) t).mpr he
    have hnot : ∀ task ∈ pre.map Entry.task, ¬ eligible s t task = true := by
      intro task htask
      obtain ⟨a, ha, rfl⟩ := List.mem_map.mp htask
      rw [eligible_iff (hin a (List.mem_append_left _ ha))]
      exact hpre a ha
    refine ⟨e.task, b, _, ?_, hscan, ?_⟩
    · rw [← hq, hsplit, List.map_append, List.map_cons, List.find?_append,
        List.find?_eq_none.mpr hnot, Option.none_or, List.find?_cons_of_pos hel]
    · show (pre ++ post).map Entry.task = _
      rw [← hq, hsplit, List.map_append, List.map_append, List.map_cons,
        List.eraseP_append_right _ hnot, List.eraseP_cons_of_pos hel]

/-- What the queue of the scheduler does is what the queue does. -/
theorem Waiting.simulates {q : Queue W} (h : Waiting q) (hq : q.tasks.map Entry.task = s.tasks)
    (hs : MovesTasks s s') : ∃ q', Run Queue.step anyStep q q' ∧
      q'.tasks.map Entry.task = s'.tasks := by
  cases hs with
  | keep htasks => exact ⟨q, .refl, by rw [htasks, hq]⟩
  | add task hone htasks =>
    obtain ⟨fc, hfc⟩ := exists_ofFc hone
    refine ⟨_, .single (a := .addTask fc task.threadNum) trivial rfl, ?_⟩
    rw [htasks, addTask_tasks hq, hfc]
  | scan t htasks =>
    rcases h.scan_agrees hq t with ⟨-, hsame, -⟩ | ⟨task, b, q', -, hscan, hq'⟩
    · exact ⟨q, .refl, by rw [htasks, hsame, hq]⟩
    · refine ⟨q', .single (a := .scan t (readStates s q)) trivial ?_, by rw [htasks, hq']⟩
      rw [Queue.step, hscan]
      rfl

/-- **Refinement**: the queue of a scheduler goes through a run of the queue. -/
theorem queue_of_run {cbs : List ℕ} (h : Run (step cfg) OneMember (init cbs) s) :
    ∃ q, Run Queue.step anyStep Queue.empty q ∧ q.tasks.map Entry.task = s.tasks := by
  refine h.invariant (I := fun s => ∃ q, Run Queue.step anyStep Queue.empty q ∧
    q.tasks.map Entry.task = s.tasks) ⟨Queue.empty, .refl, rfl⟩ ?_
  rintro s l s' ⟨q, hrun, hq⟩ hok hs
  obtain ⟨q', hrun', hq'⟩ := (Waiting.of_run hrun).simulates hq (step_tasks hok hs)
  exact ⟨q', hrun.trans hrun', hq'⟩

end Scheduler

end CoKV.Scheduler
