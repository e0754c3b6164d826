import CoKV.Time.OrderTheorems

/-!
# Telling the sleeper

`onTimerInsertedAtFront` is there for a thread that sleeps on the value of `getNextTimer`.
`earlier_notified`: a timer that is put in before all pending ones is told, unless one has been told
since the last `getNextTimer`, in the runs in which `m_tickled` does not stand from before that
`getNextTimer` when it happens. But nothing sets `m_tickled` back, and so it is only the first such
timer of a run that is sure to be told.
-/

namespace CoKV.Time

variable {s s' : State} {hand : List ℕ} {t : ℕ}

/-- Every insertion before all pending timers is told, or there is no need to. -/
def Notified (s : State) : Prop :=
  ∀ i ∈ s.inserted, i.earliest = true → i.told = false → i.tells = true

/-- A deadline is before those of all `timers`. -/
def State.Early (s : State) (timers : List ℕ) (next : UInt64) : Prop :=
  ∀ t ∈ timers, next < (s.timer t).next

/-- The operation puts a timer before all that are pending. -/
def PutsFirst (s : State) : Op → Prop
  | .addTimer ms _ _ now _ => s.Early s.timers (now + ms)
  | .refresh t now => t ∈ s.timers ∧ s.Early (s.timers.erase t) (now + (s.timer t).ms)
  | .reset t ms fromNow now =>
    ¬ (ms = (s.timer t).ms ∧ fromNow = false) ∧ t ∈ s.timers ∧ s.Early (s.timers.erase t)
      ((if fromNow then now else (s.timer t).next - (s.timer t).ms) + ms)
  | .listExpiredCb now _ =>
    ∃ t ∈ s.timers, (s.timer t).next ≤ now ∧ (s.timer t).recurring = true ∧
      s.Early (s.timers.filter fun a => now < (s.timer a).next) (now + (s.timer t).ms)
  | _ => False

/-- `m_tickled` is set, and nobody has been told since the last `getNextTimer`. -/
def Stale (s : State) : Prop := s.tickled = true ∧ s.told = false

/-- A timer is put first only while `m_tickled` is not left from before the last `getNextTimer`. -/
def Wakes (s : State) (op : Op) : Prop := PutsFirst s op → ¬ Stale s

/-! ## An insertion -/

theorem all_iff_early (s : State) (next : UInt64) :
    (s.timers.all fun t => next < (s.timer t).next) = true ↔ s.Early s.timers next := by
  rw [List.all_eq_true]
  unfold State.Early
  simp

theorem Holds.addTimer_head? (h : Holds s (t :: hand)) (hearly : s.Early s.timers (s.timer t).next) :
    (s.addTimer t).timers.head? = some t := by
  rw [h.inOrder.addTimer_timers]
  apply StrictBy.head?_insert (less_eq s)
  intro a ha
  have hless : (s.timer t).less (s.timer a) = true := Timer.less_of_next_lt (hearly a ha)
  rw [Timer.less_eq, decide_eq_true_eq] at hless
  exact hless

/-- The insertion of `t`, which is told if it is before all others and `m_tickled` is not set. -/
structure Inserts (s s' : State) (t : ℕ) (i : Insertion) : Prop where
  inserted : s'.inserted = s.inserted ++ [i]
  earliest : i.earliest = true ↔ s.Early s.timers (s.timer t).next
  told : i.told = s.told
  tells : i.earliest = true → i.tells = !s.tickled
  stale : s.tickled = true → i.tells = false
  tickled_eq : s'.tickled = (s.tickled || i.tells)
  told_eq : s'.told = (s.told || i.tells)

theorem Holds.addTimer_inserts (h : Holds s (t :: hand)) : ∃ i, Inserts s (s.addTimer t) t i := by
  have hhead := h.addTimer_head?
  unfold State.addTimer at hhead ⊢
  rw [h.ordered.insert_eq (less_eq s) h.inOrder.key_ne] at hhead ⊢
  dsimp only at hhead ⊢
  refine ⟨_, rfl, all_iff_early s _, rfl, ?_, ?_, rfl, rfl⟩
  · intro hearly
    rw [hhead ((all_iff_early s _).mp hearly)]
    simp
  · intro htickled
    rw [htickled]
    simp

/-- One insertion. -/
theorem Holds.addTimer_notified (h : Holds s (t :: hand)) :
    Notified (s.addTimer t) ↔ Notified s ∧ (s.Early s.timers (s.timer t).next → ¬ Stale s) := by
  obtain ⟨i, hi⟩ := h.addTimer_inserts
  have htells : (i.earliest = true → i.told = false → i.tells = true) ↔
      (i.earliest = true → ¬ Stale s) := by
    refine imp_congr_right fun hearliest => ?_
    unfold Stale
    rw [hi.told, hi.tells hearliest]
    cases s.tickled <;> cases s.told <;> simp
  rw [← hi.earliest, ← htells]
  unfold Notified
  rw [hi.inserted]
  simp only [List.mem_append, List.mem_singleton]
  constructor
  · intro hall
    exact ⟨fun j hj => hall j (Or.inl hj), hall i (Or.inr rfl)⟩
  · rintro ⟨hold, hnew⟩ j (hj | rfl)
    · exact hold j hj
    · exact hnew

/-- Whoever is told sets `m_tickled`, and nobody is told while it is set. -/
theorem Holds.addTimer_stale (h : Holds s (t :: hand)) : Stale (s.addTimer t) ↔ Stale s := by
  obtain ⟨i, hi⟩ := h.addTimer_inserts
  have hstale := hi.stale
  unfold Stale
  rw [hi.tickled_eq, hi.told_eq]
  cases htickled : s.tickled with
  | false => cases i.tells <;> simp
  | true => simp [hstale htickled]

/-! ## The loop -/

/-- A timer in hand is not in the set. -/
theorem Holds.notMem (h : Holds s (t :: hand)) : t ∉ s.timers := by
  intro ht
  exact (List.nodup_cons.mp h.nodup).1 (List.mem_append_right _ ht)

theorem setTimer_early {x : Timer} {timers : List ℕ} (ht : t ∉ timers) {next : UInt64} :
    (s.setTimer t x).Early timers next ↔ s.Early timers next := by
  refine forall₂_congr fun a ha => ?_
  have hne : a ≠ t := by
    rintro rfl
    exact ht ha
  rw [setTimer_timer_of_ne s x hne]

/-- A recurring timer is in the set again. -/
theorem Holds.collect_early (h : Holds s (t :: hand)) (now next : UInt64) :
    (s.collect now t).Early (s.collect now t).timers next ↔ s.Early s.timers next ∧
      ((s.timer t).recurring = true → next < now + (s.timer t).ms) := by
  have hne : ∀ a ∈ s.timers, a ≠ t := by
    rintro a ha rfl
    exact h.notMem ha
  have hsame : s.Early s.timers next ↔ ∀ a ∈ s.timers, next < ((s.collect now t).timer a).next := by
    refine forall₂_congr fun a ha => ?_
    rw [collect_timer_of_ne s now (hne a ha)]
  rw [hsame]
  unfold State.Early
  by_cases hrecurring : (s.timer t).recurring = true
  · have hperm := h.inOrder.collect_perm now hrecurring
    have hself : ((s.collect now t).timer t).next = now + (s.timer t).ms := by
      rw [collect_timer_self, if_pos hrecurring]
    simp only [hperm.mem_iff, List.forall_mem_cons, hself, hrecurring, forall_const, and_comm]
  · simp [collect_timers s now hrecurring, hrecurring]

theorem Holds.rearm_notified (h : Holds s (t :: hand)) {x : Timer}
    (haddr : x.addr = (s.timer t).addr) (hcb : x.cb = (s.timer t).cb) :
    Notified ((s.setTimer t x).addTimer t) ↔ Notified s ∧ (s.Early s.timers x.next → ¬ Stale s) := by
  rw [(h.rekey haddr hcb).addTimer_notified, setTimer_timer_self, ← setTimer_early h.notMem]
  rfl

theorem Holds.rearm_stale (h : Holds s (t :: hand)) {x : Timer} (haddr : x.addr = (s.timer t).addr)
    (hcb : x.cb = (s.timer t).cb) : Stale ((s.setTimer t x).addTimer t) ↔ Stale s :=
  (h.rekey haddr hcb).addTimer_stale

theorem Holds.collect_notified (h : Holds s (t :: hand)) (now : UInt64) :
    Notified (s.collect now t) ↔ Notified s ∧
      ((s.timer t).recurring = true ∧ s.Early s.timers (now + (s.timer t).ms) → ¬ Stale s) := by
  unfold State.collect
  split
  case isTrue hrecurring =>
    rw [and_iff_right hrecurring]
    exact h.rearm_notified rfl rfl
  case isFalse honce =>
    refine (and_iff_left ?_).symm
    rintro ⟨hrecurring, -⟩
    exact absurd hrecurring honce

theorem Holds.collect_stale (h : Holds s (t :: hand)) (now : UInt64) :
    Stale (s.collect now t) ↔ Stale s := by
  unfold State.collect
  split
  · exact h.rearm_stale rfl rfl
  · rfl

/-- Some recurring timer in `hand` gets a deadline before all pending ones. -/
def RearmsFirst (s : State) (now : UInt64) (hand : List ℕ) : Prop :=
  ∃ t ∈ hand, (s.timer t).recurring = true ∧ s.Early s.timers (now + (s.timer t).ms)

/-- A timer that does not come first leaves it to the others whether one of them does. -/
theorem Holds.rearmsFirst_collect (h : Holds s (t :: hand)) {now : UInt64}
    (hnot : ¬ ((s.timer t).recurring = true ∧ s.Early s.timers (now + (s.timer t).ms))) :
    RearmsFirst (s.collect now t) now hand ↔ RearmsFirst s now hand := by
  obtain ⟨hhand, -⟩ := List.nodup_cons.mp h.nodup
  refine exists_congr fun a => and_congr_right fun ha => ?_
  have hne : a ≠ t := by
    rintro rfl
    exact hhand (List.mem_append_left _ ha)
  rw [collect_timer_of_ne s now hne, h.collect_early]
  refine and_congr_right fun _ => and_iff_left_of_imp fun hearly hrecurring => ?_
  -- some pending timer is before `t`, and `a` is before that one
  have hlate : ¬ s.Early s.timers (now + (s.timer t).ms) := fun hfirst => hnot ⟨hrecurring, hfirst⟩
  unfold State.Early at hlate
  push Not at hlate
  obtain ⟨b, hb, hle⟩ := hlate
  exact UInt64.lt_of_lt_of_le (hearly b hb) (UInt64.not_lt.mp hle)

theorem Holds.collectAll_notified (h : Holds s hand) (now : UInt64) :
    Notified (State.collectAll now hand s).2 ↔
      Notified s ∧ (RearmsFirst s now hand → ¬ Stale s) := by
  induction hand generalizing s with
  | nil =>
    refine (and_iff_left ?_).symm
    rintro ⟨t, ht, -⟩
    cases ht
  | cons t ts ih =>
    have hcons : RearmsFirst s now (t :: ts) ↔
        ((s.timer t).recurring = true ∧ s.Early s.timers (now + (s.timer t).ms)) ∨
          RearmsFirst s now ts:= by
      unfold RearmsFirst
      simp only [List.mem_cons, exists_eq_or_imp]
    show Notified (State.collectAll now ts (s.collect now t)).2 ↔ _
    rw [ih (h.collect now), h.collect_notified, h.collect_stale, hcons, and_assoc]
    refine and_congr_right fun _ => ?_
    by_cases hfirst : (s.timer t).recurring = true ∧ s.Early s.timers (now + (s.timer t).ms)
    · constructor
      · rintro ⟨hfresh, -⟩ _
        exact hfresh hfirst
      · intro hfresh
        exact ⟨fun _ => hfresh (Or.inl hfirst), fun _ => hfresh (Or.inl hfirst)⟩
    · rw [h.rearmsFirst_collect hfirst, or_iff_right hfirst]
      exact and_iff_right fun hthen => absurd hthen hfirst

/-! ## Runs -/

theorem Holds.not_putsFirst {op : Op} (h : Holds s []) (hidle : op.Idle s) : ¬ PutsFirst s op := by
  cases op with
  | refresh t now =>
    rintro ⟨ht, -⟩
    exact absurd hidle ((h.pending t).mp ht).2
  | reset t ms fromNow now =>
    rintro ⟨hnew, ht, -⟩
    rcases hidle with hsame | hcb
    · exact hnew hsame
    · exact absurd hcb ((h.pending t).mp ht).2
  | cancel t => exact False.elim
  | _ => exact hidle.elim

/-- **An operation** tells of every timer that it puts first exactly if it `Wakes`. -/
theorem Holds.step_notified {op : Op} (h : Holds s []) (hs : Time.step s op = some s') :
    Notified s' ↔ Notified s ∧ Wakes s op := by
  cases h.effect hs with
  | @addTimer ms cb recurring now addr haddr =>
    have hnot : s.nextTimer ∉ s.timers := fun ht => Nat.lt_irrefl _ ((h.pending _).mp ht).1
    have hnew : Holds { s.setTimer s.nextTimer ⟨recurring, ms, now + ms, some cb, addr⟩ with
        nextTimer := s.nextTimer + 1 } [s.nextTimer] := h.new haddr (Option.some_ne_none cb)
    have hnext : ((s.setTimer s.nextTimer ⟨recurring, ms, now + ms, some cb, addr⟩).timer
        s.nextTimer).next = now + ms := congrArg Timer.next (setTimer_timer_self ..)
    refine hnew.addTimer_notified.trans (and_congr_right fun _ => ?_)
    dsimp only
    rw [hnext]
    exact imp_congr_left (setTimer_early hnot)
  | idle hidle => exact (and_iff_left fun hfirst => absurd hfirst (h.not_putsFirst hidle)).symm
  | cancel => exact (and_iff_left False.elim).symm
  | refresh ht =>
    unfold Wakes PutsFirst
    dsimp only
    rw [and_iff_right ht]
    exact (h.take ht).rearm_notified rfl rfl
  | reset ht hnew =>
    unfold Wakes PutsFirst
    dsimp only
    rw [and_iff_right hnew, and_iff_right ht]
    exact (h.take ht).rearm_notified rfl rfl
  | @listExpiredCb now probe =>
    show Notified (s.listExpiredCb now probe).2 ↔ _
    unfold Wakes PutsFirst State.listExpiredCb
    dsimp only
    split
    case isTrue hempty =>
      refine (and_iff_left ?_).symm
      rintro ⟨t, ht, -⟩
      rw [hempty] at ht
      cases ht
    case isFalse =>
      refine ((h.takeExpired now probe).collectAll_notified now).trans
        (and_congr_right fun _ => imp_congr_left ?_)
      unfold RearmsFirst State.Early
      refine exists_congr fun t => ?_
      rw [h.inOrder.mem_expired, and_assoc]
      refine and_congr_right fun _ => and_congr_right fun _ => and_congr_right fun _ => ?_
      refine forall_congr' fun a => imp_congr_left ?_
      rw [List.mem_filter, decide_eq_true_eq]
      exact h.inOrder.mem_rest now probe
  | getNextTimer => exact (and_iff_left False.elim).symm

/-- **Who sleeps is told**: a timer put before all pending ones calls `onTimerInsertedAtFront`,
unless that has been called since the last `getNextTimer`, in every run in which `m_tickled` is not
left from before that `getNextTimer` when such a timer is put in. -/
theorem earlier_notified (s : State) (h : Run step Wakes init s) : Notified s := by
  have hboth : Holds s [] ∧ Notified s := by
    refine h.invariant (I := fun s => Holds s [] ∧ Notified s) ⟨Holds.init, nofun⟩ ?_
    intro s op s' hi hok hs
    exact ⟨hi.1.step hs, (hi.1.step_notified hs).mpr ⟨hi.2, hok⟩⟩
  exact hboth.2

/-- A thread asks for the first deadline when there is none; it is told of the first timer, and has
been told when an earlier one follows. After it has asked again, a later one does not matter. -/
theorem earlier_notified_witness :
    ∃ s, Notified s ∧ s.inserted.map Insertion.tells = [true, false, false] := by
  have hrun : Run step Wakes init _ :=
    ((((Run.refl.tail (a := .getNextTimer 5) nofun rfl).tail
      (a := .addTimer 100 7 false 10 10) (fun _ h => absurd h.1 (by decide)) rfl).tail
      (a := .addTimer 10 8 false 12 20) (fun _ h => absurd h.2 (by decide)) rfl).tail
      (a := .getNextTimer 15) nofun rfl).tail
      (a := .addTimer 50 9 false 16 30) (fun h _ => absurd (h 1 (by decide)) (by decide)) rfl
  exact ⟨_, earlier_notified _ hrun, rfl⟩

/-- A thread that sleeps for 100 ms is not told of a timer that expires in 10 ms: `m_tickled` is
still set from the first timer. -/
theorem tickled_not_notified : ¬ ∀ s, Run step anyStep init s → Notified s := by
  intro h
  have hrun : Run step anyStep init _ :=
    ((Run.refl.tail (a := .addTimer 100 7 false 0 10) trivial rfl).tail
      (a := .getNextTimer 0) trivial rfl).tail (a := .addTimer 10 8 false 0 20) trivial rfl
  have htold := h _ hrun ⟨1, true, false, false⟩ (.tail _ (.head _)) rfl rfl
  cases htold

end CoKV.Time
