import CoKV.IOManager.Defs
import CoKV.Scheduler.Defs
import CoKV.Time.ExpireTheorems
import Mathlib.Algebra.Order.Ring.Int

/-!
# How long `idle` waits

The top of the loop in `IOManager::idle`: `next_timeout`, and the `int` that `epoll_wait` is called
with. `timeouts_bounded_iff`: the cap is right unless the time that is left, cut down to an `int`, is
negative. `timeouts_positive_iff`: `getNextTimer` is asked only when the manager is stopping; before
that `next_timeout` stays 0, and `epoll_wait` does not wait at all.
-/

namespace CoKV.IOManager

/-! ## The code -/

/-- `(int)n`, for a `uint64_t` -/
def toInt (n : UInt64) : ℤ := (BitVec.ofNat 32 n.toNat).toInt

/-- `MAX_TIMEOUT` -/
def maxTimeout : UInt64 := 5000

/-- `next_timeout` before the inner loop, and `none` for the `break`. -/
def nextTimeout (stopping : Bool) (timers : Time.State) (now : UInt64) : Option UInt64 :=
  if stopping then
    let next := timers.getNextTimer now
    if next = ~~~0 then none else some next
  else some 0

/-- What the inner loop makes of `next_timeout`. -/
def capped (next : UInt64) : UInt64 :=
  if next ≠ ~~~0 then
    if toInt next > toInt maxTimeout then maxTimeout else next
  else maxTimeout

/-- The inner loop: what `epoll_wait` is called with, when it fails `failures` times. -/
def waits : ℕ → UInt64 → List ℤ
  | 0, next => [toInt (capped next)]
  | failures + 1, next => toInt (capped next) :: waits failures (capped next)

/-- The calls of `epoll_wait` in one turn of `idle`. -/
def timeouts (stopping : Bool) (timers : Time.State) (now : UInt64) (failures : ℕ) : List ℤ :=
  match nextTimeout stopping timers now with
  | none => []
  | some next => waits failures next

/-! ## The cap -/

theorem toInt_eq (n : UInt64) : toInt n =
    if n.toNat % 2 ^ 32 < 2 ^ 31 then (n.toNat % 2 ^ 32 : ℤ) else n.toNat % 2 ^ 32 - 2 ^ 32 := by
  unfold toInt
  rw [BitVec.toInt_eq_toNat_cond, BitVec.toNat_ofNat]
  split <;> split <;> omega

theorem toInt_maxTimeout : toInt maxTimeout = 5000 := rfl

theorem toInt_capped {n : UInt64} (h : n ≠ ~~~0) : toInt (capped n) = min (toInt n) 5000 := by
  unfold capped
  rw [if_pos h, toInt_maxTimeout]
  split
  · rw [toInt_maxTimeout]
    omega
  · omega

/-- A second turn of the inner loop changes nothing. -/
theorem capped_capped (n : UInt64) : capped (capped n) = capped n := by
  have hmax : capped maxTimeout = maxTimeout := rfl
  by_cases hlast : n = ~~~0
  · rw [hlast]
    rfl
  · by_cases hgt : toInt n > toInt maxTimeout
    · have hcap : capped n = maxTimeout := by
        unfold capped
        rw [if_pos hlast, if_pos hgt]
      rw [hcap, hmax]
    · have hcap : capped n = n := by
        unfold capped
        rw [if_pos hlast, if_neg hgt]
      rw [hcap, hcap]

theorem mem_waits {failures : ℕ} {n : UInt64} {v : ℤ} :
    v ∈ waits failures n ↔ v = toInt (capped n) := by
  induction failures generalizing n with
  | zero => exact List.mem_singleton
  | succ failures ih =>
    unfold waits
    rw [List.mem_cons, ih, capped_capped, or_self]

/-! ## The first deadline -/

/-- The time left until the deadline of timer `t`. -/
def left (timers : Time.State) (now : UInt64) (t : ℕ) : ℕ :=
  (timers.timer t).next.toNat - now.toNat

/-- No pending timer has an earlier deadline. -/
def Earliest (timers : Time.State) (t : ℕ) : Prop :=
  t ∈ timers.timers ∧ ∀ u ∈ timers.timers, (timers.timer t).next ≤ (timers.timer u).next

section First

variable {timers : Time.State} {now : UInt64} {failures : ℕ} {t : ℕ} {rest : List ℕ}

theorem mem_timeouts_running {v : ℤ} : v ∈ timeouts false timers now failures ↔ v = 0 :=
  mem_waits

theorem timeouts_nil (h : timers.timers = []) : timeouts true timers now failures = [] := by
  have hlast : timers.getNextTimer now = ~~~0 := by
    unfold Time.State.getNextTimer
    rw [h]
  unfold timeouts nextTimeout
  dsimp only
  rw [if_pos rfl, if_pos hlast]

theorem eq_last_iff {n : UInt64} : n = ~~~0 ↔ n.toNat = 2 ^ 64 - 1 := by
  rw [← UInt64.toNat_inj]
  rfl

/-- With a timer pending, `idle` waits for the first one, unless what is left is `~0ull`. -/
theorem mem_timeouts_cons {v : ℤ} (h : timers.timers = t :: rest) :
    v ∈ timeouts true timers now failures ↔
      left timers now t ≠ 2 ^ 64 - 1 ∧ v = min (toInt (timers.getNextTimer now)) 5000 := by
  have hnext := Time.getNextTimer_cons h now
  unfold timeouts nextTimeout
  dsimp only
  rw [if_pos rfl]
  by_cases hlast : timers.getNextTimer now = ~~~0
  · rw [if_pos hlast]
    rw [eq_last_iff, hnext] at hlast
    exact ⟨nofun, fun hne => absurd hlast hne.1⟩
  · rw [if_neg hlast]
    dsimp only
    rw [mem_waits, toInt_capped hlast]
    rw [eq_last_iff, hnext] at hlast
    exact ⟨fun hv => ⟨hlast, hv⟩, fun hv => hv.2⟩

/-- What is left until the first deadline, as an `int`. -/
theorem toInt_left (h : timers.timers = t :: rest) (now : UInt64) :
    toInt (timers.getNextTimer now) = if left timers now t % 2 ^ 32 < 2 ^ 31 then
      (left timers now t % 2 ^ 32 : ℤ) else left timers now t % 2 ^ 32 - 2 ^ 32 := by
  rw [toInt_eq, Time.getNextTimer_cons h]
  rfl

/-- The first timer of the set is an earliest one, and all of these leave the same time. -/
theorem earliest_cons (hset : Time.TimerSet timers) (h : timers.timers = t :: rest) :
    Earliest timers t ∧ ∀ u, Earliest timers u → left timers now u = left timers now t := by
  have hfirst : Earliest timers t :=
    ⟨by rw [h]; exact List.mem_cons_self .., hset.inOrder.next_head_le h⟩
  refine ⟨hfirst, fun u hu => ?_⟩
  have hsame : (timers.timer u).next = (timers.timer t).next :=
    UInt64.le_antisymm (hu.2 t hfirst.1) (hfirst.2 u hu.1)
  unfold left
  rw [hsame]

theorem not_earliest_of_nil (h : timers.timers = []) : ¬ Earliest timers t := by
  rintro ⟨hmem, -⟩
  rw [h] at hmem
  cases hmem

end First

/-! ## No deadline is missed -/

theorem timerSet_of_run {timers : Time.State} (h : Run Time.step anyStep Time.init timers) :
    Time.TimerSet timers := (Time.Holds.run h).inOrder.timerSet

/-- What `idle` is to wait for, when nothing is to be done: the first timer, or 5 seconds. -/
structure Patient (timers : Time.State) (now : UInt64) (v : ℤ) : Prop where
  pos : 0 < v
  alone : timers.timers = [] → v = 5000
  first : ∀ t, Earliest timers t → v = min (left timers now t) 5000

/-- **A turn of `idle`** with no due timer waits exactly if the manager is stopping, and the time
left until the first deadline is that of the `break`, fits into an `int`, or is cut down to one that
is long enough. -/
theorem timeouts_positive_iff {W : Type} (scheduler : Scheduler.State W) (s : State)
    {timers : Time.State} (hset : Time.TimerSet timers) {now : UInt64}
    (hdue : ∀ t ∈ timers.timers, now < (timers.timer t).next) (failures : ℕ) :
    (∀ v ∈ timeouts (s.stopping scheduler.isStopping) timers now failures, Patient timers now v) ↔
    s.stopping scheduler.isStopping = true ∧ ∀ t, Earliest timers t →
      left timers now t = 2 ^ 64 - 1 ∨ left timers now t < 2 ^ 31 ∨
        5000 ≤ left timers now t % 2 ^ 32 ∧ left timers now t % 2 ^ 32 < 2 ^ 31 := by
  cases s.stopping scheduler.isStopping with
  | false =>
    refine ⟨fun hall => ?_, nofun⟩
    have hpos := (hall 0 (mem_timeouts_running.mpr rfl)).pos
    exact absurd hpos (Int.lt_irrefl 0)
  | true =>
    cases htimers : timers.timers with
    | nil =>
      rw [timeouts_nil htimers]
      exact ⟨fun _ => ⟨rfl, fun t ht => absurd ht (not_earliest_of_nil htimers)⟩, fun _ => nofun⟩
    | cons t rest =>
      obtain ⟨hfirst, hsame⟩ : Earliest timers t ∧
          ∀ u, Earliest timers u → left timers now u = left timers now t :=
        earliest_cons hset htimers
      have hint := toInt_left htimers now
      have hlater : 0 < left timers now t :=
        Nat.sub_pos_of_lt (UInt64.lt_iff_toNat_lt.mp (hdue t hfirst.1))
      constructor
      · intro hall
        refine ⟨rfl, fun u hu => ?_⟩
        rw [hsame u hu]
        by_cases hlast : left timers now t = 2 ^ 64 - 1
        · exact Or.inl hlast
        · right
          have hv := (hall _ ((mem_timeouts_cons htimers).mpr ⟨hlast, rfl⟩)).first t hfirst
          by_cases hlt : left timers now t % 2 ^ 32 < 2 ^ 31
          · rw [if_pos hlt] at hint
            omega
          · rw [if_neg hlt] at hint
            omega
      · rintro ⟨-, hall⟩ v hv
        obtain ⟨hlast, rfl⟩ := (mem_timeouts_cons htimers).mp hv
        have hvalue : min (toInt (timers.getNextTimer now)) 5000 = min (left timers now t : ℤ) 5000 := by
          rcases hall t hfirst with heq | hlt | ⟨hge, hlt⟩
          · exact absurd heq hlast
          · rw [Nat.mod_eq_of_lt (by omega), if_pos hlt] at hint
            omega
          · rw [if_pos hlt] at hint
            have hmod : left timers now t % 2 ^ 32 ≤ left timers now t := Nat.mod_le ..
            omega
        rw [hvalue]
        refine ⟨by omega, fun hnil => ?_, fun u hu => ?_⟩
        · rw [htimers] at hnil
          cases hnil
        · rw [hsame u hu]
          omega

/-- A manager with one worker, which has been started. -/
theorem started_run : ∃ scheduler : Scheduler.State Unit,
    Run (Scheduler.step ⟨false, [()]⟩) anyStep (Scheduler.init []) scheduler ∧
      scheduler.tasks = [] ∧ scheduler.isStopping = false := by
  have hrun : Run (Scheduler.step ⟨false, [()]⟩) anyStep (Scheduler.init []) _ :=
    Run.refl.tail (a := .thread .caller) trivial rfl
  exact ⟨_, hrun, rfl, rfl⟩

/-- Stopped and with nothing to do, but for a timer of 10 seconds. -/
theorem timeouts_positive_iff_witness : ∃ (scheduler : Scheduler.State Unit) (timers : Time.State),
    timeouts (init.stopping scheduler.isStopping) timers 3 0 = [5000] ∧
      ∀ v ∈ timeouts (init.stopping scheduler.isStopping) timers 3 0, Patient timers 3 v := by
  have hrun : Run Time.step anyStep Time.init _ :=
    Run.refl.tail (a := .addTimer 10000 7 false 3 200) trivial rfl
  refine ⟨{ Scheduler.init [] with autostop := true }, Time.init.newTimer 10000 7 false 3 200,
    by decide, ?_⟩
  apply (timeouts_positive_iff _ init (timerSet_of_run hrun) _ 0).mpr
  · refine ⟨by decide, ?_⟩
    rintro t ⟨hmem, -⟩
    rw [List.mem_singleton.mp hmem]
    exact Or.inr (Or.inl (by decide))
  · intro t hmem
    rw [List.mem_singleton.mp hmem]
    decide

/-- **`idle` spins**: nobody has asked the manager to stop, and there is nothing to be done. -/
theorem running_not_patient : ¬ ∀ (scheduler : Scheduler.State Unit) s timers now failures,
    Run (Scheduler.step ⟨false, [()]⟩) anyStep (Scheduler.init []) scheduler →
    Run step anyStep init s → Run Time.step anyStep Time.init timers → scheduler.tasks = [] →
    (∀ t ∈ timers.timers, now < (timers.timer t).next) →
    ∀ v ∈ timeouts (s.stopping scheduler.isStopping) timers now failures, Patient timers now v := by
  intro h
  obtain ⟨scheduler, hrun, htasks, hstopping⟩ := started_run
  have hzero : (0 : ℤ) ∈ timeouts (init.stopping scheduler.isStopping) Time.init 3 0 := by
    rw [hstopping]
    exact mem_timeouts_running.mpr rfl
  have hpatient := h scheduler init Time.init 3 0 hrun .refl .refl htasks nofun 0 hzero
  exact absurd hpatient.pos (Int.lt_irrefl 0)

end CoKV.IOManager
