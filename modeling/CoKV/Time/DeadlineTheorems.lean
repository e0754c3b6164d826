import CoKV.Time.ExpireTheorems
import Mathlib.Algebra.Order.Ring.Nat

/-!
# Deadlines

A deadline is a sum of `uint64_t`. `deadlines_exact_iff`: a timer armed at time `c` with delay `ms`
is not collected before `c + ms`, and `reset` without `from_now` counts from `c` exactly, if and only
if the sum is below `2^64`; otherwise it wraps, and the timer is collected early. `arm` records when
each timer has last been armed.
-/

namespace CoKV.Time

variable {t : ℕ}

/-- The timers, and the time at which each of them has last been armed. -/
structure Armed where
  state : State
  armed : ℕ → UInt64

/-- The times at which the timers have been armed, after an operation. `reset` without `from_now`
goes on from the old one. -/
def arm (s : State) (armed : ℕ → UInt64) : Op → ℕ → UInt64
  | .addTimer _ _ _ now _ => Function.update armed s.nextTimer now
  | .refresh t now => if t ∈ s.timers then Function.update armed t now else armed
  | .reset t _ fromNow now =>
    if t ∈ s.timers ∧ fromNow = true then Function.update armed t now else armed
  | .listExpiredCb now _ => fun t =>
    if t ∈ s.timers ∧ (s.timer t).next ≤ now ∧ (s.timer t).recurring = true then now else armed t
  | _ => armed

def armedStep (a : Armed) (op : Op) : Option Armed :=
  (step a.state op).map fun s => ⟨s, arm a.state a.armed op⟩

def armedInit : Armed := ⟨init, fun _ => 0⟩

/-- The deadline of `t` is that sum, modulo `2^64`. -/
def Sum (s : State) (armed : ℕ → UInt64) (t : ℕ) : Prop :=
  (s.timer t).next = armed t + (s.timer t).ms

/-- The deadlines of all pending timers are. -/
structure Sums (a : Armed) : Prop where
  holds : Holds a.state []
  sum : ∀ t ∈ a.state.timers, Sum a.state a.armed t

/-- A timer is written with such a deadline, and the others keep theirs. -/
theorem sum_setTimer {s : State} {x : Timer} {armed armed' : ℕ → UInt64} {rest : List ℕ}
    (hrest : ∀ b ∈ rest, Sum s armed b) (hself : x.next = armed' t + x.ms)
    (hother : ∀ b ≠ t, armed' b = armed b) : ∀ b ∈ t :: rest, Sum (s.setTimer t x) armed' b := by
  intro b hb
  unfold Sum
  by_cases hbt : b = t
  · rw [hbt, setTimer_timer_self, hself]
  · rw [setTimer_timer_of_ne s x hbt, hother b hbt]
    exact hrest b ((List.mem_cons.mp hb).resolve_left hbt)

theorem ite_update_of_ne {c : Prop} [Decidable c] (armed : ℕ → UInt64) (now : UInt64) {b : ℕ}
    (hb : b ≠ t) : (if c then Function.update armed t now else armed) b = armed b := by
  split
  · exact Function.update_of_ne hb _ _
  · rfl

theorem arm_refresh_of_ne (s : State) (armed : ℕ → UInt64) {now : UInt64} {b : ℕ} (hb : b ≠ t) :
    arm s armed (.refresh t now) b = armed b :=
  ite_update_of_ne armed now hb

theorem arm_reset_of_ne (s : State) (armed : ℕ → UInt64) (ms : UInt64) {fromNow : Bool}
    {now : UInt64} {b : ℕ} (hb : b ≠ t) : arm s armed (.reset t ms fromNow now) b = armed b :=
  ite_update_of_ne armed now hb

/-- What `reset` computes as `start`, from a sum that may have wrapped. -/
theorem Sums.start {a : Armed} (h : Sums a) (ht : t ∈ a.state.timers) :
    (a.state.timer t).next - (a.state.timer t).ms = a.armed t := by
  have hsum : (a.state.timer t).next = a.armed t + (a.state.timer t).ms := h.sum t ht
  rw [hsum, UInt64.add_sub_cancel]

/-- A pending timer is taken out of the set, written and put back. -/
theorem Sums.rearm {a : Armed} (h : Sums a) (ht : t ∈ a.state.timers) {x : Timer}
    {armed : ℕ → UInt64} (haddr : x.addr = (a.state.timer t).addr) (hself : x.next = armed t + x.ms)
    (hother : ∀ b ≠ t, armed b = a.armed b) :
    ∀ b ∈ (({ a.state with timers := a.state.timers.erase t }.setTimer t x).addTimer t).timers,
      Sum (({ a.state with timers := a.state.timers.erase t }.setTimer t x).addTimer t) armed b := by
  intro b hb
  rw [(InOrder.rearm_perm (h.holds.take ht).inOrder haddr).mem_iff] at hb
  have hrest : ∀ c ∈ a.state.timers.erase t,
      Sum { a.state with timers := a.state.timers.erase t } a.armed c :=
    fun c hc => h.sum c (List.mem_of_mem_erase hc)
  exact sum_setTimer hrest hself hother b hb

theorem Sums.addTimer {a : Armed} (h : Sums a) {ms : UInt64} {cb : ℕ} {recurring : Bool}
    {now : UInt64} {addr : ℕ} (haddr : ∀ t ∈ a.state.timers, (a.state.timer t).addr ≠ addr) :
    ∀ b ∈ (a.state.newTimer ms cb recurring now addr).timers,
      Sum (a.state.newTimer ms cb recurring now addr)
        (Function.update a.armed a.state.nextTimer now) b := by
  intro b hb
  have hnew := h.holds.new (x := ⟨recurring, ms, now + ms, some cb, addr⟩) haddr (by simp)
  have hperm := hnew.inOrder.addTimer_perm
  have hb := hperm.mem_iff.mp hb
  refine sum_setTimer h.sum ?_ (fun c hc => Function.update_of_ne hc _ _) b hb
  rw [Function.update_self]

/-- A call of `listExpiredCb` arms the recurring timers that it collects. -/
theorem Sums.listExpiredCb {a : Armed} (h : Sums a) (now : UInt64) (probe : ℕ) :
    ∀ b ∈ (a.state.listExpiredCb now probe).2.timers, Sum (a.state.listExpiredCb now probe).2
      (arm a.state a.armed (.listExpiredCb now probe)) b := by
  intro b hb
  have hexpires := h.holds.inOrder.expires now probe
  obtain ⟨hmem, hcase⟩ := (hexpires.timers b).mp hb
  unfold Sum arm
  dsimp only
  by_cases hdue : (a.state.timer b).next ≤ now
  · have hrecurring := hcase.resolve_left (UInt64.not_lt.mpr hdue)
    rw [hexpires.rearmed b hmem hdue hrecurring, if_pos ⟨hmem, hdue, hrecurring⟩]
  · rw [hexpires.unchanged b (by simp [hdue]), if_neg (by simp [hdue])]
    exact h.sum b hmem

theorem Sums.step {a a' : Armed} {op : Op} (h : Sums a) (hs : armedStep a op = some a') :
    Sums a' := by
  obtain ⟨s', hs', rfl⟩ := Option.map_eq_some_iff.mp hs
  refine ⟨h.holds.step hs', ?_⟩
  cases h.holds.effect hs' with
  | addTimer haddr => exact h.addTimer haddr
  | idle hidle =>
    have hsame : arm a.state a.armed op = a.armed := by
      cases op with
      | refresh t now => exact if_neg (h.holds.not_pending hidle)
      | reset t ms fromNow now =>
        refine if_neg ?_
        rintro ⟨ht, hnow⟩
        rcases hidle with ⟨-, hold⟩ | hcb
        · simp [hold] at hnow
        · exact h.holds.not_pending hcb ht
      | cancel => rfl
      | addTimer | listExpiredCb | getNextTimer => exact hidle.elim
    rw [hsame]
    exact h.sum
  | @cancel t ht =>
    intro b hb
    have hne : b ≠ t := by
      rintro rfl
      exact (List.nodup_cons.mp (h.holds.take ht).nodup).1 hb
    have hsum := h.sum b (List.mem_of_mem_erase hb)
    unfold Sum at hsum ⊢
    rwa [setTimer_timer_of_ne _ _ hne]
  | @refresh t now ht =>
    have hself : arm a.state a.armed (.refresh t now) t = now := by simp [arm, ht]
    refine h.rearm ht rfl (congrArg (· + (a.state.timer t).ms) hself.symm) fun b hb => ?_
    exact arm_refresh_of_ne _ _ hb
  | @reset t ms fromNow now ht hnew =>
    have hself : arm a.state a.armed (.reset t ms fromNow now) t =
        if fromNow then now else (a.state.timer t).next - (a.state.timer t).ms := by
      cases fromNow with
      | true => simp [arm, ht]
      | false => simp [arm, h.start ht]
    refine h.rearm ht rfl (congrArg (· + ms) hself.symm) fun b hb => ?_
    exact arm_reset_of_ne _ _ ms hb
  | @listExpiredCb now probe => exact h.listExpiredCb now probe
  | getNextTimer => exact h.sum

theorem Sums.run {a : Armed} (h : Run armedStep anyStep armedInit a) : Sums a :=
  h.invariant ⟨Holds.init, by simp [armedInit, init]⟩ fun _ _ _ hi _ hs => hi.step hs

/-- A sum of `uint64_t` is the sum of the numbers if that is below `2^64`. -/
theorem toNat_add_eq_iff (c ms : UInt64) :
    (c + ms).toNat = c.toNat + ms.toNat ↔ c.toNat + ms.toNat < 2 ^ 64 := by
  rw [UInt64.toNat_add]
  have hlt : (c.toNat + ms.toNat) % 2 ^ 64 < 2 ^ 64 := Nat.mod_lt _ (by decide)
  constructor
  · omega
  · exact Nat.mod_eq_of_lt

/-- Whether `listExpiredCb`, whenever it is called, collects `t` only after the time at which it has
been armed and its delay. -/
def NeverEarly (a : Armed) (t : ℕ) : Prop :=
  ∀ now probe, t ∈ (a.state.listExpiredCb now probe).1.map Prod.fst →
    (a.armed t).toNat + (a.state.timer t).ms.toNat ≤ now.toNat

/-- Whether `reset` without `from_now` moves the deadline to that time plus `ms`. -/
def ResetExact (a : Armed) (t : ℕ) (ms : UInt64) : Prop :=
  ∀ now, ((a.state.reset t ms false now).2.timer t).next.toNat = (a.armed t).toNat + ms.toNat

/-- **Deadlines**: in every run, each pending timer is never early if and only if the sum that it
has been armed for does not wrap, and so for `reset`. -/
theorem deadlines_exact_iff (a : Armed) (h : Run armedStep anyStep armedInit a) (t : ℕ)
    (ht : t ∈ a.state.timers) :
    (NeverEarly a t ↔ (a.armed t).toNat + (a.state.timer t).ms.toNat < 2 ^ 64) ∧
      ∀ ms, ResetExact a t ms ↔ (a.armed t).toNat + ms.toNat < 2 ^ 64 := by
  have hi := Sums.run h
  refine ⟨?_, fun ms => ?_⟩
  · have hsum : (a.state.timer t).next = a.armed t + (a.state.timer t).ms := hi.sum t ht
    have hcollected : ∀ now probe, t ∈ (a.state.listExpiredCb now probe).1.map Prod.fst ↔
        (a.state.timer t).next.toNat ≤ now.toNat := by
      intro now probe
      rw [(hi.holds.inOrder.expires now probe).collected, ← UInt64.le_iff_toNat_le]
      simp [ht]
    unfold NeverEarly
    simp only [hcollected]
    constructor
    · intro hearly
      -- a call when the deadline has just come
      have hnext := hearly (a.state.timer t).next 0 (Nat.le_refl _)
      exact Nat.lt_of_le_of_lt hnext (UInt64.toNat_lt _)
    · intro hlt now _ hdue
      rwa [hsum, (toNat_add_eq_iff _ _).mpr hlt] at hdue
  · have hnext : ∀ now, ((a.state.reset t ms false now).2.timer t).next = a.armed t + ms := by
      intro now
      have hmade := ((hi.holds.pending t).mp ht).1
      rcases hi.holds.reset hmade ms false now with ⟨⟨rfl, -⟩, heq⟩ | ⟨-, hcb, -⟩ | ⟨-, -, heq⟩
      · rw [heq]
        exact hi.sum t ht
      · exact absurd ht (hi.holds.not_pending hcb)
      · rw [heq, ← hi.start ht]
        exact congrArg Timer.next (setTimer_timer_self ..)
    unfold ResetExact
    simp only [hnext, toNat_add_eq_iff, forall_const]

/-- A recurring timer that has been armed again, and a one-shot timer with an earlier arming time. -/
theorem deadlines_exact_iff_witness : ∃ a : Armed, a.armed 0 = 20 ∧
    (NeverEarly a 0 ↔ (a.armed 0).toNat + (a.state.timer 0).ms.toNat < 2 ^ 64) ∧
      ∀ ms, ResetExact a 0 ms ↔ (a.armed 0).toNat + ms.toNat < 2 ^ 64 := by
  have hrun : Run armedStep anyStep armedInit _ :=
    ((Run.refl.tail (a := .addTimer 5 7 true 10 200) trivial rfl).tail
      (a := .addTimer 90 8 false 12 100) trivial rfl).tail (a := .listExpiredCb 20 300) trivial rfl
  exact ⟨_, by decide, deadlines_exact_iff _ hrun 0 (by decide)⟩

/-- A delay of `-2000` as a `uint64_t`: the timer is collected at the time at which it is armed. -/
theorem wrapped_early : ¬ ∀ a, Run armedStep anyStep armedInit a → ∀ t ∈ a.state.timers,
    NeverEarly a t := by
  intro hall
  have hrun : Run armedStep anyStep armedInit _ :=
    Run.refl.tail (a := .addTimer (-2000) 7 false 5000 200) trivial rfl
  have hearly := hall _ hrun 0 (by decide) 5000 300 (by decide)
  exact absurd hearly (by decide)

end CoKV.Time
