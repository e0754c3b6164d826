import CoKV.Time.OrderTheorems
import Mathlib.Data.List.Nodup

/-!
# How often a timer fires

`collected_once`: in every run, `listExpiredCb` collects the callback of a one-shot timer once at
most and that of a recurring timer once in a call at most, and none after a `cancel` that returned
true. A timer without a callback never gets one again, and the set holds no such timer.
-/

namespace CoKV.Time

variable {s s' u : State} {t : ℕ}

/-- The timers whose callbacks have been collected, one after another. -/
def State.fired (s : State) : List ℕ := s.collected.flatten.map Prod.fst

/-! ## What stays -/

/-- What operations leave of a timer, and which timers they collect callbacks of. -/
structure Later (s s' : State) : Prop where
  nextTimer : s.nextTimer ≤ s'.nextTimer
  recurring : ∀ t < s.nextTimer, (s'.timer t).recurring = (s.timer t).recurring
  dead : ∀ t < s.nextTimer, (s.timer t).cb = none → (s'.timer t).cb = none
  collected : ∃ later, s'.collected = s.collected ++ later ∧
    ∀ cbs ∈ later, ∀ c ∈ cbs, c.1 < s.nextTimer → (s.timer c.1).cb ≠ none

/-- Where timers and batches stay, it is later. -/
theorem Later.of_same (htimer : s'.timer = s.timer) (hnext : s'.nextTimer = s.nextTimer)
    (hcollected : s'.collected = s.collected) : Later s s' where
  nextTimer := Nat.le_of_eq hnext.symm
  recurring t _ := by rw [htimer]
  dead t _ hcb := by rwa [htimer]
  collected := ⟨[], by rw [hcollected, List.append_nil], by simp⟩

theorem Later.refl (s : State) : Later s s := Later.of_same rfl rfl rfl

/-- Later than later. -/
theorem Later.trans (h : Later s s') (h' : Later s' u) : Later s u where
  nextTimer := Nat.le_trans h.nextTimer h'.nextTimer
  recurring t ht := by
    rw [h'.recurring t (Nat.lt_of_lt_of_le ht h.nextTimer), h.recurring t ht]
  dead t ht hcb := h'.dead t (Nat.lt_of_lt_of_le ht h.nextTimer) (h.dead t ht hcb)
  collected := by
    obtain ⟨later, hlater, hcb⟩ := h.collected
    obtain ⟨later', hlater', hcb'⟩ := h'.collected
    refine ⟨later ++ later', by rw [hlater', hlater, List.append_assoc], ?_⟩
    intro cbs hcbs c hc hlt hnone
    rcases List.mem_append.mp hcbs with hcbs | hcbs
    · exact hcb cbs hcbs c hc hlt hnone
    · exact hcb' cbs hcbs c hc (Nat.lt_of_lt_of_le hlt h.nextTimer) (h.dead c.1 hlt hnone)

/-- A timer is written, but does not get a callback. -/
theorem Later.setTimer {x : Timer} (h : Later s s') (hrecurring : x.recurring = (s'.timer t).recurring)
    (hcb : (s'.timer t).cb = none → x.cb = none) : Later s (s'.setTimer t x) := by
  refine h.trans ⟨Nat.le_refl _, fun a _ => setTimer_same Timer.recurring hrecurring a, ?_,
    (Later.refl s').collected⟩
  intro a _ hnone
  by_cases ha : a = t
  · rw [ha] at hnone ⊢
    rw [setTimer_timer_self]
    exact hcb hnone
  · rwa [setTimer_timer_of_ne s' x ha]

/-- A timer is written and put into the set. -/
theorem Later.rearm {x : Timer} (h : Later s s') (hrecurring : x.recurring = (s'.timer t).recurring)
    (hcb : (s'.timer t).cb = none → x.cb = none) : Later s ((s'.setTimer t x).addTimer t) :=
  (h.setTimer hrecurring hcb).trans (Later.of_same rfl rfl rfl)

/-- Taking timers out of the set brings no callback back. -/
theorem Later.erase (s : State) (timers : List ℕ) : Later s { s with timers := timers } :=
  Later.of_same rfl rfl rfl

/-- Collecting a timer keeps the dead ones dead. -/
theorem Later.collect (s : State) (now : UInt64) (t : ℕ) : Later s (s.collect now t) := by
  unfold State.collect
  split
  · exact (Later.refl s).rearm rfl id
  · exact (Later.refl s).setTimer rfl fun _ => rfl

/-- Collecting several timers keeps the dead ones dead. -/
theorem Later.collectAll (now : UInt64) (ts : List ℕ) (s : State) :
    Later s (State.collectAll now ts s).2 := by
  induction ts generalizing s with
  | nil => exact Later.refl s
  | cons t ts ih => exact (Later.collect s now t).trans (ih (s.collect now t))

/-! ## `listExpiredCb` -/

/-- Every timer that has expired is in the batch, in their order. -/
theorem collectAll_fst (now : UInt64) (ts : List ℕ) (s : State) :
    (State.collectAll now ts s).1.map Prod.fst = ts := by
  induction ts generalizing s with
  | nil => rfl
  | cons t ts ih => exact congrArg (t :: ·) (ih (s.collect now t))

/-- A one-shot timer has no callback afterwards. -/
theorem collectAll_spent {now : UInt64} {ts : List ℕ} (hmade : t < s.nextTimer)
    (honce : (s.timer t).recurring = false) (ht : t ∈ ts) :
    ((State.collectAll now ts s).2.timer t).cb = none := by
  induction ts generalizing s with
  | nil => cases ht
  | cons a ts ih =>
    have hlater := Later.collect s now a
    have hmade' := Nat.lt_of_lt_of_le hmade hlater.nextTimer
    rcases List.mem_cons.mp ht with rfl | ht
    · apply (Later.collectAll now ts (s.collect now t)).dead t hmade'
      unfold State.collect
      rw [honce]
      show ((s.setTimer t _).timer t).cb = none
      rw [setTimer_timer_self]
    · exact ih hmade' (by rw [hlater.recurring t hmade, honce]) ht

/-- What a call of `listExpiredCb` collects: timers from the set, each once. -/
structure Collects (s s' : State) (cbs : List (ℕ × Option ℕ)) : Prop where
  later : Later s s'
  collected : s'.collected = s.collected
  nodup : (cbs.map Prod.fst).Nodup
  pending : ∀ t ∈ cbs.map Prod.fst, t ∈ s.timers
  spent : ∀ t ∈ cbs.map Prod.fst, (s.timer t).recurring = false → (s'.timer t).cb = none

/-- The batches before stay. -/
theorem collectAll_collected (now : UInt64) (ts : List ℕ) (s : State) :
    (State.collectAll now ts s).2.collected = s.collected := by
  induction ts generalizing s with
  | nil => rfl
  | cons t ts ih =>
    refine (ih (s.collect now t)).trans ?_
    unfold State.collect
    split <;> rfl

/-- `listExpiredCb` collects each timer of the set once, and spends those that are not recurring. -/
theorem Holds.collects (h : Holds s []) (now : UInt64) (probe : ℕ) :
    Collects s (s.listExpiredCb now probe).2 (s.listExpiredCb now probe).1 := by
  unfold State.listExpiredCb
  split
  · exact ⟨Later.refl s, rfl, List.nodup_nil, nofun, nofun⟩
  · have hexpired : ∀ t ∈ s.expired now probe, t ∈ s.timers :=
      fun t ht => (expired_isPrefix s now probe).subset ht
    refine ⟨(Later.erase s _).trans (Later.collectAll ..), collectAll_collected .., ?_, ?_, ?_⟩
    · rw [collectAll_fst]
      exact h.nodup.sublist (expired_isPrefix s now probe).sublist
    · rwa [collectAll_fst]
    · rw [collectAll_fst]
      intro t ht honce
      exact collectAll_spent ((h.pending t).mp (hexpired t ht)).1 honce ht

/-! ## Steps -/

/-- An operation other than `listExpiredCb` collects nothing. -/
theorem Holds.later_of_step {op : Op} (h : Holds s []) (hs : Time.step s op = some s') :
    Later s s' ∧ s'.collected = s.collected ∨
      ∃ r cbs, s' = { r with collected := s.collected ++ [cbs] } ∧ Collects s r cbs := by
  cases h.effect hs with
  | addTimer =>
    refine Or.inl ⟨⟨Nat.le_succ _, ?_, ?_, (Later.refl s).collected⟩, rfl⟩
    · intro t ht
      exact congrArg Timer.recurring (setTimer_timer_of_ne s _ (Nat.ne_of_lt ht))
    · intro t ht hnone
      exact (congrArg Timer.cb (setTimer_timer_of_ne s _ (Nat.ne_of_lt ht))).trans hnone
  | idle => exact Or.inl ⟨Later.refl s, rfl⟩
  | cancel => exact Or.inl ⟨(Later.erase s _).setTimer rfl fun _ => rfl, rfl⟩
  | refresh => exact Or.inl ⟨(Later.erase s _).rearm rfl id, rfl⟩
  | reset => exact Or.inl ⟨(Later.erase s _).rearm rfl id, rfl⟩
  | @listExpiredCb now probe =>
    have hcollects := h.collects now probe
    rw [hcollects.collected]
    exact Or.inr ⟨_, _, rfl, hcollects⟩
  | getNextTimer => exact Or.inl ⟨Later.of_same rfl rfl rfl, rfl⟩

/-- Every operation leads to a later state. -/
theorem Holds.later {op : Op} (h : Holds s []) (hs : Time.step s op = some s') : Later s s' := by
  rcases h.later_of_step hs with ⟨hlater, -⟩ | ⟨r, cbs, rfl, hc⟩
  · exact hlater
  · refine ⟨hc.later.nextTimer, hc.later.recurring, hc.later.dead, [cbs], rfl, ?_⟩
    intro cbs' hcbs c hmem _
    rw [List.mem_singleton.mp hcbs] at hmem
    have hpending := hc.pending c.1 (List.mem_map_of_mem hmem)
    exact ((h.pending c.1).mp hpending).2

/-- What has been collected: timers that have been made, each once in a call, and one-shot timers
that have no callback any more. -/
structure Spent (s : State) : Prop where
  made : ∀ t ∈ s.fired, t < s.nextTimer
  batch : ∀ cbs ∈ s.collected, (cbs.map Prod.fst).Nodup
  once : ∀ t, (s.timer t).recurring = false → s.fired.count t ≤ 1
  spent : ∀ t ∈ s.fired, (s.timer t).recurring = false → (s.timer t).cb = none

/-- At first nothing has fired. -/
theorem Spent.init : Spent Time.init := ⟨nofun, nofun, fun _ _ => Nat.zero_le _, nofun⟩

/-- Nothing is collected. -/
theorem Spent.later (h : Spent s) (hlater : Later s s') (hcollected : s'.collected = s.collected) :
    Spent s' := by
  have hfired : s'.fired = s.fired := by
    unfold State.fired
    rw [hcollected]
  refine ⟨?_, ?_, ?_, ?_⟩
  · intro t ht
    rw [hfired] at ht
    exact Nat.lt_of_lt_of_le (h.made t ht) hlater.nextTimer
  · rw [hcollected]
    exact h.batch
  · intro t honce
    rw [hfired]
    by_cases ht : t ∈ s.fired
    · rw [hlater.recurring t (h.made t ht)] at honce
      exact h.once t honce
    · rw [List.count_eq_zero_of_not_mem ht]
      exact Nat.zero_le 1
  · intro t ht honce
    rw [hfired] at ht
    rw [hlater.recurring t (h.made t ht)] at honce
    exact hlater.dead t (h.made t ht) (h.spent t ht honce)

/-- The timers of one call, none of which is spent. -/
theorem Spent.collects (h : Spent s) (hholds : Holds s []) {r : State}
    {cbs : List (ℕ × Option ℕ)} (hc : Collects s r cbs) :
    Spent { r with collected := s.collected ++ [cbs] } := by
  have hfired : State.fired { r with collected := s.collected ++ [cbs] }
      = s.fired ++ cbs.map Prod.fst := by
    unfold State.fired
    rw [List.flatten_append, List.map_append, List.flatten_singleton]
  have hpending : ∀ t ∈ cbs.map Prod.fst, t < s.nextTimer ∧ (s.timer t).cb ≠ none :=
    fun t ht => (hholds.pending t).mp (hc.pending t ht)
  have hr := h.later hc.later hc.collected
  have hsame : r.fired = s.fired := congrArg (fun l => l.flatten.map Prod.fst) hc.collected
  refine ⟨?_, ?_, ?_, ?_⟩
  · intro t ht
    rw [hfired, List.mem_append] at ht
    rcases ht with ht | ht
    · exact hr.made t (by rwa [hsame])
    · exact Nat.lt_of_lt_of_le (hpending t ht).1 hc.later.nextTimer
  · intro cbs' hcbs
    rcases List.mem_append.mp hcbs with hcbs | hcbs
    · exact h.batch cbs' hcbs
    · rw [List.mem_singleton.mp hcbs]
      exact hc.nodup
  · intro t honce
    have hold := hr.once t honce
    rw [hsame] at hold
    rw [hfired, List.count_append]
    by_cases ht : t ∈ cbs.map Prod.fst
    · obtain ⟨hmade, hcb⟩ := hpending t ht
      have hnot : t ∉ s.fired := by
        intro hmem
        apply hcb
        apply h.spent t hmem
        rw [← hc.later.recurring t hmade]
        exact honce
      rw [List.count_eq_zero_of_not_mem hnot, Nat.zero_add]
      exact List.nodup_iff_count_le_one.mp hc.nodup t
    · rw [List.count_eq_zero_of_not_mem ht]
      exact hold
  · intro t ht honce
    rw [hfired, List.mem_append] at ht
    rcases ht with ht | ht
    · exact hr.spent t (by rwa [hsame]) honce
    · apply hc.spent t ht
      rw [← hc.later.recurring t (hpending t ht).1]
      exact honce

/-- Each operation keeps the count of what has fired. -/
theorem Spent.step {op : Op} (h : Spent s) (hholds : Holds s []) (hs : Time.step s op = some s') :
    Spent s' := by
  rcases hholds.later_of_step hs with ⟨hlater, hcollected⟩ | ⟨r, cbs, rfl, hc⟩
  · exact h.later hlater hcollected
  · exact h.collects hholds hc

/-! ## Runs -/

/-- So does every run. -/
theorem Spent.run (h : Run Time.step anyStep Time.init s) : Spent s := by
  have hboth : Holds s [] ∧ Spent s :=
    h.invariant (I := fun s => Holds s [] ∧ Spent s) ⟨Holds.init, Spent.init⟩
      fun _ _ _ hi _ hs => ⟨hi.1.step hs, hi.2.step hi.1 hs⟩
  exact hboth.2

/-- A run leads to a later state. -/
theorem Holds.later_of_run (h : Holds s []) (hrun : Run Time.step anyStep s u) :
    Holds u [] ∧ Later s u :=
  hrun.invariant (I := fun u => Holds u [] ∧ Later s u) ⟨h, Later.refl s⟩
    fun _ _ _ hi _ hs => ⟨hi.1.step hs, hi.2.trans (hi.1.later hs)⟩

/-- A cancelled timer has no callback. -/
theorem Holds.cancelled (h : Holds s []) (hs : Time.step s (.cancel t) = some s') :
    t < s'.nextTimer ∧ (s'.timer t).cb = none := by
  have hlater := h.later hs
  have hmade : t < s.nextTimer := (Option.ite_none_right_eq_some.mp hs).1
  refine ⟨Nat.lt_of_lt_of_le hmade hlater.nextTimer, ?_⟩
  cases h.effect hs with
  | idle hcb => exact hcb
  | cancel => exact congrArg Timer.cb (setTimer_timer_self ..)

/-- A timer without a callback stays out of the set, and no operation puts it back. -/
structure Dead (s : State) (t : ℕ) : Prop where
  out : t ∉ s.timers
  refresh : ∀ now, s.refresh t now = (false, s)
  reset : ∀ ms fromNow now, (s.reset t ms fromNow now).2 = s

/-- A timer without callback is dead: it is in no set, and no operation brings it back. -/
theorem Holds.dead (h : Holds s []) (hmade : t < s.nextTimer) (hcb : (s.timer t).cb = none) :
    Dead s t := by
  have hout := h.not_pending hcb
  refine ⟨hout, ?_, ?_⟩
  · intro now
    rcases h.refresh hmade now with ⟨-, heq⟩ | ⟨ht, -⟩
    · exact heq
    · exact absurd ht hout
  · intro ms fromNow now
    rcases h.reset hmade ms fromNow now with ⟨-, heq⟩ | ⟨-, -, heq⟩ | ⟨-, ht, -⟩
    · rw [heq]
    · rw [heq]
    · exact absurd ht hout

/-- What is to be known of the callbacks that are collected. -/
structure CollectedOnce (s : State) : Prop where
  oneShot : ∀ t < s.nextTimer, (s.timer t).recurring = false → s.fired.count t ≤ 1
  spent : ∀ t ∈ s.fired, (s.timer t).recurring = false → ∀ u, Run step anyStep s u → Dead u t
  batch : ∀ cbs ∈ s.collected, (cbs.map Prod.fst).Nodup
  cancelled : ∀ t < s.nextTimer, ∀ s', s.cancel t = (some true, s') →
    ∀ u, Run step anyStep s' u → Dead u t ∧
      ∃ later, u.collected = s'.collected ++ later ∧ ∀ cbs ∈ later, t ∉ cbs.map Prod.fst

/-- **Timers fire once**: in every run, with any clock, a one-shot timer's callback is collected
once at most and is not brought back, a recurring one's once in a call at most, and none after a
`cancel` that returned true. -/
theorem collected_once (s : State) (h : Run step anyStep init s) : CollectedOnce s := by
  have hholds := Holds.run h
  have hspent := Spent.run h
  refine ⟨fun t _ => hspent.once t, ?_, hspent.batch, ?_⟩
  · intro t ht honce u hrun
    have hmade := hspent.made t ht
    obtain ⟨hu, hlater⟩ := hholds.later_of_run hrun
    exact hu.dead (Nat.lt_of_lt_of_le hmade hlater.nextTimer)
      (hlater.dead t hmade (hspent.spent t ht honce))
  · intro t hmade s' hcancel u hrun
    have hs : step s (.cancel t) = some s' := by
      unfold step
      dsimp only
      rw [if_pos hmade, hcancel]
    obtain ⟨hmade', hcb⟩ := hholds.cancelled hs
    obtain ⟨hu, hlater⟩ := (hholds.step hs).later_of_run hrun
    refine ⟨hu.dead (Nat.lt_of_lt_of_le hmade' hlater.nextTimer) (hlater.dead t hmade' hcb), ?_⟩
    obtain ⟨later, hcollected, hlive⟩ := hlater.collected
    refine ⟨later, hcollected, fun cbs hcbs ht => ?_⟩
    obtain ⟨c, hc, rfl⟩ := List.mem_map.mp ht
    exact hlive cbs hcbs c hc hmade' hcb

/-- A one-shot timer and a recurring one with period 0, in two calls at one time. -/
theorem collected_once_witness : ∃ s, CollectedOnce s ∧ s.fired = [0, 1, 1] := by
  have hrun : Run step anyStep init _ :=
    (((Run.refl.tail (a := .addTimer 0 7 false 10 100) trivial rfl).tail
      (a := .addTimer 0 8 true 10 200) trivial rfl).tail (a := .listExpiredCb 10 300) trivial rfl).tail
      (a := .listExpiredCb 10 300) trivial rfl
  exact ⟨_, collected_once _ hrun, rfl⟩

end CoKV.Time
