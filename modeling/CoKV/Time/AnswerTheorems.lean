import CoKV.Time.OrderTheorems

/-!
# What the calls on a timer return

`calls_answered`: `refresh` and `reset` find out whether the timer is pending, and `cancel` of a
pending timer returns true; no call touches another timer. `reset` has nothing to do if it is asked
for the period that the timer has, and says so without a look at the set.
-/

namespace CoKV.Time

variable {s : State} {t : ℕ}

/-- No timer but `t` is touched. -/
structure Others (s : State) (t : ℕ) (s' : State) : Prop where
  timer : ∀ a ≠ t, s'.timer a = s.timer a
  timers : ∀ a ≠ t, a ∈ s'.timers ↔ a ∈ s.timers

theorem Others.refl (s : State) (t : ℕ) : Others s t s := ⟨fun _ _ => rfl, fun _ _ => Iff.rfl⟩

/-- A pending timer is taken out of the set and written. -/
theorem Others.take (s : State) (t : ℕ) (x : Timer) :
    Others s t ({ s with timers := s.timers.erase t }.setTimer t x) where
  timer _ ha := setTimer_timer_of_ne _ x ha
  timers _ ha := List.mem_erase_of_ne ha

/-- A pending timer is taken out and put back. -/
theorem Holds.others_rearm (h : Holds s []) (ht : t ∈ s.timers) {x : Timer}
    (haddr : x.addr = (s.timer t).addr) :
    Others s t (({ s with timers := s.timers.erase t }.setTimer t x).addTimer t) where
  timer _ ha := (Others.take s t x).timer _ ha
  timers a ha := by
    have hperm := InOrder.rearm_perm (h.take ht).inOrder haddr
    rw [hperm.mem_iff]
    simp [ha, List.mem_erase_of_ne]

/-- What the three calls return, and what they leave alone. -/
structure Answered (s : State) (t : ℕ) : Prop where
  cancel : t ∈ s.timers → (s.cancel t).1 = some true
  refresh : ∀ now, (s.refresh t now).1 = true ↔ t ∈ s.timers
  reset : ∀ ms fromNow now, (s.reset t ms fromNow now).1 = true ↔
    t ∈ s.timers ∨ ms = (s.timer t).ms ∧ fromNow = false
  refresh_false : ∀ now, (s.refresh t now).1 = false → (s.refresh t now).2 = s
  reset_false : ∀ ms fromNow now, (s.reset t ms fromNow now).1 = false →
    (s.reset t ms fromNow now).2 = s
  cancel_others : t ∈ s.timers → Others s t (s.cancel t).2
  refresh_others : ∀ now, Others s t (s.refresh t now).2
  reset_others : ∀ ms fromNow now, Others s t (s.reset t ms fromNow now).2

/-- **The results**: in every run, for every timer that has been made, be it pending or not. -/
theorem calls_answered (s : State) (h : Run step anyStep init s) (t : ℕ) (hmade : t < s.nextTimer) :
    Answered s t := by
  have hi := Holds.run h
  refine ⟨?_, ?_, ?_, ?_, ?_, ?_, ?_, ?_⟩
  · intro ht
    rcases hi.cancel hmade with ⟨hcb, -⟩ | ⟨-, heq⟩
    · exact absurd ht (hi.not_pending hcb)
    · rw [heq]
  · intro now
    rcases hi.refresh hmade now with ⟨hcb, heq⟩ | ⟨ht, heq⟩
    · simp [heq, hi.not_pending hcb]
    · simp [heq, ht]
  · intro ms fromNow now
    rcases hi.reset hmade ms fromNow now with ⟨hsame, heq⟩ | ⟨hnew, hcb, heq⟩ | ⟨-, ht, heq⟩
    · rw [heq]
      exact iff_of_true rfl (Or.inr hsame)
    · rw [heq]
      simp [hi.not_pending hcb, hnew]
    · simp [heq, ht]
  · intro now hfalse
    rcases hi.refresh hmade now with ⟨-, heq⟩ | ⟨-, heq⟩
    · rw [heq]
    · simp [heq] at hfalse
  · intro ms fromNow now hfalse
    rcases hi.reset hmade ms fromNow now with ⟨-, heq⟩ | ⟨-, -, heq⟩ | ⟨-, -, heq⟩
    · rw [heq]
    · rw [heq]
    · simp [heq] at hfalse
  · intro ht
    rcases hi.cancel hmade with ⟨-, heq⟩ | ⟨-, heq⟩
    · rw [heq]
      exact Others.refl s t
    · rw [heq]
      exact Others.take s t _
  · intro now
    rcases hi.refresh hmade now with ⟨-, heq⟩ | ⟨ht, heq⟩
    · rw [heq]
      exact Others.refl s t
    · rw [heq]
      exact hi.others_rearm ht rfl
  · intro ms fromNow now
    rcases hi.reset hmade ms fromNow now with ⟨-, heq⟩ | ⟨-, -, heq⟩ | ⟨-, ht, heq⟩
    · rw [heq]
      exact Others.refl s t
    · rw [heq]
      exact Others.refl s t
    · rw [heq]
      exact hi.others_rearm ht rfl

/-- One timer has fired, one has been cancelled, and one is pending. -/
theorem calls_answered_witness : ∃ s, (Answered s 0 ∧ Answered s 1 ∧ Answered s 2) ∧
    s.timers = [2] ∧ (s.timer 0).cb = none ∧ (s.timer 1).cb = none := by
  have hrun : Run step anyStep init _ :=
    ((((Run.refl.tail (a := .addTimer 5 7 false 10 200) trivial rfl).tail
      (a := .addTimer 30 8 true 11 100) trivial rfl).tail
      (a := .addTimer 40 9 false 12 300) trivial rfl).tail
      (a := .listExpiredCb 20 400) trivial rfl).tail (a := .cancel 1) trivial rfl
  exact ⟨_, ⟨calls_answered _ hrun 0 (by decide), calls_answered _ hrun 1 (by decide),
    calls_answered _ hrun 2 (by decide)⟩, rfl, rfl, rfl⟩

/-- A timer has fired; `reset` with its own period and without `from_now` returns true. -/
theorem reset_fired : ∃ s, Run step anyStep init s ∧ 0 < s.nextTimer ∧ 0 ∉ s.timers ∧
    (s.reset 0 5 false 20).1 = true := by
  have hrun : Run step anyStep init _ :=
    (Run.refl.tail (a := .addTimer 5 7 false 10 200) trivial rfl).tail
      (a := .listExpiredCb 15 300) trivial rfl
  exact ⟨_, hrun, by decide, by decide, by decide⟩

end CoKV.Time
