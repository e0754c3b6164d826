import CoKV.Time.OnceTheorems
import CoKV.Time.Threads

/-!
# The lock of the timers

`listExpiredCb_atomic`: everything that the loop of `listExpiredCb` writes is written under the
write lock, and a recurring timer that has been cancelled does not come back, in the runs in which
no timer stands behind a recurring one among those that have expired. Behind the first recurring
timer the loop goes on without the lock.
-/

namespace CoKV.Time

variable {T : Type} {m m' : Threads T} {p q : T}

/-- The loops write under the lock, and a recurring timer on which `cancel` has been called is not
in the set, once the calls that have taken it out are done with it. -/
structure Atomic (m : Threads T) : Prop where
  held : ∀ a ∈ m.accesses, a.held = true
  cancelled : ∀ t ∈ m.cancelled, (m.state.timer t).recurring = true →
    (∀ p, t ∉ (m.pc p).expired) → t ∉ m.state.timers

/-- Only the last timer may be a recurring one. -/
def OneShots (s : State) (expired : List ℕ) : Prop :=
  expired.Pairwise fun t _ => (s.timer t).recurring = false

/-- When a thread takes the expired timers out of the set, none of them stands behind a recurring
one. -/
def RecurringLast (m : Threads T) : ThreadLabel T → Prop
  | .next p _ => ∀ now, m.pc p = .checked now →
    OneShots m.state (m.state.timers.filter fun t => (m.state.timer t).next ≤ now)
  | _ => True

/-! ## The invariant -/

/-- What a thread at `pc` has of the lock and of the timers. -/
structure Guarded (s : State) (lock : Option T) (p : T) (pc : Pc) : Prop where
  lock : lock = some p ↔ pc.locked = true
  free : pc.locked = false → pc.expired = []
  oneShots : OneShots s pc.expired
  rearmed : ∀ c, pc = .rearmed c → ∀ t ts, c.expired = t :: ts → (s.timer t).recurring = true
  inserted : ∀ c, pc = .inserted c → c.expired = []

/-- Whoever has the lock has timers in hand, and nobody else does. -/
structure Exclusive (m : Threads T) : Prop where
  free : m.lock = none → Holds m.state []
  owned : ∀ p, m.lock = some p → Holds m.state (m.pc p).expired
  guarded : ∀ p, Guarded m.state m.lock p (m.pc p)
  cancelled : ∀ t ∈ m.cancelled, t < m.state.nextTimer ∧ (m.state.timer t).cb = none
  held : ∀ a ∈ m.accesses, a.held = true

theorem Exclusive.start : Exclusive (Threads.start : Threads T) where
  free _ := Holds.init
  owned p h := by cases h
  guarded p := ⟨by simp [Threads.start, Pc.locked, Pc.call], fun _ => rfl, List.Pairwise.nil, nofun, nofun⟩
  cancelled := nofun
  held := nofun

theorem Exclusive.atomic (h : Exclusive m) : Atomic m where
  held := h.held
  cancelled t ht _ _ hmem := by
    have hpending : (m.state.timer t).cb ≠ none := by
      cases hlock : m.lock with
      | none => exact ((h.free hlock).pending t |>.mp hmem).2
      | some p => exact ((h.owned p hlock).pending t |>.mp (List.mem_append_right _ hmem)).2
    exact hpending (h.cancelled t ht).2

/-- Another thread has no timers in hand, or the lock, and then nothing happens to its timers. -/
theorem Guarded.other {s s' : State} {lock lock' : Option T} {pc : Pc} (h : Guarded s lock q pc)
    (hlock : lock' = some q ↔ lock = some q) (hstate : lock = some q → s' = s) :
    Guarded s' lock' q pc := by
  by_cases hown : lock = some q
  · rw [hstate hown]
    exact ⟨hlock.trans h.lock, h.free, h.oneShots, h.rearmed, h.inserted⟩
  · have hempty : pc.expired = [] := h.free (by rw [← Bool.not_eq_true, ← h.lock]; exact hown)
    refine ⟨hlock.trans h.lock, h.free, ?_, ?_, h.inserted⟩
    · rw [hempty]
      exact List.Pairwise.nil
    · rintro c rfl t ts hc
      exact absurd (hempty.symm.trans hc) (List.cons_ne_nil t ts).symm

/-- A cancelled timer stays without a callback. -/
theorem Exclusive.later (hi : Exclusive m) {s : State} (h : Later m.state s) :
    ∀ t ∈ m.cancelled, t < s.nextTimer ∧ (s.timer t).cb = none := by
  intro t ht
  obtain ⟨hmade, hcb⟩ := hi.cancelled t ht
  exact ⟨Nat.lt_of_lt_of_le hmade h.nextTimer, h.dead t hmade hcb⟩

/-- A thread outside its critical section does not have the lock. -/
theorem Guarded.idle {s : State} {lock : Option T} {pc : Pc} (hlock : lock ≠ some p)
    (hcall : pc.call = none) : Guarded s lock p pc where
  lock := by
    unfold Pc.locked
    rw [hcall]
    exact iff_of_false hlock (by simp)
  free _ := by
    unfold Pc.expired
    rw [hcall]
    rfl
  oneShots := by
    unfold Pc.expired
    rw [hcall]
    exact List.Pairwise.nil
  rearmed c hpc := by
    rw [hpc] at hcall
    cases hcall
  inserted c hpc := by
    rw [hpc] at hcall
    cases hcall

theorem Guarded.not_owner {s : State} {lock : Option T} {pc : Pc} (h : Guarded s lock p pc)
    (hcall : pc.call = none) : lock ≠ some p := by
  intro hlock
  have hlocked := h.lock.mp hlock
  unfold Pc.locked at hlocked
  rw [hcall] at hlocked
  cases hlocked

/-- A thread with a timer in hand has the lock. -/
theorem Exclusive.inHand (hi : Exclusive m) {c : Call} {t : ℕ} {ts : List ℕ}
    (hcall : (m.pc p).call = some c) (hc : c.expired = t :: ts) :
    m.lock = some p ∧ Holds m.state (t :: ts) := by
  have hexpired : (m.pc p).expired = t :: ts := by
    unfold Pc.expired
    rw [hcall]
    exact hc
  have hlock : m.lock = some p := by
    by_contra hlock
    rw [(hi.guarded p).lock, Bool.not_eq_true] at hlock
    rw [(hi.guarded p).free hlock] at hexpired
    cases hexpired
  have hholds := hi.owned p hlock
  rw [hexpired] at hholds
  exact ⟨hlock, hholds⟩

theorem Guarded.locked_iff {s : State} {lock : Option T} {pc : Pc} {c : Call}
    (h : Guarded s lock p pc) (hcall : pc.call = some c) : lock = some p ↔ c.locked = true := by
  have hlock := h.lock
  unfold Pc.locked at hlock
  rwa [hcall] at hlock

section Unlock

variable {c : Call}

@[simp] theorem unlock_state : (m.unlock c).state = m.state := by
  unfold Threads.unlock
  split <;> rfl

@[simp] theorem unlock_pc : (m.unlock c).pc = m.pc := by
  unfold Threads.unlock
  split <;> rfl

@[simp] theorem unlock_cancelled : (m.unlock c).cancelled = m.cancelled := by
  unfold Threads.unlock
  split <;> rfl

@[simp] theorem unlock_accesses : (m.unlock c).accesses = m.accesses := by
  unfold Threads.unlock
  split <;> rfl

theorem unlock_lock (h : m.lock = some p ↔ c.locked = true) (q : T) :
    (m.unlock c).lock = some q ↔ m.lock = some q ∧ q ≠ p := by
  unfold Threads.unlock
  split
  case isTrue hlocked =>
    rw [h.mpr hlocked, Option.some.injEq]
    constructor
    · nofun
    · rintro ⟨rfl, hne⟩
      exact absurd rfl hne
  case isFalse hfree =>
    refine (and_iff_left_of_imp ?_).symm
    rintro hq rfl
    exact hfree (h.mp hq)

theorem unlock_free (h : (m.unlock c).lock = none) : m.lock = none ∨ c.locked = true := by
  unfold Threads.unlock at h
  split at h
  case isTrue hlocked => exact Or.inr hlocked
  case isFalse => exact Or.inl h

end Unlock

variable [DecidableEq T]

/-- One thread moves. -/
theorem Exclusive.move (hi : Exclusive m) {pc : Pc} (hpc : m'.pc = Function.update m.pc p pc)
    (hlock : ∀ q, q ≠ p → (m'.lock = some q ↔ m.lock = some q))
    (hstate : ∀ q, q ≠ p → m.lock = some q → m'.state = m.state)
    (hp : Guarded m'.state m'.lock p pc) (hfree : m'.lock = none → Holds m'.state [])
    (howned : m'.lock = some p → Holds m'.state pc.expired)
    (hcancelled : ∀ t ∈ m'.cancelled, t < m'.state.nextTimer ∧ (m'.state.timer t).cb = none)
    (hheld : ∀ a ∈ m'.accesses, a.held = true) : Exclusive m' := by
  refine ⟨hfree, fun q hq => ?_, fun q => ?_, hcancelled, hheld⟩
  · by_cases hqp : q = p
    · rw [hqp] at hq ⊢
      rw [hpc, Function.update_self]
      exact howned hq
    · have hown := (hlock q hqp).mp hq
      rw [hpc, Function.update_of_ne hqp, hstate q hqp hown]
      exact hi.owned q hown
  · by_cases hqp : q = p
    · rw [hqp, hpc, Function.update_self]
      exact hp
    · rw [hpc, Function.update_of_ne hqp]
      exact (hi.guarded q).other (hlock q hqp) (hstate q hqp)

/-- A thread moves on with what it has. -/
theorem Exclusive.setPc (hi : Exclusive m) {pc : Pc} (hp : Guarded m.state m.lock p pc)
    (hexpired : pc.expired = (m.pc p).expired) : Exclusive (m.setPc p pc) := by
  refine hi.move rfl (fun _ _ => Iff.rfl) (fun _ _ _ => rfl) hp hi.free ?_ hi.cancelled hi.held
  intro hlock
  rw [hexpired]
  exact hi.owned p hlock

/-- The owner of the lock writes. -/
theorem Exclusive.access (hi : Exclusive m) {pc : Pc} {t : ℕ} {field : Field} {s : State}
    (hlock : m.lock = some p) (hlater : Later m.state s) (hp : Guarded s m.lock p pc)
    (hholds : Holds s pc.expired) : Exclusive ((m.access p t field s).setPc p pc) := by
  refine hi.move rfl (fun _ _ => Iff.rfl) ?_ hp ?_ (fun _ => hholds) (hi.later hlater) ?_
  · intro q hqp hq
    rw [hlock] at hq
    exact absurd (Option.some.inj hq).symm hqp
  · intro hfree
    cases hlock.symm.trans hfree
  · intro a ha
    rcases List.mem_append.mp ha with ha | ha
    · exact hi.held a ha
    · rw [List.mem_singleton.mp ha]
      exact decide_eq_true hlock

/-- The lock is released, when nothing is left in hand. -/
theorem Exclusive.unlock (hi : Exclusive m) {c : Call} {pc : Pc} (hcall : (m.pc p).call = some c)
    (hc : c.expired = []) (hp : Guarded m.state (m.unlock c).lock p pc) :
    Exclusive ((m.unlock c).setPc p pc) := by
  have hexpired : (m.pc p).expired = [] := by
    unfold Pc.expired
    rw [hcall]
    exact hc
  have hlocked := (hi.guarded p).locked_iff hcall
  have hpc : ((m.unlock c).setPc p pc).pc = Function.update m.pc p pc := by
    show Function.update (m.unlock c).pc p pc = _
    rw [unlock_pc]
  refine hi.move hpc ?_ ?_ ?_ ?_ ?_ ?_ ?_
  · intro q hqp
    exact (unlock_lock hlocked q).trans (and_iff_left hqp)
  · exact fun _ _ _ => unlock_state
  · exact unlock_state.symm ▸ hp
  · intro hfree
    show Holds (m.unlock c).state []
    rw [unlock_state]
    rcases unlock_free hfree with hnone | htrue
    · exact hi.free hnone
    · have hholds := hi.owned p (hlocked.mpr htrue)
      rwa [hexpired] at hholds
  · intro hown
    exact absurd rfl ((unlock_lock hlocked p).mp hown).2
  · show ∀ t ∈ (m.unlock c).cancelled,
      t < (m.unlock c).state.nextTimer ∧ ((m.unlock c).state.timer t).cb = none
    rw [unlock_cancelled, unlock_state]
    exact hi.cancelled
  · show ∀ a ∈ (m.unlock c).accesses, _
    rw [unlock_accesses]
    exact hi.held

/-- `collected` is a record only. -/
theorem Exclusive.finish (hi : Exclusive (m.setPc p .outside)) (cbs : List (ℕ × Option ℕ)) :
    Exclusive (m.finish p cbs) where
  free h := ⟨(hi.free h).ordered, (hi.free h).addrs, (hi.free h).pending⟩
  owned q h := ⟨(hi.owned q h).ordered, (hi.owned q h).addrs, (hi.owned q h).pending⟩
  guarded q :=
    have hq := hi.guarded q
    ⟨hq.lock, hq.free, hq.oneShots, hq.rearmed, hq.inserted⟩
  cancelled := hi.cancelled
  held := hi.held

/-! ## Steps -/

theorem OneShots.setTimer {s : State} {t : ℕ} {x : Timer} {expired : List ℕ} (h : OneShots s expired)
    (hrecurring : x.recurring = (s.timer t).recurring) : OneShots (s.setTimer t x) expired := by
  refine h.imp fun {a b} honce => ?_
  rw [setTimer_same Timer.recurring hrecurring a, honce]

/-- A thread in `listExpiredCb` goes on. -/
theorem Exclusive.next (hi : Exclusive m) {probe : ℕ} (hok : RecurringLast m (.next p probe))
    (h : m.next p probe = some m') : Exclusive m' := by
  have hp := hi.guarded p
  unfold Threads.next at h
  split at h
  case h_1 => cases h
  case h_2 now hpc =>
    split at h
    case isTrue => cases h
    case isFalse hlock =>
      have hnot := hp.not_owner (by rw [hpc]; rfl)
      split at h <;> cases h
      · exact (hi.setPc (.idle hnot rfl) (by rw [hpc]; rfl)).finish []
      · exact hi.setPc (.idle hnot rfl) (by rw [hpc]; rfl)
  case h_3 now hpc =>
    split at h <;> cases h
    rename_i hlock
    rw [not_not] at hlock
    have hholds := (hi.free hlock).takeExpired now probe
    refine hi.move rfl ?_ ?_ ?_ nofun (fun _ => hholds) (hi.later (Later.erase _ _)) hi.held
    · intro q hqp
      rw [hlock]
      exact iff_of_false (fun heq => hqp (Option.some.inj heq).symm) nofun
    · intro q _ hq
      cases hlock.symm.trans hq
    · refine ⟨iff_of_true rfl rfl, nofun, ?_, nofun, nofun⟩
      refine List.Pairwise.sublist ?_ (hok now hpc)
      have hdue : (m.state.expired now probe).filter (fun t => (m.state.timer t).next ≤ now)
          = m.state.expired now probe :=
        List.filter_eq_self.mpr fun t ht => decide_eq_true (next_of_mem_expired ht)
      show (m.state.expired now probe).Sublist _
      rw [← hdue]
      exact (expired_isPrefix m.state now probe).sublist.filter _
  case h_4 c hpc =>
    rw [hpc] at hp
    split at h <;> cases h
    case h_1 hc =>
      have hunlocked : (m.unlock c).lock ≠ some p :=
        fun hown => ((unlock_lock (hp.locked_iff rfl) p).mp hown).2 rfl
      exact (hi.unlock (by rw [hpc]; rfl) hc (.idle hunlocked rfl)).finish c.cbs
    case h_2 t ts hc =>
      exact hi.setPc ⟨hp.lock, hp.free, hp.oneShots, nofun, nofun⟩ (by rw [hpc]; rfl)
  case h_5 c hpc =>
    rw [hpc] at hp
    split at h
    case h_1 => cases h
    case h_2 t ts hc =>
      obtain ⟨hlock, hholds⟩ := hi.inHand (by rw [hpc]; rfl) hc
      dsimp only at h
      split at h <;> cases h
      case isTrue hrecurring =>
        refine hi.access hlock ((Later.refl _).setTimer rfl id) ?_ ?_
        · refine ⟨hp.lock, hp.free, hp.oneShots.setTimer rfl, ?_, nofun⟩
          rintro c' ⟨⟩ t' ts' hc'
          rw [hc] at hc'
          cases hc'
          rw [setTimer_timer_self]
          exact hrecurring
        · show Holds _ c.expired
          rw [hc]
          exact hholds.rekey rfl rfl
      case isFalse honce =>
        have hshots : OneShots m.state (t :: ts) := by
          rw [← hc]
          exact hp.oneShots
        refine hi.access hlock ((Later.refl _).setTimer rfl fun _ => rfl) ?_ (hholds.clear rfl)
        refine ⟨hp.lock, fun hfree => ?_, ?_, nofun, nofun⟩
        · exact absurd (hp.lock.mp hlock) (by rw [Bool.not_eq_true]; exact hfree)
        · exact OneShots.setTimer (List.pairwise_cons.mp hshots).2 rfl
  case h_6 c hpc =>
    rw [hpc] at hp
    split at h <;> cases h
    rename_i t ts hc
    obtain ⟨hlock, hholds⟩ := hi.inHand (by rw [hpc]; rfl) hc
    -- nothing is left behind a recurring timer
    have hshots : OneShots m.state (t :: ts) := by
      rw [← hc]
      exact hp.oneShots
    have hlast : ts = [] := by
      rw [List.eq_nil_iff_forall_not_mem]
      intro a ha
      have honce := (List.pairwise_cons.mp hshots).1 a ha
      rw [hp.rearmed c rfl t ts hc] at honce
      cases honce
    refine hi.access hlock (Later.of_same rfl rfl rfl) ?_ hholds.addTimer
    refine ⟨hp.lock, fun _ => hlast, ?_, nofun, ?_⟩
    · exact (List.pairwise_cons.mp hshots).2
    · rintro c' ⟨⟩
      exact hlast
  case h_7 c hpc =>
    rw [hpc] at hp
    cases h
    have hc := hp.inserted c rfl
    have hunlocked : (m.unlock c).lock ≠ some p :=
      fun hown => ((unlock_lock (hp.locked_iff rfl) p).mp hown).2 rfl
    refine hi.unlock (by rw [hpc]; rfl) hc ?_
    refine ⟨iff_of_false hunlocked nofun, fun _ => hc, ?_, nofun, nofun⟩
    show OneShots m.state c.expired
    rw [hc]
    exact List.Pairwise.nil

theorem Exclusive.step (hi : Exclusive m) {l : ThreadLabel T} (hok : RecurringLast m l)
    (h : m.step l = some m') : Exclusive m' := by
  cases l with
  | call p op =>
    -- the lock is free, and so nobody has a timer in hand
    have hop : ∀ {s : State}, m.lock = none → Time.step m.state op = some s →
        ∀ cancelled : List ℕ, (∀ t ∈ cancelled, t < s.nextTimer ∧ (s.timer t).cb = none) →
        Exclusive { m with state := s, cancelled := cancelled } := by
      intro s hlock hs cancelled hcancelled
      refine ⟨fun _ => (hi.free hlock).step hs, ?_, fun q => ?_, hcancelled, hi.held⟩
      · intro q hq
        cases hlock.symm.trans hq
      · refine (hi.guarded q).other Iff.rfl fun hq => ?_
        cases hlock.symm.trans hq
    unfold Threads.step at h
    dsimp only at h
    split at h
    case h_1 => cases h
    case h_2 t hpc hlock =>
      obtain ⟨s, hs, rfl⟩ := Option.map_eq_some_iff.mp h
      have hlater := (hi.free hlock).later hs
      refine hop hlock hs _ fun a ha => ?_
      rcases List.mem_cons.mp ha with rfl | ha
      · exact (hi.free hlock).cancelled hs
      · exact hi.later hlater a ha
    case h_3 hpc hlock _ _ =>
      obtain ⟨s, hs, rfl⟩ := Option.map_eq_some_iff.mp h
      exact hop hlock hs _ (hi.later ((hi.free hlock).later hs))
    case h_4 => cases h
  | enter p now =>
    unfold Threads.step at h
    dsimp only at h
    split at h <;> cases h
    rename_i hpc
    exact hi.setPc (.idle ((hi.guarded p).not_owner (by rw [hpc]; rfl)) rfl) (by rw [hpc]; rfl)
  | next p probe => exact hi.next hok h

/-! ## Runs -/

/-- **`listExpiredCb` is atomic**: what its loop writes is written under the write lock, and a
recurring timer that has been cancelled stays out of the set, in every run in which no expired timer
stands behind a recurring one. -/
theorem listExpiredCb_atomic (m : Threads T) (h : Run Threads.step RecurringLast Threads.start m) :
    Atomic m := by
  have hi : Exclusive m := h.invariant Exclusive.start fun _ _ _ hi hok hs => hi.step hok hs
  exact hi.atomic

/-- What `RecurringLast` asks for, as a test. -/
def recurringTest (m : Threads Bool) : ThreadLabel Bool → Bool
  | .next p _ =>
    match m.pc p with
    | .checked now =>
      decide ((m.state.timers.filter fun t => (m.state.timer t).next ≤ now).Pairwise
        fun t _ => (m.state.timer t).recurring = false)
    | _ => true
  | _ => true

theorem recurringLast_of_test (m : Threads Bool) (l : ThreadLabel Bool)
    (h : recurringTest m l = true) : RecurringLast m l := by
  cases l with
  | next p probe =>
    intro now hpc
    unfold recurringTest at h
    dsimp only at h
    rw [hpc] at h
    rw [decide_eq_true_eq] at h
    exact h
  | _ => trivial

/-- A one-shot timer and a recurring one expire. Before the write lock is taken the other thread adds
a timer, and when the recurring one is back in the set and the lock is free, it cancels that. -/
theorem listExpiredCb_atomic_witness : ∃ m : Threads Bool, Atomic m ∧
    m.accesses.map Access.timer = [0, 1, 1] ∧ m.cancelled = [1] ∧ m.state.timers = [2] := by
  obtain ⟨m, hm, haccesses, hcancelled, htimers⟩ : ∃ m : Threads Bool,
      runLabels (fun m l => if recurringTest m l then m.step l else none) Threads.start
        [.call true (.addTimer 1 7 false 0 100), .call true (.addTimer 2 8 true 0 200),
          .enter true 5, .next true 300, .call false (.addTimer 50 9 false 5 400), .next true 300,
          .next true 300, .next true 300, .next true 300, .next true 300, .next true 300,
          .next true 300, .call false (.cancel 1), .next true 300] = some m ∧
        m.accesses.map Access.timer = [0, 1, 1] ∧ m.cancelled = [1] ∧ m.state.timers = [2] :=
    ⟨_, rfl, rfl, rfl, rfl⟩
  exact ⟨m, listExpiredCb_atomic m (.of_tested recurringLast_of_test hm), haccesses, hcancelled,
    htimers⟩

/-- Two recurring timers expire. When the first one is back in the set, the lock is free; the other
thread cancels the second one, and it is put back. -/
theorem unlocked_not_atomic :
    ¬ ∀ m : Threads Bool, Run Threads.step anyStep Threads.start m → Atomic m := by
  intro h
  have hlabels : ∃ m : Threads Bool, runLabels Threads.step Threads.start
      [.call true (.addTimer 1 7 true 0 100), .call true (.addTimer 2 8 true 0 200),
        .enter true 5, .next true 300, .next true 300, .next true 300, .next true 300,
        .next true 300, .next true 300, .call false (.cancel 1), .next true 300, .next true 300,
        .next true 300, .next true 300, .next true 300] = some m ∧
      (∀ p, m.pc p = .outside) ∧ m.cancelled = [1] ∧ (m.state.timer 1).recurring = true ∧
      m.state.timers = [0, 1] := by
    refine ⟨_, rfl, ?_, rfl, rfl, rfl⟩
    rintro (_ | _) <;> rfl
  obtain ⟨m, hrun, hpc, hcancelled, hrecurring, htimers⟩ := hlabels
  have hout := (h m (Run.of_labels hrun)).cancelled 1 (by simp [hcancelled]) hrecurring
    (fun p => by simp [hpc p, Pc.expired, Pc.call])
  rw [htimers] at hout
  simp at hout

end CoKV.Time
