import CoKV.Time.OrderTheorems

/-!
# What expires

`listExpiredCb_expires`: of any set in order, `listExpiredCb` collects the callbacks of the timers
whose deadline has come, in the order of the set, and arms the recurring ones again.
`getNextTimer_agrees`: that it collects something is what `getNextTimer` has said before.
-/

namespace CoKV.Time

variable {s : State} {hand : List ℕ} {t : ℕ}

/-- What the loop of `listExpiredCb` leaves. -/
structure Collected (s : State) (hand : List ℕ) (now : UInt64) (s' : State) : Prop where
  inOrder : InOrder s' []
  timers : s'.timers.Perm (hand.filter (fun a => (s.timer a).recurring) ++ s.timers)
  timer : ∀ a, s'.timer a = if a ∈ hand then (s.collect now a).timer a else s.timer a

theorem collect_timer_congr {s s' : State} (h : s'.timer t = s.timer t) (now : UInt64) :
    (s'.collect now t).timer t = (s.collect now t).timer t := by
  rw [collect_timer_self, collect_timer_self, h]

theorem InOrder.collectAll (h : InOrder s hand) (now : UInt64) :
    Collected s hand now (State.collectAll now hand s).2 := by
  induction hand generalizing s with
  | nil => exact ⟨h, List.Perm.refl _, fun _ => rfl⟩
  | cons t ts ih =>
    have hts : ∀ a ∈ ts, (s.collect now t).timer a = s.timer a := fun a ha =>
      collect_timer_of_ne s now (h.ne_of_mem a (List.mem_append_left _ ha))
    have hrest := ih (h.collect now)
    refine ⟨hrest.inOrder, hrest.timers.trans ?_, ?_⟩
    · have hsame : ts.filter (fun a => ((s.collect now t).timer a).recurring) =
          ts.filter fun a => (s.timer a).recurring := by
        refine List.filter_congr fun a ha => ?_
        rw [hts a ha]
      rw [hsame, List.filter_cons]
      by_cases hrecurring : (s.timer t).recurring = true
      · rw [if_pos hrecurring]
        exact ((h.collect_perm now hrecurring).append_left _).trans List.perm_middle
      · rw [if_neg hrecurring, collect_timers s now hrecurring]
    · intro a
      refine (hrest.timer a).trans ?_
      by_cases ha : a ∈ ts
      · rw [if_pos ha, if_pos (List.mem_cons_of_mem t ha)]
        exact collect_timer_congr (hts a ha) now
      · rw [if_neg ha]
        by_cases heq : a = t
        · rw [heq, if_pos (List.mem_cons_self ..)]
        · rw [if_neg (by simp [heq, ha]), collect_timer_of_ne s now heq]

/-- The callbacks that are collected are those the timers have had. -/
theorem InOrder.collectAll_cbs (h : InOrder s hand) (now : UInt64) :
    (State.collectAll now hand s).1 = hand.map fun a => (a, (s.timer a).cb) := by
  induction hand generalizing s with
  | nil => rfl
  | cons t ts ih =>
    have hts : ∀ a ∈ ts, (a, ((s.collect now t).timer a).cb) = (a, (s.timer a).cb) := by
      intro a ha
      rw [collect_timer_of_ne s now (h.ne_of_mem a (List.mem_append_left _ ha))]
    show (t, (s.timer t).cb) :: (State.collectAll now ts (s.collect now t)).1 = _
    rw [ih (h.collect now), List.map_congr_left hts]
    rfl

/-! ## `listExpiredCb` -/

/-- A set as `Timer::Comperator` orders it; a pointer is an address. -/
structure TimerSet (s : State) : Prop where
  ordered : s.timers.Pairwise fun a b => (s.timer a).less (s.timer b)
  addrs : s.timers.Pairwise fun a b => (s.timer a).addr ≠ (s.timer b).addr

theorem TimerSet.inOrder (h : TimerSet s) : InOrder s [] where
  ordered := by
    refine List.Pairwise.imp (fun {a b} hless => ?_) h.ordered
    rwa [Timer.less_eq, decide_eq_true_eq] at hless
  addrs := h.addrs

/-- What `listExpiredCb` is there for: it collects the callbacks of the timers whose deadline has
come, in the order of the set, and leaves the others and the recurring ones in the set. -/
structure Expires (s : State) (now : UInt64) (cbs : List (ℕ × Option ℕ)) (s' : State) : Prop where
  collected : cbs =
    (s.timers.filter fun t => (s.timer t).next ≤ now).map fun t => (t, (s.timer t).cb)
  timers : ∀ t, t ∈ s'.timers ↔
    t ∈ s.timers ∧ (now < (s.timer t).next ∨ (s.timer t).recurring = true)
  ordered : TimerSet s'
  unchanged : ∀ t, ¬ (t ∈ s.timers ∧ (s.timer t).next ≤ now) → s'.timer t = s.timer t
  rearmed : ∀ t ∈ s.timers, (s.timer t).next ≤ now → (s.timer t).recurring = true →
    s'.timer t = { s.timer t with next := now + (s.timer t).ms }
  spent : ∀ t ∈ s.timers, (s.timer t).next ≤ now → (s.timer t).recurring = false →
    s'.timer t = { s.timer t with cb := none }

theorem InOrder.timerSet (h : InOrder s []) : TimerSet s where
  ordered := by
    refine List.Pairwise.imp (fun {a b} hlt => ?_) h.ordered
    rw [Timer.less_eq]
    exact decide_eq_true hlt
  addrs := h.addrs

/-- The cut of `listExpiredCb` is where the deadlines are later than `now`. -/
theorem InOrder.expired_eq_filter (h : InOrder s hand) (now : UInt64) (probe : ℕ) :
    s.expired now probe = s.timers.filter fun t => (s.timer t).next ≤ now := by
  have happ := List.prefix_iff_eq_append.mp (expired_isPrefix s now probe)
  have hexpired : (s.expired now probe).filter (fun t => (s.timer t).next ≤ now) =
      s.expired now probe := by
    rw [List.filter_eq_self]
    intro t ht
    exact decide_eq_true (next_of_mem_expired ht)
  have hrest : (s.timers.drop (s.expired now probe).length).filter
      (fun t => (s.timer t).next ≤ now) = [] := by
    rw [List.filter_eq_nil_iff]
    intro t ht
    simp [h.next_of_mem_rest ht]
  calc s.expired now probe
      = (s.expired now probe ++ s.timers.drop (s.expired now probe).length).filter
          fun t => (s.timer t).next ≤ now := by
        rw [List.filter_append, hexpired, hrest, List.append_nil]
    _ = _ := by rw [happ]

theorem InOrder.expires (hs : InOrder s []) (now : UInt64) (probe : ℕ) :
    Expires s now (s.listExpiredCb now probe).1 (s.listExpiredCb now probe).2 := by
  by_cases hnil : s.timers = []
  · have heq : s.listExpiredCb now probe = ([], s) := if_pos hnil
    rw [heq]
    refine ⟨by simp [hnil], by simp [hnil], hs.timerSet, fun _ _ => rfl, by simp [hnil], by simp [hnil]⟩
  · have heq : s.listExpiredCb now probe = State.collectAll now (s.expired now probe)
        { s with timers := s.timers.drop (s.expired now probe).length } := if_neg hnil
    have htake := hs.takeExpired now probe
    have hall := htake.collectAll now
    have hmem : ∀ t, t ∈ s.expired now probe ↔ t ∈ s.timers ∧ (s.timer t).next ≤ now :=
      fun t => hs.mem_expired now probe
    rw [heq]
    refine ⟨?_, ?_, hall.inOrder.timerSet, ?_, ?_, ?_⟩
    · rw [htake.collectAll_cbs now, hs.expired_eq_filter now probe]
    · intro t
      rw [hall.timers.mem_iff, List.mem_append, List.mem_filter, hmem t]
      show _ ∨ t ∈ s.timers.drop (s.expired now probe).length ↔ _
      rw [hs.mem_rest now probe, and_assoc, ← and_or_left]
      refine and_congr_right fun _ => ?_
      rw [← UInt64.not_lt]
      by_cases hlt : now < (s.timer t).next
      · simp [hlt]
      · simp [hlt]
    · intro t ht
      rw [hall.timer, if_neg (mt (hmem t).mp ht)]
    · intro t ht hle hrecurring
      rw [hall.timer, if_pos ((hmem t).mpr ⟨ht, hle⟩), collect_timer_self]
      exact if_pos hrecurring
    · intro t ht hle hrecurring
      rw [hall.timer, if_pos ((hmem t).mpr ⟨ht, hle⟩), collect_timer_self]
      exact if_neg (by simp [hrecurring])

/-- **`listExpiredCb`** without another thread in between, on any set, at any time. -/
theorem listExpiredCb_expires (s : State) (h : TimerSet s) (now : UInt64) (probe : ℕ) :
    Expires s now (s.listExpiredCb now probe).1 (s.listExpiredCb now probe).2 :=
  h.inOrder.expires now probe

/-- Three timers for time 5, at addresses on both sides of the probe, and one for later; two of
them recurring, one of these with period 0. -/
def fourTimers : State where
  timer t := match t with
    | 0 => ⟨false, 5, 5, some 10, 100⟩
    | 1 => ⟨true, 0, 5, some 11, 200⟩
    | 2 => ⟨true, 2, 5, some 12, 300⟩
    | _ => ⟨false, 9, 9, some 13, 50⟩
  nextTimer := 4
  timers := [0, 1, 2, 3]
  tickled := true
  collected := []
  inserted := []
  told := false

theorem listExpiredCb_expires_witness :
    Expires fourTimers 5 [(0, some 10), (1, some 11), (2, some 12)] (fourTimers.listExpiredCb 5 200).2 ∧
      (fourTimers.listExpiredCb 5 200).2.timers = [1, 2, 3] := by
  have hset : TimerSet fourTimers := ⟨by decide, by decide⟩
  have hexpires := listExpiredCb_expires fourTimers hset 5 200
  have hcbs : (fourTimers.listExpiredCb 5 200).1 = [(0, some 10), (1, some 11), (2, some 12)] := by
    decide
  rw [hcbs] at hexpires
  exact ⟨hexpires, by decide⟩

/-! ## `getNextTimer` -/

theorem InOrder.next_head_le (h : InOrder s []) {rest : List ℕ} (hs : s.timers = t :: rest) :
    ∀ a ∈ s.timers, (s.timer t).next ≤ (s.timer a).next := by
  have hordered := h.ordered
  rw [hs] at hordered ⊢
  intro a ha
  rcases List.mem_cons.mp ha with rfl | ha
  · exact UInt64.le_refl _
  · exact Timer.next_le_of_key_lt ((List.pairwise_cons.mp hordered).1 a ha)

/-- The time until the first deadline. -/
theorem getNextTimer_cons {rest : List ℕ} (hs : s.timers = t :: rest) (now : UInt64) :
    (s.getNextTimer now).toNat = (s.timer t).next.toNat - now.toNat := by
  unfold State.getNextTimer
  rw [hs]
  dsimp only
  split
  case isTrue hge =>
    have hle : (s.timer t).next.toNat ≤ now.toNat := UInt64.le_iff_toNat_le.mp hge
    show 0 = _
    omega
  case isFalse hlt =>
    have hlt : now < (s.timer t).next := UInt64.not_le.mp hlt
    rw [UInt64.toNat_sub_of_le _ _ (UInt64.le_of_lt hlt)]

/-- What `listExpiredCb` does after `getNextTimer`. -/
structure Agrees (s : State) (now later : UInt64) (probe : ℕ) : Prop where
  collects : s.timers ≠ [] → ((s.listExpiredCb later probe).1 ≠ [] ↔
    now.toNat + (s.getNextTimer now).toNat ≤ later.toNat)
  sentinel : s.getNextTimer now = ~~~0 ↔ s.timers = []

/-- **`getNextTimer`**: in every run, there is something to be collected when the time that it has
returned is over, and not before; and `~0ull` stands for no timer. -/
theorem getNextTimer_agrees (s : State) (h : Run step anyStep init s) (now later : UInt64)
    (probe : ℕ) (hpos : 0 < now) (hle : now ≤ later) : Agrees s now later probe := by
  have hs := (Holds.run h).inOrder
  cases htimers : s.timers with
  | nil =>
    have hmax : s.getNextTimer now = ~~~0 := by
      unfold State.getNextTimer
      rw [htimers]
    exact ⟨fun hne => absurd htimers hne, by simp [hmax, htimers]⟩
  | cons t rest =>
    have hfirst := hs.next_head_le htimers
    have hnext := getNextTimer_cons htimers now
    constructor
    · intro _
      have hdue : (s.listExpiredCb later probe).1 ≠ [] ↔ (s.timer t).next ≤ later := by
        rw [(hs.expires later probe).collected, Ne, List.map_eq_nil_iff, List.filter_eq_nil_iff]
        push Not
        constructor
        · rintro ⟨a, ha, hdue⟩
          exact UInt64.le_trans (hfirst a ha) (of_decide_eq_true hdue)
        · intro hdue
          exact ⟨t, by simp [htimers], decide_eq_true hdue⟩
      rw [hdue, hnext, UInt64.le_iff_toNat_le]
      rw [UInt64.le_iff_toNat_le] at hle
      omega
    · -- a difference to a clock that is not 0 is not the greatest number
      have hlt := (s.timer t).next.toNat_lt
      have hnow : 0 < now.toNat := UInt64.lt_iff_toNat_lt.mp hpos
      have hne : s.getNextTimer now ≠ ~~~0 := by
        intro heq
        rw [heq] at hnext
        have hmax : (~~~0 : UInt64).toNat = 2 ^ 64 - 1 := rfl
        omega
      rw [htimers]
      exact iff_of_false hne (List.cons_ne_nil t rest)

/-- A timer for time 10, at time 3. -/
theorem getNextTimer_agrees_witness :
    ∃ s, Agrees s 3 10 100 ∧ s.getNextTimer 3 = 7 ∧ s.timers = [0] := by
  have hrun : Run step anyStep init _ :=
    Run.refl.tail (a := .addTimer 5 7 false 5 200) trivial rfl
  exact ⟨_, getNextTimer_agrees _ hrun 3 10 100 (by decide) (by decide), by decide, rfl⟩

end CoKV.Time
