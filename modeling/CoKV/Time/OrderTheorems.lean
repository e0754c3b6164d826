import CoKV.Time.Defs
import CoKV.Lib.Run

/-!
# The order of the timers

`timers_ordered`: in every run, `m_timers` is in strict order and holds the timers that have a
callback, each once, so that `find` finds them. A deadline is only written while its timer is out of
the set; `Holds` is the invariant in the middle of an operation, with the timers it has in hand.
-/

namespace CoKV.Time

/-! ## In the middle of an operation -/

/-- The set is in order, and no two of the timers in it and in `hand` have the same address. -/
structure InOrder (s : State) (hand : List ℕ) : Prop where
  ordered : StrictBy s.key s.timers
  addrs : (hand ++ s.timers).Pairwise fun a b => (s.timer a).addr ≠ (s.timer b).addr

/-- The set is in order, and the timers with a callback are those in the set and those in `hand`;
no two of them have the same address. -/
structure Holds (s : State) (hand : List ℕ) : Prop where
  ordered : StrictBy s.key s.timers
  addrs : (hand ++ s.timers).Pairwise fun a b => (s.timer a).addr ≠ (s.timer b).addr
  pending : ∀ t, t ∈ hand ++ s.timers ↔ t < s.nextTimer ∧ (s.timer t).cb ≠ none

variable {s : State} {hand : List ℕ} {t : ℕ}

/-- The comparator compares the keys: time first, then address. -/
theorem less_eq (s : State) (a b : ℕ) : s.less a b = decide (s.key a < s.key b) := Timer.less_eq ..

@[simp] theorem setTimer_timer_self (s : State) (t : ℕ) (x : Timer) :
    (s.setTimer t x).timer t = x := Function.update_self ..

/-- Writing one timer leaves the others as they are. -/
theorem setTimer_timer_of_ne (s : State) (x : Timer) {a : ℕ} (h : a ≠ t) :
    (s.setTimer t x).timer a = s.timer a := Function.update_of_ne h ..

/-- A field that is written with what it has had. -/
theorem setTimer_same {β : Type} (f : Timer → β) {x : Timer} (hf : f x = f (s.timer t)) (a : ℕ) :
    f ((s.setTimer t x).timer a) = f (s.timer a) := by
  by_cases ha : a = t
  · rw [ha, setTimer_timer_self, hf]
  · rw [setTimer_timer_of_ne s x ha]

/-- Nor does it move another timer in the order. -/
theorem setTimer_key_of_ne (s : State) (x : Timer) {a : ℕ} (h : a ≠ t) :
    (s.setTimer t x).key a = s.key a := congrArg Timer.key (setTimer_timer_of_ne s x h)

section InOrder

/-- Different addresses: no timer is there twice. -/
theorem InOrder.nodup (h : InOrder s hand) : (hand ++ s.timers).Nodup :=
  List.Pairwise.imp (fun hne heq => hne (congrArg (fun t => (s.timer t).addr) heq)) h.addrs

/-- What is in hand and what is in the set may be exchanged, as long as the set is ordered. -/
theorem InOrder.perm {hand' : List ℕ} {timers : List ℕ} (h : InOrder s hand)
    (hordered : StrictBy s.key timers) (hperm : (hand' ++ timers).Perm (hand ++ s.timers)) :
    InOrder { s with timers := timers } hand' where
  ordered := hordered
  addrs := hperm.symm.pairwise h.addrs fun hne => hne.symm

/-- A timer in hand gets another deadline. -/
theorem InOrder.rekey (h : InOrder s (t :: hand)) {x : Timer} (haddr : x.addr = (s.timer t).addr) :
    InOrder (s.setTimer t x) (t :: hand) := by
  obtain ⟨hnot, -⟩ := List.nodup_cons.mp h.nodup
  constructor
  · refine h.ordered.congr fun a ha => setTimer_key_of_ne s x ?_
    rintro rfl
    exact hnot (List.mem_append_right _ ha)
  · refine h.addrs.imp fun {a b} hne => ?_
    rwa [setTimer_same Timer.addr haddr, setTimer_same Timer.addr haddr]

/-- The timer in hand is not in the set. -/
theorem InOrder.ne_of_mem (h : InOrder s (t :: hand)) : ∀ a ∈ hand ++ s.timers, a ≠ t := by
  rintro a ha rfl
  exact (List.nodup_cons.mp h.nodup).1 ha

/-- A timer in hand is dropped. -/
theorem InOrder.clear (h : InOrder s (t :: hand)) {x : Timer} : InOrder (s.setTimer t x) hand := by
  have hne := h.ne_of_mem
  constructor
  · exact h.ordered.congr fun a ha => setTimer_key_of_ne s x (hne a (List.mem_append_right _ ha))
  · refine List.Pairwise.imp_of_mem ?_ (List.pairwise_cons.mp h.addrs).2
    intro a b ha hb hab
    rwa [setTimer_timer_of_ne s x (hne a ha), setTimer_timer_of_ne s x (hne b hb)]

/-- Its key is not in the set, so that `insert` succeeds. -/
theorem InOrder.key_ne (h : InOrder s (t :: hand)) : ∀ a ∈ s.timers, s.key a ≠ s.key t := by
  intro a ha heq
  have haddr := (List.pairwise_cons.mp h.addrs).1 a (List.mem_append_right _ ha)
  exact haddr (congrArg (fun k => (ofLex k).2) heq).symm

/-- The set with a timer from the hand. -/
theorem InOrder.addTimer_timers (h : InOrder s (t :: hand)) :
    (s.addTimer t).timers = s.timers.takeWhile (s.less · t) ++ t :: lowerBound s.less s.timers t := by
  unfold State.addTimer
  rw [h.ordered.insert_eq (less_eq s) h.key_ne]

/-- `insert` adds the timer to the set and takes nothing away. -/
theorem InOrder.addTimer_perm (h : InOrder s (t :: hand)) :
    (s.addTimer t).timers.Perm (t :: s.timers) := by
  rw [h.addTimer_timers]
  exact StrictBy.insert_perm ..

/-- The timer in hand is put into the set in order. -/
theorem InOrder.addTimer (h : InOrder s (t :: hand)) : InOrder (s.addTimer t) hand := by
  have hinOrder : InOrder { s with timers := (s.addTimer t).timers } hand := by
    apply h.perm
    · rw [h.addTimer_timers]
      exact h.ordered.insert (less_eq s) h.key_ne
    · exact (h.addTimer_perm.append_left hand).trans List.perm_middle
  exact ⟨hinOrder.ordered, hinOrder.addrs⟩

/-- A timer in hand is put back with another deadline. -/
theorem InOrder.rearm_perm (h : InOrder s (t :: hand)) {x : Timer}
    (haddr : x.addr = (s.timer t).addr) :
    ((s.setTimer t x).addTimer t).timers.Perm (t :: s.timers) := (h.rekey haddr).addTimer_perm

/-- What `collect` leaves of the other timers. -/
theorem collect_timer_of_ne (s : State) (now : UInt64) {a : ℕ} (hne : a ≠ t) :
    (s.collect now t).timer a = s.timer a := by
  unfold State.collect
  split
  · exact setTimer_timer_of_ne s _ hne
  · exact setTimer_timer_of_ne s _ hne

/-- What `collect` makes of the timer. -/
theorem collect_timer_self (s : State) (now : UInt64) (t : ℕ) :
    (s.collect now t).timer t =
      if (s.timer t).recurring then { s.timer t with next := now + (s.timer t).ms }
      else { s.timer t with cb := none } := by
  unfold State.collect
  split
  · exact setTimer_timer_self s t _
  · exact setTimer_timer_self s t _

/-- A recurring timer is in the set again. -/
theorem InOrder.collect_perm (h : InOrder s (t :: hand)) (now : UInt64)
    (hrecurring : (s.timer t).recurring = true) :
    (s.collect now t).timers.Perm (t :: s.timers) := by
  unfold State.collect
  rw [if_pos hrecurring]
  exact InOrder.rearm_perm h rfl

/-- A timer that is not recurring is not put back. -/
theorem collect_timers (s : State) (now : UInt64) (hrecurring : ¬ (s.timer t).recurring = true) :
    (s.collect now t).timers = s.timers := by
  unfold State.collect
  rw [if_neg hrecurring]
  rfl

/-- Collecting a timer that has expired keeps the order. -/
theorem InOrder.collect (h : InOrder s (t :: hand)) (now : UInt64) :
    InOrder (s.collect now t) hand := by
  unfold State.collect
  split
  · exact InOrder.addTimer (h.rekey rfl)
  · exact h.clear

/-! ## The timers that have expired -/

/-- What has expired is a prefix of the set. -/
theorem expired_isPrefix (s : State) (now : UInt64) (probe : ℕ) :
    s.expired now probe <+: s.timers := by
  unfold State.expired
  dsimp only
  set p := fun t => (s.timer t).less ⟨false, 0, now, none, probe⟩ with hp
  obtain ⟨rest, hrest⟩ : (s.timers.dropWhile p).takeWhile (fun t => (s.timer t).next = now)
      <+: s.timers.dropWhile p := List.takeWhile_prefix _
  refine ⟨rest, ?_⟩
  rw [List.append_assoc, hrest]
  exact List.takeWhile_append_dropWhile

/-- The timers in `expired` are those whose deadline has come. -/
theorem next_of_mem_expired {now : UInt64} {probe : ℕ} (ht : t ∈ s.expired now probe) :
    (s.timer t).next ≤ now := by
  unfold State.expired at ht
  rcases List.mem_append.mp ht with ht | ht
  · have hless := List.mem_takeWhile_imp ht
    rw [Timer.less_eq, decide_eq_true_eq] at hless
    exact Timer.next_le_of_key_lt hless
  · have heq := List.mem_takeWhile_imp ht
    rw [decide_eq_true_eq] at heq
    exact UInt64.le_of_eq heq

/-- What is left in the set is later than the clock. -/
theorem InOrder.next_of_mem_rest (h : InOrder s hand) {now : UInt64} {probe : ℕ}
    (ht : t ∈ s.timers.drop (s.expired now probe).length) : now < (s.timer t).next := by
  -- `lower_bound`, and the loop behind it
  set isLess := fun t => (s.timer t).less ⟨false, 0, now, none, probe⟩ with hisLess
  set l := s.timers.dropWhile isLess with hl
  have hrest : s.timers.drop (s.expired now probe).length
      = l.dropWhile fun t => (s.timer t).next = now := by
    have happ : s.expired now probe ++ l.dropWhile (fun t => (s.timer t).next = now) = s.timers := by
      unfold State.expired
      rw [List.append_assoc, List.takeWhile_append_dropWhile]
      exact List.takeWhile_append_dropWhile
    have happ' := List.prefix_iff_eq_append.mp (expired_isPrefix s now probe)
    exact List.append_cancel_left (happ'.trans happ.symm)
  rw [hrest] at ht
  have hdown : s.timers.Pairwise fun a b => isLess b = true → isLess a = true := by
    refine List.Pairwise.imp (fun {a b} hab => ?_) h.ordered
    rw [hisLess]
    dsimp only
    rw [Timer.less_eq, Timer.less_eq, decide_eq_true_eq, decide_eq_true_eq]
    exact lt_trans hab
  have hge : ∀ a ∈ l, now ≤ (s.timer a).next := by
    intro a ha
    have hnot := not_of_mem_dropWhile hdown a ha
    rw [← UInt64.not_lt]
    intro hlt
    have hless : isLess a = true := Timer.less_of_next_lt hlt
    rw [hless] at hnot
    cases hnot
  have hsame : l.Pairwise fun a b => decide ((s.timer b).next = now) = true →
      decide ((s.timer a).next = now) = true := by
    refine List.Pairwise.imp_of_mem ?_ (h.ordered.sublist (List.dropWhile_sublist isLess))
    intro a b ha _ hab
    rw [decide_eq_true_eq, decide_eq_true_eq]
    rintro rfl
    exact UInt64.le_antisymm (Timer.next_le_of_key_lt hab) (hge a ha)
  have hne := not_of_mem_dropWhile hsame t ht
  rw [decide_eq_false_iff_not] at hne
  exact UInt64.lt_of_le_of_ne (hge t ((List.dropWhile_sublist _).subset ht)) fun heq => hne heq.symm

/-- **`listExpiredCb`** goes through the timers whose deadline has come. -/
theorem InOrder.mem_expired (h : InOrder s hand) (now : UInt64) (probe : ℕ) :
    t ∈ s.expired now probe ↔ t ∈ s.timers ∧ (s.timer t).next ≤ now := by
  have happ := List.prefix_iff_eq_append.mp (expired_isPrefix s now probe)
  constructor
  · intro ht
    exact ⟨(expired_isPrefix s now probe).subset ht, next_of_mem_expired ht⟩
  · rintro ⟨ht, hle⟩
    rw [← happ, List.mem_append] at ht
    refine ht.resolve_right fun hrest => ?_
    exact absurd (h.next_of_mem_rest hrest) (UInt64.not_lt.mpr hle)

/-- And all that is later is left. -/
theorem InOrder.mem_rest (h : InOrder s hand) (now : UInt64) (probe : ℕ) :
    t ∈ s.timers.drop (s.expired now probe).length ↔ t ∈ s.timers ∧ now < (s.timer t).next := by
  have happ := List.prefix_iff_eq_append.mp (expired_isPrefix s now probe)
  constructor
  · intro ht
    exact ⟨(List.drop_sublist ..).subset ht, h.next_of_mem_rest ht⟩
  · rintro ⟨ht, hlt⟩
    rw [← happ, List.mem_append] at ht
    refine ht.resolve_left fun hexpired => ?_
    exact absurd hlt (UInt64.not_lt.mpr (next_of_mem_expired hexpired))

/-- What `listExpiredCb` takes out of the set, to go through it. -/
theorem InOrder.takeExpired (h : InOrder s []) (now : UInt64) (probe : ℕ) :
    InOrder { s with timers := s.timers.drop (s.expired now probe).length }
      (s.expired now probe) := by
  apply h.perm (h.ordered.sublist (List.drop_sublist ..))
  rw [List.prefix_iff_eq_append.mp (expired_isPrefix s now probe)]
  rfl

end InOrder

section Holds

/-- The invariant includes the order. -/
theorem Holds.inOrder (h : Holds s hand) : InOrder s hand := ⟨h.ordered, h.addrs⟩

/-- At first there is no timer. -/
theorem Holds.init : Holds Time.init [] where
  ordered := List.Pairwise.nil
  addrs := List.Pairwise.nil
  pending t := by
    constructor
    · nofun
    · rintro ⟨hlt, -⟩
      exact absurd hlt (Nat.not_lt_zero t)

/-- No timer is there twice. -/
theorem Holds.nodup (h : Holds s hand) : (hand ++ s.timers).Nodup := h.inOrder.nodup

/-- The same for the whole invariant. -/
theorem Holds.perm {hand' : List ℕ} {timers : List ℕ} (h : Holds s hand)
    (hordered : StrictBy s.key timers) (hperm : (hand' ++ timers).Perm (hand ++ s.timers)) :
    Holds { s with timers := timers } hand' where
  ordered := hordered
  addrs := (h.inOrder.perm hordered hperm).addrs
  pending t := by
    rw [hperm.mem_iff]
    exact h.pending t

/-- A timer is taken out of the set. -/
theorem Holds.take (h : Holds s []) (ht : t ∈ s.timers) :
    Holds { s with timers := s.timers.erase t } [t] := by
  apply h.perm (h.ordered.sublist List.erase_sublist)
  exact (List.perm_cons_erase ht).symm

/-- A timer in hand gets another deadline. -/
theorem Holds.rekey (h : Holds s (t :: hand)) {x : Timer} (haddr : x.addr = (s.timer t).addr)
    (hcb : x.cb = (s.timer t).cb) : Holds (s.setTimer t x) (t :: hand) where
  ordered := (h.inOrder.rekey haddr).ordered
  addrs := (h.inOrder.rekey haddr).addrs
  pending a := by
    rw [setTimer_same Timer.cb hcb]
    exact h.pending a

/-- A timer in hand loses its callback, and is dropped. -/
theorem Holds.clear (h : Holds s (t :: hand)) {x : Timer} (hcb : x.cb = none) :
    Holds (s.setTimer t x) hand where
  ordered := h.inOrder.clear.ordered
  addrs := h.inOrder.clear.addrs
  pending a := by
    by_cases ha : a = t
    · rw [ha, setTimer_timer_self, hcb]
      have hnot : t ∉ hand ++ s.timers := fun hmem => h.inOrder.ne_of_mem t hmem rfl
      exact ⟨fun hmem => absurd hmem hnot, fun hnone => absurd rfl hnone.2⟩
    · rw [setTimer_timer_of_ne s x ha]
      have hpending := h.pending a
      rw [List.cons_append, List.mem_cons, or_iff_right ha] at hpending
      exact hpending

/-- A new timer, at an address that no pending timer has. -/
theorem Holds.new (h : Holds s []) {x : Timer} (haddr : ∀ a ∈ s.timers, (s.timer a).addr ≠ x.addr)
    (hcb : x.cb ≠ none) :
    Holds { s.setTimer s.nextTimer x with nextTimer := s.nextTimer + 1 } [s.nextTimer] := by
  have hlt : ∀ a ∈ s.timers, a < s.nextTimer := fun a ha => ((h.pending a).mp ha).1
  have hsame : ∀ a ∈ s.timers, (s.setTimer s.nextTimer x).timer a = s.timer a :=
    fun a ha => setTimer_timer_of_ne s x (Nat.ne_of_lt (hlt a ha))
  refine ⟨?_, ?_, ?_⟩
  · exact h.ordered.congr fun a ha => congrArg Timer.key (hsame a ha)
  · show (s.nextTimer :: s.timers).Pairwise fun a b =>
      ((s.setTimer s.nextTimer x).timer a).addr ≠ ((s.setTimer s.nextTimer x).timer b).addr
    refine List.pairwise_cons.mpr ⟨fun a ha => ?_, List.Pairwise.imp_of_mem ?_ h.addrs⟩
    · rw [setTimer_timer_self, hsame a ha]
      exact (haddr a ha).symm
    · intro a b ha hb hne
      rwa [hsame a ha, hsame b hb]
  · intro a
    show a ∈ s.nextTimer :: s.timers ↔ a < s.nextTimer + 1 ∧ ((s.setTimer s.nextTimer x).timer a).cb ≠ none
    by_cases ha : a = s.nextTimer
    · rw [ha, setTimer_timer_self]
      exact ⟨fun _ => ⟨Nat.lt_succ_self _, hcb⟩, fun _ => List.mem_cons_self ..⟩
    · rw [List.mem_cons, or_iff_right ha, setTimer_timer_of_ne s x ha]
      have hpending := h.pending a
      rw [List.nil_append] at hpending
      rw [hpending]
      constructor
      · rintro ⟨hlt, hcb⟩
        exact ⟨Nat.lt_succ_of_lt hlt, hcb⟩
      · rintro ⟨hlt, hcb⟩
        exact ⟨by omega, hcb⟩

/-- `addTimer` puts the timer in hand into the set. -/
theorem Holds.addTimer (h : Holds s (t :: hand)) : Holds (s.addTimer t) hand where
  ordered := h.inOrder.addTimer.ordered
  addrs := h.inOrder.addTimer.addrs
  pending a := by
    have hperm : (hand ++ (s.addTimer t).timers).Perm (t :: hand ++ s.timers) :=
      (h.inOrder.addTimer_perm.append_left hand).trans List.perm_middle
    rw [hperm.mem_iff]
    exact h.pending a

/-- A timer in hand is put back with another deadline. -/
theorem Holds.rearm (h : Holds s (t :: hand)) {x : Timer} (haddr : x.addr = (s.timer t).addr)
    (hcb : x.cb = (s.timer t).cb) : Holds ((s.setTimer t x).addTimer t) hand :=
  (h.rekey haddr hcb).addTimer

/-- A pending timer is found. -/
theorem Holds.find (h : Holds s []) (ht : t ∈ s.timers) : setFind s.less s.timers t = some t :=
  h.ordered.find_mem (less_eq s) ht

/-! ## Operations -/

/-- A timer with a callback is in the set. -/
theorem Holds.mem_timers (h : Holds s []) (hmade : t < s.nextTimer) (hcb : (s.timer t).cb ≠ none) :
    t ∈ s.timers := (h.pending t).mpr ⟨hmade, hcb⟩

/-- A timer without one is not. -/
theorem Holds.not_pending (h : Holds s []) (hcb : (s.timer t).cb = none) : t ∉ s.timers :=
  fun ht => ((h.pending t).mp ht).2 hcb

/-- A timer is found by the key by which it has been put into the set. -/
theorem Holds.find_setTimer (h : Holds s []) (ht : t ∈ s.timers) {x : Timer}
    (hkey : x.key = (s.timer t).key) :
    setFind (s.setTimer t x).less (s.setTimer t x).timers t = some t := by
  have hsame : ∀ a ∈ s.timers, (s.setTimer t x).key a = s.key a := by
    intro a _
    by_cases ha : a = t
    · rw [ha]
      exact (congrArg Timer.key (setTimer_timer_self s t x)).trans hkey
    · exact setTimer_key_of_ne s x ha
  exact (h.ordered.congr hsame).find_mem (less_eq _) ht

/-- Nobody but the timer that is cancelled loses its callback. -/
theorem Holds.cancel (h : Holds s []) (hmade : t < s.nextTimer) :
    (s.timer t).cb = none ∧ s.cancel t = (none, s) ∨
      t ∈ s.timers ∧ s.cancel t = (some true,
        { s with timers := s.timers.erase t }.setTimer t { s.timer t with cb := none }) := by
  unfold State.cancel
  split
  case h_1 hcb => exact Or.inl ⟨hcb, rfl⟩
  case h_2 cb hcb =>
    right
    have ht : t ∈ s.timers := h.mem_timers hmade (by rw [hcb]; nofun)
    refine ⟨ht, ?_⟩
    have hfind := h.find_setTimer ht (x := { s.timer t with cb := none }) rfl
    dsimp only at hfind ⊢
    rw [hfind]
    rfl

/-- `refresh` refuses a timer without callback, and otherwise moves it to its new time. -/
theorem Holds.refresh (h : Holds s []) (hmade : t < s.nextTimer) (now : UInt64) :
    (s.timer t).cb = none ∧ s.refresh t now = (false, s) ∨
      t ∈ s.timers ∧ s.refresh t now = (true, ({ s with timers := s.timers.erase t }.setTimer t
        { s.timer t with next := now + (s.timer t).ms }).addTimer t) := by
  unfold State.refresh
  cases hcb : (s.timer t).cb with
  | none => exact Or.inl ⟨rfl, rfl⟩
  | some cb =>
    have ht : t ∈ s.timers := h.mem_timers hmade (by rw [hcb]; nofun)
    rw [h.find ht]
    exact Or.inr ⟨ht, rfl⟩

/-- `reset` has nothing to do, refuses, or moves the timer. -/
theorem Holds.reset (h : Holds s []) (hmade : t < s.nextTimer) (ms : UInt64) (fromNow : Bool)
    (now : UInt64) :
    (ms = (s.timer t).ms ∧ fromNow = false) ∧ s.reset t ms fromNow now = (true, s) ∨
    ¬ (ms = (s.timer t).ms ∧ fromNow = false) ∧ (s.timer t).cb = none ∧
      s.reset t ms fromNow now = (false, s) ∨
      ¬ (ms = (s.timer t).ms ∧ fromNow = false) ∧ t ∈ s.timers ∧
        s.reset t ms fromNow now = (true, ({ s with timers := s.timers.erase t }.setTimer t { s.timer t with
          ms := ms
          next := (if fromNow then now else (s.timer t).next - (s.timer t).ms) + ms }).addTimer t) := by
  rw [← Bool.not_eq_true]
  unfold State.reset
  split
  case isTrue hsame => exact Or.inl ⟨hsame, rfl⟩
  case isFalse hnot =>
    right
    cases hcb : (s.timer t).cb with
    | none => exact Or.inl ⟨hnot, rfl, rfl⟩
    | some cb =>
      have ht : t ∈ s.timers := h.mem_timers hmade (by rw [hcb]; nofun)
      rw [h.find ht]
      exact Or.inr ⟨hnot, ht, rfl⟩

/-- Collecting clears the callback or puts the timer back. -/
theorem Holds.collect (h : Holds s (t :: hand)) (now : UInt64) : Holds (s.collect now t) hand := by
  unfold State.collect
  split
  · exact h.rearm rfl rfl
  · exact h.clear rfl

/-- The same, for all that have expired. -/
theorem Holds.collectAll (h : Holds s hand) (now : UInt64) :
    Holds (State.collectAll now hand s).2 [] := by
  induction hand generalizing s with
  | nil => exact h
  | cons t ts ih => exact ih (h.collect now)

/-- Taking the prefix out of the set has it in hand. -/
theorem Holds.takeExpired (h : Holds s []) (now : UInt64) (probe : ℕ) :
    Holds { s with timers := s.timers.drop (s.expired now probe).length } (s.expired now probe) := by
  apply h.perm (h.inOrder.takeExpired now probe).ordered
  rw [List.prefix_iff_eq_append.mp (expired_isPrefix s now probe)]
  rfl

/-- The whole function keeps the invariant. -/
theorem Holds.listExpiredCb (h : Holds s []) (now : UInt64) (probe : ℕ) :
    Holds (s.listExpiredCb now probe).2 [] := by
  unfold State.listExpiredCb
  split
  · exact h
  · exact (h.takeExpired now probe).collectAll now

end Holds

/-! ## Runs -/

/-- The operation finds nothing to do. -/
def Op.Idle (s : State) : Op → Prop
  | .cancel t | .refresh t _ => (s.timer t).cb = none
  | .reset t ms fromNow _ => (ms = (s.timer t).ms ∧ fromNow = false) ∨ (s.timer t).cb = none
  | _ => False

/-- What an operation does. -/
inductive Effect (s : State) : Op → State → Prop
  | addTimer {ms : UInt64} {cb : ℕ} {recurring : Bool} {now : UInt64} {addr : ℕ}
    (haddr : ∀ t ∈ s.timers, (s.timer t).addr ≠ addr) :
    Effect s (.addTimer ms cb recurring now addr) (s.newTimer ms cb recurring now addr)
  | idle {op : Op} (hidle : op.Idle s) : Effect s op s
  | cancel {t : ℕ} (ht : t ∈ s.timers) : Effect s (.cancel t)
    ({ s with timers := s.timers.erase t }.setTimer t { s.timer t with cb := none })
  | refresh {t : ℕ} {now : UInt64} (ht : t ∈ s.timers) : Effect s (.refresh t now)
    (({ s with timers := s.timers.erase t }.setTimer t
      { s.timer t with next := now + (s.timer t).ms }).addTimer t)
  | reset {t : ℕ} {ms : UInt64} {fromNow : Bool} {now : UInt64} (ht : t ∈ s.timers)
    (hnew : ¬ (ms = (s.timer t).ms ∧ fromNow = false)) : Effect s (.reset t ms fromNow now)
    (({ s with timers := s.timers.erase t }.setTimer t { s.timer t with
      ms := ms
      next := (if fromNow then now else (s.timer t).next - (s.timer t).ms) + ms }).addTimer t)
  | listExpiredCb {now : UInt64} {probe : ℕ} : Effect s (.listExpiredCb now probe)
    { (s.listExpiredCb now probe).2 with
      collected := (s.listExpiredCb now probe).2.collected ++ [(s.listExpiredCb now probe).1] }
  | getNextTimer {now : UInt64} : Effect s (.getNextTimer now) { s with told := false }

/-- No timer that an operation looks for is missing. -/
theorem Holds.effect {s s' : State} {op : Op} (h : Holds s []) (hs : step s op = some s') :
    Effect s op s' := by
  cases op with
  | addTimer ms cb recurring now addr =>
    obtain ⟨haddr, ⟨⟩⟩ := Option.ite_none_right_eq_some.mp hs
    exact .addTimer haddr
  | cancel t =>
    obtain ⟨hmade, ⟨⟩⟩ := Option.ite_none_right_eq_some.mp hs
    rcases h.cancel hmade with ⟨hcb, heq⟩ | ⟨ht, heq⟩
    · rw [heq]
      exact .idle hcb
    · rw [heq]
      exact .cancel ht
  | refresh t now =>
    obtain ⟨hmade, ⟨⟩⟩ := Option.ite_none_right_eq_some.mp hs
    rcases h.refresh hmade now with ⟨hcb, heq⟩ | ⟨ht, heq⟩
    · rw [heq]
      exact .idle hcb
    · rw [heq]
      exact .refresh ht
  | reset t ms fromNow now =>
    obtain ⟨hmade, ⟨⟩⟩ := Option.ite_none_right_eq_some.mp hs
    rcases h.reset hmade ms fromNow now with ⟨hsame, heq⟩ | ⟨-, hcb, heq⟩ | ⟨hnew, ht, heq⟩
    · rw [heq]
      exact .idle (Or.inl hsame)
    · rw [heq]
      exact .idle (Or.inr hcb)
    · rw [heq]
      exact .reset ht hnew
  | listExpiredCb now probe =>
    obtain rfl := Option.some.inj hs
    exact .listExpiredCb
  | getNextTimer now =>
    obtain rfl := Option.some.inj hs
    exact .getNextTimer

/-- Each operation keeps it. -/
theorem Holds.step {s s' : State} {op : Op} (h : Holds s []) (hs : step s op = some s') :
    Holds s' [] := by
  cases h.effect hs with
  | addTimer haddr => exact (h.new haddr (Option.some_ne_none _)).addTimer
  | idle => exact h
  | cancel ht => exact (h.take ht).clear rfl
  | refresh ht => exact (h.take ht).rearm rfl rfl
  | reset ht => exact (h.take ht).rearm rfl rfl
  | @listExpiredCb now probe =>
    have hexpired := h.listExpiredCb now probe
    exact ⟨hexpired.ordered, hexpired.addrs, hexpired.pending⟩
  | getNextTimer => exact ⟨h.ordered, h.addrs, h.pending⟩

/-- It holds after every run. -/
theorem Holds.run {s : State} (h : Run Time.step anyStep Time.init s) : Holds s [] :=
  h.invariant (I := fun s => Holds s []) Holds.init fun _ _ _ hi _ hs => hi.step hs

/-- What is to be known of `m_timers`: the order, who is in it, and that it is searched in vain for
no timer that has a callback. -/
structure Ordered (s : State) : Prop where
  nodup : s.timers.Nodup
  strict : s.timers.Pairwise fun a b => (s.timer a).less (s.timer b)
  pending : ∀ t < s.nextTimer, t ∈ s.timers ↔ (s.timer t).cb ≠ none
  made : ∀ t ∈ s.timers, t < s.nextTimer
  found : ∀ t < s.nextTimer, (s.timer t).cb ≠ none → setFind s.less s.timers t = some t
  cancelled : ∀ t < s.nextTimer, (s.cancel t).1 ≠ some false
  refreshed : ∀ t < s.nextTimer, ∀ now, (s.refresh t now).1 = false → (s.timer t).cb = none
  reset : ∀ t < s.nextTimer, ∀ ms fromNow now, (s.reset t ms fromNow now).1 = false →
    (s.timer t).cb = none

/-- **The set of timers**: in every run, whatever the clock says and wherever timers are put,
`m_timers` is in strict order and holds the timers with a callback, each once, and no operation
looks for one that is not found. -/
theorem timers_ordered (s : State) (h : Run step anyStep init s) : Ordered s := by
  have hi := Holds.run h
  refine ⟨hi.nodup, ?_, ?_, ?_, ?_, ?_, ?_, ?_⟩
  · refine List.Pairwise.imp ?_ hi.ordered
    intro a b hlt
    rw [Timer.less_eq]
    exact decide_eq_true hlt
  · intro t hmade
    have hpending := hi.pending t
    rw [List.nil_append] at hpending
    rw [hpending]
    exact and_iff_right hmade
  · exact fun t ht => ((hi.pending t).mp ht).1
  · exact fun t hmade hcb => hi.find (hi.mem_timers hmade hcb)
  · intro t hmade
    rcases hi.cancel hmade with ⟨-, heq⟩ | ⟨-, heq⟩
    · rw [heq]
      nofun
    · rw [heq]
      nofun
  · intro t hmade now hfalse
    rcases hi.refresh hmade now with ⟨hcb, -⟩ | ⟨-, heq⟩
    · exact hcb
    · rw [heq] at hfalse
      cases hfalse
  · intro t hmade ms fromNow now hfalse
    rcases hi.reset hmade ms fromNow now with ⟨-, heq⟩ | ⟨-, hcb, -⟩ | ⟨-, -, heq⟩
    · rw [heq] at hfalse
      cases hfalse
    · exact hcb
    · rw [heq] at hfalse
      cases hfalse

/-- Two timers with one deadline, of which the later one has the smaller address. -/
theorem timers_ordered_witness : ∃ s, Ordered s ∧ s.timers = [1, 0] := by
  have hrun : Run step anyStep init _ :=
    ((Run.refl.tail (a := .addTimer 5 7 false 10 200) trivial rfl).tail
      (a := .addTimer 3 8 true 12 100) trivial rfl).tail (a := .refresh 0 10) trivial rfl
  exact ⟨_, timers_ordered _ hrun, rfl⟩

end CoKV.Time
