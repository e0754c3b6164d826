import CoKV.IOManager.Contexts
import CoKV.Lib.Run
import Mathlib.Algebra.Order.BigOperators.Group.List
import Mathlib.Algebra.Order.Ring.Nat

/-!
# The number of pending events

`pending_counts`: as long as the `epoll_ctl` of every `addEvent` succeeds, `m_pendingEventCount` is
the number of bits set in all contexts. When it fails, `addEvent` returns `-1` and leaves the bit
and the waiter behind, without having counted them: the event that fires or is cancelled later
takes one off the counter that was never put there, and the counter wraps.
-/

namespace CoKV.IOManager

/-- The number of `READ` and `WRITE` bits that are set. -/
def State.total (s : State) : ℕ := s.over fun _ x => x.events.count

/-- The counter is right, so that `stopping` does not wait for events that are gone. -/
structure Counted (s : State) : Prop where
  pending : s.pendingEventCount.toNat = s.total
  stopping : s.total = 0 → ∀ schedulerStopping, s.stopping schedulerStopping = schedulerStopping

/-- The step is not an `addEvent` whose `epoll_ctl` fails; and `READ` or `WRITE` is added or
cancelled, not `NONE`. -/
def Countable : State → Label → Prop
  | _, .call (.addEvent _ ev ..) success => success = true ∧ ev ≠ .none
  | _, .call (.cancelEvent _ ev) _ => ev ≠ .none
  | _, _ => True

/-! ## The invariant -/

/-- Only slots of events that are set have a scheduler. -/
def Armed (b : Bool) (e : EventContext) : Prop := e.scheduler ≠ none → b = true

structure Counting (s : State) : Prop where
  heap : Heap s
  armed : ∀ c, (s.ctx c).Slots Armed
  count : s.pendingEventCount.toNat = s.total

theorem armed_empty : Armed false .empty := fun h => absurd rfl h

/-- What `trigerEvent` leaves is not armed. -/
theorem armed_taken (e : EventContext) : Armed false e.taken := by
  intro h
  exfalso
  apply h
  unfold EventContext.taken
  split <;> rfl

/-- No context counts for more than two events. -/
theorem total_le (s : State) : s.total ≤ 2 * s.nextCtx := by
  have hle : ∀ n ∈ (List.range s.nextCtx).map fun c => (s.ctx c).events.count, n ≤ 2 := by
    intro n hn
    obtain ⟨c, -, rfl⟩ := List.mem_map.mp hn
    exact Events.count_le _
  have hsum := List.sum_le_card_nsmul _ 2 hle
  rw [List.length_map, List.length_range] at hsum
  have hmul : s.nextCtx • 2 = 2 * s.nextCtx := Nat.mul_comm ..
  exact Nat.le_trans hsum (Nat.le_of_eq hmul)

section Steps

variable {s s' : State} {c fd : ℕ} {ev : Event} {success : Bool}

/-- At first nothing is counted and nothing registered. -/
theorem Counting.init : Counting IOManager.init where
  heap := Heap.init
  armed _ := FdContext.Slots.new armed_empty
  count := by rfl

/-- New contexts count for nothing. -/
theorem Counting.lookup (hi : Counting s) (h : s.lookup fd = .ok (c, s')) :
    Counting s' ∧ c < s'.nextCtx := by
  refine ⟨State.lookup_invariant h hi fun size hbound => ?_, (hi.heap.lookup h).2⟩
  refine ⟨hi.heap.resized hbound, hi.armed, ?_⟩
  -- new objects have no bit set
  show s.pendingEventCount.toNat = (s.resized _).over _
  rw [over_resized hi.heap (fun _ => rfl)]
  exact hi.count

/-- `epoll_ctl` does not count. -/
theorem Counting.epollCtl (hi : Counting s) {op : CtlOp} {mask : BitVec 32} (hc : c < s.nextCtx) :
    Counting (s.epollCtl op fd mask c success) where
  heap := hi.heap.epollCtl hc
  armed := by
    rw [State.epollCtl_ctx]
    exact hi.armed
  count := by
    unfold State.total
    rw [State.epollCtl_pendingEventCount, over_congr (State.epollCtl_ctx ..) (State.epollCtl_nextCtx ..)]
    exact hi.count

/-- A context is written, and the counter follows its bits. -/
theorem Counting.setCtx (hi : Counting s) (hc : c < s.nextCtx) {x : FdContext}
    (harmed : x.Slots Armed) (hctx : s'.ctx = (s.setCtx c x).ctx) (hnext : s'.nextCtx = s.nextCtx)
    (htable : s'.fdContexts = s.fdContexts) (hepfd : s'.epfd = s.epfd)
    (hcount : s'.pendingEventCount.toNat + (s.ctx c).events.count
      = s.pendingEventCount.toNat + x.events.count) : Counting s' where
  heap := hi.heap.write hc hctx hnext htable hepfd
  armed d := by
    rw [hctx]
    exact FdContext.Slots.setCtx hi.armed harmed d
  count := by
    have htotal : (s.ctx c).events.count + (s.setCtx c x).total = x.events.count + s.total :=
      over_setCtx hc (Nat.add_comm ..)
    have hsame : s'.total = (s.setCtx c x).total := over_congr hctx hnext
    have hold := hi.count
    omega

/-- The counter does not overflow. -/
theorem Counting.toNat_succ (hi : Counting s) :
    (s.pendingEventCount + 1).toNat = s.pendingEventCount.toNat + 1 := by
  have hle := total_le s
  have hbound := hi.heap.bound
  have hcount := hi.count
  unfold maxContexts at hbound
  rw [BitVec.toNat_add]
  apply Nat.mod_eq_of_lt
  show s.pendingEventCount.toNat + 1 < 2 ^ 64
  omega

/-- The counter does not wrap below zero while a bit is set. -/
theorem Counting.toNat_pred (hi : Counting s) (hc : c < s.nextCtx)
    (h : (s.ctx c).events.has ev = true) :
    (s.pendingEventCount - 1).toNat + 1 = s.pendingEventCount.toNat := by
  have hpos : 0 < s.total := by
    have hsum : (s.ctx c).events.count + (s.setCtx c .new).total = 0 + s.total :=
      over_setCtx hc (Nat.add_comm ..)
    have hcount := Events.count_erase h
    omega
  have hcount := hi.count
  bv_omega

/-- `trigerEvent` clears one bit and counts it down. -/
theorem Counting.fire (hi : Counting s) (hc : c < s.nextCtx) (hev : ev ≠ .none)
    (h : s.fire c ev = .ok s') : Counting s' := by
  obtain ⟨hsched, rfl⟩ := State.fire_ok h
  have hhas : (s.ctx c).events.has ev = true := hi.armed c ev hev hsched
  refine hi.setCtx hc ((hi.armed c).triger hev (armed_taken _)) rfl rfl rfl rfl ?_
  have hpred := hi.toNat_pred hc hhas
  have hcount := Events.count_erase hhas
  show (s.pendingEventCount - 1).toNat + _ = _
  rw [FdContext.events_triger]
  omega

/-- So the sections that trigger several events count them all. -/
theorem Counting.keptByFire : KeptByFire Counting where
  epollCtl hi hc := hi.epollCtl hc
  fire hi hc hev h := hi.fire hc hev h

/-- An `addEvent` that succeeds sets one bit and counts it up. -/
theorem Counting.addEvent (hi : Counting s) (hc : c < s.nextCtx) (hev : ev ≠ .none)
    {cb : Option ℕ} {self : ℕ} {scheduler : Option ℕ} {r : ℤ}
    (h : s.addEvent c fd ev cb self scheduler true = .ok (r, s')) : Counting s' := by
  obtain ⟨hhas, -, op, -, rfl⟩ := State.addEvent_ok h
  have hctl : Counting (s.epollCtl op fd (EPOLLET ||| ((s.ctx c).events.insert ev).bits) c true) :=
    hi.epollCtl hc
  refine hctl.setCtx (by rwa [State.epollCtl_nextCtx]) ((hi.armed c).add hev
    (fun _ => rfl) fd) rfl rfl rfl rfl ?_
  have hsucc := hi.toNat_succ
  have hcount := Events.count_insert hev hhas
  show (s.pendingEventCount + 1).toNat + _ = _
  rw [State.epollCtl_ctx, State.epollCtl_pendingEventCount, FdContext.events_add]
  omega

/-- `delEvent` clears one bit and counts it down. -/
theorem Counting.delEvent (hi : Counting s) (hc : c < s.nextCtx) {r : Bool}
    (h : s.delEvent c fd ev success = .ok (r, s')) : Counting s' := by
  rcases State.delEvent_ok h with ⟨-, rfl⟩ | ⟨hhas, rfl⟩
  · exact hi
  · have hctl : Counting (s.epollCtl (if (s.ctx c).events.erase ev ≠ .none then .mod else .del) fd
        ((s.ctx c).events.erase ev).bits c success) := hi.epollCtl hc
    refine hctl.setCtx (by rwa [State.epollCtl_nextCtx])
      ((hi.armed c).del (Events.ne_none_of_has hhas) armed_empty) rfl rfl rfl rfl ?_
    have hpred := hi.toNat_pred hc hhas
    have hcount := Events.count_erase hhas
    show (s.pendingEventCount - 1).toNat + _ = _
    rw [State.epollCtl_ctx, State.epollCtl_pendingEventCount, FdContext.events_del]
    omega

/-- An operation. -/
theorem Counting.act (hi : Counting s) (hc : c < s.nextCtx) {op : Op}
    (hok : Countable s (.call op success)) (h : s.act c success op = .ok s') : Counting s' := by
  cases op with
  | addEvent fd ev cb self scheduler =>
    obtain ⟨⟨r, t⟩, hadd, rfl⟩ := ok_of_map h
    rw [hok.1] at hadd
    exact hi.addEvent hc hok.2 hadd
  | delEvent fd ev =>
    obtain ⟨⟨r, t⟩, hdel, rfl⟩ := ok_of_map h
    exact hi.delEvent hc hdel
  | cancelEvent fd ev =>
    obtain ⟨⟨r, t⟩, hcancel, rfl⟩ := ok_of_map h
    exact keptByFire.cancelEvent hi hc hok hcancel
  | cancelAll fd =>
    obtain ⟨⟨r, t⟩, hcancel, rfl⟩ := ok_of_map h
    exact keptByFire.cancelAll hi hc hcancel

/-- Every step whose `addEvent` succeeds keeps the count. -/
theorem Counting.step {l : Label} (hi : Counting s) (hok : Countable s l)
    (h : step s l = some s') : Counting s' := by
  rcases step_ok h with ⟨op, success, c, t, rfl, hlookup, hact⟩ | ⟨reports, rfl, hreports, hidle⟩
  · obtain ⟨ht, hc⟩ := hi.lookup hlookup
    apply ht.act hc _ hact
    cases op <;> exact hok
  · exact keptByFire.idle hi (hi.heap.reported hreports) hidle

/-- The invariant includes the equality. -/
theorem Counting.counted (hi : Counting s) : Counted s where
  pending := hi.count
  stopping hzero b := by
    have hpending : s.pendingEventCount = 0 := by
      have hcount := hi.count
      rw [hzero] at hcount
      exact BitVec.eq_of_toNat_eq hcount
    unfold State.stopping
    rw [hpending]
    exact Bool.and_true b

/-- An `addEvent` whose `epoll_ctl` fails leaves a bit that is not counted. -/
theorem Counting.not_counted (hi : Counting s) {cb : Option ℕ} {self : ℕ} {scheduler : Option ℕ}
    (hev : ev ≠ .none)
    (h : IOManager.step s (.call (.addEvent fd ev cb self scheduler) false) = some s') :
    ¬ Counted s' := by
  intro hcounted
  obtain ⟨c, t, hlookup, hact⟩ := State.call_ok (ok_of_toOption h)
  obtain ⟨ht, hc⟩ := hi.lookup hlookup
  obtain ⟨⟨r, u⟩, hadd, rfl⟩ := ok_of_map hact
  obtain ⟨hhas, -, op, -, rfl⟩ := State.addEvent_ok hadd
  have htotal : 0 + (t.setCtx c ((t.ctx c).add fd ev (.waiting cb self scheduler))).total
      = 1 + t.total := by
    apply over_setCtx hc
    rw [FdContext.events_add, Events.count_insert hev hhas]
    omega
  have hcount : t.pendingEventCount.toNat
      = (t.setCtx c ((t.ctx c).add fd ev (.waiting cb self scheduler))).total := hcounted.pending
  have hold := ht.count
  omega

end Steps

/-- **The counter**: in every run in which the `epoll_ctl` of each `addEvent` succeeds,
`m_pendingEventCount` is the number of bits set, whatever the other calls of `epoll_ctl` return,
and after an `addEvent` whose `epoll_ctl` fails it is not. -/
theorem pending_counts (s : State) (h : Run step Countable init s) :
    Counted s ∧ ∀ s' fd ev cb self scheduler, ev ≠ .none →
      step s (.call (.addEvent fd ev cb self scheduler) false) = some s' → ¬ Counted s' := by
  have hi : Counting s := h.invariant Counting.init fun _ _ _ hi hok hs => hi.step hok hs
  refine ⟨hi.counted, ?_⟩
  intro s' fd ev cb self scheduler hev hs
  exact hi.not_counted hev hs

/-- Two descriptors wait; one is cancelled while `epoll_ctl` fails. -/
theorem pending_counts_witness : ∃ s, Counted s ∧ s.total = 1 ∧ s.handed.length = 1 := by
  have hrun : Run step Countable init _ :=
    ((Run.refl.tail (a := .call (.addEvent 5 .read none 1 (some 0)) true)
      ⟨rfl, by decide⟩ rfl).tail (a := .call (.addEvent 40 .write (some 7) 2 (some 0)) true)
      ⟨rfl, by decide⟩ rfl).tail (a := .call (.cancelAll 5) false) trivial rfl
  exact ⟨_, (pending_counts _ hrun).1, rfl, rfl⟩

/-- The `epoll_ctl` of `addEvent` fails; then the descriptor is cancelled. -/
def refusedLabels : List Label :=
  [.call (.addEvent 5 .read none 1 (some 0)) false, .call (.cancelAll 5) false]

/-- An `addEvent` that is refused is not counted, and its event is counted down all the same. -/
theorem refused_state : (runLabels step init refusedLabels).map
    (fun s => (s.pendingEventCount, s.total)) = some (18446744073709551615#64, 0) := by
  rfl

/-- **The counter wraps**: no event is left, and `stopping` waits for ever. -/
theorem refused_not_counted : ¬ ∀ s, Run step anyStep init s → Counted s := by
  intro h
  obtain ⟨s, hs, hstate⟩ := Option.map_eq_some_iff.mp refused_state
  have hcounted := h s (Run.of_labels hs)
  have hpending : s.pendingEventCount = 18446744073709551615#64 := congrArg (·.1) hstate
  have htotal : s.total = 0 := congrArg (·.2) hstate
  have hcount := hcounted.pending
  rw [hpending, htotal] at hcount
  exact absurd hcount (by decide)

end CoKV.IOManager
