import CoKV.IOManager.Contexts
import CoKV.Lib.Run

/-!
# An `addEvent` that `epoll_ctl` refuses

`addEvent` writes the events and the slot before it calls `epoll_ctl`, and returns -1 without taking
them back. `refused_not_undone`: whoever was to wait is left in the slot, so that the same call
fails an assertion the next time, and `cancelAll` hands the waiter over.
-/

namespace CoKV.IOManager

variable {s s' t u : State} {c fd : ℕ} {ev : Event} {cb : Option ℕ} {self : ℕ}
  {scheduler : Option ℕ} {success : Bool}

/-! ## The same context again -/

/-- A table that has the size already. -/
theorem resized_of_length {size : ℕ} (h : s.fdContexts.length = size) : s.resized size = s := by
  unfold State.resized
  rw [h, Nat.sub_self, ← h, List.take_length]
  simp

/-- The next lookup finds the same context, whatever has been done to the contexts. -/
theorem lookup_again (h : s.lookup fd = .ok (c, t)) (htable : u.fdContexts = t.fdContexts)
    (hnext : u.nextCtx = t.nextCtx) : u.lookup fd = .ok (c, u) := by
  obtain ⟨hc, hs⟩ := State.lookup_ok h
  rw [← htable] at hc
  unfold State.lookup State.readSection
  by_cases hlt : (fd : ℤ) < u.intSize
  · rw [if_pos hlt, hc]
    rfl
  · rw [if_neg hlt]
    rcases hs with ⟨hsize, rfl⟩ | ⟨-, rfl, hbound⟩
    · -- the table has not been resized, so it is long enough
      exfalso
      apply hlt
      unfold State.intSize at hsize ⊢
      rwa [htable]
    · have hlen : u.fdContexts.length = 3 * fd / 2 := by rw [htable, resized_length]
      have hsame : u.resized (3 * fd / 2) = u := resized_of_length hlen
      show u.writeSection fd = _
      unfold State.writeSection State.contextResize
      rw [hsame, hnext, if_pos hbound, ok_bind, hc]

/-! ## Who is left behind -/

/-- Who waits behind an `addEvent`. -/
def newWaiter (c : ℕ) (ev : Event) (cb : Option ℕ) (self : ℕ) (scheduler : Option ℕ) : Waiter :=
  ⟨c, ev, scheduler, match cb with | some f => .cb f | none => .co self⟩

theorem waiter_waiting : (EventContext.waiting cb self scheduler).waiter c ev
    = some (newWaiter c ev cb self scheduler) := by
  cases cb <;> rfl

theorem waiting_ne_empty : EventContext.waiting cb self scheduler ≠ .empty := by
  intro h
  have hwaiter : some (newWaiter 0 .none cb self scheduler) = none := by
    rw [← waiter_waiting, h]
    rfl
  cases hwaiter

/-- What an `addEvent` has left when `epoll_ctl` has refused it. -/
structure Refused (s s' : State) (c : ℕ) (ev : Event) (e : EventContext) : Prop where
  fdContexts : s'.fdContexts = s.fdContexts
  nextCtx : s'.nextCtx = s.nextCtx
  events : (s'.ctx c).events = (s.ctx c).events.insert ev
  slot : (s'.ctx c).getEventContext ev = e
  empty : (s.ctx c).getEventContext ev = .empty

theorem addEvent_refused (h : s.addEvent c fd ev cb self scheduler success = .ok (-1, s')) :
    Refused s s' c ev (.waiting cb self scheduler) := by
  obtain ⟨-, hempty, op, -, rfl⟩ := State.addEvent_ok h
  refine ⟨?_, ?_, ?_, ?_, hempty⟩
  · show (s.epollCtl _ _ _ _ _).fdContexts = _
    exact State.epollCtl_fdContexts ..
  · show (s.epollCtl _ _ _ _ _).nextCtx = _
    exact State.epollCtl_nextCtx ..
  · show ((State.setCtx _ c _).ctx c).events = _
    rw [State.setCtx_ctx_self, FdContext.events_add]
  · show ((State.setCtx _ c _).ctx c).getEventContext ev = _
    rw [State.setCtx_ctx_self]
    exact FdContext.getEventContext_set_self

/-- The next `addEvent` for the event finds the slot taken. -/
theorem addEvent_assertion (h : (s.ctx c).getEventContext ev ≠ .empty) :
    s.addEvent c fd ev cb self scheduler success = .error .assertion := by
  unfold State.addEvent
  dsimp only
  by_cases hhas : (s.ctx c).events.has ev = true
  · rw [if_pos hhas]
  · rw [if_neg hhas, if_pos h]

/-! ## `cancelAll` -/

theorem cancelAll_hands {r : Bool} {w : Waiter} (h : s.cancelAll c fd success = .ok (r, s'))
    (hhas : (s.ctx c).events.has ev = true)
    (hw : ((s.ctx c).getEventContext ev).waiter c ev = some w) :
    s.handed.count w < s'.handed.count w := by
  have hev : ev ≠ .none := Events.ne_none_of_has hhas
  rcases State.cancelAll_ok h with ⟨hnone, -⟩ | ⟨-, t, hread, hwrite⟩
  · rw [hnone] at hhas
    cases ev <;> cases hhas
  · have hfirst := fireIf_handed hread
    have hsecond := fireIf_handed hwrite
    rw [State.epollCtl_ctx, State.epollCtl_handed] at hfirst
    have hone : [w].count w = 1 := List.count_singleton_self
    cases ev with
    | none => exact absurd rfl hev
    | read =>
      rw [if_pos hhas, hw, Option.toList_some] at hfirst
      rw [hsecond, hfirst, List.count_append, List.count_append, hone]
      omega
    | write =>
      -- the reader goes first, and leaves the writer alone
      have hne : Event.write ≠ .read := by decide
      obtain ⟨hslot, hbit⟩ := fireIf_slot hread (by decide) (by decide) hne
      rw [State.epollCtl_ctx] at hslot hbit
      rw [hbit, if_pos hhas, hslot, hw, Option.toList_some] at hsecond
      rw [hsecond, hfirst, List.count_append, List.count_append, hone]
      omega

/-! ## Nothing is undone -/

/-- A step that adds nobody. -/
def AddsNobody : Label → Prop
  | .call (.addEvent ..) _ => False
  | _ => True

/-- A failed `addEvent` that has taken back what it did: context `c`, the one of `fd`, and the
counter are as before, `w` is not scheduled by anything that comes before the next `addEvent`, and
that finds its assertions true. -/
structure Undone (s s' : State) (c fd : ℕ) (ev : Event) (w : Waiter) : Prop where
  events : (s'.ctx c).events = (s.ctx c).events
  read : (s'.ctx c).read = (s.ctx c).read
  write : (s'.ctx c).write = (s.ctx c).write
  pendingEventCount : s'.pendingEventCount = s.pendingEventCount
  unscheduled : ∀ u, Run step (fun _ l => AddsNobody l) s' u → u.handed.count w = s.handed.count w
  again : ∀ cb self scheduler success,
    s'.call (.addEvent fd ev cb self scheduler) success ≠ .error .assertion

theorem Refused.not_undone {w : Waiter} (h : Refused t s' c ev (.waiting cb self scheduler))
    (hctx : t.ctx = s.ctx) : ¬ Undone s s' c fd ev w := by
  intro hundone
  have hslot : (s'.ctx c).getEventContext ev = (t.ctx c).getEventContext ev := by
    rw [hctx]
    unfold FdContext.getEventContext
    rw [hundone.read, hundone.write]
  rw [h.slot, h.empty] at hslot
  exact waiting_ne_empty hslot

/-- **A refused `addEvent`** is never undone: the waiter is in the slot, `addEvent` for the same
event fails its assertion from then on, and `cancelAll` schedules the waiter. -/
theorem refused_not_undone (hlookup : s.lookup fd = .ok (c, t))
    (hadd : t.addEvent c fd ev cb self scheduler success = .ok (-1, s')) :
    ¬ Undone s s' c fd ev (newWaiter c ev cb self scheduler) ∧
    (s'.ctx c).getEventContext ev = .waiting cb self scheduler ∧
    (∀ cb self scheduler success,
      s'.call (.addEvent fd ev cb self scheduler) success = .error .assertion) ∧
    (ev ≠ .none → (s'.ctx c).events.has ev = true ∧
      ∀ success u, s'.call (.cancelAll fd) success = .ok u →
        s'.handed.count (newWaiter c ev cb self scheduler)
          < u.handed.count (newWaiter c ev cb self scheduler)) := by
  have hr : Refused t s' c ev (.waiting cb self scheduler) := addEvent_refused hadd
  have hagain : s'.lookup fd = .ok (c, s') := lookup_again hlookup hr.fdContexts hr.nextCtx
  have htaken : (s'.ctx c).getEventContext ev ≠ .empty := by
    rw [hr.slot]
    exact waiting_ne_empty
  refine ⟨hr.not_undone (State.lookup_table hlookup).ctx, hr.slot, ?_, ?_⟩
  · intro cb' self' scheduler' success'
    unfold State.call
    show (s'.lookup fd >>= _) = _
    rw [hagain, ok_bind]
    show (·.2) <$> s'.addEvent c fd ev cb' self' scheduler' success' = _
    rw [addEvent_assertion htaken]
    rfl
  · intro hev
    have hhas : (s'.ctx c).events.has ev = true := by
      rw [hr.events]
      exact Events.has_insert_self hev
    refine ⟨hhas, ?_⟩
    intro success' u hu
    obtain ⟨d, v, hlookup', hact⟩ := State.call_ok hu
    cases hlookup'.symm.trans hagain
    obtain ⟨⟨r, u'⟩, hcancel, rfl⟩ := ok_of_map hact
    apply cancelAll_hands hcancel hhas
    rw [hr.slot]
    exact waiter_waiting

/-- A coroutine is refused on descriptor 5. -/
theorem refused_not_undone_witness : ∃ s', init.addEvent 5 5 .read none 1 (some 0) false = .ok (-1, s') ∧
    ¬ Undone init s' 5 5 .read ⟨5, .read, some 0, .co 1⟩ := by
  have hlookup : init.lookup 5 = .ok (5, init) := rfl
  have hadd : init.addEvent 5 5 .read none 1 (some 0) false = .ok (-1, _) := rfl
  exact ⟨_, hadd, (refused_not_undone hlookup hadd).1⟩

/-- **A refused waiter is scheduled**: the call has returned -1, and `cancelAll` hands the coroutine
over. -/
theorem refused_scheduled : ¬ ∀ s, Run step anyStep init s →
    ∀ fd ev cb self scheduler c t s', s.lookup fd = .ok (c, t) →
      t.addEvent c fd ev cb self scheduler false = .ok (-1, s') →
      Undone s s' c fd ev (newWaiter c ev cb self scheduler) := by
  intro h
  have hadd : init.addEvent 5 5 .read none 1 (some 0) false = .ok (-1, _) := rfl
  have hundone := h init .refl 5 .read none 1 (some 0) 5 init _ rfl hadd
  have hcount := hundone.unscheduled _
    (Run.refl.tail (a := .call (.cancelAll 5) false) trivial rfl)
  exact absurd hcount (by decide)

end CoKV.IOManager
