import CoKV.IOManager.Objects
import CoKV.Lib.Run
import Mathlib.Algebra.Order.Group.Multiset

/-!
# Where the waiters are

`waiters_kept`: when every `epoll_ctl` succeeds and `epoll_wait` reports what it should, the bit of
an event and its slot agree, and each waiter that `addEvent` has registered is in its slot, dropped
by a `delEvent`, or handed to its scheduler, and in one of these places only. No assertion fails
and no null scheduler is called, for the masks in the kernel and the events of the contexts agree.
-/

namespace CoKV.IOManager

/-! ## Waiters -/

/-- The waiters in the slots of a context. -/
def slotWaiters (c : ℕ) (x : FdContext) : Multiset Waiter :=
  (x.read.waiter c .read).toList + (x.write.waiter c .write).toList

/-- A bit and its slot: somebody waits, for a scheduler, with a callback or a coroutine; or the
slot is empty. -/
def Waits (b : Bool) (e : EventContext) : Prop :=
  if b then e.scheduler ≠ none ∧ e.cb.isSome ≠ e.co.isSome else e = .empty

/-- Bits and slots agree, and each waiter is in one place. -/
structure Kept (s : State) : Prop where
  set : ∀ c ev, ev ≠ .none → ((s.ctx c).events.has ev = true ↔
    ((s.ctx c).getEventContext ev).scheduler ≠ none ∧
      ((s.ctx c).getEventContext ev).cb.isSome ≠ ((s.ctx c).getEventContext ev).co.isSome)
  clear : ∀ c ev, ev ≠ .none → (s.ctx c).events.has ev = false →
    (s.ctx c).getEventContext ev = .empty
  conserved : (s.registered : Multiset Waiter) = s.over slotWaiters + s.dropped + s.handed

/-- What the program and the kernel keep to: `addEvent` is called on a scheduler's thread for an
event that is not registered, every `epoll_ctl` succeeds, and `epoll_wait` reports each descriptor
once, with events of its mask. `cancelEvent` is not called. -/
def Orderly (s : State) : Label → Prop
  | .call (.addEvent fd ev _ _ scheduler) success =>
    success = true ∧ scheduler ≠ none ∧ ev ≠ .none ∧ (s.eventsOf fd).has ev = false
  | .call (.delEvent ..) success => success = true
  | .call (.cancelEvent ..) _ => False
  | .call (.cancelAll _) success => success = true
  | .idle reports => (reports.map Report.fd).Nodup ∧ ∀ r ∈ reports, r.success = true ∧
    ∀ mask c, s.epfd r.fd = some (mask, c) →
      r.events &&& ~~~((mask &&& (EPOLLIN ||| EPOLLOUT)) ||| EPOLLERR ||| EPOLLHUP) = 0#32

/-! ## The invariant -/

structure Keeping (s : State) : Prop where
  heap : Heap s
  slots : ∀ c, (s.ctx c).Slots Waits
  conserved : (s.registered : Multiset Waiter) = s.over slotWaiters + s.dropped + s.handed

/-- The invariant includes what is to be kept. -/
theorem Keeping.kept {s : State} (hi : Keeping s) : Kept s where
  set c ev hev := by
    have hslot := hi.slots c ev hev
    unfold Waits at hslot
    constructor
    · intro hhas
      rwa [if_pos hhas] at hslot
    · intro hwaits
      by_contra hhas
      rw [if_neg hhas] at hslot
      rw [hslot] at hwaits
      exact hwaits.1 rfl
  clear c ev hev hhas := by
    have hslot := hi.slots c ev hev
    unfold Waits at hslot
    rwa [hhas] at hslot
  conserved := hi.conserved

/-- At first nobody waits. -/
theorem Keeping.init : Keeping IOManager.init where
  heap := Heap.init
  slots _ := FdContext.Slots.new rfl
  conserved := by rfl

/-- What is written to a slot takes the place of what was there. -/
theorem slotWaiters_set {x y : FdContext} {c : ℕ} {ev : Event} {e : EventContext}
    (hev : ev ≠ .none) (hread : y.read = x.read) (hwrite : y.write = x.write) :
    slotWaiters c (y.setEventContext ev e) + (((x.getEventContext ev).waiter c ev).toList : Multiset Waiter)
      = slotWaiters c x + ((e.waiter c ev).toList : Multiset Waiter) := by
  unfold slotWaiters
  cases ev with
  | none => exact absurd rfl hev
  | read =>
    show (_ : Multiset Waiter) + (y.write.waiter c .write).toList + (x.read.waiter c .read).toList = _
    rw [hwrite]
    show ((e.waiter c .read).toList : Multiset Waiter) + _ + _ = _
    ac_rfl
  | write =>
    show ((y.read.waiter c .read).toList : Multiset Waiter) + _ + (x.write.waiter c .write).toList = _
    rw [hread]
    show (_ : Multiset Waiter) + (e.waiter c .write).toList + _ = _
    ac_rfl

/-- A slot that is emptied gives up its waiter and no other. -/
theorem slotWaiters_clear {x y : FdContext} {c : ℕ} {ev : Event} (hev : ev ≠ .none)
    (hread : y.read = x.read) (hwrite : y.write = x.write) :
    slotWaiters c (y.setEventContext ev .empty)
        + (((x.getEventContext ev).waiter c ev).toList : Multiset Waiter)
      = slotWaiters c x :=
  (slotWaiters_set hev hread hwrite).trans (add_zero _)

section Steps

variable {s s' : State} {c fd : ℕ} {ev : Event} {success : Bool}

/-- A context is written, and its waiters are accounted for. -/
theorem Keeping.write (hi : Keeping s) (hc : c < s.nextCtx) {x : FdContext}
    (hslots : x.Slots Waits) (hctx : s'.ctx = (s.setCtx c x).ctx) (hnext : s'.nextCtx = s.nextCtx)
    (htable : s'.fdContexts = s.fdContexts) (hepfd : s'.epfd = s.epfd)
    (hmoved : (s'.registered : Multiset Waiter) + slotWaiters c (s.ctx c) + s.dropped + s.handed
      = s.registered + slotWaiters c x + s'.dropped + s'.handed) : Keeping s' where
  heap := hi.heap.write hc hctx hnext htable hepfd
  slots d := by
    rw [hctx]
    exact FdContext.Slots.setCtx hi.slots hslots d
  conserved := by
    have hover : slotWaiters c (s.ctx c) + (s.setCtx c x).over slotWaiters
        = slotWaiters c x + s.over slotWaiters := over_setCtx hc (add_comm ..)
    rw [over_congr hctx hnext]
    -- both sides with what the context and the records have held
    apply add_left_cancel (a := slotWaiters c (s.ctx c) + s.dropped + s.handed)
    calc slotWaiters c (s.ctx c) + s.dropped + s.handed + (s'.registered : Multiset Waiter)
        = s'.registered + slotWaiters c (s.ctx c) + s.dropped + s.handed := by ac_rfl
      _ = s.registered + slotWaiters c x + s'.dropped + s'.handed := hmoved
      _ = slotWaiters c x + s.over slotWaiters + s.dropped + s.handed + s'.dropped + s'.handed := by
          rw [hi.conserved]
          ac_rfl
      _ = slotWaiters c (s.ctx c) + s.dropped + s.handed
          + ((s.setCtx c x).over slotWaiters + s'.dropped + s'.handed) := by
          rw [← hover]
          ac_rfl

/-- `epoll_ctl` moves no waiter. -/
theorem Keeping.epollCtl (hi : Keeping s) {op : CtlOp} {mask : BitVec 32} (hc : c < s.nextCtx) :
    Keeping (s.epollCtl op fd mask c success) where
  heap := hi.heap.epollCtl hc
  slots := by
    rw [State.epollCtl_ctx]
    exact hi.slots
  conserved := by
    rw [over_congr (State.epollCtl_ctx ..) (State.epollCtl_nextCtx ..), State.epollCtl_registered,
      State.epollCtl_dropped, State.epollCtl_handed]
    exact hi.conserved

/-- A lookup makes empty contexts only. -/
theorem Keeping.lookup (hi : Keeping s) (h : s.lookup fd = .ok (c, s')) :
    Keeping s' ∧ c < s'.nextCtx := by
  refine ⟨State.lookup_invariant h hi fun size hbound => ?_, (hi.heap.lookup h).2⟩
  refine ⟨hi.heap.resized hbound, hi.slots, ?_⟩
  -- nobody waits in a new object
  rw [over_resized hi.heap (fun _ => rfl)]
  exact hi.conserved

/-- A waiter is handed over. -/
theorem Keeping.fire (hi : Keeping s) (hc : c < s.nextCtx) (hev : ev ≠ .none)
    (h : s.fire c ev = .ok s') : Keeping s' := by
  obtain ⟨hsched, rfl⟩ := State.fire_ok h
  -- whoever waits has a callback or a coroutine and not both, so that nothing is left behind
  have htaken : ((s.ctx c).getEventContext ev).taken = .empty := by
    have hslot := hi.slots c ev hev
    unfold Waits at hslot
    split at hslot
    case isTrue =>
      obtain ⟨-, hone⟩ := hslot
      unfold EventContext.taken
      split
      case h_1 f hf =>
        rw [hf] at hone
        cases hco : ((s.ctx c).getEventContext ev).co with
        | none => rfl
        | some k =>
          rw [hco] at hone
          exact absurd rfl hone
      case h_2 => rfl
    case isFalse =>
      rw [hslot] at hsched
      exact absurd rfl hsched
  have hslots : ((s.ctx c).triger ev).Slots Waits :=
    (hi.slots c).triger hev (by rw [htaken]; rfl)
  refine hi.write hc hslots rfl rfl rfl rfl ?_
  -- the waiter moves from the slot to `handed`
  unfold FdContext.triger
  rw [htaken, ← slotWaiters_clear (x := s.ctx c)
    (y := { s.ctx c with events := (s.ctx c).events.erase ev }) hev rfl rfl]
  show (s.registered : Multiset Waiter) + _ + s.dropped + s.handed
    = s.registered + _ + s.dropped + ((s.handed ++ _ : List Waiter) : Multiset Waiter)
  rw [← Multiset.coe_add]
  ac_rfl

/-- `trigerEvent` moves the waiter from its slot to those handed over. -/
theorem Keeping.keptByFire : KeptByFire Keeping where
  epollCtl hi hc := hi.epollCtl hc
  fire hi hc hev h := hi.fire hc hev h

theorem waits_waiting (cb : Option ℕ) (self : ℕ) {scheduler : Option ℕ} (h : scheduler ≠ none) :
    Waits true (.waiting cb self scheduler) := by
  cases cb with
  | none => exact ⟨h, Bool.false_ne_true⟩
  | some f => exact ⟨h, Bool.false_ne_true.symm⟩

/-- `addEvent` puts one waiter into a free slot. -/
theorem Keeping.addEvent (hi : Keeping s) (hc : c < s.nextCtx) (hev : ev ≠ .none)
    {cb : Option ℕ} {self : ℕ} {scheduler : Option ℕ} {r : ℤ} (hsched : scheduler ≠ none)
    (h : s.addEvent c fd ev cb self scheduler success = .ok (r, s')) : Keeping s' := by
  obtain ⟨-, hempty, op, -, rfl⟩ := State.addEvent_ok h
  have hctl : Keeping (s.epollCtl op fd (EPOLLET ||| ((s.ctx c).events.insert ev).bits) c success) :=
    hi.epollCtl hc
  refine hctl.write (by rwa [State.epollCtl_nextCtx])
    ((hi.slots c).add hev (waits_waiting cb self hsched) fd) rfl rfl rfl rfl ?_
  have hset := slotWaiters_set (c := c) (e := .waiting cb self scheduler) (x := s.ctx c)
    (y := { s.ctx c with fd := fd, events := (s.ctx c).events.insert ev }) hev rfl rfl
  rw [hempty] at hset
  have hset' : slotWaiters c ((s.ctx c).add fd ev (.waiting cb self scheduler))
      = slotWaiters c (s.ctx c) + _ := (add_zero _).symm.trans hset
  rw [hset', State.epollCtl_ctx, State.epollCtl_registered, ← Multiset.coe_add]
  ac_rfl

/-- `delEvent` drops the waiter of its slot. -/
theorem Keeping.delEvent (hi : Keeping s) (hc : c < s.nextCtx) {r : Bool}
    (h : s.delEvent c fd ev success = .ok (r, s')) : Keeping s' := by
  rcases State.delEvent_ok h with ⟨-, rfl⟩ | ⟨hhas, rfl⟩
  · exact hi
  · have hev := Events.ne_none_of_has hhas
    have hctl : Keeping (s.epollCtl (if (s.ctx c).events.erase ev ≠ .none then .mod else .del) fd
        ((s.ctx c).events.erase ev).bits c success) := hi.epollCtl hc
    refine hctl.write (by rwa [State.epollCtl_nextCtx]) ((hi.slots c).del hev rfl) rfl rfl rfl rfl ?_
    have hclear := slotWaiters_clear (c := c) (x := s.ctx c)
      (y := { s.ctx c with events := (s.ctx c).events.erase ev }) hev rfl rfl
    rw [State.epollCtl_ctx, State.epollCtl_dropped, ← hclear, ← Multiset.coe_add]
    unfold FdContext.del
    ac_rfl

end Steps

/-! ## Masks -/

/-- A mask asks for `READ` and `WRITE` as the events do. -/
def Masked (mask : BitVec 32) (e : Events) : Prop := mask &&& (EPOLLIN ||| EPOLLOUT) = e.bits

/-- The events themselves are a mask for them. -/
theorem masked_bits (e : Events) : Masked e.bits e := by
  obtain ⟨r, w⟩ := e
  cases r <;> cases w <;> rfl

/-- `EPOLLET` beside the events makes no difference. -/
theorem masked_et (e : Events) : Masked (EPOLLET ||| e.bits) e := by
  obtain ⟨r, w⟩ := e
  cases r <;> cases w <;> rfl

/-- What lies within `y` has no bit that `y` has not. -/
theorem and_eq_zero_of_within {w : ℕ} {x y z : BitVec w} (hx : x &&& ~~~y = 0#w)
    (hz : y &&& z = 0#w) : x &&& z = 0#w := by
  ext i hi
  have hxi := congrArg (·.getLsbD i) hx
  have hzi := congrArg (·.getLsbD i) hz
  simp at hxi hzi ⊢
  grind

/-- Nothing that `idle` adds to the reported events lies outside the mask. -/
theorem realEvents_within {x : FdContext} {events : BitVec 32}
    (h : events &&& ~~~(x.events.bits ||| EPOLLERR ||| EPOLLHUP) = 0#32) :
    ∃ full, full &&& ~~~(x.events.bits ||| EPOLLERR ||| EPOLLHUP) = 0#32 ∧
      ∀ ev, (x.realEvents events).has ev = (full &&& ev.bits != 0#32) := by
  have hhas : ∀ full ev, Events.has ⟨full &&& EPOLLIN != 0#32, full &&& EPOLLOUT != 0#32⟩ ev
      = (full &&& ev.bits != 0#32) := by
    intro full ev
    cases ev with
    | none =>
      show false = (full &&& 0#32 != 0#32)
      rw [BitVec.and_zero]
      rfl
    | read => rfl
    | write => rfl
  unfold FdContext.realEvents
  dsimp only
  split
  case isTrue =>
    -- `EPOLLIN` and `EPOLLHUP` are added as far as the events have them
    refine ⟨_, ?_, hhas _⟩
    rw [BitVec.and_or_distrib_right, h, BitVec.zero_or]
    generalize x.events = e
    obtain ⟨r, w⟩ := e
    cases r <;> cases w <;> rfl
  case isFalse => exact ⟨_, h, hhas _⟩

/-- What `idle` takes for real has been asked for. -/
theorem has_of_realEvents {x : FdContext} {events : BitVec 32} {ev : Event}
    (hevents : events &&& ~~~(x.events.bits ||| EPOLLERR ||| EPOLLHUP) = 0#32)
    (h : (x.realEvents events).has ev = true) : x.events.has ev = true := by
  obtain ⟨full, hfull, hreal⟩ := realEvents_within hevents
  rw [hreal] at h
  rw [Events.has_eq]
  by_contra hnot
  have hbits : x.events.bits &&& ev.bits = 0#32 := by simpa using hnot
  have hzero : full &&& ev.bits = 0#32 := by
    apply and_eq_zero_of_within hfull
    rw [BitVec.and_or_distrib_right, BitVec.and_or_distrib_right, hbits]
    cases ev <;> rfl
  rw [hzero] at h
  exact absurd h (by decide)

/-! ## Nothing fails -/

section Faults

variable {s s' : State} {c fd : ℕ} {ev : Event} {success : Bool}

/-- A slot somebody waits in can be called. -/
theorem Keeping.objects (hi : Keeping s) : Objects s where
  heap := hi.heap
  slots c ev hev hhas := by
    have hslot := hi.slots c ev hev
    unfold Waits at hslot
    rw [hhas, if_pos rfl] at hslot
    exact hslot.1

/-- `addEvent` finds the slot empty. -/
theorem Keeping.adds (hi : Keeping s) (hev : ev ≠ .none) {cb : Option ℕ} {self : ℕ}
    {scheduler : Option ℕ} (hhas : (s.ctx c).events.has ev = false) :
    ∃ r, s.addEvent c fd ev cb self scheduler success = .ok r := by
  have hslot := hi.slots c ev hev
  unfold Waits at hslot
  rw [hhas, if_neg Bool.false_ne_true] at hslot
  unfold State.addEvent
  dsimp only
  rw [hhas, if_neg Bool.false_ne_true, if_neg (not_not.mpr hslot)]
  split <;> exact ⟨_, rfl⟩

end Faults

/-! ## Runs -/

/-- Waiters are kept, and the kernel asks for what the contexts have set. -/
structure Served (s : State) : Prop where
  keeping : Keeping s
  linked : Linked Masked s

/-- The invariant holds at first. -/
theorem Served.init : Served IOManager.init := ⟨Keeping.init, Linked.init⟩

section Steps

variable {s s' : State} {c fd : ℕ} {success : Bool}

/-- A lookup returns the context that the table has. -/
theorem Served.lookup (hi : Served s) (h : s.lookup fd = .ok (c, s')) :
    Served s' ∧ c < s'.nextCtx ∧ s'.fdContexts[fd]? = some c := by
  obtain ⟨hkeeping, hc⟩ := hi.keeping.lookup h
  exact ⟨⟨hkeeping, hi.linked.lookup hi.keeping.heap h⟩, hc, (State.lookup_ok h).1⟩

/-- An operation ends, and keeps what holds. -/
theorem Served.act (hi : Served s) {op : Op} (hc : s.fdContexts[op.fd]? = some c)
    (hok : Orderly s (.call op success)) : ∃ s', s.act c success op = .ok s' ∧ Served s' := by
  have hmade : c < s.nextCtx := hi.keeping.heap.made c (List.mem_of_getElem? hc)
  have hb : Belongs s c op.fd := hi.linked.belongs hc
  cases op with
  | addEvent fd ev cb self scheduler =>
    obtain ⟨rfl, hsched, hev, hhas⟩ := hok
    have hevents : s.eventsOf fd = (s.ctx c).events := eventsOf_eq hc
    have hclear : (s.ctx c).events.has ev = false := by rwa [hevents] at hhas
    obtain ⟨⟨r, s'⟩, h⟩ : ∃ r, s.addEvent c fd ev cb self scheduler true = .ok r :=
      hi.keeping.adds hev hclear
    refine ⟨s', map_ok h, hi.keeping.addEvent hmade hev hsched h, ?_⟩
    exact hi.linked.addEvent hb (masked_et _) h
  | delEvent fd ev =>
    have hsuccess : success = true := hok
    rw [hsuccess]
    obtain ⟨⟨r, s'⟩, h⟩ : ∃ r, s.delEvent c fd ev true = .ok r := by
      unfold State.delEvent
      dsimp only
      split <;> exact ⟨_, rfl⟩
    refine ⟨s', map_ok h, hi.keeping.delEvent hmade h, ?_⟩
    exact hi.linked.delEvent hc (fun _ _ => masked_bits _) h
  | cancelEvent fd ev => exact hok.elim
  | cancelAll fd =>
    have hsuccess : success = true := hok
    rw [hsuccess]
    obtain ⟨⟨r, s'⟩, h⟩ : ∃ r, s.cancelAll c fd true = .ok r := hi.keeping.objects.cancelsAll hmade
    exact ⟨s', map_ok h, Keeping.keptByFire.cancelAll hi.keeping hmade h, hi.linked.cancelAll hb h⟩

/-- A batch is gone through to its end: a report leaves the entries of the others alone. -/
theorem Served.idle (hi : Served s) {reports : List Report}
    (hreports : ∀ r ∈ reports, (s.epfd r.fd).map Prod.snd = some r.ctx)
    (hok : Orderly s (.idle reports)) : ∃ s', s.idle reports = .ok s' ∧ Served s' := by
  induction reports generalizing s with
  | nil => exact ⟨s, rfl, hi⟩
  | cons r reports ih =>
    -- the first report is handled, and the rest are still what the kernel may report
    obtain ⟨hnodup, hmasks⟩ := hok
    obtain ⟨hr, hnodup⟩ := List.nodup_cons.mp hnodup
    obtain ⟨hsuccess, hmask⟩ := hmasks r (List.mem_cons_self ..)
    obtain ⟨⟨mask, c⟩, hentry, hc⟩ := Option.map_eq_some_iff.mp (hreports r (List.mem_cons_self ..))
    obtain ⟨hmasked, hfd, -⟩ := hi.linked.entry r.fd mask c hentry
    have hmade := hi.keeping.heap.kernel r.fd mask c hentry
    have hb := hi.linked.belongs_of_entry hentry
    have hevents := hmask mask c hentry
    rw [hmasked] at hevents
    obtain ⟨t, ht⟩ : ∃ t, s.handle c r.events true = .ok t :=
      hi.keeping.objects.handles hmade fun _ _ => has_of_realEvents hevents
    have hti : Served t := by
      refine ⟨Keeping.keptByFire.handle hi.keeping hmade ht, hi.linked.handle ?_ (fun e _ => masked_et e) ht⟩
      rwa [hfd]
    have hrest : ∀ r' ∈ reports, t.epfd r'.fd = s.epfd r'.fd := by
      intro r' hr'
      apply handle_epfd ht
      rw [hfd]
      intro heq
      exact hr (List.mem_map.mpr ⟨r', hr', heq⟩)
    have htreports : ∀ r' ∈ reports, (t.epfd r'.fd).map Prod.snd = some r'.ctx := by
      intro r' hr'
      rw [hrest r' hr']
      exact hreports r' (List.mem_cons_of_mem r hr')
    have htok : Orderly t (.idle reports) := by
      refine ⟨hnodup, fun r' hr' => ?_⟩
      rw [hrest r' hr']
      exact hmasks r' (List.mem_cons_of_mem r hr')
    obtain ⟨s', hs', hserved⟩ := ih hti htreports htok
    refine ⟨s', ?_, hserved⟩
    unfold State.idle
    rw [List.foldlM_cons, ← hc, hsuccess, ht]
    exact hs'

/-- What the program has to keep to outlasts a lookup. -/
theorem Orderly.lookup {op : Op} (hh : Heap s) (hok : Orderly s (.call op success))
    (h : s.lookup op.fd = .ok (c, s')) : Orderly s' (.call op success) := by
  cases op with
  | addEvent fd ev cb self scheduler =>
    obtain ⟨hsuccess, hsched, hev, hhas⟩ := hok
    have hsame : s'.eventsOf fd = s.eventsOf fd :=
      (eventsOf_eq (State.lookup_ok h).1).trans (hh.lookup_events h)
    refine ⟨hsuccess, hsched, hev, ?_⟩
    rwa [hsame]
  | _ => exact hok

/-- Every orderly step keeps the invariant. -/
theorem Served.step {l : Label} (hi : Served s) (hok : Orderly s l) (h : step s l = some s') :
    Served s' := by
  rcases step_ok h with ⟨op, success, c, t, rfl, hlookup, hact⟩ | ⟨reports, rfl, hreports, hidle⟩
  · obtain ⟨ht, -, hc⟩ := hi.lookup hlookup
    obtain ⟨u, hu, hserved⟩ := ht.act hc (hok.lookup hi.keeping.heap hlookup)
    rw [hact] at hu
    cases hu
    exact hserved
  · obtain ⟨u, hu, hserved⟩ := hi.idle hreports hok
    rw [hidle] at hu
    cases hu
    exact hserved

/-- Only the table can fail an operation. -/
theorem Served.call_fault (hi : Served s) {op : Op} (hok : Orderly s (.call op success))
    {f : Fault} (h : s.call op success = .error f) : f = .outOfRange ∨ f = .badAlloc := by
  unfold State.call at h
  cases hlookup : s.lookup op.fd with
  | error f' =>
    rw [hlookup] at h
    cases h
    exact State.lookup_error hlookup
  | ok r =>
    obtain ⟨c, t⟩ := r
    obtain ⟨ht, -, hc⟩ := hi.lookup hlookup
    obtain ⟨u, hu, -⟩ := ht.act hc (hok.lookup hi.keeping.heap hlookup)
    rw [hlookup] at h
    have h' : t.act c success op = .error f := h
    rw [hu] at h'
    cases h'

end Steps

/-- **The waiters**: in every orderly run each bit agrees with its slot and each waiter is in one
place; no operation fails an assertion or calls a null scheduler, and each batch of reports is gone
through to its end. -/
theorem waiters_kept (s : State) (h : Run step Orderly init s) :
    Kept s ∧
    (∀ op success f, Orderly s (.call op success) → s.call op success = .error f →
      f ≠ .assertion ∧ f ≠ .nullScheduler) ∧
    (∀ reports, Orderly s (.idle reports) →
      (∀ r ∈ reports, (s.epfd r.fd).map Prod.snd = some r.ctx) → ∃ s', s.idle reports = .ok s') := by
  have hi : Served s := h.invariant Served.init fun _ _ _ hi hok hs => hi.step hok hs
  refine ⟨hi.keeping.kept, ?_, ?_⟩
  · intro op success f hok hf
    rcases hi.call_fault hok hf with rfl | rfl
    · exact ⟨by decide, by decide⟩
    · exact ⟨by decide, by decide⟩
  · intro reports hok hreports
    obtain ⟨s', hs', -⟩ := hi.idle hreports hok
    exact ⟨s', hs'⟩

/-- A coroutine waits for 5 and a callback for 40; 5 is reported, and 40 is deleted. -/
theorem waiters_kept_witness : ∃ s, Kept s ∧ s.handed = [⟨5, .read, some 0, .co 1⟩] ∧
    s.dropped = [⟨40, .write, some 0, .cb 7⟩] := by
  have hreport : ∀ s : State, s.epfd 5 = some (EPOLLET ||| 1#32, 5) →
      Orderly s (.idle [⟨5, 5, EPOLLIN, true⟩]) := by
    intro s hentry
    refine ⟨List.nodup_singleton 5, fun r hr => ?_⟩
    rw [List.mem_singleton.mp hr]
    refine ⟨rfl, fun mask c h => ?_⟩
    rw [hentry] at h
    cases h
    rfl
  have hrun : Run step Orderly init _ :=
    (((Run.refl.tail (a := .call (.addEvent 5 .read none 1 (some 0)) true)
      ⟨rfl, by decide, by decide, rfl⟩ rfl).tail
      (a := .call (.addEvent 40 .write (some 7) 2 (some 0)) true)
      ⟨rfl, by decide, by decide, rfl⟩ rfl).tail (hreport _ rfl) rfl).tail
      (a := .call (.delEvent 40 .write) true) rfl rfl
  exact ⟨_, (waiters_kept _ hrun).1, rfl, rfl⟩

end CoKV.IOManager
