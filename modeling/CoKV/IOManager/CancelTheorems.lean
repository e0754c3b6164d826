import CoKV.IOManager.TableTheorems

/-!
# What `cancelEvent` cancels

`cancels_iff`: `cancelEvent` does its work exactly if the event is registered and its waiter has a
scheduler, or nothing at all is registered and the event is `READ`. The guard `!ctx->events & ev` is
`(!ctx->events) & ev`, so every other event that is not registered is triggered all the same.
-/

namespace CoKV.IOManager

/-! ## Slots -/

/-- Where a scheduler is, somebody waits. -/
def EventContext.Manned (e : EventContext) : Prop := e.scheduler ≠ none → e.cb ≠ none ∨ e.co ≠ none

/-- A slot with a scheduler has somebody to hand over. -/
theorem EventContext.Manned.waiter {e : EventContext} (h : e.Manned) (hsched : e.scheduler ≠ none)
    (c : ℕ) (ev : Event) : ∃ w, e.waiter c ev = some w := by
  unfold EventContext.waiter
  rcases h hsched with hcb | hco
  · obtain ⟨f, hf⟩ := Option.ne_none_iff_exists'.mp hcb
    rw [hf]
    exact ⟨_, rfl⟩
  · obtain ⟨k, hk⟩ := Option.ne_none_iff_exists'.mp hco
    rw [hk]
    cases e.cb <;> exact ⟨_, rfl⟩

/-- An empty slot has no scheduler that asks for a waiter. -/
theorem manned_empty : EventContext.empty.Manned := fun h => absurd rfl h

/-- What `trigerEvent` leaves behind has none either. -/
theorem manned_taken (e : EventContext) : e.taken.Manned := by
  unfold EventContext.taken EventContext.Manned
  cases e.cb <;> exact fun h => absurd rfl h

/-- `addEvent` puts the scheduler and the waiter in together. -/
theorem manned_waiting (cb : Option ℕ) (self : ℕ) (scheduler : Option ℕ) :
    (EventContext.waiting cb self scheduler).Manned := by
  intro _
  cases cb with
  | none => exact Or.inr (Option.some_ne_none self)
  | some f => exact Or.inl (Option.some_ne_none f)

/-- Both slots. -/
def FdContext.Manned (x : FdContext) : Prop := x.read.Manned ∧ x.write.Manned

/-- Both slots of a manned context are manned. -/
theorem FdContext.Manned.slot {x : FdContext} (h : x.Manned) (ev : Event) :
    (x.getEventContext ev).Manned := by
  cases ev with
  | read => exact h.1
  | none | write => exact h.2

/-- Replacing one slot by a manned one keeps the context manned. -/
theorem FdContext.Manned.set {x y : FdContext} (h : x.Manned) (hread : y.read = x.read)
    (hwrite : y.write = x.write) (ev : Event) {e : EventContext} (he : e.Manned) :
    (y.setEventContext ev e).Manned := by
  cases ev with
  | read =>
    refine ⟨he, ?_⟩
    show y.write.Manned
    rw [hwrite]
    exact h.2
  | none | write =>
    refine ⟨?_, he⟩
    show y.read.Manned
    rw [hread]
    exact h.1

/-- `addEvent` keeps the context manned. -/
theorem FdContext.Manned.add {x : FdContext} (h : x.Manned) (fd : ℕ) (ev : Event) {e : EventContext}
    (he : e.Manned) : (x.add fd ev e).Manned :=
  h.set (y := { x with fd := fd, events := x.events.insert ev }) rfl rfl ev he

/-- So does `delEvent`, which empties the slot. -/
theorem FdContext.Manned.del {x : FdContext} (h : x.Manned) (ev : Event) : (x.del ev).Manned :=
  h.set (y := { x with events := x.events.erase ev }) rfl rfl ev manned_empty

/-- So does `trigerEvent`. -/
theorem FdContext.Manned.triger {x : FdContext} (h : x.Manned) (ev : Event) : (x.triger ev).Manned :=
  h.set (y := { x with events := x.events.erase ev }) rfl rfl ev (manned_taken _)

/-! ## Runs -/

/-- What holds in every run, `addEvent` and `cancelEvent` of `NONE` included. -/
structure Crewed (s : State) : Prop where
  heap : Heap s
  slots : ∀ c, (s.ctx c).Manned

/-- At first every slot is empty. -/
theorem Crewed.init : Crewed IOManager.init := ⟨Heap.init, fun _ => ⟨manned_empty, manned_empty⟩⟩

section Steps

variable {s s' : State} {c fd : ℕ} {ev : Event} {success : Bool}

/-- A section that writes one manned context keeps all of them manned. -/
theorem Crewed.write (hi : Crewed s) (hc : c < s.nextCtx) {x : FdContext} (hx : x.Manned)
    (hctx : s'.ctx = (s.setCtx c x).ctx) (hnext : s'.nextCtx = s.nextCtx)
    (htable : s'.fdContexts = s.fdContexts) (hepfd : s'.epfd = s.epfd) : Crewed s' where
  heap := hi.heap.write hc hctx hnext htable hepfd
  slots d := by
    rw [hctx]
    by_cases hd : d = c
    · rw [hd, State.setCtx_ctx_self]
      exact hx
    · rw [State.setCtx_ctx_of_ne _ _ hd]
      exact hi.slots d

/-- `epoll_ctl` does not touch the contexts. -/
theorem Crewed.epollCtl (hi : Crewed s) {op : CtlOp} {mask : BitVec 32} (hc : c < s.nextCtx) :
    Crewed (s.epollCtl op fd mask c success) where
  heap := hi.heap.epollCtl hc
  slots := by
    rw [State.epollCtl_ctx]
    exact hi.slots

/-- A lookup allocates empty contexts only, and returns one that exists. -/
theorem Crewed.lookup (hi : Crewed s) (h : s.lookup fd = .ok (c, s')) :
    Crewed s' ∧ c < s'.nextCtx := by
  refine ⟨State.lookup_invariant h hi fun size hbound => ?_, (hi.heap.lookup h).2⟩
  exact ⟨hi.heap.resized hbound, hi.slots⟩

/-- `trigerEvent` takes scheduler and waiter together. -/
theorem Crewed.fire (hi : Crewed s) (hc : c < s.nextCtx) (h : s.fire c ev = .ok s') : Crewed s' := by
  obtain ⟨-, rfl⟩ := State.fire_ok h
  exact hi.write hc ((hi.slots c).triger ev) rfl rfl rfl rfl

/-- So the sections that trigger several events keep the invariant, too. -/
theorem Crewed.keptByFire : KeptByFire Crewed where
  epollCtl hi hc := hi.epollCtl hc
  fire hi hc _ h := hi.fire hc h

/-- Each locked section keeps the invariant. -/
theorem Crewed.act (hi : Crewed s) (hc : c < s.nextCtx) {op : Op}
    (h : s.act c success op = .ok s') : Crewed s' := by
  cases op with
  | addEvent fd ev cb self scheduler =>
    obtain ⟨⟨r, t⟩, hadd, rfl⟩ := ok_of_map h
    obtain ⟨-, -, op, -, rfl⟩ := State.addEvent_ok hadd
    have hctl : Crewed (s.epollCtl op fd (EPOLLET ||| ((s.ctx c).events.insert ev).bits) c success) :=
      hi.epollCtl hc
    exact hctl.write (by rwa [State.epollCtl_nextCtx])
      ((hi.slots c).add fd ev (manned_waiting cb self scheduler)) rfl rfl rfl rfl
  | delEvent fd ev =>
    obtain ⟨⟨r, t⟩, hdel, rfl⟩ := ok_of_map h
    rcases State.delEvent_ok hdel with ⟨-, rfl⟩ | ⟨-, rfl⟩
    · exact hi
    · have hctl : Crewed (s.epollCtl (if (s.ctx c).events.erase ev ≠ .none then .mod else .del) fd
          ((s.ctx c).events.erase ev).bits c success) := hi.epollCtl hc
      exact hctl.write (by rwa [State.epollCtl_nextCtx])
        ((hi.slots c).del ev) rfl rfl rfl rfl
  | cancelEvent fd ev =>
    obtain ⟨⟨r, t⟩, hcancel, rfl⟩ := ok_of_map h
    rcases State.cancelEvent_ok hcancel with ⟨-, rfl⟩ | hfire
    · exact hi
    · -- `NONE` is triggered in the slot of `WRITE`
      exact (hi.epollCtl hc).fire (by rwa [State.epollCtl_nextCtx]) hfire
  | cancelAll fd =>
    obtain ⟨⟨r, t⟩, hcancel, rfl⟩ := ok_of_map h
    exact keptByFire.cancelAll hi hc hcancel

/-- So does every step, lookups and reports included. -/
theorem Crewed.step {l : Label} (hi : Crewed s) (h : step s l = some s') : Crewed s' := by
  rcases step_ok h with ⟨op, success, c, t, rfl, hlookup, hact⟩ | ⟨reports, rfl, hreports, hidle⟩
  · obtain ⟨ht, hc⟩ := hi.lookup hlookup
    exact ht.act hc hact
  · exact keptByFire.idle hi (hi.heap.reported hreports) hidle

end Steps

/-- In every reachable state, each slot with a scheduler has a waiter. -/
theorem crewed_of_run {s : State} (h : Run step anyStep init s) : Crewed s :=
  h.invariant Crewed.init fun _ _ _ hi _ hs => hi.step hs

/-! ## One call -/

section Call

variable {s s' t : State} {c fd : ℕ} {ev : Event} {success : Bool}

/-- The lookup of `fd` ends: the table is long enough, or made long enough. -/
def Found (s : State) (fd : ℕ) : Prop :=
  (fd : ℤ) < s.intSize ∨ 2 ≤ fd ∧ (s.resized (3 * fd / 2)).nextCtx ≤ maxContexts

/-- Where the table has the descriptor or can grow to it, the lookup succeeds. -/
theorem lookup_found (h : Found s fd) : ∃ c t, s.lookup fd = .ok (c, t) := by
  unfold State.lookup State.readSection
  by_cases hlt : (fd : ℤ) < s.intSize
  · have hle := intSize_le s
    have hlen : fd < s.fdContexts.length := by omega
    refine ⟨s.fdContexts[fd], s, ?_⟩
    rw [if_pos hlt, List.getElem?_eq_getElem hlen]
    rfl
  · rcases h with h | ⟨htwo, hbound⟩
    · exact absurd h hlt
    · have hlen : fd < (s.resized (3 * fd / 2)).fdContexts.length := by
        rw [resized_length]
        omega
      refine ⟨(s.resized (3 * fd / 2)).fdContexts[fd], s.resized (3 * fd / 2), ?_⟩
      rw [if_neg hlt]
      show s.writeSection fd = _
      unfold State.writeSection State.contextResize
      rw [if_pos hbound, ok_bind, List.getElem?_eq_getElem hlen]

/-- And only there. -/
theorem found_of_lookup (h : s.lookup fd = .ok (c, t)) : Found s fd := by
  obtain ⟨hc, ⟨hlt, -⟩ | ⟨-, rfl, hbound⟩⟩ := State.lookup_ok h
  · exact Or.inl hlt
  · right
    have hlen := (List.getElem?_eq_some_iff.mp hc).choose
    rw [resized_length] at hlen
    exact ⟨by omega, hbound⟩

/-- The guard `!ctx->events & ev`: `cancelEvent` returns here, or triggers the event. -/
theorem cancelEvent_eq (s : State) (c fd : ℕ) (ev : Event) (success : Bool) :
    s.cancelEvent c fd ev success
      = if (s.ctx c).events = .none ∧ ev = .read then .ok (false, s)
        else (fun s' => (true, s')) <$> (s.epollCtl
          (if (s.ctx c).events.erase ev ≠ .none then .mod else .del) fd (s.ctx c).events.bits c
          success).fire c ev := by
  have hguard : (if (s.ctx c).events = .none then 1#32 else 0#32) &&& ev.bits ≠ 0#32 ↔
      (s.ctx c).events = .none ∧ ev = .read := by
    by_cases hnone : (s.ctx c).events = .none
    · rw [if_pos hnone]
      cases ev <;> simp [hnone, Event.bits]
    · rw [if_neg hnone, BitVec.zero_and]
      simp [hnone]
  unfold State.cancelEvent
  dsimp only
  by_cases hread : (s.ctx c).events = .none ∧ ev = .read
  · rw [if_pos hread, if_pos (hguard.mpr hread)]
  · rw [if_neg hread, if_neg (mt hguard.mp hread)]
    rfl

/-- An event that was registered has been cancelled: `c` is the context of its descriptor. -/
structure Cancelled (s s' : State) (c : ℕ) (ev : Event) : Prop where
  events : (s'.ctx c).events = (s.ctx c).events.erase ev
  slots : ∀ ev' ≠ .none, ev' ≠ ev →
    (s'.ctx c).getEventContext ev' = (s.ctx c).getEventContext ev'
  contexts : ∀ d ≠ c, s'.ctx d = s.ctx d
  handed : ∃ w, ((s.ctx c).getEventContext ev).waiter c ev = some w ∧ s'.handed = s.handed ++ [w]
  pendingEventCount : s'.pendingEventCount = s.pendingEventCount - 1

/-- `cancelEvent(fd, ev)` returns true exactly if the event is registered, and cancels it; if it
returns false, nothing has been done (the lookup may have made the table longer). -/
def Cancels (s : State) (fd : ℕ) (ev : Event) (success : Bool) : Prop :=
  ∃ c t r s', s.lookup fd = .ok (c, t) ∧ t.cancelEvent c fd ev success = .ok (r, s') ∧
    (r = true ↔ (s.eventsOf fd).has ev = true) ∧
    (r = true → Cancelled s s' c ev) ∧ (r = false → State.SameButTable s s')

/-- The event is registered, by a thread that has a scheduler; or nothing is registered, and the
event is `READ`. -/
def Guarded (s : State) (fd : ℕ) (ev : Event) : Prop :=
  (∃ c, s.fdContexts[fd]? = some c ∧ (s.ctx c).events.has ev = true ∧
    ((s.ctx c).getEventContext ev).scheduler ≠ none) ∨
  s.eventsOf fd = .none ∧ ev = .read

/-- `trigerEvent` is what `cancelEvent` promises: the waiter handed over, the bit cleared, one
pending event less. -/
theorem fire_cancelled (hi : Crewed s) (hev : ev ≠ .none) (h : s.fire c ev = .ok s') :
    Cancelled s s' c ev := by
  obtain ⟨hsched, rfl⟩ := State.fire_ok h
  obtain ⟨w, hw⟩ := ((hi.slots c).slot ev).waiter hsched c ev
  refine ⟨?_, ?_, ?_, ⟨w, hw, ?_⟩, rfl⟩
  · show ((State.setCtx _ c _).ctx c).events = _
    rw [State.setCtx_ctx_self, FdContext.events_triger]
  · intro ev' hev' hne
    show ((State.setCtx _ c _).ctx c).getEventContext ev' = _
    rw [State.setCtx_ctx_self]
    exact FdContext.getEventContext_set_of_ne hev hev' hne
  · intro d hd
    exact State.setCtx_ctx_of_ne _ _ hd
  · show s.handed ++ (((s.ctx c).getEventContext ev).waiter c ev).toList = _
    rw [hw]
    rfl

/-- An `epoll_ctl` before it does not matter. -/
theorem Cancelled.of_ctx (h : Cancelled t s' c ev) (hctx : t.ctx = s.ctx)
    (hhanded : t.handed = s.handed) (hcount : t.pendingEventCount = s.pendingEventCount) :
    Cancelled s s' c ev := by
  obtain ⟨hevents, hslots, hcontexts, hw, hpending⟩ := h
  rw [hctx] at hevents hslots hcontexts hw
  rw [hhanded] at hw
  rw [hcount] at hpending
  exact ⟨hevents, hslots, hcontexts, hw, hpending⟩

/-- The lookup finds what is in the table. -/
theorem lookup_entry {d : ℕ} (h : s.lookup fd = .ok (c, t)) (hd : s.fdContexts[fd]? = some d) :
    d = c := by
  obtain ⟨hc, ⟨-, rfl⟩ | ⟨-, rfl, -⟩⟩ := State.lookup_ok h
  · exact Option.some.inj (hd.symm.trans hc)
  · have hlen := (List.getElem?_eq_some_iff.mp hc).choose
    rw [resized_length] at hlen
    exact Option.some.inj ((getElem?_resized hd hlen).symm.trans hc)

/-- An event that `cancelEvent` triggers. -/
theorem cancelEvent_of_fire (hread : ¬ ((s.ctx c).events = .none ∧ ev = .read))
    (hsched : ((s.ctx c).getEventContext ev).scheduler ≠ none) (fd : ℕ) (success : Bool) :
    ∃ op s', (s.epollCtl op fd (s.ctx c).events.bits c success).fire c ev = .ok s' ∧
      s.cancelEvent c fd ev success = .ok (true, s') := by
  rw [cancelEvent_eq, if_neg hread]
  generalize (if (s.ctx c).events.erase ev ≠ .none then CtlOp.mod else .del) = op
  obtain ⟨s', hs'⟩ := State.fire_of_scheduler
    (s := s.epollCtl op fd (s.ctx c).events.bits c success) (c := c) (by rwa [State.epollCtl_ctx])
  exact ⟨op, s', hs', map_ok hs'⟩

/-- Under the condition, `cancelEvent` answers whether the event was registered, and cancels it. -/
theorem Crewed.cancels_of_guarded (hi : Crewed s) (hfound : Found s fd) (h : Guarded s fd ev) :
    Cancels s fd ev success := by
  obtain ⟨c, t, hlookup⟩ := lookup_found hfound
  have hevents := hi.heap.lookup_events hlookup
  have hsame := State.lookup_table hlookup
  rcases h with ⟨d, hd, hhas, hsched⟩ | ⟨hnone, rfl⟩
  · -- the event is registered
    cases lookup_entry hlookup hd
    have hof : s.eventsOf fd = (s.ctx c).events := eventsOf_eq hd
    rw [← hsame.ctx] at hhas hsched
    have hread : ¬ ((t.ctx c).events = .none ∧ ev = .read) := by
      rintro ⟨hnone, rfl⟩
      rw [hnone] at hhas
      cases hhas
    obtain ⟨op, s', hfire, hcancel⟩ := cancelEvent_of_fire hread hsched fd success
    have hctl : Crewed (t.epollCtl op fd (t.ctx c).events.bits c success) :=
      (hi.lookup hlookup).1.epollCtl (hi.lookup hlookup).2
    have hdone := fire_cancelled hctl (Events.ne_none_of_has hhas) hfire
    refine ⟨c, t, true, s', hlookup, hcancel, ?_, ?_, nofun⟩
    · rw [hof, ← hsame.ctx]
      exact ⟨fun _ => hhas, fun _ => rfl⟩
    · intro _
      apply hdone.of_ctx
      · rw [State.epollCtl_ctx, hsame.ctx]
      · rw [State.epollCtl_handed, hsame.handed]
      · rw [State.epollCtl_pendingEventCount, hsame.pendingEventCount]
  · -- nothing is, and the guard holds
    refine ⟨c, t, false, t, hlookup, ?_, ?_, nofun, fun _ => hsame⟩
    · rw [cancelEvent_eq, if_pos ⟨by rw [hevents, hnone], rfl⟩]
    · rw [hnone]
      exact ⟨nofun, nofun⟩

/-- Otherwise it does something else: the condition is exact. -/
theorem Crewed.guarded_of_cancels (hi : Crewed s) (h : Cancels s fd ev success) :
    Found s fd ∧ Guarded s fd ev := by
  obtain ⟨c, t, r, s', hlookup, hcancel, hr, -, -⟩ := h
  have hevents := hi.heap.lookup_events hlookup
  have hsame := State.lookup_table hlookup
  refine ⟨found_of_lookup hlookup, ?_⟩
  rw [cancelEvent_eq] at hcancel
  split at hcancel
  case isTrue hread => exact Or.inr ⟨by rw [← hevents, hread.1], hread.2⟩
  case isFalse =>
    left
    obtain ⟨u, hfire, heq⟩ := ok_of_map hcancel
    cases heq
    have hhas := hr.mp rfl
    obtain ⟨hsched, -⟩ := State.fire_ok hfire
    rw [State.epollCtl_ctx, hsame.ctx] at hsched
    -- what is registered is in the table
    cases hd : s.fdContexts[fd]? with
    | none =>
      unfold State.eventsOf at hhas
      rw [hd] at hhas
      cases ev <;> cases hhas
    | some d =>
      cases lookup_entry hlookup hd
      rw [eventsOf_eq hd] at hhas
      exact ⟨c, rfl, hhas, hsched⟩

end Call

/-- **`cancelEvent`**, in every state a program can reach, whatever it has called and whatever
`epoll_ctl` has returned: it does its work exactly if the table has room for the descriptor, and
the event is registered and its waiter can be scheduled, or nothing is registered and the event is
`READ`. -/
theorem cancels_iff {s : State} (h : Run step anyStep init s) (fd : ℕ) (ev : Event)
    (success : Bool) : Cancels s fd ev success ↔ Found s fd ∧ Guarded s fd ev := by
  have hi : Crewed s := crewed_of_run h
  constructor
  · exact hi.guarded_of_cancels
  · rintro ⟨hfound, hguard⟩
    exact hi.cancels_of_guarded hfound hguard

/-- The timeout of a coroutine that still waits to write. -/
theorem cancels_iff_witness : ∃ s, step init (.call (.addEvent 5 .write none 1 (some 0)) true) = some s ∧
    Cancels s 5 .write true := by
  have hstep : step init (.call (.addEvent 5 .write none 1 (some 0)) true) = some _ := rfl
  refine ⟨_, hstep, ?_⟩
  apply (cancels_iff (Run.single trivial hstep) 5 .write true).mpr
  exact ⟨Or.inl (by decide), Or.inl ⟨5, rfl, rfl, by decide⟩⟩

/-- **A timeout behind its event**: a coroutine waits to write, the descriptor is ready, and the
timer's callback comes late: `trigerEvent` calls the null scheduler of the emptied slot. -/
theorem late_not_cancels : ¬ ∀ s, Run step anyStep init s → ∀ fd ev success,
    Cancels s fd ev success := by
  intro h
  have hrun : Run step anyStep init _ :=
    (Run.refl.tail (a := .call (.addEvent 5 .write none 1 (some 0)) true) trivial rfl).tail
      (a := .idle [⟨5, 5, EPOLLOUT, true⟩]) trivial rfl
  obtain ⟨c, t, r, s', hlookup, hcancel, -⟩ := h _ hrun 5 .write true
  cases hlookup
  cases hcancel

end CoKV.IOManager
