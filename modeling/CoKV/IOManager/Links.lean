import CoKV.IOManager.Contexts

/-!
# The table and the interest set

`Linked` relates the two: an entry of the kernel points to the context of its descriptor, and its
mask and the events of the context are related by `R`. An operation does one `epoll_ctl` and writes
one context (`Does`); `Linked.does` says what it has to leave related.
-/

namespace CoKV.IOManager

variable {s s' : State}

/-! ## Contexts that are written -/

/-- Context `c` has got descriptor `fd` and events `es`; table and kernel are as they were. -/
structure Wrote (s s' : State) (c fd : ℕ) (es : Events) : Prop where
  nextCtx : s'.nextCtx = s.nextCtx
  fdContexts : s'.fdContexts = s.fdContexts
  epfd : s'.epfd = s.epfd
  other : ∀ d ≠ c, s'.ctx d = s.ctx d
  fd : (s'.ctx c).fd = fd
  events : (s'.ctx c).events = es

section Ops

variable {c fd : ℕ} {ev : Event} {success : Bool} {es es' : Events}

/-- Writing nothing leaves the descriptor and the events of the context. -/
theorem Wrote.refl : Wrote s s c (s.ctx c).fd (s.ctx c).events :=
  ⟨rfl, rfl, rfl, fun _ _ => rfl, rfl, rfl⟩

/-- Two writes of one context are one. -/
theorem Wrote.trans {t : State} (h : Wrote s t c fd es) (h' : Wrote t s' c (t.ctx c).fd es') :
    Wrote s s' c fd es' where
  nextCtx := h'.nextCtx.trans h.nextCtx
  fdContexts := h'.fdContexts.trans h.fdContexts
  epfd := h'.epfd.trans h.epfd
  other d hd := (h'.other d hd).trans (h.other d hd)
  fd := h'.fd.trans h.fd
  events := h'.events

/-- A section that replaces one context, and no more, writes that context. -/
theorem wrote_setCtx {x : FdContext} (hctx : s'.ctx = (s.setCtx c x).ctx)
    (hnext : s'.nextCtx = s.nextCtx) (htable : s'.fdContexts = s.fdContexts)
    (hepfd : s'.epfd = s.epfd) : Wrote s s' c x.fd x.events where
  nextCtx := hnext
  fdContexts := htable
  epfd := hepfd
  other d hd := by rw [hctx, State.setCtx_ctx_of_ne _ _ hd]
  fd := by rw [hctx, State.setCtx_ctx_self]
  events := by rw [hctx, State.setCtx_ctx_self]

/-- `trigerEvent` erases the event. -/
theorem wrote_fire (h : s.fire c ev = .ok s') :
    Wrote s s' c (s.ctx c).fd ((s.ctx c).events.erase ev) := by
  obtain ⟨-, rfl⟩ := State.fire_ok h
  have hw := wrote_setCtx (s := s) (c := c) (x := (s.ctx c).triger ev) rfl rfl rfl rfl
  rw [FdContext.fd_triger, FdContext.events_triger] at hw
  exact ⟨hw.1, hw.2, hw.3, hw.4, hw.5, hw.6⟩

/-- Behind the test of a bit it erases the event if the bit is set. -/
theorem wrote_fireIf {b : Bool} (h : s.fireIf b c ev = .ok s') :
    Wrote s s' c (s.ctx c).fd (if b then (s.ctx c).events.erase ev else (s.ctx c).events) := by
  rcases State.fireIf_ok h with ⟨rfl, rfl⟩ | ⟨rfl, h⟩
  · exact Wrote.refl
  · exact wrote_fire h

/-- What an operation on descriptor `fd` does: an `epoll_ctl` for context `c`, and then the context
has got the events `es`. -/
def Does (s s' : State) (c fd : ℕ) (op : CtlOp) (mask : BitVec 32) (success : Bool)
    (fd' : ℕ) (es : Events) : Prop :=
  Wrote (s.epollCtl op fd mask c success) s' c fd' es

/-- `addEvent` tells the kernel the new mask, and writes the same events to the context. -/
theorem does_addEvent {cb : Option ℕ} {self : ℕ} {scheduler : Option ℕ} {r : ℤ}
    (h : s.addEvent c fd ev cb self scheduler success = .ok (r, s')) :
    ∃ op ≠ CtlOp.del, Does s s' c fd op (EPOLLET ||| ((s.ctx c).events.insert ev).bits) success fd
      ((s.ctx c).events.insert ev) := by
  obtain ⟨-, -, op, hop, rfl⟩ := State.addEvent_ok h
  refine ⟨op, hop, ?_⟩
  have hw := wrote_setCtx (c := c) (x := (s.ctx c).add fd ev (.waiting cb self scheduler))
    (s := s.epollCtl op fd (EPOLLET ||| ((s.ctx c).events.insert ev).bits) c success) rfl rfl rfl rfl
  rw [FdContext.fd_add, FdContext.events_add] at hw
  exact ⟨hw.1, hw.2, hw.3, hw.4, hw.5, hw.6⟩

/-- `delEvent` tells the kernel the remaining mask without `EPOLLET`. -/
theorem does_delEvent {r : Bool} (h : s.delEvent c fd ev success = .ok (r, s')) :
    (s.ctx c).events.has ev = false ∧ s' = s ∨
      (s.ctx c).events.has ev = true ∧
        Does s s' c fd (if (s.ctx c).events.erase ev ≠ .none then .mod else .del)
          ((s.ctx c).events.erase ev).bits success (s.ctx c).fd ((s.ctx c).events.erase ev) := by
  rcases State.delEvent_ok h with hsame | ⟨hhas, rfl⟩
  · exact Or.inl hsame
  · right
    refine ⟨hhas, ?_⟩
    have hw := wrote_setCtx (c := c) (x := (s.ctx c).del ev)
      (s := s.epollCtl (if (s.ctx c).events.erase ev ≠ .none then .mod else .del) fd
        ((s.ctx c).events.erase ev).bits c success) rfl rfl rfl rfl
    rw [FdContext.fd_del, FdContext.events_del] at hw
    exact ⟨hw.1, hw.2, hw.3, hw.4, hw.5, hw.6⟩

/-- `cancelEvent` tells the kernel the old mask, while the context loses the event. -/
theorem does_cancelEvent {r : Bool} (h : s.cancelEvent c fd ev success = .ok (r, s')) :
    (s.ctx c).events = .none ∧ s' = s ∨
      Does s s' c fd (if (s.ctx c).events.erase ev ≠ .none then .mod else .del)
        (s.ctx c).events.bits success (s.ctx c).fd ((s.ctx c).events.erase ev) := by
  rcases State.cancelEvent_ok h with hsame | hfire
  · exact Or.inl hsame
  · have hw := wrote_fire hfire
    rw [State.epollCtl_ctx] at hw
    exact Or.inr hw

/-- `cancelAll` fires what is set. -/
theorem does_cancelAll {r : Bool} (h : s.cancelAll c fd success = .ok (r, s')) :
    (s.ctx c).events = .none ∧ s' = s ∨
      (s.ctx c).events ≠ .none ∧ Does s s' c fd .del 0#32 success (s.ctx c).fd .none := by
  rcases State.cancelAll_ok h with hsame | ⟨hne, t, hread, hwrite⟩
  · exact Or.inl hsame
  · right
    have ht := wrote_fireIf hread
    have hs' := wrote_fireIf hwrite
    have hnone : (if (t.ctx c).events.has .write then (t.ctx c).events.erase .write
        else (t.ctx c).events) = .none := by
      rw [ht.events, State.epollCtl_ctx]
      generalize (s.ctx c).events = e
      obtain ⟨r, w⟩ := e
      cases r <;> cases w <;> rfl
    rw [hnone] at hs'
    rw [State.epollCtl_ctx] at ht
    exact ⟨hne, ht.trans hs'⟩

/-- An operation leaves everything alone, or does something; its descriptor is the one of the
context, if the context or the entry is to keep an event. -/
theorem does_act {op : Op} (h : s.act c success op = .ok s') :
    s' = s ∨ ∃ ctl mask fd' es, Does s s' c op.fd ctl mask success fd' es ∧
      (fd' = op.fd ∨ fd' = (s.ctx c).fd ∧
        (es ≠ .none ∨ ctl ≠ .del → (s.ctx c).events ≠ .none)) := by
  -- if an event is left, the context had one before
  have herase : ∀ e : Events, ∀ ev,
      e.erase ev ≠ .none ∨ (if e.erase ev ≠ .none then CtlOp.mod else .del) ≠ .del → e ≠ .none := by
    intro e ev hor hnone
    have hkept : (Events.none.erase ev) = .none := by cases ev <;> rfl
    rw [hnone, hkept, if_neg (not_not.mpr rfl)] at hor
    rcases hor with hne | hne <;> exact absurd rfl hne
  cases op with
  | addEvent fd ev cb self scheduler =>
    obtain ⟨⟨r, t⟩, hadd, rfl⟩ := ok_of_map h
    obtain ⟨ctl, -, hdoes⟩ := does_addEvent hadd
    exact Or.inr ⟨ctl, _, _, _, hdoes, Or.inl rfl⟩
  | delEvent fd ev =>
    obtain ⟨⟨r, t⟩, hdel, rfl⟩ := ok_of_map h
    rcases does_delEvent hdel with ⟨-, hsame⟩ | ⟨-, hdoes⟩
    · exact Or.inl hsame
    · exact Or.inr ⟨_, _, _, _, hdoes, Or.inr ⟨rfl, herase _ _⟩⟩
  | cancelEvent fd ev =>
    obtain ⟨⟨r, t⟩, hcancel, rfl⟩ := ok_of_map h
    rcases does_cancelEvent hcancel with ⟨-, hsame⟩ | hdoes
    · exact Or.inl hsame
    · exact Or.inr ⟨_, _, _, _, hdoes, Or.inr ⟨rfl, herase _ _⟩⟩
  | cancelAll fd =>
    obtain ⟨⟨r, t⟩, hcancel, rfl⟩ := ok_of_map h
    rcases does_cancelAll hcancel with ⟨-, hsame⟩ | ⟨hne, hdoes⟩
    · exact Or.inl hsame
    · exact Or.inr ⟨_, _, _, _, hdoes, Or.inr ⟨rfl, fun _ => hne⟩⟩

/-- `idle` fires what has been reported. -/
theorem does_handle {events : BitVec 32} (h : s.handle c events success = .ok s') :
    s' = s ∨ ∃ op, (op = .del ↔ (s.ctx c).events.diff ((s.ctx c).realEvents events) = .none) ∧
      Does s s' c (s.ctx c).fd op
        (EPOLLET ||| ((s.ctx c).events.diff ((s.ctx c).realEvents events)).bits) success
        (s.ctx c).fd ((s.ctx c).events.diff ((s.ctx c).realEvents events)) := by
  rcases State.handle_ok h with rfl | ⟨op, t, hop, hread, hwrite⟩
  · exact Or.inl rfl
  · have ht := wrote_fireIf hread
    have hs' := wrote_fireIf hwrite
    rw [State.epollCtl_ctx] at ht
    -- both events that are reported go, and what is left is what `idle` has told the kernel
    have hdiff : (if ((s.ctx c).realEvents events).has .write then (t.ctx c).events.erase .write
        else (t.ctx c).events) = (s.ctx c).events.diff ((s.ctx c).realEvents events) := by
      rw [ht.events]
      generalize (s.ctx c).realEvents events = real
      generalize (s.ctx c).events = e
      obtain ⟨r, w⟩ := e
      obtain ⟨r', w'⟩ := real
      cases r <;> cases w <;> cases r' <;> cases w' <;> rfl
    rw [hdiff] at hs'
    exact Or.inr ⟨op, hop, ht.trans hs'⟩

/-- A report does not change which descriptor a context is for. -/
theorem handle_fd {events : BitVec 32} (h : s.handle c events success = .ok s') (d : ℕ) :
    (s'.ctx d).fd = (s.ctx d).fd := by
  rcases does_handle h with rfl | ⟨op, -, hdoes⟩
  · rfl
  · by_cases hd : d = c
    · rw [hd, hdoes.fd]
    · rw [hdoes.other d hd, State.epollCtl_ctx]

/-- A report is about one entry. -/
theorem handle_epfd {events : BitVec 32} (h : s.handle c events success = .ok s')
    (hfd : fd ≠ (s.ctx c).fd) : s'.epfd fd = s.epfd fd := by
  rcases does_handle h with rfl | ⟨op, -, hdoes⟩
  · rfl
  · rw [hdoes.epfd, State.epollCtl_epfd_of_ne _ _ _ _ _ _ hfd]

/-- A report does not change the table. -/
theorem handle_fdContexts {events : BitVec 32} (h : s.handle c events success = .ok s') :
    s'.fdContexts = s.fdContexts := by
  rcases does_handle h with rfl | ⟨op, -, hdoes⟩
  · rfl
  · rw [hdoes.fdContexts, State.epollCtl_fdContexts]

end Ops

/-- A locked section writes contexts that exist only. -/
theorem Does.heap {c fd fd' : ℕ} {op : CtlOp} {mask : BitVec 32} {success : Bool} {es : Events}
    (h : Does s s' c fd op mask success fd' es) (hh : Heap s) (hc : c < s.nextCtx) : Heap s' := by
  have hctl : Heap (s.epollCtl op fd mask c success) := hh.epollCtl hc
  refine ⟨fun d hd => ?_, ?_, ?_, ?_⟩
  · rw [h.nextCtx, State.epollCtl_nextCtx] at hd
    rw [h.other d (by omega), State.epollCtl_ctx]
    exact hh.fresh d hd
  · rw [h.nextCtx, h.fdContexts]
    exact hctl.made
  · rw [h.nextCtx, h.epfd]
    exact hctl.kernel
  · rw [h.nextCtx]
    exact hctl.bound

/-! ## Entries -/

/-- The kernel's entries and the contexts they point to. -/
structure Linked (R : BitVec 32 → Events → Prop) (s : State) : Prop where
  nodup : s.fdContexts.Nodup
  entry : ∀ fd m c, s.epfd fd = some (m, c) →
    R m (s.ctx c).events ∧ (s.ctx c).fd = fd ∧ ∀ i, s.fdContexts[i]? = some c → i = fd
  named : ∀ fd c, s.fdContexts[fd]? = some c → (s.ctx c).events ≠ .none → (s.ctx c).fd = fd

variable {R : BitVec 32 → Events → Prop}

/-- At first the kernel has no entry, and no context an event. -/
theorem Linked.init : Linked R IOManager.init where
  nodup := List.nodup_range
  entry fd m c h := by cases h
  named fd c _ h := absurd rfl h

/-- Context `c` belongs to descriptor `fd`. -/
structure Belongs (s : State) (c fd : ℕ) : Prop where
  table : ∀ i, s.fdContexts[i]? = some c → i = fd
  kernel : ∀ i m, s.epfd i = some (m, c) → i = fd

/-- A context found in the table belongs to its descriptor. -/
theorem Linked.belongs {c fd : ℕ} (hl : Linked R s) (h : s.fdContexts[fd]? = some c) :
    Belongs s c fd where
  table _ hi :=
    (List.getElem?_inj (List.getElem?_eq_some_iff.mp hi).choose hl.nodup).mp (hi.trans h.symm)
  kernel i m hm := ((hl.entry i m c hm).2.2 fd h).symm

/-- So does one the kernel has the pointer of. -/
theorem Linked.belongs_of_entry {c fd : ℕ} {m : BitVec 32} (hl : Linked R s)
    (h : s.epfd fd = some (m, c)) : Belongs s c fd where
  table := (hl.entry fd m c h).2.2
  kernel i m' hm := (hl.entry i m' c hm).2.1.symm.trans (hl.entry fd m c h).2.1

/-- An operation keeps the two related if what it leaves is. -/
theorem Linked.does {c fd fd' : ℕ} {op : CtlOp} {mask : BitVec 32} {es : Events} (hl : Linked R s)
    (hb : Belongs s c fd) (hdoes : Does s s' c fd op mask true fd' es)
    (hfd : es ≠ .none ∨ op ≠ .del → fd' = fd) (hR : op ≠ .del → R mask es) : Linked R s' where
  nodup := by
    rw [hdoes.fdContexts, State.epollCtl_fdContexts]
    exact hl.nodup
  entry i m d h := by
    rw [hdoes.fdContexts, State.epollCtl_fdContexts]
    rw [hdoes.epfd] at h
    by_cases hi : i = fd
    · rw [hi, State.epollCtl_epfd_self] at h
      split at h
      case isTrue => cases h
      case isFalse hop =>
        cases h
        rw [hdoes.events, hdoes.fd, hi]
        exact ⟨hR hop, hfd (Or.inr hop), hb.table⟩
    · rw [State.epollCtl_epfd_of_ne _ _ _ _ _ _ hi] at h
      -- the entry points to another context, which has not been written
      have hdc : d ≠ c := by
        rintro rfl
        exact hi (hb.kernel i m h)
      rw [hdoes.other d hdc, State.epollCtl_ctx]
      exact hl.entry i m d h
  named i d h hevents := by
    rw [hdoes.fdContexts, State.epollCtl_fdContexts] at h
    by_cases hdc : d = c
    · rw [hdc] at h hevents ⊢
      rw [hdoes.events] at hevents
      rw [hb.table i h, hdoes.fd]
      exact hfd (Or.inl hevents)
    · rw [hdoes.other d hdc, State.epollCtl_ctx] at hevents ⊢
      exact hl.named i d h hevents

section Ops

variable {c fd : ℕ} {ev : Event}

/-- `addEvent` keeps the link if the new mask and the new events are in the relation. -/
theorem Linked.addEvent (hl : Linked R s) (hb : Belongs s c fd) {cb : Option ℕ} {self : ℕ}
    {scheduler : Option ℕ} {r : ℤ}
    (hR : R (EPOLLET ||| ((s.ctx c).events.insert ev).bits) ((s.ctx c).events.insert ev))
    (h : s.addEvent c fd ev cb self scheduler true = .ok (r, s')) : Linked R s' := by
  obtain ⟨op, -, hdoes⟩ := does_addEvent h
  exact hl.does hb hdoes (fun _ => rfl) (fun _ => hR)

/-- `delEvent` does, if what is left is in the relation. -/
theorem Linked.delEvent (hl : Linked R s) (hc : s.fdContexts[fd]? = some c) {r : Bool}
    (hR : (s.ctx c).events.has ev = true → (s.ctx c).events.erase ev ≠ .none →
      R ((s.ctx c).events.erase ev).bits ((s.ctx c).events.erase ev))
    (h : s.delEvent c fd ev true = .ok (r, s')) : Linked R s' := by
  rcases does_delEvent h with ⟨-, rfl⟩ | ⟨hhas, hdoes⟩
  · exact hl
  · apply hl.does (hl.belongs hc) hdoes
    · intro _
      apply hl.named fd c hc
      intro hnone
      rw [hnone] at hhas
      cases ev <;> cases hhas
    · intro hop
      apply hR hhas
      intro hnone
      exact hop (if_neg (not_not.mpr hnone))

/-- `cancelAll` leaves no entry and no event, which need no relation. -/
theorem Linked.cancelAll (hl : Linked R s) (hb : Belongs s c fd) {r : Bool}
    (h : s.cancelAll c fd true = .ok (r, s')) : Linked R s' := by
  rcases does_cancelAll h with ⟨-, rfl⟩ | ⟨-, hdoes⟩
  · exact hl
  · apply hl.does hb hdoes
    · intro hor
      rcases hor with hne | hne <;> exact absurd rfl hne
    · intro hne
      exact absurd rfl hne

/-- A report writes `EPOLLET` with the events that are left. -/
theorem Linked.handle (hl : Linked R s) (hb : Belongs s c (s.ctx c).fd) {events : BitVec 32}
    (hR : ∀ e ≠ .none, R (EPOLLET ||| e.bits) e) (h : s.handle c events true = .ok s') :
    Linked R s' := by
  rcases does_handle h with rfl | ⟨op, hop, hdoes⟩
  · exact hl
  · apply hl.does hb hdoes (fun _ => rfl)
    intro hne
    apply hR
    intro hnone
    exact hne (hop.mpr hnone)

end Ops

/-- New contexts have no events and no entry. -/
theorem Linked.resized (hl : Linked R s) (hh : Heap s) (size : ℕ) :
    Linked R (s.resized size) where
  nodup := by
    refine List.nodup_append.mpr ⟨hl.nodup.sublist (List.take_sublist ..), List.nodup_range', ?_⟩
    -- new objects have addresses of their own
    intro c hc d hd heq
    have hlt := hh.made c (List.mem_of_mem_take hc)
    have hge := (List.mem_range'_1.mp hd).1
    omega
  entry fd m c h := by
    obtain ⟨hR, hfd, htable⟩ := hl.entry fd m c h
    refine ⟨hR, hfd, fun i hi => ?_⟩
    rcases resized_getElem? hi with hi | ⟨-, hnew⟩
    · exact htable i hi
    · exact absurd (hh.kernel fd m c h) (Nat.not_lt.mpr hnew)
  named fd c h hevents := by
    rcases resized_getElem? h with h | ⟨-, hnew⟩
    · exact hl.named fd c h hevents
    · have hnone : (s.ctx c).events = .none := by
        rw [hh.fresh c hnew]
        rfl
      exact absurd hnone hevents

/-- A lookup keeps the link. -/
theorem Linked.lookup {fd c : ℕ} (hl : Linked R s) (hh : Heap s)
    (h : s.lookup fd = .ok (c, s')) : Linked R s' :=
  State.lookup_invariant h hl fun size _ => hl.resized hh size

end CoKV.IOManager
