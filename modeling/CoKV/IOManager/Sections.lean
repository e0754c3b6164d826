import CoKV.IOManager.Defs
import CoKV.Lib.Except

/-!
# What a section does

One lemma for each section of `IOManager`: if it ends without a fault, what it has found and the
state it leaves. `idle_invariant` is the induction over the reports of `epoll_wait`, and
`call_ok` and `step_ok` take a step apart.
-/

namespace CoKV.IOManager

variable {s s' : State}

namespace State

/-! ## `epoll_ctl` -/

section Ctl

variable (s : State) (op : CtlOp) (fd : ℕ) (mask : BitVec 32) (ptr : ℕ) (success : Bool)

@[simp] theorem epollCtl_ctx : (s.epollCtl op fd mask ptr success).ctx = s.ctx := by
  unfold epollCtl
  split <;> rfl

@[simp] theorem epollCtl_nextCtx : (s.epollCtl op fd mask ptr success).nextCtx = s.nextCtx := by
  unfold epollCtl
  split <;> rfl

@[simp] theorem epollCtl_fdContexts :
    (s.epollCtl op fd mask ptr success).fdContexts = s.fdContexts := by
  unfold epollCtl
  split <;> rfl

@[simp] theorem epollCtl_pendingEventCount :
    (s.epollCtl op fd mask ptr success).pendingEventCount = s.pendingEventCount := by
  unfold epollCtl
  split <;> rfl

@[simp] theorem epollCtl_registered :
    (s.epollCtl op fd mask ptr success).registered = s.registered := by
  unfold epollCtl
  split <;> rfl

@[simp] theorem epollCtl_dropped : (s.epollCtl op fd mask ptr success).dropped = s.dropped := by
  unfold epollCtl
  split <;> rfl

@[simp] theorem epollCtl_handed : (s.epollCtl op fd mask ptr success).handed = s.handed := by
  unfold epollCtl
  split <;> rfl

/-- A descriptor that a successful `epoll_ctl` is about. -/
theorem epollCtl_epfd_self : (s.epollCtl op fd mask ptr true).epfd fd
    = if op = .del then none else some (mask, ptr) := Function.update_self ..

/-- `epoll_ctl` changes the interest of its own descriptor only. -/
theorem epollCtl_epfd_of_ne {fd' : ℕ} (h : fd' ≠ fd) :
    (s.epollCtl op fd mask ptr success).epfd fd' = s.epfd fd' := by
  unfold epollCtl
  split
  · exact Function.update_of_ne h ..
  · rfl

end Ctl

@[simp] theorem setCtx_ctx_self (s : State) (c : ℕ) (x : FdContext) : (s.setCtx c x).ctx c = x :=
  Function.update_self ..

/-- Writing one context leaves the others as they are. -/
theorem setCtx_ctx_of_ne (s : State) {c d : ℕ} (x : FdContext) (h : d ≠ c) :
    (s.setCtx c x).ctx d = s.ctx d := Function.update_of_ne h ..

/-! ## The lookup -/

/-- A resize that succeeds has found room for every new context. -/
theorem contextResize_ok {size : ℕ} (h : s.contextResize size = .ok s') :
    s' = s.resized size ∧ s'.nextCtx ≤ maxContexts := by
  unfold contextResize at h
  split at h
  case isTrue hle =>
    rw [← Except.ok.inj h]
    exact ⟨rfl, hle⟩
  case isFalse => cases h

/-- The section under the write lock resizes to `fd * 1.5` and finds the entry there. -/
theorem writeSection_ok {fd c : ℕ} (h : s.writeSection fd = .ok (c, s')) :
    s'.fdContexts[fd]? = some c ∧ s' = s.resized (3 * fd / 2) ∧ s'.nextCtx ≤ maxContexts := by
  obtain ⟨t, ht, h⟩ := ok_of_bind h
  split at h
  case h_1 d hd =>
    cases h
    exact ⟨hd, contextResize_ok ht⟩
  case h_2 => cases h

/-- The section under the read lock finds the entry, or the table is too small by `size()` as an
`int`. -/
theorem readSection_ok {fd : ℕ} {r : Option ℕ} (h : s.readSection fd = .ok r) :
    (∃ c, r = some c ∧ s.fdContexts[fd]? = some c ∧ (fd : ℤ) < s.intSize) ∨
      r = none ∧ s.intSize ≤ fd := by
  unfold readSection at h
  split at h
  case isTrue hlt =>
    left
    split at h
    case h_1 c hc => exact ⟨c, (Except.ok.inj h).symm, hc, hlt⟩
    case h_2 => cases h
  case isFalse hge => exact Or.inr ⟨(Except.ok.inj h).symm, Int.not_lt.mp hge⟩

/-- A lookup leaves the table alone, or resizes it, and the context is the one in the table. -/
theorem lookup_ok {fd c : ℕ} (h : s.lookup fd = .ok (c, s')) :
    s'.fdContexts[fd]? = some c ∧
      ((fd : ℤ) < s.intSize ∧ s' = s ∨
        s.intSize ≤ fd ∧ s' = s.resized (3 * fd / 2) ∧ s'.nextCtx ≤ maxContexts) := by
  obtain ⟨r, hr, h⟩ := ok_of_bind h
  rcases readSection_ok hr with ⟨d, rfl, hd, hlt⟩ | ⟨rfl, hle⟩
  · cases h
    exact ⟨hd, Or.inl ⟨hlt, rfl⟩⟩
  · obtain ⟨hc, hs⟩ := writeSection_ok h
    exact ⟨hc, Or.inr ⟨hle, hs⟩⟩

/-- Only the table may be another one. -/
structure SameButTable (s s' : State) : Prop where
  ctx : s'.ctx = s.ctx
  epfd : s'.epfd = s.epfd
  handed : s'.handed = s.handed
  pendingEventCount : s'.pendingEventCount = s.pendingEventCount

/-- A lookup changes nothing but the table and the contexts it allocates. -/
theorem lookup_table {fd c : ℕ} (h : s.lookup fd = .ok (c, s')) : SameButTable s s' := by
  rcases (lookup_ok h).2 with ⟨-, rfl⟩ | ⟨-, rfl, -⟩
  · exact ⟨rfl, rfl, rfl, rfl⟩
  · exact ⟨rfl, rfl, rfl, rfl⟩

/-- What the resized table keeps, a lookup keeps. -/
theorem lookup_invariant {I : State → Prop} {fd c : ℕ} (h : s.lookup fd = .ok (c, s')) (hi : I s)
    (hresized : ∀ size, (s.resized size).nextCtx ≤ maxContexts → I (s.resized size)) : I s' := by
  rcases (lookup_ok h).2 with ⟨-, rfl⟩ | ⟨-, rfl, hbound⟩
  · exact hi
  · exact hresized _ hbound

/-- The only way for a resize to fail is `std::bad_alloc`. -/
theorem contextResize_error {size : ℕ} {f : Fault} (h : s.contextResize size = .error f) :
    f = .badAlloc := by
  unfold contextResize at h
  split at h <;> cases h
  rfl

/-- What a lookup fails with. -/
theorem lookup_error {fd : ℕ} {f : Fault} (h : s.lookup fd = .error f) :
    f = .outOfRange ∨ f = .badAlloc := by
  rcases error_of_bind h with hread | ⟨r, -, h⟩
  · left
    unfold readSection at hread
    split at hread
    · split at hread <;> cases hread
      rfl
    · cases hread
  · cases r with
    | some c => cases h
    | none =>
      rcases error_of_bind h with hresize | ⟨t, -, h⟩
      · exact Or.inr (contextResize_error hresize)
      · left
        split at h <;> cases h
        rfl

/-! ## Under the mutex of a context -/

variable {c fd : ℕ} {ev : Event} {success : Bool}

/-- An `addEvent` that does not stop at an assertion has found the event free, and puts the waiter
into its slot. -/
theorem addEvent_ok {cb : Option ℕ} {self : ℕ} {scheduler : Option ℕ} {r : ℤ}
    (h : s.addEvent c fd ev cb self scheduler success = .ok (r, s')) :
    (s.ctx c).events.has ev = false ∧ (s.ctx c).getEventContext ev = .empty ∧
      ∃ op, op ≠ .del ∧
        s' = { (s.epollCtl op fd (EPOLLET ||| ((s.ctx c).events.insert ev).bits) c success).setCtx c
            ((s.ctx c).add fd ev (.waiting cb self scheduler)) with
          registered := s.registered
            ++ ((EventContext.waiting cb self scheduler).waiter c ev).toList
          pendingEventCount :=
            if success then s.pendingEventCount + 1 else s.pendingEventCount } := by
  unfold addEvent at h
  dsimp only at h
  split at h
  · cases h
  · split at h
    · cases h
    · -- both assertions have been passed
      rename_i hhas hempty
      refine ⟨by simpa using hhas, not_not.mp hempty, if (s.ctx c).events ≠ .none then .mod else .add,
        by split <;> simp, ?_⟩
      rw [FdContext.events_add] at h
      unfold epollCtl at h ⊢
      cases success <;> cases h <;> rfl

/-- `delEvent` returns at once, or erases the event and drops its waiter. -/
theorem delEvent_ok {r : Bool} (h : s.delEvent c fd ev success = .ok (r, s')) :
    (s.ctx c).events.has ev = false ∧ s' = s ∨
      (s.ctx c).events.has ev = true ∧
        s' = { (s.epollCtl (if (s.ctx c).events.erase ev ≠ .none then .mod else .del) fd
            ((s.ctx c).events.erase ev).bits c success).setCtx c ((s.ctx c).del ev) with
          dropped := s.dropped ++ (((s.ctx c).getEventContext ev).waiter c ev).toList
          pendingEventCount := s.pendingEventCount - 1 } := by
  unfold delEvent at h
  dsimp only at h
  split at h
  case isTrue hhas =>
    cases h
    exact Or.inl ⟨by simpa using hhas, rfl⟩
  case isFalse hhas =>
    right
    refine ⟨by simpa using hhas, ?_⟩
    rw [FdContext.events_del] at h
    unfold epollCtl at h ⊢
    cases success <;> cases h <;> rfl

/-- `trigerEvent` needs a scheduler in the slot, takes the waiter out and hands it over. -/
theorem fire_ok (h : s.fire c ev = .ok s') :
    ((s.ctx c).getEventContext ev).scheduler ≠ none ∧
      s' = { s.setCtx c ((s.ctx c).triger ev) with
        handed := s.handed ++ (((s.ctx c).getEventContext ev).waiter c ev).toList
        pendingEventCount := s.pendingEventCount - 1 } := by
  obtain ⟨t, ht, h⟩ := ok_of_bind h
  unfold trigerEvent at ht
  dsimp only at ht
  split at ht
  · cases ht
  · rename_i k hk
    cases ht
    cases h
    exact ⟨by rw [hk]; exact Option.some_ne_none k, rfl⟩

/-- A slot with a scheduler is all that `trigerEvent` needs. -/
theorem fire_of_scheduler (h : ((s.ctx c).getEventContext ev).scheduler ≠ none) :
    ∃ s', s.fire c ev = .ok s' := by
  obtain ⟨k, hk⟩ := Option.ne_none_iff_exists'.mp h
  unfold fire trigerEvent
  dsimp only
  rw [hk]
  exact ⟨_, rfl⟩

/-- Without the bit nothing happens, with it `trigerEvent` is called. -/
theorem fireIf_ok {b : Bool} (h : s.fireIf b c ev = .ok s') :
    b = false ∧ s' = s ∨ b = true ∧ s.fire c ev = .ok s' := by
  cases b with
  | false => exact Or.inl ⟨rfl, (Except.ok.inj h).symm⟩
  | true => exact Or.inr ⟨rfl, h⟩

/-- `trigerEvent` allocates no context. -/
theorem fire_nextCtx (h : s.fire c ev = .ok s') : s'.nextCtx = s.nextCtx := by
  obtain ⟨-, rfl⟩ := fire_ok h
  rfl

/-- Nor does it behind the test of a bit. -/
theorem fireIf_nextCtx {b : Bool} (h : s.fireIf b c ev = .ok s') : s'.nextCtx = s.nextCtx := by
  rcases fireIf_ok h with ⟨-, rfl⟩ | ⟨-, h⟩
  · rfl
  · exact fire_nextCtx h

/-- `cancelEvent` returns at once only for a context without any event, and otherwise triggers. -/
theorem cancelEvent_ok {r : Bool} (h : s.cancelEvent c fd ev success = .ok (r, s')) :
    (s.ctx c).events = .none ∧ s' = s ∨
      (s.epollCtl (if (s.ctx c).events.erase ev ≠ .none then .mod else .del) fd
        (s.ctx c).events.bits c success).fire c ev = .ok s' := by
  unfold cancelEvent at h
  dsimp only at h
  -- `!ctx->events` is 1 or 0, so only `READ` can pass the guard, and only without events
  by_cases hguard : (if (s.ctx c).events = .none then 1#32 else 0#32) &&& ev.bits ≠ 0#32
  · rw [if_pos hguard] at h
    cases h
    left
    by_cases hnone : (s.ctx c).events = .none
    · exact ⟨hnone, rfl⟩
    · rw [if_neg hnone, BitVec.zero_and] at hguard
      exact absurd rfl hguard
  · rw [if_neg hguard] at h
    right
    obtain ⟨t, ht, h⟩ := ok_of_bind h
    cases h
    exact ht

/-- `cancelAll` removes the descriptor and triggers what is registered, `READ` first. -/
theorem cancelAll_ok {r : Bool} (h : s.cancelAll c fd success = .ok (r, s')) :
    (s.ctx c).events = .none ∧ s' = s ∨
      (s.ctx c).events ≠ .none ∧
        ∃ t, (s.epollCtl .del fd 0#32 c success).fireIf ((s.ctx c).events.has .read) c .read = .ok t ∧
          t.fireIf ((t.ctx c).events.has .write) c .write = .ok s' := by
  unfold cancelAll at h
  dsimp only at h
  split at h
  case isTrue hnone =>
    cases h
    exact Or.inl ⟨hnone, rfl⟩
  case isFalse hnone =>
    right
    obtain ⟨t, ht, h⟩ := ok_of_bind h
    obtain ⟨u, hu, h⟩ := ok_of_bind h
    cases h
    rw [epollCtl_ctx] at ht
    exact ⟨hnone, t, ht, hu⟩

/-- What `idle` does for one report: nothing, or one `epoll_ctl` and the events that have come. -/
theorem handle_ok {events : BitVec 32} (h : s.handle c events success = .ok s') :
    s' = s ∨ ∃ op t, (op = .del ↔ (s.ctx c).events.diff ((s.ctx c).realEvents events) = .none) ∧
      (s.epollCtl op (s.ctx c).fd
          (EPOLLET ||| ((s.ctx c).events.diff ((s.ctx c).realEvents events)).bits) c success).fireIf
        (((s.ctx c).realEvents events).has .read) c .read = .ok t ∧
      t.fireIf (((s.ctx c).realEvents events).has .write) c .write = .ok s' := by
  unfold handle at h
  dsimp only at h
  split at h
  case isTrue => exact Or.inl (Except.ok.inj h).symm
  case isFalse =>
    right
    obtain ⟨t, ht, h⟩ := ok_of_bind h
    refine ⟨_, t, ?_, ht, h⟩
    split <;> simp_all

/-- A report allocates no context. -/
theorem handle_nextCtx {events : BitVec 32} (h : s.handle c events success = .ok s') :
    s'.nextCtx = s.nextCtx := by
  rcases handle_ok h with rfl | ⟨op, t, -, hread, hwrite⟩
  · rfl
  · rw [fireIf_nextCtx hwrite, fireIf_nextCtx hread, epollCtl_nextCtx]

/-! ## Whole steps -/

/-- What the loop over the reports keeps. -/
theorem idle_invariant {I : State → Prop} {reports : List Report} (h : s.idle reports = .ok s')
    (hi : I s) (hstep : ∀ s s' r, r ∈ reports → I s →
      s.handle r.ctx r.events r.success = .ok s' → I s') : I s' := by
  induction reports generalizing s with
  | nil =>
    cases h
    exact hi
  | cons r reports ih =>
    obtain ⟨t, ht, h⟩ := ok_of_bind h
    apply ih h (hstep s t r (List.mem_cons_self ..) hi ht)
    intro u u' r' hr'
    exact hstep u u' r' (List.mem_cons_of_mem r hr')

/-- A call is a lookup followed by its locked section. -/
theorem call_ok {op : Op} (h : s.call op success = .ok s') :
    ∃ c t, s.lookup op.fd = .ok (c, t) ∧ t.act c success op = .ok s' := by
  obtain ⟨⟨c, t⟩, hlookup, hact⟩ := ok_of_bind h
  exact ⟨c, t, hlookup, hact⟩

end State

/-- A step is an operation or a batch of reports. -/
theorem step_ok {l : Label} (h : step s l = some s') :
    (∃ op success c t, l = .call op success ∧ s.lookup op.fd = .ok (c, t) ∧
      t.act c success op = .ok s') ∨
    (∃ reports, l = .idle reports ∧ (∀ r ∈ reports, (s.epfd r.fd).map Prod.snd = some r.ctx) ∧
      s.idle reports = .ok s') := by
  cases l with
  | call op success =>
    obtain ⟨c, t, hlookup, hact⟩ := State.call_ok (ok_of_toOption h)
    exact Or.inl ⟨op, success, c, t, rfl, hlookup, hact⟩
  | idle reports =>
    right
    unfold step at h
    dsimp only at h
    split at h
    case isTrue hreports => exact ⟨reports, rfl, hreports, ok_of_toOption h⟩
    case isFalse => cases h

end CoKV.IOManager
