import CoKV.IOManager.Links
import CoKV.Lib.Run
import Mathlib.Data.List.Nodup

/-!
# What a batch of reports wakes up

`woken_iff`: a batch of any length wakes up whoever it should exactly if no error is reported for a
context that waits to write without `EPOLLOUT` being reported too, and what is due has a scheduler.
For an error `idle` adds `(EPOLLIN | EPOLLHUP) & ctx->events`, which never has `EPOLLOUT`.
-/

namespace CoKV.IOManager

/-! ## What is reported -/

/-- `epoll_wait` has reported the event. -/
def Report.has (r : Report) (ev : Event) : Bool := r.events &&& ev.bits != 0#32

/-- It has reported `EPOLLERR` or `EPOLLHUP`. -/
def Report.failed (r : Report) : Bool := r.events &&& (EPOLLERR ||| EPOLLHUP) != 0#32

namespace Events

/-- Two sets of events meet. -/
theorem meet_iff {e real : Events} : e.bits &&& real.bits ≠ 0#32 ↔
    e.read = true ∧ real.read = true ∨ e.write = true ∧ real.write = true := by
  obtain ⟨r, w⟩ := e
  obtain ⟨r', w'⟩ := real
  cases r <;> cases w <;> cases r' <;> cases w' <;> decide

/-- An event in both has its bit in the meet. -/
theorem meet_of_has {e real : Events} {ev : Event} (h : e.has ev = true) (h' : real.has ev = true) :
    e.bits &&& real.bits ≠ 0#32 := by
  rw [meet_iff]
  cases ev with
  | none => cases h
  | read => exact Or.inl ⟨h, h'⟩
  | write => exact Or.inr ⟨h, h'⟩

/-- Events that do not meet leave everything. -/
theorem diff_of_not_meet {e real : Events} (h : e.bits &&& real.bits = 0#32) : e.diff real = e := by
  revert h
  obtain ⟨r, w⟩ := e
  obtain ⟨r', w'⟩ := real
  cases r <;> cases w <;> cases r' <;> cases w' <;> decide

/-- Nothing is left exactly if everything has come. -/
theorem diff_eq_none_iff {e real : Events} : e.diff real = .none ↔
    (e.read = true → real.read = true) ∧ (e.write = true → real.write = true) := by
  obtain ⟨r, w⟩ := e
  obtain ⟨r', w'⟩ := real
  cases r <;> cases w <;> cases r' <;> cases w' <;> decide

end Events

/-- `EPOLLOUT` is in the mask only if it has been reported. -/
theorem realEvents_write (x : FdContext) (events : BitVec 32) :
    (x.realEvents events).has .write = (events &&& EPOLLOUT != 0#32) := by
  have hmask : ((EPOLLIN ||| EPOLLHUP) &&& x.events.bits) &&& EPOLLOUT = 0#32 := by
    generalize x.events = e
    obtain ⟨r, w⟩ := e
    cases r <;> cases w <;> rfl
  show (_ &&& EPOLLOUT != 0#32) = _
  split
  · rw [BitVec.and_or_distrib_right, hmask, BitVec.or_zero]
  · rfl

/-- `EPOLLIN` is in the mask if it has been reported, or with an error, if somebody reads. -/
theorem realEvents_read (x : FdContext) (events : BitVec 32) : (x.realEvents events).has .read
    = (events &&& EPOLLIN != 0#32 || (events &&& (EPOLLERR ||| EPOLLHUP) != 0#32 && x.events.read)) := by
  have hmask : ((EPOLLIN ||| EPOLLHUP) &&& x.events.bits) &&& EPOLLIN
      = if x.events.read then EPOLLIN else 0#32 := by
    generalize x.events = e
    obtain ⟨r, w⟩ := e
    cases r <;> cases w <;> rfl
  show (_ &&& EPOLLIN != 0#32) = _
  split
  case isTrue hfailed =>
    have hbool : (events &&& (EPOLLERR ||| EPOLLHUP) != 0#32) = true := by simpa using hfailed
    rw [BitVec.and_or_distrib_right, hmask, hbool, Bool.true_and]
    cases x.events.read with
    | false => simp
    | true =>
      rw [Bool.or_true, bne_iff_ne]
      intro hzero
      have hin := (BitVec.or_eq_zero_iff.mp hzero).2
      exact absurd hin (by decide)
  case isFalse hok =>
    have hbool : (events &&& (EPOLLERR ||| EPOLLHUP) != 0#32) = false := by simpa using hok
    rw [hbool, Bool.false_and, Bool.or_false]

/-- What is reported is triggered. -/
theorem real_of_has {r : Report} {ev : Event} (x : FdContext) (h : r.has ev = true) :
    (x.realEvents r.events).has ev = true := by
  cases ev with
  | none =>
    unfold Report.has Event.bits at h
    rw [BitVec.and_zero] at h
    exact absurd h (by decide)
  | read =>
    rw [realEvents_read]
    exact Bool.or_eq_true_iff.mpr (Or.inl h)
  | write =>
    rw [realEvents_write]
    exact h

/-! ## One report -/

section Handle

variable {s s' : State} {c : ℕ} {events : BitVec 32} {success : Bool}

/-- A report that is not passed over. -/
def Meets (x : FdContext) (events : BitVec 32) : Prop :=
  x.events.bits &&& (x.realEvents events).bits ≠ 0#32

/-- What a report that has been handled leaves: `new` are those who have been scheduled. -/
structure Answered (s s' : State) (c : ℕ) (events : BitVec 32) (new : List Waiter) : Prop where
  handed : s'.handed = s.handed ++ new
  waiters : ∀ ev, (s.ctx c).events.has ev = true → ((s.ctx c).realEvents events).has ev = true →
    ∀ w ∈ ((s.ctx c).getEventContext ev).waiter c ev, w ∈ new
  left : (s'.ctx c).events = (s.ctx c).events.diff ((s.ctx c).realEvents events)
  contexts : ∀ d ≠ c, s'.ctx d = s.ctx d
  entries : ∀ fd ≠ (s.ctx c).fd, s'.epfd fd = s.epfd fd
  schedulers : Meets (s.ctx c) events → ∀ ev, ((s.ctx c).realEvents events).has ev = true →
    ((s.ctx c).getEventContext ev).scheduler ≠ none

/-- A report whose events are not registered. -/
theorem answered_of_not_meets (h : ¬ Meets (s.ctx c) events) : Answered s s c events [] where
  handed := (List.append_nil _).symm
  waiters _ hhas hreal := absurd (Events.meet_of_has hhas hreal) h
  left := (Events.diff_of_not_meet (not_not.mp h)).symm
  contexts _ _ := rfl
  entries _ _ := rfl
  schedulers hmeets := absurd hmeets h

/-- A report that ends is answered. -/
theorem handle_answered (h : s.handle c events success = .ok s') :
    ∃ new, Answered s s' c events new := by
  by_cases hmeets : Meets (s.ctx c) events
  · have hdoes : ∃ op t, (s.epollCtl op (s.ctx c).fd
        (EPOLLET ||| ((s.ctx c).events.diff ((s.ctx c).realEvents events)).bits) c success).fireIf
          (((s.ctx c).realEvents events).has .read) c .read = .ok t ∧
        t.fireIf (((s.ctx c).realEvents events).has .write) c .write = .ok s' := by
      unfold State.handle at h
      dsimp only at h
      rw [if_neg hmeets] at h
      obtain ⟨t, ht, h⟩ := ok_of_bind h
      exact ⟨_, t, ht, h⟩
    obtain ⟨op, t, hread, hwrite⟩ := hdoes
    have hfirst := fireIf_handed hread
    have hsecond := fireIf_handed hwrite
    -- the slot of the writer is as it was
    have hne : Event.write ≠ .read := by decide
    obtain ⟨hslot, -⟩ := fireIf_slot hread (by decide) (by decide) hne
    rw [State.epollCtl_ctx] at hslot hfirst
    rw [State.epollCtl_handed] at hfirst
    rw [hslot, hfirst, List.append_assoc] at hsecond
    have hwrote := wrote_fireIf hread
    have hwrote' := wrote_fireIf hwrite
    refine ⟨_, hsecond, ?_, ?_, ?_, fun fd hfd => handle_epfd h hfd, ?_⟩
    · intro ev hhas hreal w hw
      cases ev with
      | none => cases hhas
      | read =>
        rw [if_pos hreal]
        exact List.mem_append_left _ (Option.mem_toList.mpr hw)
      | write =>
        rw [if_pos hreal]
        exact List.mem_append_right _ (Option.mem_toList.mpr hw)
    · rcases does_handle h with rfl | ⟨_, -, hdoes⟩
      · rw [hwrote'.events, hwrote.events, State.epollCtl_ctx]
        generalize (s'.ctx c).realEvents events = real
        generalize (s'.ctx c).events = e
        obtain ⟨r, w⟩ := e
        obtain ⟨r', w'⟩ := real
        cases r <;> cases w <;> cases r' <;> cases w' <;> rfl
      · exact hdoes.events
    · intro d hd
      rw [hwrote'.other d hd, hwrote.other d hd, State.epollCtl_ctx]
    · intro _ ev hreal
      cases ev with
      | none => cases hreal
      | read =>
        have hsched := fireIf_scheduler hread hreal
        rwa [State.epollCtl_ctx] at hsched
      | write =>
        have hsched := fireIf_scheduler hwrite hreal
        rwa [hslot] at hsched
  · have hsame : s' = s := by
      unfold State.handle at h
      dsimp only at h
      rw [if_pos (not_not.mp hmeets)] at h
      exact (Except.ok.inj h).symm
    rw [hsame]
    exact ⟨[], answered_of_not_meets hmeets⟩

/-- A report is handled, if what is triggered has a scheduler. -/
theorem handle_of_schedulers (h : Meets (s.ctx c) events →
    ∀ ev, ((s.ctx c).realEvents events).has ev = true →
      ((s.ctx c).getEventContext ev).scheduler ≠ none) :
    ∃ s', s.handle c events success = .ok s' := by
  unfold State.handle
  dsimp only
  by_cases hmeets : Meets (s.ctx c) events
  · rw [if_neg hmeets]
    set u := s.epollCtl _ _ _ c success with hu
    have huctx : u.ctx = s.ctx := State.epollCtl_ctx ..
    have hfires : ∀ v : State, ∀ ev,
        (((s.ctx c).realEvents events).has ev = true → ((v.ctx c).getEventContext ev).scheduler ≠ none) →
        ∃ v', v.fireIf (((s.ctx c).realEvents events).has ev) c ev = .ok v' := by
      intro v ev hsched
      cases hreal : ((s.ctx c).realEvents events).has ev with
      | false => exact ⟨v, rfl⟩
      | true => exact State.fire_of_scheduler (hsched hreal)
    obtain ⟨t, ht⟩ := hfires u .read (by rw [huctx]; exact h hmeets .read)
    have hne : Event.write ≠ .read := by decide
    have hslot := (fireIf_slot ht (by decide) (by decide) hne).1
    rw [huctx] at hslot
    obtain ⟨s', hs'⟩ := hfires t .write (by rw [hslot]; exact h hmeets .write)
    refine ⟨s', ?_⟩
    rw [ht]
    exact hs'
  · rw [if_pos (not_not.mp hmeets)]
    exact ⟨s, rfl⟩

end Handle

/-! ## A batch -/

section Batch

variable {s s' t : State} {reports : List Report}

/-- What a batch that has been gone through leaves. -/
structure AllAnswered (s s' : State) (reports : List Report) (new : List Waiter) : Prop where
  handed : s'.handed = s.handed ++ new
  waiters : ∀ r ∈ reports, ∀ ev, (s.ctx r.ctx).events.has ev = true →
    ((s.ctx r.ctx).realEvents r.events).has ev = true →
      ∀ w ∈ ((s.ctx r.ctx).getEventContext ev).waiter r.ctx ev, w ∈ new
  left : ∀ r ∈ reports,
    (s'.ctx r.ctx).events = (s.ctx r.ctx).events.diff ((s.ctx r.ctx).realEvents r.events)
  contexts : ∀ c, c ∉ reports.map Report.ctx → s'.ctx c = s.ctx c
  entries : ∀ fd, (∀ r ∈ reports, fd ≠ (s.ctx r.ctx).fd) → s'.epfd fd = s.epfd fd
  schedulers : ∀ r ∈ reports, Meets (s.ctx r.ctx) r.events →
    ∀ ev, ((s.ctx r.ctx).realEvents r.events).has ev = true →
      ((s.ctx r.ctx).getEventContext ev).scheduler ≠ none

/-- The contexts of the reports that are left are as they were. -/
theorem Answered.ctx_of_mem {r : Report} {new : List Waiter} (h : Answered s t r.ctx r.events new)
    (hnotin : r.ctx ∉ reports.map Report.ctx) {r' : Report} (hr' : r' ∈ reports) :
    t.ctx r'.ctx = s.ctx r'.ctx := by
  apply h.contexts
  intro heq
  exact hnotin (List.mem_map.mpr ⟨r', hr', heq⟩)

/-- The first report and the rest of a batch, of different contexts, are answered together. -/
theorem Answered.cons {r : Report} {new new' : List Waiter}
    (h : Answered s t r.ctx r.events new) (h' : AllAnswered t s' reports new')
    (hnotin : r.ctx ∉ reports.map Report.ctx) : AllAnswered s s' (r :: reports) (new ++ new') := by
  have hsame : ∀ r' ∈ reports, t.ctx r'.ctx = s.ctx r'.ctx := fun r' hr' => h.ctx_of_mem hnotin hr'
  refine ⟨?_, ?_, ?_, ?_, ?_, ?_⟩
  · rw [h'.handed, h.handed, List.append_assoc]
  · intro r' hr' ev hhas hreal w hw
    rcases List.mem_cons.mp hr' with rfl | hr'
    · exact List.mem_append_left _ (h.waiters ev hhas hreal w hw)
    · rw [← hsame r' hr'] at hhas hreal hw
      exact List.mem_append_right _ (h'.waiters r' hr' ev hhas hreal w hw)
  · intro r' hr'
    rcases List.mem_cons.mp hr' with rfl | hr'
    · rw [h'.contexts _ hnotin, h.left]
    · rw [h'.left r' hr', hsame r' hr']
  · intro c hc
    rw [List.map_cons, List.mem_cons, not_or] at hc
    rw [h'.contexts c hc.2, h.contexts c hc.1]
  · intro fd hfd
    rw [h'.entries fd, h.entries fd (hfd r (List.mem_cons_self ..))]
    intro r' hr'
    rw [hsame r' hr']
    exact hfd r' (List.mem_cons_of_mem r hr')
  · intro r' hr' hmeets
    rcases List.mem_cons.mp hr' with rfl | hr'
    · exact h.schedulers hmeets
    · rw [← hsame r' hr'] at hmeets ⊢
      exact h'.schedulers r' hr' hmeets

/-- A batch that ends is answered, report by report. -/
theorem idle_allAnswered (hnodup : (reports.map Report.ctx).Nodup) (h : s.idle reports = .ok s') :
    ∃ new, AllAnswered s s' reports new := by
  induction reports generalizing s with
  | nil =>
    cases h
    exact ⟨[], (List.append_nil _).symm, nofun, nofun, fun _ _ => rfl, fun _ _ => rfl, nofun⟩
  | cons r reports ih =>
    obtain ⟨hnotin, hnodup⟩ := List.nodup_cons.mp hnodup
    obtain ⟨t, ht, h⟩ := ok_of_bind h
    obtain ⟨new, hr⟩ := handle_answered ht
    obtain ⟨new', hrest⟩ := ih hnodup h
    exact ⟨new ++ new', hr.cons hrest hnotin⟩

/-- A batch ends if the waiters it wakes up have schedulers. -/
theorem idle_of_schedulers (hnodup : (reports.map Report.ctx).Nodup)
    (h : ∀ r ∈ reports, Meets (s.ctx r.ctx) r.events →
      ∀ ev, ((s.ctx r.ctx).realEvents r.events).has ev = true →
        ((s.ctx r.ctx).getEventContext ev).scheduler ≠ none) :
    ∃ s', s.idle reports = .ok s' := by
  induction reports generalizing s with
  | nil => exact ⟨s, rfl⟩
  | cons r reports ih =>
    obtain ⟨hnotin, hnodup⟩ := List.nodup_cons.mp hnodup
    obtain ⟨t, ht⟩ : ∃ t, s.handle r.ctx r.events r.success = .ok t :=
      handle_of_schedulers (h r (List.mem_cons_self ..))
    obtain ⟨new, hr⟩ := handle_answered ht
    obtain ⟨s', hs'⟩ : ∃ s', t.idle reports = .ok s' := by
      apply ih hnodup
      intro r' hr'
      rw [hr.ctx_of_mem hnotin hr']
      exact h r' (List.mem_cons_of_mem r hr')
    refine ⟨s', ?_⟩
    unfold State.idle
    rw [List.foldlM_cons, ht]
    exact hs'

end Batch

/-! ## What `epoll_wait` can report -/

/-- A batch is about registered descriptors, and reports each context once: the context of a report
is the one of its descriptor. -/
structure Batch (s : State) (reports : List Report) : Prop where
  own : ∀ r ∈ reports, (s.ctx r.ctx).fd = r.fd
  once : (reports.map Report.ctx).Nodup

/-- In every run the kernel's entries point to contexts of their own descriptors. -/
structure Owned (s : State) : Prop where
  heap : Heap s
  linked : Linked (fun _ _ => True) s

section Owned

variable {s s' t : State} {c fd fd' : ℕ} {op : CtlOp} {mask : BitVec 32} {success : Bool} {es : Events}

/-- An operation keeps the links, also if its `epoll_ctl` fails. -/
theorem Owned.does (hi : Owned s) (hc : c < s.nextCtx) (hb : Belongs s c fd)
    (h : Does s s' c fd op mask success fd' es)
    (hfd : fd' = fd ∨ fd' = (s.ctx c).fd ∧ (es ≠ .none ∨ op ≠ .del → (s.ctx c).fd = fd)) :
    Owned s' where
  heap := h.heap hi.heap hc
  linked := by
    cases success with
    | true =>
      apply hi.linked.does hb h _ fun _ => trivial
      intro hor
      rcases hfd with hfd | ⟨hfd, hsame⟩
      · exact hfd
      · rw [hfd, hsame hor]
    | false =>
      have hepfd : s'.epfd = s.epfd := h.epfd
      have htable : s'.fdContexts = s.fdContexts := h.fdContexts
      refine ⟨by rw [htable]; exact hi.linked.nodup, ?_, ?_⟩
      · intro i m d hentry
        rw [hepfd] at hentry
        obtain ⟨-, hd, hunique⟩ := hi.linked.entry i m d hentry
        rw [htable]
        refine ⟨trivial, ?_, hunique⟩
        by_cases hdc : d = c
        · rw [hdc] at hentry hd ⊢
          rw [h.fd, hb.kernel i m hentry]
          rw [hb.kernel i m hentry] at hd
          rcases hfd with hfd | ⟨hfd, -⟩
          · exact hfd
          · rw [hfd, hd]
        · rw [h.other d hdc]
          exact hd
      · intro i d hentry hevents
        rw [htable] at hentry
        by_cases hdc : d = c
        · rw [hdc] at hentry hevents ⊢
          rw [h.events] at hevents
          rw [h.fd, hb.table i hentry]
          rcases hfd with hfd | ⟨hfd, hsame⟩
          · exact hfd
          · rw [hfd, hsame (Or.inl hevents)]
        · rw [h.other d hdc] at hevents ⊢
          exact hi.linked.named i d hentry hevents

/-- The locked sections keep every context with its descriptor. -/
theorem Owned.act (hi : Owned s) {op : Op} (hc : s.fdContexts[op.fd]? = some c)
    (h : s.act c success op = .ok s') : Owned s' := by
  rcases does_act h with rfl | ⟨ctl, mask, fd', es, hdoes, hfd⟩
  · exact hi
  · apply hi.does (hi.heap.made c (List.mem_of_getElem? hc)) (hi.linked.belongs hc) hdoes
    rcases hfd with hfd | ⟨hfd, hne⟩
    · exact Or.inl hfd
    · exact Or.inr ⟨hfd, fun hor => hi.linked.named op.fd c hc (hne hor)⟩

/-- So does a report. -/
theorem Owned.handle (hi : Owned s) {events : BitVec 32} (hc : c < s.nextCtx)
    (hb : Belongs s c (s.ctx c).fd) (h : s.handle c events success = .ok s') :
    Owned s' ∧ ∀ d, Belongs s d (s.ctx d).fd → Belongs s' d (s'.ctx d).fd := by
  rcases does_handle h with rfl | ⟨op, -, hdoes⟩
  · exact ⟨hi, fun _ hd => hd⟩
  · refine ⟨hi.does hc hb hdoes (Or.inl rfl), ?_⟩
    intro d hd
    rw [handle_fd h]
    constructor
    · rw [handle_fdContexts h]
      exact hd.table
    · intro i m hentry
      rw [hdoes.epfd] at hentry
      rcases epollCtl_epfd hentry with hentry | ⟨hi, -, rfl⟩
      · exact hd.kernel i m hentry
      · exact hi

/-- So does a batch of reports. -/
theorem Owned.idle (hi : Owned s) {reports : List Report}
    (hreports : ∀ r ∈ reports, (s.epfd r.fd).map Prod.snd = some r.ctx)
    (h : s.idle reports = .ok s') : Owned s' := by
  have hinv := State.idle_invariant (I := fun u => Owned u ∧ ∀ r ∈ reports,
    r.ctx < u.nextCtx ∧ Belongs u r.ctx (u.ctx r.ctx).fd) h ⟨hi, ?_⟩ ?_
  · exact hinv.1
  · intro r hr
    refine ⟨hi.heap.reported hreports r hr, ?_⟩
    obtain ⟨⟨mask, c⟩, hentry, hc⟩ := Option.map_eq_some_iff.mp (hreports r hr)
    rw [← hc, (hi.linked.entry r.fd mask c hentry).2.1]
    exact hi.linked.belongs_of_entry hentry
  · rintro u u' r hr ⟨hu, hall⟩ hhandle
    obtain ⟨hu', hbelongs⟩ := hu.handle (hall r hr).1 (hall r hr).2 hhandle
    refine ⟨hu', fun r' hr' => ?_⟩
    rw [State.handle_nextCtx hhandle]
    exact ⟨(hall r' hr').1, hbelongs _ (hall r' hr').2⟩

/-- So does every step. -/
theorem Owned.step {l : Label} (hi : Owned s) (h : step s l = some s') : Owned s' := by
  rcases step_ok h with ⟨op, success, c, t, rfl, hlookup, hact⟩ | ⟨reports, rfl, hreports, hidle⟩
  · have ht : Owned t := ⟨(hi.heap.lookup hlookup).1, hi.linked.lookup hi.heap hlookup⟩
    exact ht.act (State.lookup_ok hlookup).1 hact
  · exact hi.idle hreports hidle

end Owned

/-- What `epoll_wait` reports in a run, each registered descriptor once, is a batch. -/
theorem batch_of_run {s : State} (h : Run step anyStep init s) {reports : List Report}
    (hreports : ∀ r ∈ reports, (s.epfd r.fd).map Prod.snd = some r.ctx)
    (hnodup : (reports.map Report.fd).Nodup) : Batch s reports := by
  have hi : Owned s := h.invariant ⟨Heap.init, Linked.init⟩ fun _ _ _ hi _ hs => hi.step hs
  have hown : ∀ r ∈ reports, (s.ctx r.ctx).fd = r.fd := by
    intro r hr
    obtain ⟨⟨mask, c⟩, hentry, hc⟩ := Option.map_eq_some_iff.mp (hreports r hr)
    rw [← hc]
    exact (hi.linked.entry r.fd mask c hentry).2.1
  refine ⟨hown, ?_⟩
  -- the descriptor can be read off the context
  have hmap : reports.map Report.fd = (reports.map Report.ctx).map fun c => (s.ctx c).fd := by
    rw [List.map_map]
    exact List.map_congr_left fun r hr => (hown r hr).symm
  rw [hmap] at hnodup
  exact List.Nodup.of_map _ hnodup

/-! ## Who is woken up -/

/-- What `idle` is to do with a batch: `new` are those it has scheduled. -/
structure Woken (s s' : State) (reports : List Report) (new : List Waiter) : Prop where
  handed : s'.handed = s.handed ++ new
  ready : ∀ r ∈ reports, ∀ ev, r.has ev = true → (s.ctx r.ctx).events.has ev = true →
    ∀ w ∈ ((s.ctx r.ctx).getEventContext ev).waiter r.ctx ev, w ∈ new
  failed : ∀ r ∈ reports, r.failed = true → (s'.ctx r.ctx).events = .none ∧
    ∀ ev, (s.ctx r.ctx).events.has ev = true →
      ∀ w ∈ ((s.ctx r.ctx).getEventContext ev).waiter r.ctx ev, w ∈ new
  contexts : ∀ c, c ∉ reports.map Report.ctx → s'.ctx c = s.ctx c
  entries : ∀ fd, fd ∉ reports.map Report.fd → s'.epfd fd = s.epfd fd

/-- What a report calls for: what it has reported, and with an error, all that is registered. -/
def Due (x : FdContext) (r : Report) (ev : Event) : Prop :=
  r.has ev = true ∨ r.failed = true ∧ x.events.has ev = true

instance (x : FdContext) (r : Report) (ev : Event) : Decidable (Due x r ev) :=
  inferInstanceAs (Decidable (_ ∨ _))

/-- A report that `idle` deals with as it should: with an error, nobody waits to write, or
`EPOLLOUT` is reported too; and if something registered is due, then all that is due has a
scheduler. -/
def Answerable (x : FdContext) (r : Report) : Prop :=
  (r.failed = true → x.events.write = true → r.has .write = true) ∧
  ((∃ ev, x.events.has ev = true ∧ Due x r ev) →
    ∀ ev, Due x r ev → (x.getEventContext ev).scheduler ≠ none)

section Woken

variable {s s' : State} {reports : List Report} {new : List Waiter}

/-- Unless a writer is passed over, what is due is triggered. -/
theorem real_iff_due {x : FdContext} {r : Report}
    (h : r.failed = true → x.events.write = true → r.has .write = true) (ev : Event) :
    (x.realEvents r.events).has ev = true ↔ Due x r ev := by
  constructor
  · intro hreal
    cases ev with
    | none => cases hreal
    | read =>
      rw [realEvents_read, Bool.or_eq_true_iff, Bool.and_eq_true_iff] at hreal
      exact hreal
    | write =>
      rw [realEvents_write] at hreal
      exact Or.inl hreal
  · intro hdue
    rcases hdue with hready | ⟨hfailed, hhas⟩
    · exact real_of_has x hready
    · cases ev with
      | none => cases hhas
      | read =>
        rw [realEvents_read, Bool.or_eq_true_iff, Bool.and_eq_true_iff]
        exact Or.inr ⟨hfailed, hhas⟩
      | write => exact real_of_has x (h hfailed hhas)

/-- And a report is passed over if nothing registered is due. -/
theorem meets_iff_due {x : FdContext} {r : Report}
    (h : r.failed = true → x.events.write = true → r.has .write = true) :
    Meets x r.events ↔ ∃ ev, x.events.has ev = true ∧ Due x r ev := by
  constructor
  · intro hmeets
    rcases Events.meet_iff.mp hmeets with ⟨hhas, hreal⟩ | ⟨hhas, hreal⟩
    · exact ⟨.read, hhas, (real_iff_due h .read).mp hreal⟩
    · exact ⟨.write, hhas, (real_iff_due h .write).mp hreal⟩
  · intro ⟨ev, hhas, hdue⟩
    exact Events.meet_of_has hhas ((real_iff_due h ev).mpr hdue)

/-- With an error, everything is triggered. -/
theorem Answerable.real_of_failed {x : FdContext} {r : Report} (h : Answerable x r)
    (hfailed : r.failed = true) {ev : Event} (hev : x.events.has ev = true) :
    (x.realEvents r.events).has ev = true :=
  (real_iff_due h.1 ev).mpr (Or.inr ⟨hfailed, hev⟩)

/-- And what is triggered has a scheduler. -/
theorem Answerable.schedulers {x : FdContext} {r : Report} (h : Answerable x r)
    (hmeets : Meets x r.events) {ev : Event} (hreal : (x.realEvents r.events).has ev = true) :
    (x.getEventContext ev).scheduler ≠ none :=
  h.2 ((meets_iff_due h.1).mp hmeets) ev ((real_iff_due h.1 ev).mp hreal)

/-- A batch of answerable reports wakes up who it names. -/
theorem AllAnswered.woken (h : AllAnswered s s' reports new) (hbatch : Batch s reports)
    (hall : ∀ r ∈ reports, Answerable (s.ctx r.ctx) r) : Woken s s' reports new where
  handed := h.handed
  ready r hr ev hready hhas := h.waiters r hr ev hhas (real_of_has _ hready)
  failed r hr hfailed := by
    constructor
    · have hreal : ∀ ev, (s.ctx r.ctx).events.has ev = true →
          ((s.ctx r.ctx).realEvents r.events).has ev = true :=
        fun _ => (hall r hr).real_of_failed hfailed
      rw [h.left r hr, Events.diff_eq_none_iff]
      exact ⟨hreal .read, hreal .write⟩
    · intro ev hhas
      exact h.waiters r hr ev hhas ((hall r hr).real_of_failed hfailed hhas)
  contexts := h.contexts
  entries fd hfd := by
    apply h.entries
    intro r hr heq
    rw [hbatch.own r hr] at heq
    exact hfd (List.mem_map.mpr ⟨r, hr, heq.symm⟩)

/-- Only answerable reports do. -/
theorem AllAnswered.answerable {new' : List Waiter} (h : AllAnswered s s' reports new)
    (hwoken : Woken s s' reports new') : ∀ r ∈ reports, Answerable (s.ctx r.ctx) r := by
  intro r hr
  have hwrite : r.failed = true → (s.ctx r.ctx).events.write = true → r.has .write = true := by
    intro hfailed hwrite
    have hnone := (hwoken.failed r hr hfailed).1
    rw [h.left r hr, Events.diff_eq_none_iff] at hnone
    have hreal : ((s.ctx r.ctx).realEvents r.events).has .write = true := hnone.2 hwrite
    rw [realEvents_write] at hreal
    exact hreal
  refine ⟨hwrite, fun hdue ev hev => ?_⟩
  apply h.schedulers r hr
  · exact (meets_iff_due hwrite).mpr hdue
  · exact (real_iff_due hwrite ev).mpr hev

end Woken

/-- **A batch of reports**: `idle` wakes up whoever it should, and changes nothing else, exactly if
it can deal with each report of the batch. -/
theorem woken_iff {s : State} {reports : List Report} (h : Batch s reports) :
    (∃ s' new, s.idle reports = .ok s' ∧ Woken s s' reports new) ↔
      ∀ r ∈ reports, Answerable (s.ctx r.ctx) r := by
  constructor
  · rintro ⟨s', new', hidle, hwoken⟩
    obtain ⟨new, hall⟩ := idle_allAnswered h.once hidle
    exact hall.answerable hwoken
  · intro hall
    obtain ⟨s', hidle⟩ :=
      idle_of_schedulers h.once fun r hr hmeets _ => (hall r hr).schedulers hmeets
    obtain ⟨new, hnew⟩ := idle_allAnswered h.once hidle
    exact ⟨s', new, hidle, hnew.woken h hall⟩

/-- A coroutine reads from 5, and a callback writes to 40; 5 is hung up while 40 is ready. -/
theorem woken_iff_witness : ∃ s s', Run step anyStep init s ∧
    s.idle [⟨5, 5, EPOLLHUP, true⟩, ⟨40, 40, EPOLLOUT, true⟩] = .ok s' ∧
    s'.handed = [⟨5, .read, some 0, .co 1⟩, ⟨40, .write, some 0, .cb 7⟩] := by
  have hrun : Run step anyStep init _ :=
    (Run.refl.tail (a := .call (.addEvent 5 .read none 1 (some 0)) true) trivial rfl).tail
      (a := .call (.addEvent 40 .write (some 7) 2 (some 0)) true) trivial rfl
  have hnodup : (([⟨5, 5, EPOLLHUP, true⟩, ⟨40, 40, EPOLLOUT, true⟩] : List Report).map
    Report.fd).Nodup := by decide
  have hbatch := batch_of_run hrun (by
    intro r hr
    rcases List.mem_pair.mp hr with rfl | rfl <;> rfl) hnodup
  obtain ⟨s', new, hidle, hwoken⟩ := (woken_iff hbatch).mpr (by
    intro r hr
    rcases List.mem_pair.mp hr with rfl | rfl
    · refine ⟨fun _ hwrite => absurd hwrite (by decide), ?_⟩
      intro _ ev hev
      cases ev with
      | none | write => exact absurd hev (by decide)
      | read => decide
    · refine ⟨fun hfailed => absurd hfailed (by decide), ?_⟩
      intro _ ev hev
      cases ev with
      | none | read => exact absurd hev (by decide)
      | write => decide)
  refine ⟨_, s', hrun, hidle, ?_⟩
  cases hidle
  rfl

/-- **A writer that is not woken**: only a coroutine that waits to write is registered, and
`EPOLLERR` is reported. -/
theorem silent_not_woken : ¬ ∀ s reports, Run step anyStep init s →
    (∀ r ∈ reports, (s.epfd r.fd).map Prod.snd = some r.ctx) → (reports.map Report.fd).Nodup →
    ∃ s' new, s.idle reports = .ok s' ∧ Woken s s' reports new := by
  intro h
  have hrun : Run step anyStep init _ :=
    Run.refl.tail (a := .call (.addEvent 5 .write none 1 (some 0)) true) trivial rfl
  obtain ⟨s', new, hidle, hwoken⟩ := h _ [⟨5, 5, EPOLLERR, true⟩] hrun
    (by
      intro r hr
      rw [List.mem_singleton.mp hr]
      rfl)
    (by decide)
  cases hidle
  have hfailed := (hwoken.failed _ (List.mem_singleton_self _) (by decide)).1
  exact absurd hfailed (by decide)

end CoKV.IOManager
