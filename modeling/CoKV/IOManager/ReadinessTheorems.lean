import CoKV.IOManager.Readiness
import CoKV.IOManager.ReportTheorems

/-!
# Nobody who could go on is left waiting

`ready_reported`: however idle loops, operations and the other ends of the descriptors are
interleaved, a descriptor that is ready for an event somebody has registered is in the ready list of
`m_epfd`, or an idle loop has a report of the event in hand, as long as every `epoll_ctl` succeeds
and the table is not cut off. So when nothing is left to be reported, all who wait have to wait.

The masks do not agree with the table (`delEvent` and `cancelEvent` write others), but they cover it:
`Wired` says so, and that an `epoll_ctl` goes with every change of a context.
-/

namespace CoKV.IOManager

/-! ## Masks that cover -/

/-- The mask has every event. -/
def Covers (mask : BitVec 32) (es : Events) : Prop :=
  ∀ ev, es.has ev = true → mask &&& ev.bits ≠ 0#32

/-- No bit is set in `NONE`. -/
theorem Events.has_none (ev : Event) : Events.none.has ev = false := by cases ev <;> rfl

/-- A mask of more events covers fewer. -/
theorem covers_bits {es es' : Events} (h : ∀ ev, es.has ev = true → es'.has ev = true) :
    Covers es'.bits es := by
  intro ev hev
  have hhas := h ev hev
  rw [Events.has_eq, bne_iff_ne] at hhas
  exact hhas

/-- Further bits, such as `EPOLLET`, do no harm. -/
theorem covers_or {mask : BitVec 32} {es : Events} (h : Covers mask es) (m : BitVec 32) :
    Covers (m ||| mask) es := by
  intro ev hev hzero
  rw [BitVec.and_or_distrib_right] at hzero
  exact h ev hev (BitVec.or_eq_zero_iff.mp hzero).2

/-- What is left after erasing one event was there. -/
theorem has_of_erase {es : Events} {ev ev' : Event} (h : (es.erase ev).has ev' = true) :
    es.has ev' = true := by
  revert h
  obtain ⟨r, w⟩ := es
  cases ev <;> cases ev' <;> cases r <;> cases w <;> decide

/-- What is left after a report was there, and has not come. -/
theorem has_of_diff {es real : Events} {ev : Event} (h : (es.diff real).has ev = true) :
    es.has ev = true ∧ real.has ev = false := by
  revert h
  obtain ⟨r, w⟩ := es
  obtain ⟨r', w'⟩ := real
  cases ev <;> cases r <;> cases w <;> cases r' <;> cases w' <;> decide

theorem events_ne_none {es : Events} {ev : Event} (h : es.has ev = true) : es ≠ .none := by
  rintro rfl
  rw [Events.has_none] at h
  cases h

/-- The kernel knows of every context that has an event, and its mask covers the events. -/
structure Wired (s : State) : Prop where
  heap : Heap s
  linked : Linked Covers s
  kept : ∀ fd m c, s.epfd fd = some (m, c) → s.fdContexts[fd]? = some c
  known : ∀ fd c, s.fdContexts[fd]? = some c → (s.ctx c).events ≠ .none →
    ∃ m, s.epfd fd = some (m, c)

variable {s s' : State} {c fd fd' : ℕ} {op : CtlOp} {mask : BitVec 32} {es : Events}

/-- At first no context has an event. -/
theorem Wired.init : Wired IOManager.init where
  heap := Heap.init
  linked := Linked.init
  kept fd m c h := by cases h
  known fd c _ h := absurd rfl h

/-- A registered event is in the mask that the kernel has for its descriptor. -/
theorem Wired.covers (h : Wired s) (hc : s.fdContexts[fd]? = some c) {ev : Event}
    (hev : (s.ctx c).events.has ev = true) :
    ∃ m, s.epfd fd = some (m, c) ∧ m &&& ev.bits ≠ 0#32 := by
  obtain ⟨m, hm⟩ := h.known fd c hc (events_ne_none hev)
  exact ⟨m, hm, (h.linked.entry fd m c hm).1 ev hev⟩

/-- What a section under the mutex of a context is to leave. -/
structure Wires (s s' : State) (c fd : ℕ) : Prop where
  does : ∃ op mask fd' es, Does s s' c fd op mask true fd' es ∧
    (es ≠ .none ∨ op ≠ .del → fd' = fd) ∧ (op ≠ .del → Covers mask es) ∧ (op = .del → es = .none)

/-- The table stays. -/
theorem Wires.table {s s' : State} (hw : Wires s s' c fd) : s'.fdContexts = s.fdContexts := by
  obtain ⟨op, mask, fd', es, hdoes, -⟩ := hw.does
  rw [hdoes.fdContexts, State.epollCtl_fdContexts]

/-- One successful `epoll_ctl` with the write it goes along with keeps table, kernel and contexts in
step. -/
theorem Wires.wired (ha : Wires s s' c fd) (h : Wired s) (hc : s.fdContexts[fd]? = some c) :
    Wired s' := by
  obtain ⟨op, mask, fd', es, hdoes, hfd, hcovers, hdel⟩ := ha.does
  have htable : s'.fdContexts = s.fdContexts := ha.table
  constructor
  case heap => exact hdoes.heap h.heap (h.heap.made c (List.mem_of_getElem? hc))
  case linked => exact h.linked.does (h.linked.belongs hc) hdoes hfd hcovers
  case kept =>
    intro i m d hm
    rw [hdoes.epfd] at hm
    rw [htable]
    rcases epollCtl_epfd hm with hm | ⟨rfl, -, rfl⟩
    · exact h.kept i m d hm
    · exact hc
  case known =>
    intro i d hd hevents
    rw [htable] at hd
    rw [hdoes.epfd]
    by_cases hi : i = fd
    · subst hi
      obtain rfl : c = d := Option.some.inj (hc.symm.trans hd)
      rw [hdoes.events] at hevents
      have hop : op ≠ .del := fun hop => hevents (hdel hop)
      rw [State.epollCtl_epfd_self, if_neg hop]
      exact ⟨mask, rfl⟩
    · have hdc : d ≠ c := by
        rintro rfl
        exact hi ((h.linked.belongs hc).table i hd)
      rw [hdoes.other d hdc, State.epollCtl_ctx] at hevents
      rw [State.epollCtl_epfd_of_ne _ _ _ _ _ _ hi]
      exact h.known i d hd hevents

/-- Nothing that is kept is cut off. -/
theorem Wired.resized (h : Wired s) {size : ℕ} (hbound : (s.resized size).nextCtx ≤ maxContexts)
    (hsize : s.fdContexts.length ≤ size) : Wired (s.resized size) where
  heap := h.heap.resized hbound
  linked := h.linked.resized h.heap size
  kept fd m c hm := by
    have hc := h.kept fd m c hm
    exact getElem?_resized hc (Nat.lt_of_lt_of_le (List.getElem?_eq_some_iff.mp hc).choose hsize)
  known fd c hc hevents := by
    rcases resized_getElem? hc with hold | ⟨-, hnew⟩
    · exact h.known fd c hold hevents
    · -- `new` has just made it
      refine absurd ?_ hevents
      show (s.ctx c).events = .none
      rw [h.heap.fresh c hnew]
      rfl

/-! ## The sections -/

/-- `EPOLL_CTL_DEL` is for a context that keeps nothing. -/
theorem op_eq_del {es : Events} (h : (if es ≠ .none then CtlOp.mod else .del) = .del) : es = .none := by
  by_contra hne
  rw [if_pos hne] at h
  cases h

/-- `cancelEvent` behind its guard. -/
theorem does_cancelEvent_of_guard {ev : Event} {success r : Bool}
    (hguard : (if (s.ctx c).events = .none then 1#32 else 0#32) &&& ev.bits = 0#32)
    (h : s.cancelEvent c fd ev success = .ok (r, s')) :
    Does s s' c fd (if (s.ctx c).events.erase ev ≠ .none then .mod else .del)
      (s.ctx c).events.bits success (s.ctx c).fd ((s.ctx c).events.erase ev) := by
  unfold State.cancelEvent at h
  dsimp only at h
  rw [if_neg (not_not.mpr hguard)] at h
  obtain ⟨t, ht, h⟩ := ok_of_bind h
  cases h
  have hw := wrote_fire ht
  rwa [State.epollCtl_ctx] at hw

/-- An operation does one such `epoll_ctl`, or does nothing. -/
theorem act_wires {op : Op} (h : Wired s) (hc : s.fdContexts[op.fd]? = some c)
    (ha : s.act c true op = .ok s') :
    op.ctls (s.ctx c) = false ∧ s' = s ∨ op.ctls (s.ctx c) = true ∧ Wires s s' c op.fd := by
  have hfd : (s.ctx c).events ≠ .none → (s.ctx c).fd = op.fd := h.linked.named op.fd c hc
  cases op with
  | addEvent fd ev cb self scheduler =>
    obtain ⟨⟨r, t⟩, hadd, rfl⟩ := ok_of_map ha
    obtain ⟨ctl, hctl, hdoes⟩ := does_addEvent hadd
    exact Or.inr ⟨rfl, ⟨ctl, _, _, _, hdoes, fun _ => rfl, fun _ => covers_or (covers_bits fun _ => id) _,
      fun hdel => absurd hdel hctl⟩⟩
  | delEvent fd ev =>
    obtain ⟨⟨r, t⟩, hdel, rfl⟩ := ok_of_map ha
    rcases does_delEvent hdel with ⟨hnot, hsame⟩ | ⟨hhas, hdoes⟩
    · exact Or.inl ⟨hnot, hsame⟩
    · exact Or.inr ⟨hhas, ⟨_, _, _, _, hdoes, fun _ => hfd (events_ne_none hhas),
        fun _ => covers_bits fun _ => id, op_eq_del⟩⟩
  | cancelEvent fd ev =>
    obtain ⟨⟨r, t⟩, hcancel, rfl⟩ := ok_of_map ha
    by_cases hguard : (if (s.ctx c).events = .none then 1#32 else 0#32) &&& ev.bits ≠ 0#32
    · left
      unfold State.cancelEvent at hcancel
      dsimp only at hcancel
      rw [if_pos hguard] at hcancel
      cases hcancel
      exact ⟨beq_eq_false_iff_ne.mpr hguard, rfl⟩
    · right
      have hzero := not_not.mp hguard
      refine ⟨beq_iff_eq.mpr hzero, ⟨_, _, _, _, does_cancelEvent_of_guard hzero hcancel, ?_,
        fun _ => covers_bits fun _ => has_of_erase, op_eq_del⟩⟩
      intro hor
      have hne : (s.ctx c).events.erase ev ≠ .none := by
        rintro hnone
        rw [if_neg (not_not.mpr hnone)] at hor
        rcases hor with hne | hne
        · exact hne hnone
        · exact hne rfl
      apply hfd
      intro hnone
      rw [hnone] at hne
      exact hne (by cases ev <;> rfl)
  | cancelAll fd =>
    obtain ⟨⟨r, t⟩, hcancel, rfl⟩ := ok_of_map ha
    rcases does_cancelAll hcancel with ⟨hnone, hsame⟩ | ⟨hne, hdoes⟩
    · exact Or.inl ⟨decide_eq_false (not_not.mpr hnone), hsame⟩
    · refine Or.inr ⟨decide_eq_true hne, ⟨_, _, _, _, hdoes, ?_, fun hop => absurd rfl hop, fun _ => rfl⟩⟩
      rintro (hor | hor) <;> exact absurd rfl hor

/-- What is reported is taken off. -/
theorem diff_ne_of_meet {es real : Events} (h : es.bits &&& real.bits ≠ 0#32) : es.diff real ≠ es := by
  revert h
  obtain ⟨r, w⟩ := es
  obtain ⟨r', w'⟩ := real
  cases r <;> cases w <;> cases r' <;> cases w' <;> decide

/-- `idle` does one for a report that names a registered event, or does nothing. -/
theorem handle_wires {events : BitVec 32} (h : Wired s) (hc : s.fdContexts[fd]? = some c)
    (ha : s.handle c events true = .ok s') :
    (s.ctx c).ctls events = false ∧ s' = s ∨
      (s.ctx c).ctls events = true ∧ (s.ctx c).fd = fd ∧
        (s'.ctx c).events = (s.ctx c).events.diff ((s.ctx c).realEvents events) ∧ Wires s s' c fd := by
  by_cases hmeets : Meets (s.ctx c) events
  · right
    have hne : (s.ctx c).events ≠ .none := by
      intro hnone
      unfold Meets at hmeets
      rw [hnone] at hmeets
      exact hmeets (BitVec.zero_and ..)
    have hfd := h.linked.named fd c hc hne
    obtain ⟨new, hnew⟩ := handle_answered ha
    refine ⟨bne_iff_ne.mpr hmeets, hfd, hnew.left, ?_⟩
    rcases does_handle ha with rfl | ⟨op, hop, hdoes⟩
    · exact absurd hnew.left.symm (diff_ne_of_meet hmeets)
    · rw [hfd] at hdoes
      refine ⟨op, _, _, _, hdoes, fun _ => rfl, ?_, hop.mp⟩
      exact fun _ => covers_or (covers_bits fun _ => id) _
  · left
    unfold State.handle at ha
    dsimp only at ha
    rw [if_pos (not_not.mp hmeets)] at ha
    cases ha
    exact ⟨bne_eq_false_iff_eq.mpr (not_not.mp hmeets), rfl⟩

/-! ## What is going to be reported -/

section Polled

variable {T : Type} {s s' : Polled T} {ev : Event} {t : T}

/-- The event is going to be reported, or a loop has a report of it in hand. -/
def Polled.Reported (s : Polled T) (fd : ℕ) (ev : Event) : Prop :=
  s.listed fd = true ∨ ∃ t, ∃ r ∈ s.loops.events t, r.fd = fd ∧ r.has ev = true

/-- Whoever could go on is going to be told. -/
def Polled.Told (s : Polled T) : Prop :=
  ∀ fd c ev, s.shared.fdContexts[fd]? = some c → (s.shared.ctx c).events.has ev = true →
    (s.ready fd).has ev = true → s.Reported fd ev

/-- The invariant. -/
structure Watching (s : Polled T) : Prop where
  wired : Wired s.shared
  acting : ∀ t op c, s.loops.threads.pc t = .act op c → s.shared.fdContexts[op.fd]? = some c
  hand : ∀ t, ∀ r ∈ s.loops.events t,
    s.shared.fdContexts[r.fd]? = some r.ctx ∧ r.success = true
  told : s.loops.fault = none → s.Told

/-- Every `epoll_ctl` succeeds, and `contextResize` does not cut the table off. -/
def Undisturbed (s : Polled T) : PollLabel T → Prop
  | .thread (.step t success) => success = true ∧
    ∀ op, s.loops.threads.pc t = .writeLock op → s.shared.fdContexts.length ≤ 3 * op.fd / 2
  | .epollWait _ events _ => ∀ r ∈ events, r.success = true
  | _ => True

/-- At first nothing is registered, so nothing has to be reported. -/
theorem watching_start : Watching (Polled.start : Polled T) where
  wired := Wired.init
  acting t op c h := by cases h
  hand t r h := by cases h
  told _ fd c ev _ h := by
    have hnone : (Events.none).has ev = true := h
    rw [Events.has_none] at hnone
    cases hnone

/-- What there is to report of an event that the mask has. -/
theorem poll_has {m : BitVec 32} (hm : s.shared.epfd fd = some (m, c)) (hcovers : m &&& ev.bits ≠ 0#32)
    (hready : (s.ready fd).has ev = true) : (s.poll fd).has ev = true := by
  unfold Polled.poll
  rw [hm]
  dsimp only
  cases ev with
  | none => exact absurd (BitVec.and_zero ..) hcovers
  | read => exact Bool.and_eq_true_iff.mpr ⟨hready, bne_iff_ne.mpr hcovers⟩
  | write => exact Bool.and_eq_true_iff.mpr ⟨hready, bne_iff_ne.mpr hcovers⟩

section Relist

variable (s : Polled T) (loops : Loops T)

@[simp] theorem relist_loops (o : Option ℕ) : (s.relist o loops).loops = loops := by cases o <;> rfl

@[simp] theorem relist_shared (o : Option ℕ) : (s.relist o loops).shared = loops.threads.shared := by
  cases o <;> rfl

@[simp] theorem relist_ready (o : Option ℕ) : (s.relist o loops).ready = s.ready := by cases o <;> rfl

/-- Only the descriptor of the `epoll_ctl` is looked at again. -/
theorem relist_listed_of_ne {i : ℕ} (hi : i ≠ fd) : (s.relist (some fd) loops).listed i = s.listed i :=
  Function.update_of_ne hi ..

end Relist

/-- The invariant for new loops, with the descriptor of the `epoll_ctl` listed if it is ready. -/
theorem Watching.of_loops {s : Polled T} {loops : Loops T} {o : Option ℕ}
    (hwired : Wired loops.threads.shared)
    (hacting : ∀ (t : T) (op : Op) (c : ℕ), loops.threads.pc t = .act op c →
      loops.threads.shared.fdContexts[op.fd]? = some c)
    (hhand : ∀ t, ∀ r ∈ loops.events t,
      loops.threads.shared.fdContexts[r.fd]? = some r.ctx ∧ r.success = true)
    (htold : loops.fault = none → (s.relist o loops).Told) : Watching (s.relist o loops) := by
  refine ⟨?_, ?_, ?_, ?_⟩
  · rwa [relist_shared]
  · rwa [relist_shared, relist_loops]
  · rwa [relist_shared, relist_loops]
  · rwa [relist_loops]

/-- An `epoll_ctl` for a descriptor that is ready for an event of its mask puts it in the list. -/
theorem relist_listed {loops : Loops T} {m : BitVec 32}
    (hm : loops.threads.shared.epfd fd = some (m, c)) (hcovers : m &&& ev.bits ≠ 0#32)
    (hready : (s.ready fd).has ev = true) : (s.relist (some fd) loops).listed fd = true := by
  have hpoll : (Polled.poll { s with loops := loops } fd).has ev = true := poll_has hm hcovers hready
  have hlisted : (s.relist (some fd) loops).listed fd =
      ((loops.threads.shared.epfd fd).isSome &&
        (s.listed fd || Polled.poll { s with loops := loops } fd != .none)) := Function.update_self ..
  rw [hlisted, hm]
  have hne : (Polled.poll { s with loops := loops } fd != .none) = true :=
    bne_iff_ne.mpr (events_ne_none hpoll)
  rw [hne, Bool.or_true]
  rfl

/-- A section under the mutex of the context of `fd`, with its `epoll_ctl`. -/
theorem Watching.told_ctl (h : Watching s) {loops : Loops T} (hfault : s.loops.fault = none)
    (hc : s.shared.fdContexts[fd]? = some c) (hwired : Wired loops.threads.shared)
    (hw : Wires s.shared loops.threads.shared c fd)
    (hkeep : ∀ t, ∀ r ∈ s.loops.events t, r.fd ≠ fd → r ∈ loops.events t) :
    (s.relist (some fd) loops).Told := by
  obtain ⟨op, mask, fd', es, hdoes, -⟩ := hw.does
  have htable : loops.threads.shared.fdContexts = s.shared.fdContexts := hw.table
  intro i d ev hd hev hready
  rw [relist_shared] at hd hev
  rw [relist_ready] at hready
  by_cases hi : i = fd
  · subst hi
    left
    obtain ⟨m, hm, hcovers⟩ := hwired.covers hd hev
    exact relist_listed hm hcovers hready
  · rw [htable] at hd
    have hdc : d ≠ c := by
      rintro rfl
      exact hi ((h.wired.linked.belongs hc).table i hd)
    rw [hdoes.other d hdc, State.epollCtl_ctx] at hev
    rcases h.told hfault i d ev hd hev hready with hlisted | ⟨t, r, hr, hri, hhas⟩
    · left
      rwa [relist_listed_of_ne _ _ hi]
    · right
      rw [relist_loops]
      exact ⟨t, r, hkeep t r hr (by rw [hri]; exact hi), hri, hhas⟩

/-- Nothing changes but where threads stand. -/
theorem Watching.told_still (h : Watching s) {loops : Loops T} (hfault : s.loops.fault = none)
    (hshared : loops.threads.shared = s.shared) (hevents : loops.events = s.loops.events) :
    (s.relist none loops).Told := by
  intro i d ev hd hev hready
  rw [relist_shared, hshared] at hd hev
  rcases h.told hfault i d ev hd hev hready with hlisted | hreport
  · exact Or.inl hlisted
  · right
    rw [relist_loops, hevents]
    exact hreport

/-- Only the sections under a mutex call `epoll_ctl`. -/
theorem ctlFd_step {success : Bool} (hpc : ∀ op c, s.loops.threads.pc t ≠ .act op c) :
    s.loops.ctlFd (.thread (.step t success)) = none := by
  unfold Loops.ctlFd
  cases success with
  | false => rfl
  | true =>
    dsimp only
    split
    case h_1 op c hact => exact absurd hact (hpc op c)
    case h_2 => rfl

/-- The descriptor whose `epoll_ctl` a locked section does. -/
theorem ctlFd_act {op : Op} (hpc : s.loops.threads.pc t = .act op c) :
    s.loops.ctlFd (.thread (.step t true)) = if op.ctls (s.shared.ctx c) then some op.fd else none := by
  unfold Loops.ctlFd
  dsimp only
  rw [hpc]
  rfl

/-- The table has got longer. -/
theorem Watching.told_resized (h : Watching s) {loops : Loops T} {size : ℕ}
    (hfault : s.loops.fault = none) (hshared : loops.threads.shared = s.shared.resized size)
    (hevents : loops.events = s.loops.events) : (s.relist none loops).Told := by
  intro i d ev hd hev hready
  rw [relist_shared, hshared] at hd hev
  rcases resized_getElem? hd with hold | ⟨-, hnew⟩
  · rcases h.told hfault i d ev hold hev hready with hlisted | hreport
    · exact Or.inl hlisted
    · right
      rw [relist_loops, hevents]
      exact hreport
  · -- nobody has registered anything with a new context
    have hnone : (s.shared.ctx d).events.has ev = false := by
      rw [h.wired.heap.fresh d hnew]
      exact Events.has_none ev
    exact absurd (hnone.symm.trans hev) Bool.false_ne_true

/-- The rest of the batch, behind `r`. -/
structure Consumes (events events' : T → List Report) (r : Report) : Prop where
  sub : ∀ u, ∀ r' ∈ events' u, r' ∈ events u
  rest : ∀ u, ∀ r' ∈ events u, r' = r ∨ r' ∈ events' u

/-- A report that is passed over has nothing to tell. -/
theorem Watching.told_passed (h : Watching s) {loops : Loops T} {r : Report}
    (hfault : s.loops.fault = none) (hshared : loops.threads.shared = s.shared)
    (hevents : Consumes s.loops.events loops.events r) (hc : s.shared.fdContexts[r.fd]? = some r.ctx)
    (hctls : (s.shared.ctx r.ctx).ctls r.events = false) : (s.relist none loops).Told := by
  intro i d ev hd hev hready
  rw [relist_shared, hshared] at hd hev
  rcases h.told hfault i d ev hd hev hready with hlisted | ⟨u, r', hr', rfl, hhas⟩
  · exact Or.inl hlisted
  · right
    rw [relist_loops]
    rcases hevents.rest u r' hr' with rfl | hmem
    · obtain rfl : d = r'.ctx := Option.some.inj (hd.symm.trans hc)
      have hmeets := Events.meet_of_has hev (real_of_has (s.shared.ctx r'.ctx) hhas)
      exact absurd (bne_eq_false_iff_eq.mp hctls) hmeets
    · exact ⟨u, r', hmem, rfl, hhas⟩

/-- What `epoll_wait` may report is about a context of the table. -/
theorem Wired.reported {s : State} (h : Wired s) {r : Report} (hr : s.reports r = true) :
    s.fdContexts[r.fd]? = some r.ctx := by
  unfold State.reports at hr
  split at hr
  case h_1 => cases hr
  case h_2 mask c hentry =>
    rw [Bool.and_eq_true, beq_iff_eq] at hr
    rw [← hr.1]
    exact h.kept r.fd mask c hentry

/-- A report has what there is to report. -/
theorem delivers_has {r : Report} (hr : s.delivers r = true) (hev : (s.poll r.fd).has ev = true) :
    r.has ev = true := by
  unfold Polled.delivers at hr
  rw [Bool.and_eq_true, beq_iff_eq] at hr
  rw [hr.2] at hev
  cases ev with
  | none => cases hev
  | read => exact hev
  | write => exact hev

variable [DecidableEq T]

/-- A step of a thread moves the threads, and nothing of the loops. -/
theorem step_thread {l : ThreadLabel T} {loops : Loops T} (hs : s.loops.step (.thread l) = some loops) :
    s.loops.fault = none ∧ ∃ threads, s.loops.threads.Moves l threads ∧
      loops = { s.loops with threads := threads } := by
  unfold Loops.step at hs
  dsimp only at hs
  split at hs
  case isTrue hidle =>
    obtain ⟨threads, hstep, rfl⟩ := Option.map_eq_some_iff.mp hs
    exact ⟨hidle.1, threads, Threads.step_moves hstep, rfl⟩
  case isFalse => cases hs

/-- Where a thread stands that has moved. -/
theorem Watching.acting_update (h : Watching s) {table : List ℕ} {pc : ThreadPc} (t : T)
    (htable : ∀ i d : ℕ, s.shared.fdContexts[i]? = some d → table[i]? = some d)
    (hnew : ∀ op c, pc = .act op c → table[op.fd]? = some c) :
    ∀ u op c, Function.update s.loops.threads.pc t pc u = .act op c → table[op.fd]? = some c := by
  intro u op c hu
  by_cases hut : u = t
  · rw [hut, Function.update_self] at hu
    exact hnew op c hu
  · rw [Function.update_of_ne hut] at hu
    exact htable _ _ (h.acting u op c hu)

/-- The sections of the operations keep the invariant. -/
theorem Watching.thread (h : Watching s) {l : ThreadLabel T} (hok : Undisturbed s (.thread l))
    (hs : s.step (.thread l) = some s') : Watching s' := by
  obtain ⟨loops, hloops, rfl⟩ := Option.map_eq_some_iff.mp hs
  obtain ⟨hfault, threads, hmoves, rfl⟩ := step_thread hloops
  cases hmoves with
  | call hpc =>
    refine .of_loops h.wired ?_ h.hand fun _ => h.told_still hfault rfl rfl
    exact h.acting_update _ (fun _ _ => id) (by simp)
  | @found t success op c hpc hc =>
    rw [ctlFd_step (by rw [hpc]; simp)]
    refine .of_loops h.wired ?_ h.hand fun _ => h.told_still hfault rfl rfl
    refine h.acting_update _ (fun _ _ => id) ?_
    rintro op c ⟨⟩
    exact hc
  | @short t success op hpc =>
    rw [ctlFd_step (by rw [hpc]; simp)]
    refine .of_loops h.wired ?_ h.hand fun _ => h.told_still hfault rfl rfl
    exact h.acting_update _ (fun _ _ => id) (by simp)
  | @resized t success op c shared hpc hw =>
    rw [ctlFd_step (by rw [hpc]; simp)]
    obtain ⟨hc, rfl, hbound⟩ := State.writeSection_ok hw
    have hsize := hok.2 op hpc
    have hkept : ∀ i d : ℕ, s.shared.fdContexts[i]? = some d →
        (s.shared.resized (3 * op.fd / 2)).fdContexts[i]? = some d := fun i d hd =>
      getElem?_resized hd (Nat.lt_of_lt_of_le (List.getElem?_eq_some_iff.mp hd).choose hsize)
    refine .of_loops (h.wired.resized hbound hsize) ?_ (fun u r hr => ?_) fun _ => ?_
    · refine h.acting_update _ hkept ?_
      rintro op c ⟨⟩
      exact hc
    · exact ⟨hkept _ _ (h.hand u r hr).1, (h.hand u r hr).2⟩
    · exact h.told_resized hfault rfl rfl
  | @act t success op c shared hpc hact =>
    obtain ⟨rfl, -⟩ := hok
    have hc := h.acting t op c hpc
    rw [ctlFd_act hpc]
    rcases act_wires h.wired hc hact with ⟨hctls, rfl⟩ | ⟨hctls, hw⟩
    · rw [hctls]
      refine .of_loops h.wired ?_ h.hand fun _ => h.told_still hfault rfl rfl
      exact h.acting_update _ (fun _ _ => id) (by simp)
    · rw [hctls, if_pos rfl]
      have hwired := hw.wired h.wired hc
      have htable : shared.fdContexts = s.shared.fdContexts := hw.table
      refine .of_loops hwired ?_ (fun u r hr => ?_) fun _ => ?_
      · refine h.acting_update _ (fun i d hd => ?_) (by simp)
        rwa [htable]
      · dsimp only
        rw [htable]
        exact h.hand u r hr
      · exact h.told_ctl hfault hc hwired hw fun _ _ hr _ => hr

/-- A report is handled, or `idle` has failed. -/
theorem step_loop_handle {loops : Loops T} (hs : s.loops.step (.handle t) = some loops) :
    ∃ r rest, s.loops.fault = none ∧ s.loops.events t = r :: rest ∧
      loops.events = Function.update s.loops.events t rest ∧
      loops.threads.pc = s.loops.threads.pc ∧
      (s.shared.handle r.ctx r.events r.success = .ok loops.threads.shared ∨
        loops.fault ≠ none ∧ loops.threads.shared = s.shared) := by
  unfold Loops.step at hs
  dsimp only at hs
  split at hs
  case h_2 => cases hs
  case h_1 r rest hfault hr =>
    refine ⟨r, rest, hfault, hr, ?_⟩
    split at hs
    case h_1 shared hok =>
      cases hs
      exact ⟨rfl, rfl, Or.inl hok⟩
    case h_2 f herror =>
      cases hs
      exact ⟨rfl, rfl, Or.inr ⟨nofun, rfl⟩⟩

/-- The loop that handles a report consumes it. -/
theorem consumes_update {events : T → List Report} {r : Report} {rest : List Report}
    (hr : events t = r :: rest) : Consumes events (Function.update events t rest) r := by
  constructor
  · intro u r' hr'
    by_cases hu : u = t
    · rw [hu, Function.update_self] at hr'
      rw [hu, hr]
      exact List.mem_cons_of_mem r hr'
    · rwa [Function.update_of_ne hu] at hr'
  · intro u r' hr'
    by_cases hu : u = t
    · rw [hu] at hr' ⊢
      rw [Function.update_self]
      rw [hr] at hr'
      exact List.mem_cons.mp hr'
    · rw [Function.update_of_ne hu]
      exact Or.inr hr'

/-- A report that is handled leaves nothing unreported. -/
theorem Watching.handle (h : Watching s) (hs : s.step (.handle t) = some s') : Watching s' := by
  obtain ⟨loops, hloops, rfl⟩ := Option.map_eq_some_iff.mp hs
  obtain ⟨r, rest, hfault, hr, hevents, hpc, hshared⟩ := step_loop_handle hloops
  obtain ⟨hc, hsuccess⟩ := h.hand t r (by rw [hr]; exact List.mem_cons_self ..)
  have hconsumes : Consumes s.loops.events loops.events r := by
    rw [hevents]
    exact consumes_update hr
  have hfields : ∀ {o}, Wired loops.threads.shared →
      loops.threads.shared.fdContexts = s.shared.fdContexts →
      (loops.fault = none → (s.relist o loops).Told) → Watching (s.relist o loops) := by
    intro o hwired htable htold
    refine .of_loops hwired ?_ (fun u r' hr' => ?_) htold
    · rw [hpc, htable]
      exact h.acting
    · rw [htable]
      exact h.hand u r' (hconsumes.sub u r' hr')
  rcases hshared with hok | ⟨hfailed, hsame⟩
  case inr =>
    refine hfields ?_ (by rw [hsame]) fun hnone => absurd hnone hfailed
    rw [hsame]
    exact h.wired
  case inl =>
    have hctl : s.loops.ctlFd (.handle t) = if (s.shared.ctx r.ctx).ctls r.events then
        some (s.shared.ctx r.ctx).fd else none := by
      unfold Loops.ctlFd
      dsimp only
      rw [hr]
      dsimp only
      rw [hsuccess, Bool.true_and]
      rfl
    rw [hsuccess] at hok
    rw [hctl]
    rcases handle_wires h.wired hc hok with ⟨hctls, hsame⟩ | ⟨hctls, hfd, -, hw⟩
    · rw [hctls]
      refine hfields ?_ (by rw [hsame]) fun _ => h.told_passed hfault hsame hconsumes hc hctls
      rw [hsame]
      exact h.wired
    · rw [hctls, if_pos rfl, hfd]
      have hwired := hw.wired h.wired hc
      refine hfields hwired hw.table fun _ => h.told_ctl hfault hc hwired hw fun u r' hr' hne => ?_
      rcases hconsumes.rest u r' hr' with rfl | hmem
      · exact absurd rfl hne
      · exact hmem

/-- What `epoll_wait` returns is what the kernel reports. -/
theorem step_epollWait {loops : Loops T} {events : List Report}
    (hs : s.loops.step (.epollWait t events) = some loops) :
    s.loops.events t = [] ∧ events.all s.shared.reports = true ∧
      loops = { s.loops with events := Function.update s.loops.events t events } := by
  unfold Loops.step at hs
  dsimp only at hs
  split at hs
  case isTrue hcond =>
    cases hs
    exact ⟨hcond.2.1, hcond.2.2.2.2.2, rfl⟩
  case isFalse => cases hs

/-- What `epoll_wait` takes out of the list it has reported, or there was nothing to report. -/
theorem Watching.epollWait (h : Watching s) {events : List Report} {stale : List ℕ}
    (hok : Undisturbed s (.epollWait t events stale))
    (hs : s.step (.epollWait t events stale) = some s') : Watching s' := by
  obtain ⟨hcond, hmap⟩ := Option.ite_none_right_eq_some.mp hs
  obtain ⟨loops, hloops, rfl⟩ := Option.map_eq_some_iff.mp hmap
  obtain ⟨hempty, hreports, rfl⟩ := step_epollWait hloops
  rw [Bool.and_eq_true, List.all_eq_true, List.all_eq_true] at hcond
  obtain ⟨hdelivers, hstale⟩ := hcond
  refine ⟨h.wired, h.acting, fun u r hr => ?_, fun hfault i d ev hd hev hready => ?_⟩
  · dsimp only at hr
    by_cases hu : u = t
    · rw [hu, Function.update_self] at hr
      exact ⟨h.wired.reported (List.all_eq_true.mp hreports r hr), hok r hr⟩
    · rw [Function.update_of_ne hu] at hr
      exact h.hand u r hr
  · have hpoll : (s.poll i).has ev = true := by
      obtain ⟨m, hm, hcovers⟩ := h.wired.covers hd hev
      exact poll_has hm hcovers hready
    rcases h.told hfault i d ev hd hev hready with hlisted | ⟨u, r, hr, hri, hhas⟩
    · by_cases hreported : ∃ r ∈ events, r.fd = i
      · -- it is in the batch, with the event
        obtain ⟨r, hr, rfl⟩ := hreported
        right
        refine ⟨t, r, ?_, rfl, delivers_has (hdelivers r hr) hpoll⟩
        dsimp only
        rw [Function.update_self]
        exact hr
      · left
        have hnot : stale.contains i = false := by
          rw [← Bool.not_eq_true, List.contains_iff_mem]
          intro hi
          exact events_ne_none hpoll (beq_iff_eq.mp (hstale i hi))
        have hany : (events.any fun r => r.fd == i && s.edgeTriggered i) = false := by
          rw [List.any_eq_false]
          intro r hr hri
          exact hreported ⟨r, hr, beq_iff_eq.mp (Bool.and_eq_true_iff.mp hri).1⟩
        show s.unlist events stale i = true
        unfold Polled.unlist
        rw [hlisted, hnot, hany]
        rfl
    · right
      have hu : u ≠ t := by
        rintro rfl
        rw [hempty] at hr
        cases hr
      refine ⟨u, r, ?_, hri, hhas⟩
      dsimp only
      rw [Function.update_of_ne hu]
      exact hr

/-- A descriptor that gets ready is listed. -/
theorem Watching.wake (h : Watching s) (hs : s.step (.wake fd ev) = some s') : Watching s' := by
  cases hs
  refine ⟨h.wired, h.acting, h.hand, fun hfault i d ev' hd hev hready => ?_⟩
  by_cases hi : i = fd
  · subst hi
    have hlisted' : ∀ b, (s.listed i || s.listens i ev) = b →
        Function.update s.listed i (s.listed i || s.listens i ev) i = b := by
      intro b hb
      rw [Function.update_self, hb]
    by_cases hnew : ev' = ev
    · -- the mask has the event
      left
      apply hlisted'
      obtain ⟨m, hm, hcovers⟩ := h.wired.covers hd hev
      have hlistens : s.listens i ev = true := by
        unfold Polled.listens
        rw [hm, ← hnew]
        exact bne_iff_ne.mpr hcovers
      rw [hlistens, Bool.or_true]
    · dsimp only at hready
      rw [Function.update_self, Events.has_insert_of_ne hnew] at hready
      rcases h.told hfault i d ev' hd hev hready with hlisted | hreport
      · left
        apply hlisted'
        rw [hlisted, Bool.true_or]
      · exact Or.inr hreport
  · dsimp only at hready
    rw [Function.update_of_ne hi] at hready
    rcases h.told hfault i d ev' hd hev hready with hlisted | hreport
    · left
      dsimp only
      rwa [Function.update_of_ne hi]
    · exact Or.inr hreport

/-- What is read from a descriptor makes it less ready only. -/
theorem Watching.drain (h : Watching s) {es : Events} (hs : s.step (.drain fd es) = some s') :
    Watching s' := by
  cases hs
  refine ⟨h.wired, h.acting, h.hand, fun hfault i d ev hd hev hready => ?_⟩
  have hold : (s.ready i).has ev = true := by
    dsimp only at hready
    by_cases hi : i = fd
    · rw [hi, Function.update_self] at hready
      rw [hi]
      exact (has_of_diff hready).1
    · rwa [Function.update_of_ne hi] at hready
  exact h.told hfault i d ev hd hev hold

/-- Every step of an undisturbed run keeps the invariant. -/
theorem Watching.step (h : Watching s) {l : PollLabel T} (hok : Undisturbed s l)
    (hs : s.step l = some s') : Watching s' := by
  cases l with
  | thread l => exact h.thread hok hs
  | handle t => exact h.handle hs
  | epollWait t events stale => exact h.epollWait hok hs
  | wake fd ev => exact h.wake hs
  | drain fd es => exact h.drain hs

/-- While `idle` does not fail, an event that somebody has registered and that its descriptor is
ready for is going to be reported, or has been and is going to be handled; and when there is nothing
to report or to handle, nobody waits for what has come. -/
theorem ready_reported (s : Polled T) (h : Run Polled.step Undisturbed Polled.start s)
    (hfault : s.loops.fault = none) :
    (∀ fd ev, (s.shared.eventsOf fd).has ev = true → (s.ready fd).has ev = true →
      s.Reported fd ev) ∧
    ((∀ fd, s.listed fd = false) → (∀ t, s.loops.events t = []) →
      ∀ fd ev, (s.shared.eventsOf fd).has ev = true → (s.ready fd).has ev = false) := by
  have hw : Watching s := h.invariant watching_start fun _ _ _ hi hok hs => hi.step hok hs
  have htold : ∀ fd ev, (s.shared.eventsOf fd).has ev = true → (s.ready fd).has ev = true →
      s.Reported fd ev := by
    intro fd ev hev
    cases hc : s.shared.fdContexts[fd]? with
    | none =>
      unfold State.eventsOf at hev
      rw [hc] at hev
      exact absurd hev (by rw [Events.has_none]; exact Bool.false_ne_true)
    | some c =>
      rw [eventsOf_eq hc] at hev
      exact hw.told hfault fd c ev hc hev
  refine ⟨htold, fun hlisted hempty fd ev hev => ?_⟩
  rw [← Bool.not_eq_true]
  intro hready
  rcases htold fd ev hev hready with hl | ⟨t, r, hr, -⟩
  · rw [hlisted] at hl
    cases hl
  · rw [hempty] at hr
    cases hr

/-- A coroutine waits to read from 5, and data has come: a loop has the report in hand. -/
theorem ready_reported_witness : ∃ s : Polled Bool, s.listed 5 = false ∧
    (s.shared.eventsOf 5).has .read = true ∧ s.Reported 5 .read := by
  have hadd : Run Polled.step Undisturbed (Polled.start : Polled Bool) _ :=
    ((Run.refl.tail (a := .thread (.call false (.addEvent 5 .read none 1 (some 0)))) trivial rfl).tail
      (a := .thread (.step false true)) ⟨rfl, fun _ h => ThreadPc.noConfusion h⟩ rfl).tail
      (a := .thread (.step false true)) ⟨rfl, fun _ h => ThreadPc.noConfusion h⟩ rfl
  have hwait : Run Polled.step Undisturbed (Polled.start : Polled Bool) _ :=
    (hadd.tail (a := .wake 5 .read) (by trivial) rfl).tail
      (a := .epollWait true [⟨5, 5, EPOLLIN, true⟩] []) (fun r hr => by rw [List.mem_singleton.mp hr]) rfl
  exact ⟨_, rfl, rfl, (ready_reported _ hwait rfl).1 5 .read rfl rfl⟩

end Polled

end CoKV.IOManager
