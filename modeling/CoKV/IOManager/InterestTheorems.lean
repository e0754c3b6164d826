import CoKV.IOManager.Links
import CoKV.Lib.Run

/-!
# What the kernel is interested in

`interest_agrees`: the interest set and the table agree as long as no operation has to change the
mask of a descriptor that keeps an event. `addEvent` and `idle` put `EPOLLET` into the mask they
write; `delEvent` leaves it out, and `cancelEvent` writes the events from before. A lookup that
cuts off contexts that have events parts the two as well.
-/

namespace CoKV.IOManager

/-- The mask that the events of a context ask for. -/
def Events.wanted (e : Events) : Option (BitVec 32) :=
  if e = .none then Option.none else some (EPOLLET ||| e.bits)

/-- The kernel has what the table wants for descriptor `fd`. -/
def AgreesAt (s : State) (fd : ℕ) : Prop := (s.epfd fd).map Prod.fst = (s.eventsOf fd).wanted

/-- The kernel's interest set agrees with the table. -/
def Agrees (s : State) : Prop := ∀ fd, AgreesAt s fd

/-- Every `epoll_ctl` succeeds. -/
def Succeeds : Label → Prop
  | .call _ success => success = true
  | .idle reports => ∀ r ∈ reports, r.success = true

/-- No event is set where a lookup of `fd` cuts the table off. -/
def NoCut (s : State) (fd : ℕ) : Prop :=
  (fd : ℤ) < s.intSize ∨ ∀ i, 3 * fd / 2 ≤ i → s.eventsOf i = .none

/-- An operation on a context with events `e`: something is there to be added, or what is taken off
is all. -/
def Whole (e : Events) : Op → Prop
  | .addEvent _ ev .. => e.insert ev ≠ .none
  | .delEvent _ ev => e.has ev = true → e.erase ev = .none
  | .cancelEvent _ ev => e.erase ev = .none
  | .cancelAll _ => True

/-- What the agreement rests on, as a condition on the next step. -/
def Tracked (s : State) : Label → Prop
  | .call op _ => NoCut s op.fd ∧ Whole (s.eventsOf op.fd) op
  | .idle _ => True

/-! ## What an operation does to the two -/

section Does

variable {s s' : State} {c fd fd' : ℕ} {op : CtlOp} {mask : BitVec 32} {success : Bool} {es : Events}

/-- Other descriptors are left alone. -/
theorem Does.agreesAt_of_ne (h : Does s s' c fd op mask success fd' es)
    (hnodup : s.fdContexts.Nodup) (hc : s.fdContexts[fd]? = some c) {i : ℕ} (hi : i ≠ fd) :
    AgreesAt s' i ↔ AgreesAt s i := by
  have hepfd : s'.epfd i = s.epfd i := by
    rw [h.epfd, State.epollCtl_epfd_of_ne _ _ _ _ _ _ hi]
  have htable : s'.fdContexts = s.fdContexts := by
    rw [h.fdContexts, State.epollCtl_fdContexts]
  have hevents : s'.eventsOf i = s.eventsOf i := by
    cases hd : s.fdContexts[i]? with
    | none =>
      unfold State.eventsOf
      rw [htable, hd]
    | some d =>
      -- no context stands twice in the table
      have hdc : d ≠ c := by
        rintro rfl
        have hlt := (List.getElem?_eq_some_iff.mp hd).choose
        exact hi ((List.getElem?_inj hlt hnodup).mp (hd.trans hc.symm))
      rw [eventsOf_eq hd, eventsOf_eq (htable ▸ hd), h.other d hdc, State.epollCtl_ctx]
  unfold AgreesAt
  rw [hepfd, hevents]

/-- The descriptor that the operation is about. -/
theorem Does.agreesAt_self (h : Does s s' c fd op mask true fd' es)
    (hc : s.fdContexts[fd]? = some c) :
    AgreesAt s' fd ↔ (if op = .del then none else some mask) = es.wanted := by
  have htable : s'.fdContexts[fd]? = some c := by
    rw [h.fdContexts, State.epollCtl_fdContexts, hc]
  have hmask : (s'.epfd fd).map Prod.fst = if op = .del then none else some mask := by
    rw [h.epfd, State.epollCtl_epfd_self]
    split <;> rfl
  unfold AgreesAt
  rw [hmask, eventsOf_eq htable, h.events]

end Does

/-! ## The masks of the operations -/

theorem wanted_none : Events.none.wanted = none := if_pos rfl

theorem wanted_of_ne_none {e : Events} (h : e ≠ .none) : e.wanted = some (EPOLLET ||| e.bits) :=
  if_neg h

/-- Without `EPOLLET` no mask is right. -/
theorem bits_not_wanted (e e' : Events) : some e.bits ≠ e'.wanted := by
  have hne : e.bits ≠ EPOLLET ||| e'.bits := by
    obtain ⟨r, w⟩ := e
    obtain ⟨r', w'⟩ := e'
    cases r <;> cases w <;> cases r' <;> cases w' <;> decide
  intro h
  unfold Events.wanted at h
  split at h
  · cases h
  · exact hne (Option.some.inj h)

/-- An entry that is deleted when nothing is left. -/
theorem del_wanted_iff (e e' : Events) :
    (if (if e ≠ .none then CtlOp.mod else .del) = .del then none else some e'.bits) = e.wanted ↔
      e = .none := by
  by_cases h : e = .none
  · rw [h, wanted_none, if_neg (not_not.mpr rfl), if_pos rfl]
    exact ⟨fun _ => rfl, fun _ => rfl⟩
  · rw [if_pos h, if_neg (by decide)]
    exact ⟨fun heq => absurd heq (bits_not_wanted e' e), fun heq => absurd heq h⟩

section Steps

variable {s s' : State} {c fd : ℕ} {ev : Event}

/-- An operation keeps its descriptor right exactly if it is whole. -/
theorem act_agreesAt {op : Op} (hc : s.fdContexts[op.fd]? = some c) (hagrees : AgreesAt s op.fd)
    (h : s.act c true op = .ok s') : AgreesAt s' op.fd ↔ Whole (s.ctx c).events op := by
  cases op with
  | addEvent fd ev cb self scheduler =>
    obtain ⟨⟨r, t⟩, hadd, rfl⟩ := ok_of_map h
    obtain ⟨op, hop, hdoes⟩ := does_addEvent hadd
    refine (hdoes.agreesAt_self hc).trans ?_
    rw [if_neg hop]
    -- an entry is written in any case, also for `NONE`
    constructor
    · intro hmask hnone
      rw [hnone] at hmask
      cases hmask
    · intro hne
      exact (wanted_of_ne_none hne).symm
  | delEvent fd ev =>
    obtain ⟨⟨r, t⟩, hdel, rfl⟩ := ok_of_map h
    rcases does_delEvent hdel with ⟨hhas, rfl⟩ | ⟨hhas, hdoes⟩
    · refine ⟨fun _ htrue => ?_, fun _ => hagrees⟩
      rw [hhas] at htrue
      cases htrue
    · -- `EPOLL_CTL_DEL` is right, and the mask of `EPOLL_CTL_MOD` is wrong
      refine (hdoes.agreesAt_self hc).trans ((del_wanted_iff _ _).trans ?_)
      exact ⟨fun hnone _ => hnone, fun hwhole => hwhole hhas⟩
  | cancelEvent fd ev =>
    obtain ⟨⟨r, t⟩, hcancel, rfl⟩ := ok_of_map h
    rcases does_cancelEvent hcancel with ⟨hnone, rfl⟩ | hdoes
    · refine ⟨fun _ => ?_, fun _ => hagrees⟩
      unfold Whole
      rw [hnone]
      cases ev <;> rfl
    · exact (hdoes.agreesAt_self hc).trans (del_wanted_iff _ _)
  | cancelAll fd =>
    obtain ⟨⟨r, t⟩, hcancel, rfl⟩ := ok_of_map h
    refine ⟨fun _ => trivial, fun _ => ?_⟩
    rcases does_cancelAll hcancel with ⟨hnone, rfl⟩ | ⟨-, hdoes⟩
    · exact hagrees
    · apply (hdoes.agreesAt_self hc).mpr
      rw [if_pos rfl, wanted_none]

end Steps

/-! ## The invariant -/

/-- The two agree, and the kernel points to the contexts in the table. -/
structure Tracking (s : State) : Prop where
  heap : Heap s
  linked : Linked (fun _ _ => True) s
  agrees : Agrees s
  present : ∀ fd m c, s.epfd fd = some (m, c) → s.fdContexts[fd]? = some c

theorem Tracking.init : Tracking IOManager.init where
  heap := Heap.init
  linked := Linked.init
  agrees fd := by
    show none = (IOManager.init.eventsOf fd).wanted
    have hnone : IOManager.init.eventsOf fd = .none := by
      unfold State.eventsOf
      split <;> rfl
    rw [hnone, wanted_none]
  present fd m c h := by cases h

theorem wanted_eq_none {e : Events} (h : e.wanted = none) : e = .none := by
  by_contra hne
  rw [wanted_of_ne_none hne] at h
  cases h

section Steps

variable {s s' t : State} {c fd fd' : ℕ} {op : CtlOp} {mask : BitVec 32} {es : Events}

theorem Tracking.does (hi : Tracking s) (hc : s.fdContexts[fd]? = some c)
    (h : Does s s' c fd op mask true fd' es) (hfd : es ≠ .none ∨ op ≠ .del → fd' = fd)
    (hself : AgreesAt s' fd) : Tracking s' where
  heap := h.heap hi.heap (hi.heap.made c (List.mem_of_getElem? hc))
  linked := hi.linked.does (hi.linked.belongs hc) h hfd (fun _ => trivial)
  agrees i := by
    by_cases hifd : i = fd
    · rw [hifd]
      exact hself
    · exact (h.agreesAt_of_ne hi.linked.nodup hc hifd).mpr (hi.agrees i)
  present i m d hentry := by
    rw [h.epfd] at hentry
    rw [h.fdContexts, State.epollCtl_fdContexts]
    rcases epollCtl_epfd hentry with hentry | ⟨rfl, -, rfl⟩
    · exact hi.present i m d hentry
    · exact hc

/-- A lookup keeps its own descriptor right, and the others if it cuts off no event. -/
theorem Tracking.lookup_agreesAt (hi : Tracking s) (h : s.lookup fd = .ok (c, t)) :
    AgreesAt t fd ∧ ((∀ i ≠ fd, AgreesAt t i) ↔ NoCut s fd) := by
  obtain ⟨hc, ⟨hlt, rfl⟩ | ⟨hle, rfl, -⟩⟩ := State.lookup_ok h
  · exact ⟨hi.agrees fd, fun _ => Or.inl hlt, fun _ i _ => hi.agrees i⟩
  · have hlt := (List.getElem?_eq_some_iff.mp hc).choose
    rw [resized_length] at hlt
    -- below the new size the events are as they were, behind it there are none
    have hsmall : ∀ i, i < 3 * fd / 2 → AgreesAt (s.resized (3 * fd / 2)) i := by
      intro i hi'
      unfold AgreesAt
      rw [hi.heap.eventsOf_resized, if_pos hi']
      exact hi.agrees i
    have hbig : ∀ i, 3 * fd / 2 ≤ i → (AgreesAt (s.resized (3 * fd / 2)) i ↔
        s.eventsOf i = .none) := by
      intro i hi'
      unfold AgreesAt
      rw [hi.heap.eventsOf_resized, if_neg (Nat.not_lt.mpr hi'), wanted_none]
      show (s.epfd i).map Prod.fst = none ↔ _
      rw [hi.agrees i]
      refine ⟨wanted_eq_none, fun hnone => ?_⟩
      rw [hnone, wanted_none]
    refine ⟨hsmall fd hlt, ?_, ?_⟩
    · intro hagrees
      right
      intro i hi'
      exact (hbig i hi').mp (hagrees i (by omega))
    · intro hcut i _
      rcases hcut with hcut | hcut
      · exact absurd hcut (Int.not_lt.mpr hle)
      · rcases Nat.lt_or_ge i (3 * fd / 2) with hi' | hi'
        · exact hsmall i hi'
        · exact (hbig i hi').mpr (hcut i hi')

theorem Tracking.lookup (hi : Tracking s) (h : s.lookup fd = .ok (c, t)) (hcut : NoCut s fd) :
    Tracking t where
  heap := (hi.heap.lookup h).1
  linked := hi.linked.lookup hi.heap h
  agrees i := by
    obtain ⟨hself, hothers⟩ := hi.lookup_agreesAt h
    by_cases hifd : i = fd
    · rw [hifd]
      exact hself
    · exact hothers.mpr hcut i hifd
  present i m d hentry := by
    obtain ⟨-, ⟨-, rfl⟩ | ⟨hle, rfl, -⟩⟩ := State.lookup_ok h
    · exact hi.present i m d hentry
    · have hwanted : (s.eventsOf i).wanted = some m := by
        rw [← hi.agrees i]
        exact congrArg (Option.map Prod.fst) hentry
      apply getElem?_resized (hi.present i m d hentry)
      by_contra hge
      -- a registered context with events would have been cut off
      rcases hcut with hcut | hcut
      · exact absurd hcut (Int.not_lt.mpr hle)
      · rw [hcut i (Nat.not_lt.mp hge), wanted_none] at hwanted
        cases hwanted

/-- What an operation leaves right. -/
theorem Tracking.act (hi : Tracking s) {op : Op} (hc : s.fdContexts[op.fd]? = some c)
    (hwhole : Whole (s.ctx c).events op) (h : s.act c true op = .ok s') : Tracking s' := by
  have hself : AgreesAt s' op.fd := (act_agreesAt hc (hi.agrees op.fd) h).mpr hwhole
  rcases does_act h with rfl | ⟨ctl, mask, fd', es, hdoes, hfd⟩
  · exact hi
  · apply hi.does hc hdoes _ hself
    intro hor
    rcases hfd with hfd | ⟨hfd, hne⟩
    · exact hfd
    · rw [hfd, hi.linked.named op.fd c hc (hne hor)]

theorem Tracking.handle (hi : Tracking s) {events : BitVec 32}
    (hc : s.fdContexts[(s.ctx c).fd]? = some c) (h : s.handle c events true = .ok s') :
    Tracking s' := by
  rcases does_handle h with rfl | ⟨op, hop, hdoes⟩
  · exact hi
  · apply hi.does hc hdoes (fun _ => rfl)
    apply (hdoes.agreesAt_self hc).mpr
    split
    case isTrue hdel => rw [hop.mp hdel, wanted_none]
    case isFalse hne => rw [wanted_of_ne_none (fun hnone => hne (hop.mpr hnone))]

/-- The contexts of a batch stay in the table while it is gone through. -/
theorem Tracking.idle (hi : Tracking s) {reports : List Report}
    (hreports : ∀ r ∈ reports, (s.epfd r.fd).map Prod.snd = some r.ctx)
    (hs : ∀ r ∈ reports, r.success = true) (h : s.idle reports = .ok s') : Tracking s' := by
  -- each report still names its context when its turn comes
  have hinv := State.idle_invariant (I := fun u => Tracking u ∧ ∀ r ∈ reports,
    (u.ctx r.ctx).fd = r.fd ∧ u.fdContexts[r.fd]? = some r.ctx) h ⟨hi, ?_⟩ ?_
  · exact hinv.1
  · intro r hr
    obtain ⟨⟨mask, c⟩, hentry, hc⟩ := Option.map_eq_some_iff.mp (hreports r hr)
    rw [← hc]
    exact ⟨(hi.linked.entry r.fd mask c hentry).2.1, hi.present r.fd mask c hentry⟩
  · intro u u' r hr ⟨hu, hall⟩ hhandle
    rw [hs r hr] at hhandle
    obtain ⟨hfd, htable⟩ := hall r hr
    refine ⟨hu.handle (by rwa [hfd]) hhandle, fun r' hr' => ?_⟩
    rw [handle_fd hhandle, handle_fdContexts hhandle]
    exact hall r' hr'

theorem Tracking.step {l : Label} (hi : Tracking s) (hs : Succeeds l) (hl : Tracked s l)
    (h : step s l = some s') : Tracking s' := by
  rcases step_ok h with ⟨op, success, c, t, rfl, hlookup, hact⟩ | ⟨reports, rfl, hreports, hidle⟩
  · have hsuccess : success = true := hs
    rw [hsuccess] at hact
    apply (hi.lookup hlookup hl.1).act (State.lookup_ok hlookup).1 _ hact
    rw [hi.heap.lookup_events hlookup]
    exact hl.2
  · exact hi.idle hreports hs hidle

/-- A step keeps the agreement exactly if nothing is cut off and the operation is whole. -/
theorem Tracking.agrees_iff {l : Label} (hi : Tracking s) (hs : Succeeds l)
    (h : IOManager.step s l = some s') : Agrees s' ↔ Tracked s l := by
  rcases step_ok h with ⟨op, success, c, t, rfl, hlookup, hact⟩ | ⟨reports, rfl, hreports, hidle⟩
  · have hsuccess : success = true := hs
    rw [hsuccess] at hact
    have hc := (State.lookup_ok hlookup).1
    obtain ⟨hself, hothers⟩ := hi.lookup_agreesAt hlookup
    have hnodup := (hi.linked.lookup hi.heap hlookup).nodup
    have hact_others : ∀ i ≠ op.fd, (AgreesAt s' i ↔ AgreesAt t i) := by
      intro i hifd
      rcases does_act hact with rfl | ⟨ctl, mask, fd', es, hdoes, -⟩
      · exact Iff.rfl
      · exact hdoes.agreesAt_of_ne hnodup hc hifd
    have hwhole := act_agreesAt hc hself hact
    rw [hi.heap.lookup_events hlookup] at hwhole
    constructor
    · intro hagrees
      refine ⟨hothers.mp fun i hifd => ?_, hwhole.mp (hagrees op.fd)⟩
      exact (hact_others i hifd).mp (hagrees i)
    · -- the descriptor of the operation, and the others
      intro ⟨hcut, hok⟩ i
      by_cases hifd : i = op.fd
      · rw [hifd]
        exact hwhole.mpr hok
      · exact (hact_others i hifd).mpr (hothers.mpr hcut i hifd)
  · exact ⟨fun _ => trivial, fun _ => (hi.idle hreports hs hidle).agrees⟩

end Steps

/-- **The interest set**: it agrees with the table in every run whose steps are tracked, and the
first step that is not parts the two. -/
theorem interest_agrees (s : State) (h : Run step (fun s l => Succeeds l ∧ Tracked s l) init s) :
    Agrees s ∧
    ∀ l s', Succeeds l → step s l = some s' → (Agrees s' ↔ Tracked s l) := by
  have hi : Tracking s := h.invariant Tracking.init fun _ _ _ hi hok hs => hi.step hok.1 hok.2 hs
  exact ⟨hi.agrees, fun l s' hs hstep => hi.agrees_iff hs hstep⟩

/-- Both events of a descriptor are added, and one is reported. -/
theorem interest_agrees_witness : ∃ s, Agrees s ∧ s.epfd 5 = some (EPOLLET ||| 4#32, 5) := by
  have hrun : Run step (fun s l => Succeeds l ∧ Tracked s l) init _ :=
    ((Run.refl.tail (a := .call (.addEvent 5 .read none 1 (some 0)) true)
      ⟨rfl, Or.inl (by decide), fun h => nomatch congrArg Events.read h⟩ rfl).tail
      (a := .call (.addEvent 5 .write none 2 (some 0)) true)
      ⟨rfl, Or.inl (by decide), fun h => nomatch congrArg Events.write h⟩ rfl).tail
      (a := .idle [⟨5, 5, EPOLLIN, true⟩])
      ⟨fun r hr => by rw [List.mem_singleton.mp hr], trivial⟩ rfl
  exact ⟨_, (interest_agrees _ hrun).1, rfl⟩

/-- Both events of a descriptor are added, and one is deleted. -/
def untriggeredLabels : List Label :=
  [.call (.addEvent 5 .read none 1 (some 0)) true, .call (.addEvent 5 .write none 2 (some 0)) true,
    .call (.delEvent 5 .read) true]

theorem untriggered_state : (runLabels step init untriggeredLabels).map
    (fun s => ((s.epfd 5).map Prod.fst, s.eventsOf 5)) = some (some 4#32, ⟨false, true⟩) := by
  rfl

/-- **The interest set parts from the table**: what is left of the mask has lost `EPOLLET`. -/
theorem untriggered_not_agrees :
    ¬ ∀ s, Run step (fun _ l => Succeeds l) init s → Agrees s := by
  intro h
  obtain ⟨s, hs, hstate⟩ := Option.map_eq_some_iff.mp untriggered_state
  have hrun : Run step (fun _ l => Succeeds l) init s := by
    refine Run.of_allowed ?_ hs
    intro l hl _
    rcases List.mem_cons.mp hl with rfl | hl
    · rfl
    · rcases List.mem_cons.mp hl with rfl | hl
      · rfl
      · rw [List.mem_singleton.mp hl]
        rfl
  have hmask : (s.epfd 5).map Prod.fst = some 4#32 := congrArg (·.1) hstate
  have hevents : s.eventsOf 5 = ⟨false, true⟩ := congrArg (·.2) hstate
  have hagrees := h s hrun 5
  unfold AgreesAt at hagrees
  rw [hmask, hevents] at hagrees
  exact absurd hagrees (bits_not_wanted ⟨false, true⟩ _)

end CoKV.IOManager
