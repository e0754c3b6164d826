import CoKV.IOManager.Links

/-!
# Events that may be triggered

`Objects`: a slot whose bit is set has a scheduler. It is all that `trigerEvent` asks for, so what
is registered can be triggered and cancelled, and every section keeps it.
-/

namespace CoKV.IOManager

/-- Somebody's scheduler is there, if the bit is set. -/
def Callable (b : Bool) (e : EventContext) : Prop := b = true → e.scheduler ≠ none

theorem callable_false (e : EventContext) : Callable false e := fun h => absurd h Bool.false_ne_true

structure Objects (s : State) : Prop where
  heap : Heap s
  slots : ∀ c, (s.ctx c).Slots Callable

theorem Objects.init : Objects IOManager.init where
  heap := Heap.init
  slots _ := FdContext.Slots.new (callable_false _)

/-- What the program keeps to: `READ` or `WRITE` is added, on a thread that has a scheduler, or
cancelled. -/
def Op.Called : Op → Prop
  | .addEvent _ ev _ _ scheduler => ev ≠ .none ∧ scheduler ≠ none
  | .cancelEvent _ ev => ev ≠ .none
  | _ => True

section Sections

variable {s s' : State} {c fd : ℕ} {ev : Event} {success : Bool}

theorem Objects.resized (ho : Objects s) {size : ℕ}
    (hbound : (s.resized size).nextCtx ≤ maxContexts) : Objects (s.resized size) :=
  ⟨ho.heap.resized hbound, ho.slots⟩

theorem Objects.write (ho : Objects s) (hc : c < s.nextCtx) {x : FdContext} (hx : x.Slots Callable)
    (hctx : s'.ctx = (s.setCtx c x).ctx) (hnext : s'.nextCtx = s.nextCtx)
    (htable : s'.fdContexts = s.fdContexts) (hepfd : s'.epfd = s.epfd) : Objects s' where
  heap := ho.heap.write hc hctx hnext htable hepfd
  slots d := by
    rw [hctx]
    exact FdContext.Slots.setCtx ho.slots hx d

theorem Objects.epollCtl (ho : Objects s) {op : CtlOp} {mask : BitVec 32} (hc : c < s.nextCtx) :
    Objects (s.epollCtl op fd mask c success) where
  heap := ho.heap.epollCtl hc
  slots := by
    rw [State.epollCtl_ctx]
    exact ho.slots

theorem Objects.keptByFire : KeptByFire Objects where
  epollCtl ho hc := ho.epollCtl hc
  fire ho hc hev h := by
    obtain ⟨-, rfl⟩ := State.fire_ok h
    exact ho.write hc ((ho.slots _).triger hev (callable_false _)) rfl rfl rfl rfl

theorem Objects.addEvent (ho : Objects s) (hc : c < s.nextCtx) (hev : ev ≠ .none)
    {cb : Option ℕ} {self : ℕ} {scheduler : Option ℕ} {r : ℤ} (hsched : scheduler ≠ none)
    (h : s.addEvent c fd ev cb self scheduler success = .ok (r, s')) : Objects s' := by
  obtain ⟨-, -, op, -, rfl⟩ := State.addEvent_ok h
  have hctl : Objects (s.epollCtl op fd (EPOLLET ||| ((s.ctx c).events.insert ev).bits) c success) :=
    ho.epollCtl hc
  have hwaiting : Callable true (.waiting cb self scheduler) := by
    intro _
    cases cb <;> exact hsched
  exact hctl.write (by rwa [State.epollCtl_nextCtx]) ((ho.slots c).add hev hwaiting fd)
    rfl rfl rfl rfl

theorem Objects.delEvent (ho : Objects s) (hc : c < s.nextCtx) {r : Bool}
    (h : s.delEvent c fd ev success = .ok (r, s')) : Objects s' := by
  rcases State.delEvent_ok h with ⟨-, rfl⟩ | ⟨hhas, rfl⟩
  · exact ho
  · have hctl : Objects (s.epollCtl (if (s.ctx c).events.erase ev ≠ .none then .mod else .del) fd
        ((s.ctx c).events.erase ev).bits c success) := ho.epollCtl hc
    exact hctl.write (by rwa [State.epollCtl_nextCtx])
      ((ho.slots c).del (Events.ne_none_of_has hhas) (callable_false _)) rfl rfl rfl rfl

theorem Objects.act (ho : Objects s) (hc : c < s.nextCtx) {op : Op} (hop : op.Called)
    (h : s.act c success op = .ok s') : Objects s' := by
  cases op with
  | addEvent fd ev cb self scheduler =>
    obtain ⟨⟨r, t⟩, hadd, rfl⟩ := ok_of_map h
    exact ho.addEvent hc hop.1 hop.2 hadd
  | delEvent fd ev =>
    obtain ⟨⟨r, t⟩, hdel, rfl⟩ := ok_of_map h
    exact ho.delEvent hc hdel
  | cancelEvent fd ev =>
    obtain ⟨⟨r, t⟩, hcancel, rfl⟩ := ok_of_map h
    exact keptByFire.cancelEvent ho hc hop hcancel
  | cancelAll fd =>
    obtain ⟨⟨r, t⟩, hcancel, rfl⟩ := ok_of_map h
    exact keptByFire.cancelAll ho hc hcancel

/-! ## Nothing fails -/

/-- The scheduler of an event that is set is there. -/
theorem Objects.fires (ho : Objects s) {b : Bool} (hev : ev ≠ .none)
    (hhas : b = true → (s.ctx c).events.has ev = true) : ∃ s', s.fireIf b c ev = .ok s' := by
  cases b with
  | false => exact ⟨s, rfl⟩
  | true => exact State.fire_of_scheduler (ho.slots c ev hev (hhas rfl))

/-- `idle` goes through with a report, if what it takes for real is set. -/
theorem Objects.handles (ho : Objects s) (hc : c < s.nextCtx) {events : BitVec 32}
    (hreal : (s.ctx c).events.bits &&& ((s.ctx c).realEvents events).bits ≠ 0#32 →
      ∀ ev, ((s.ctx c).realEvents events).has ev = true → (s.ctx c).events.has ev = true) :
    ∃ s', s.handle c events success = .ok s' := by
  unfold State.handle
  dsimp only
  split
  case isTrue => exact ⟨s, rfl⟩
  case isFalse hmeet =>
    set u := s.epollCtl _ _ _ c success with hu
    have huctx : u.ctx = s.ctx := State.epollCtl_ctx ..
    have huo : Objects u := ho.epollCtl hc
    have huc : c < u.nextCtx := by rwa [hu, State.epollCtl_nextCtx]
    obtain ⟨t, ht⟩ : ∃ t, u.fireIf (((s.ctx c).realEvents events).has .read) c .read = .ok t :=
      huo.fires (by decide) (by rw [huctx]; exact hreal hmeet .read)
    have hto : Objects t := keptByFire.fireIf huo huc (by decide) ht
    -- `WRITE` is still set behind the first `trigerEvent`
    have hwrite : (t.ctx c).events.has .write = (s.ctx c).events.has .write := by
      rw [(wrote_fireIf ht).events, huctx]
      split
      · exact Events.has_erase_of_ne (by decide)
      · rfl
    obtain ⟨s', hs'⟩ : ∃ s', t.fireIf (((s.ctx c).realEvents events).has .write) c .write = .ok s' :=
      hto.fires (by decide) (by rw [hwrite]; exact hreal hmeet .write)
    refine ⟨s', ?_⟩
    rw [ht]
    exact hs'

theorem Objects.cancelsAll (ho : Objects s) (hc : c < s.nextCtx) :
    ∃ r, s.cancelAll c fd success = .ok r := by
  unfold State.cancelAll
  dsimp only
  split
  · exact ⟨_, rfl⟩
  · set u := s.epollCtl _ _ _ c success with hu
    have huo : Objects u := ho.epollCtl hc
    have huc : c < u.nextCtx := by rwa [hu, State.epollCtl_nextCtx]
    obtain ⟨t, ht⟩ : ∃ t, u.fireIf ((u.ctx c).events.has .read) c .read = .ok t :=
      huo.fires (by decide) id
    have hto : Objects t := keptByFire.fireIf huo huc (by decide) ht
    obtain ⟨s', hs'⟩ : ∃ s', t.fireIf ((t.ctx c).events.has .write) c .write = .ok s' :=
      hto.fires (by decide) id
    refine ⟨(true, s'), ?_⟩
    rw [ht]
    show (t.fireIf _ c .write >>= _) = _
    rw [hs']
    rfl

end Sections

end CoKV.IOManager
