import CoKV.IOManager.Sections
import CoKV.Lib.Shares

/-!
# Contexts and the objects behind the table

What the three writes of a context do to its fields, and `Heap`, which holds in every run: the
table and the kernel know objects that have been made, and the others are as `new` leaves them.
-/

namespace CoKV.IOManager

/-! ## Bits -/

namespace Events

variable {e : Events} {ev ev' : Event}

/-- `|` sets the bit of its event. -/
theorem has_insert_self (h : ev ≠ .none) : (e.insert ev).has ev = true := by
  cases ev with
  | none => exact absurd rfl h
  | _ => rfl

/-- `|` leaves the other bit. -/
theorem has_insert_of_ne (h : ev' ≠ ev) : (e.insert ev).has ev' = e.has ev' := by
  cases ev <;> cases ev' <;> first | rfl | exact absurd rfl h

/-- `& ~` clears the bit of its event. -/
theorem has_erase_self : (e.erase ev).has ev = false := by
  cases ev <;> rfl

/-- `& ~` leaves the other bit. -/
theorem has_erase_of_ne (h : ev' ≠ ev) : (e.erase ev).has ev' = e.has ev' := by
  cases ev <;> cases ev' <;> first | rfl | exact absurd rfl h

/-- `NONE` has no bit to be set. -/
theorem ne_none_of_has (h : e.has ev = true) : ev ≠ .none := by
  rintro rfl
  cases h

/-- A new bit counts one. -/
theorem count_insert (hev : ev ≠ .none) (h : e.has ev = false) :
    (e.insert ev).count = e.count + 1 := by
  obtain ⟨r, w⟩ := e
  cases ev with
  | none => exact absurd rfl hev
  | read =>
    have hr : r = false := h
    rw [hr]
    show 1 + w.toNat = 0 + w.toNat + 1
    omega
  | write =>
    have hw : w = false := h
    rw [hw]
    rfl

/-- A bit that is cleared counts one. -/
theorem count_erase (h : e.has ev = true) : (e.erase ev).count + 1 = e.count := by
  have hne : ev ≠ .none := ne_none_of_has h
  have hins : (e.erase ev).insert ev = e := by
    obtain ⟨r, w⟩ := e
    cases ev with
    | none => rfl
    | read =>
      have hr : r = true := h
      rw [hr]
      rfl
    | write =>
      have hw : w = true := h
      rw [hw]
      rfl
  rw [← count_insert hne has_erase_self, hins]

/-- There are two bits. -/
theorem count_le (e : Events) : e.count ≤ 2 := by
  unfold count
  have hr := Bool.toNat_le e.read
  have hw := Bool.toNat_le e.write
  omega

end Events

/-! ## Fields -/

namespace FdContext

variable {x : FdContext} {fd : ℕ} {ev ev' : Event} {e : EventContext}

/-- The slot that is written is the slot of its event. -/
theorem getEventContext_set_self : (x.setEventContext ev e).getEventContext ev = e := by
  cases ev <;> rfl

/-- The slot of the other event is not touched. -/
theorem getEventContext_set_of_ne (hev : ev ≠ .none) (hev' : ev' ≠ .none) (h : ev' ≠ ev) :
    (x.setEventContext ev e).getEventContext ev' = x.getEventContext ev' := by
  cases ev <;> cases ev' <;> first | rfl | contradiction

/-- Each bit and its slot are related by `P`. -/
def Slots (P : Bool → EventContext → Prop) (x : FdContext) : Prop :=
  ∀ ev ≠ .none, P (x.events.has ev) (x.getEventContext ev)

variable {P : Bool → EventContext → Prop}

/-- A new context has no bit set and both slots empty. -/
theorem Slots.new (he : P false .empty) : FdContext.new.Slots P := by
  intro ev _
  cases ev <;> exact he

/-- What one context keeps and the others have. -/
theorem Slots.setCtx {s : State} {c : ℕ} (h : ∀ d, (s.ctx d).Slots P) (hx : x.Slots P) (d : ℕ) :
    ((s.setCtx c x).ctx d).Slots P := by
  by_cases hd : d = c
  · rw [hd, State.setCtx_ctx_self]
    exact hx
  · rw [State.setCtx_ctx_of_ne _ _ hd]
    exact h d

/-- A write of a bit and its slot. -/
theorem Slots.write {y : FdContext} (h : x.Slots P) (hev : ev ≠ .none) (hread : y.read = x.read)
    (hwrite : y.write = x.write) (hother : ∀ ev' ≠ ev, y.events.has ev' = x.events.has ev')
    (he : P (y.events.has ev) e) : (y.setEventContext ev e).Slots P := by
  have hslots : y.getEventContext = x.getEventContext := by
    funext ev'
    unfold getEventContext
    rw [hread, hwrite]
  intro ev' hev'
  rw [events_setEventContext]
  by_cases heq : ev' = ev
  · rw [heq, getEventContext_set_self]
    exact he
  · rw [getEventContext_set_of_ne hev hev' heq, hslots, hother ev' heq]
    exact h ev' hev'

/-- `addEvent` sets the bit and fills the slot. -/
theorem Slots.add (h : x.Slots P) (hev : ev ≠ .none) (he : P true e) (fd : ℕ) :
    (x.add fd ev e).Slots P := by
  refine h.write hev rfl rfl (fun _ hne => Events.has_insert_of_ne hne) ?_
  rwa [Events.has_insert_self hev]

/-- `delEvent` clears the bit and empties the slot. -/
theorem Slots.del (h : x.Slots P) (hev : ev ≠ .none) (he : P false .empty) :
    (x.del ev).Slots P := by
  refine h.write hev rfl rfl (fun _ hne => Events.has_erase_of_ne hne) ?_
  rwa [Events.has_erase_self]

/-- `trigerEvent` clears the bit and takes the waiter out of the slot. -/
theorem Slots.triger (h : x.Slots P) (hev : ev ≠ .none)
    (he : P false (x.getEventContext ev).taken) : (x.triger ev).Slots P := by
  refine h.write hev rfl rfl (fun _ hne => Events.has_erase_of_ne hne) ?_
  rwa [Events.has_erase_self]

end FdContext

/-! ## Objects -/

/-- The table and the kernel point to objects. -/
structure Heap (s : State) : Prop where
  fresh : ∀ c, s.nextCtx ≤ c → s.ctx c = .new
  made : ∀ c ∈ s.fdContexts, c < s.nextCtx
  kernel : ∀ fd mask c, s.epfd fd = some (mask, c) → c < s.nextCtx
  bound : s.nextCtx ≤ maxContexts

/-- At first there are the contexts of the table, and they are new. -/
theorem Heap.init : Heap IOManager.init where
  fresh c _ := rfl
  made c hc := List.mem_range.mp hc
  kernel fd mask c h := by cases h
  bound := by decide

variable {s s' : State}

/-- What `epoll_ctl` has stored, and what was there before. -/
theorem epollCtl_epfd {op : CtlOp} {fd fd' ptr c : ℕ} {mask m : BitVec 32} {success : Bool}
    (h : (s.epollCtl op fd mask ptr success).epfd fd' = some (m, c)) :
    s.epfd fd' = some (m, c) ∨ fd' = fd ∧ m = mask ∧ c = ptr := by
  by_cases hfd : fd' = fd
  · cases success with
    | false => exact Or.inl h
    | true =>
      right
      rw [hfd, State.epollCtl_epfd_self] at h
      split at h
      · cases h
      · cases h
        exact ⟨hfd, rfl, rfl⟩
  · -- the entry of another descriptor
    rw [State.epollCtl_epfd_of_ne _ _ _ _ _ _ hfd] at h
    exact Or.inl h

/-- The pointer given to the kernel is one of an existing context. -/
theorem Heap.epollCtl (hh : Heap s) {op : CtlOp} {fd c : ℕ} {mask : BitVec 32} {success : Bool}
    (hc : c < s.nextCtx) : Heap (s.epollCtl op fd mask c success) where
  fresh d hd := by
    rw [State.epollCtl_nextCtx] at hd
    rw [State.epollCtl_ctx]
    exact hh.fresh d hd
  made := by
    rw [State.epollCtl_fdContexts, State.epollCtl_nextCtx]
    exact hh.made
  kernel fd' mask' d h := by
    rw [State.epollCtl_nextCtx]
    rcases epollCtl_epfd h with h | ⟨-, -, rfl⟩
    · exact hh.kernel fd' mask' d h
    · exact hc
  bound := by
    rw [State.epollCtl_nextCtx]
    exact hh.bound

/-- One context is written. -/
theorem Heap.write (hh : Heap s) {c : ℕ} (hc : c < s.nextCtx) {x : FdContext}
    (hctx : s'.ctx = (s.setCtx c x).ctx) (hnext : s'.nextCtx = s.nextCtx)
    (htable : s'.fdContexts = s.fdContexts) (hepfd : s'.epfd = s.epfd) : Heap s' where
  fresh d hd := by
    rw [hnext] at hd
    rw [hctx, State.setCtx_ctx_of_ne _ _ (Nat.ne_of_gt (Nat.lt_of_lt_of_le hc hd))]
    exact hh.fresh d hd
  made := by
    rw [hnext, htable]
    exact hh.made
  kernel := by
    rw [hnext, hepfd]
    exact hh.kernel
  bound := by
    rw [hnext]
    exact hh.bound

/-- The contexts that a resize makes are new. -/
theorem Heap.resized (hh : Heap s) {size : ℕ} (hbound : (s.resized size).nextCtx ≤ maxContexts) :
    Heap (s.resized size) where
  fresh d hd := hh.fresh d (Nat.le_trans (Nat.le_add_right ..) hd)
  made d hd := by
    rcases List.mem_append.mp hd with hd | hd
    · exact Nat.lt_of_lt_of_le (hh.made d (List.mem_of_mem_take hd)) (Nat.le_add_right ..)
    · exact (List.mem_range'_1.mp hd).2
  kernel fd mask d h := Nat.lt_of_lt_of_le (hh.kernel fd mask d h) (Nat.le_add_right ..)
  bound := hbound

/-! ## The resized table -/

/-- A resize makes the table as long as it says. -/
theorem resized_length (s : State) (size : ℕ) : (s.resized size).fdContexts.length = size := by
  show (s.fdContexts.take size
    ++ List.range' s.nextCtx (size - s.fdContexts.length)).length = size
  rw [List.length_append, List.length_take, List.length_range']
  omega

/-- What is in the resized table has been there, or is new. -/
theorem resized_getElem? {size i c : ℕ} (h : (s.resized size).fdContexts[i]? = some c) :
    s.fdContexts[i]? = some c ∨ s.fdContexts[i]? = none ∧ s.nextCtx ≤ c := by
  have h' : (s.fdContexts.take size
      ++ List.range' s.nextCtx (size - s.fdContexts.length))[i]? = some c := h
  rw [List.getElem?_append] at h'
  split at h'
  case isTrue hlt =>
    rw [List.length_take] at hlt
    rw [List.getElem?_take_of_lt (by omega)] at h'
    exact Or.inl h'
  case isFalse hge =>
    have hc := (List.mem_range'_1.mp (List.mem_of_getElem? h')).1
    have hlen : i - (s.fdContexts.take size).length < size - s.fdContexts.length := by
      obtain ⟨hlt, -⟩ := List.getElem?_eq_some_iff.mp h'
      rwa [List.length_range'] at hlt
    rw [List.length_take] at hge hlen
    exact Or.inr ⟨List.getElem?_eq_none (by omega), hc⟩

/-- What is in the table and not cut off stays where it is. -/
theorem getElem?_resized {size i c : ℕ} (h : s.fdContexts[i]? = some c) (hi : i < size) :
    (s.resized size).fdContexts[i]? = some c := by
  show (s.fdContexts.take size
    ++ List.range' s.nextCtx (size - s.fdContexts.length))[i]? = some c
  obtain ⟨hlt, -⟩ := List.getElem?_eq_some_iff.mp h
  rw [List.getElem?_append_left (by rw [List.length_take]; omega), List.getElem?_take_of_lt hi, h]

/-- The events of the context that the table has for a descriptor. -/
def State.eventsOf (s : State) (fd : ℕ) : Events :=
  match s.fdContexts[fd]? with
  | some c => (s.ctx c).events
  | none => .none

/-- What is cut off has no events any more. -/
theorem Heap.eventsOf_resized (hh : Heap s) (size i : ℕ) :
    (s.resized size).eventsOf i = if i < size then s.eventsOf i else .none := by
  unfold State.eventsOf
  cases hr : (s.resized size).fdContexts[i]? with
  | none =>
    have hlen : (s.resized size).fdContexts.length ≤ i := List.getElem?_eq_none_iff.mp hr
    rw [resized_length] at hlen
    rw [if_neg (Nat.not_lt.mpr hlen)]
  | some c =>
    have hlt : i < size := by
      have hlen := (List.getElem?_eq_some_iff.mp hr).choose
      rwa [resized_length] at hlen
    rw [if_pos hlt]
    -- a context that was there, or one that `new` has just made
    rcases resized_getElem? hr with hold | ⟨hnone, hnew⟩
    · rw [hold]
      rfl
    · rw [hnone]
      show (s.ctx c).events = .none
      rw [hh.fresh c hnew]
      rfl

/-- The events of a descriptor are those of its context. -/
theorem eventsOf_eq {fd c : ℕ} (h : s.fdContexts[fd]? = some c) :
    s.eventsOf fd = (s.ctx c).events := by
  unfold State.eventsOf
  rw [h]

/-- A lookup finds an object. -/
theorem Heap.lookup {fd c : ℕ} (hh : Heap s) (h : s.lookup fd = .ok (c, s')) :
    Heap s' ∧ c < s'.nextCtx := by
  have hh' : Heap s' := State.lookup_invariant h hh fun _ hbound => hh.resized hbound
  exact ⟨hh', hh'.made c (List.mem_of_getElem? (State.lookup_ok h).1)⟩

/-- The events in what a lookup finds. -/
theorem Heap.lookup_events {fd c : ℕ} (hh : Heap s) (h : s.lookup fd = .ok (c, s')) :
    (s'.ctx c).events = s.eventsOf fd := by
  obtain ⟨hc, hs⟩ := State.lookup_ok h
  rw [← eventsOf_eq hc]
  rcases hs with ⟨-, rfl⟩ | ⟨-, rfl, -⟩
  · rfl
  · have hlt := (List.getElem?_eq_some_iff.mp hc).choose
    rw [resized_length] at hlt
    rw [hh.eventsOf_resized, if_pos hlt]

/-! ## Sums over all objects -/

section Over

variable {M : Type} [AddCommMonoid M]

/-- The sum over all objects that have been made. -/
def State.over (s : State) (f : ℕ → FdContext → M) : M :=
  ((List.range s.nextCtx).map fun c => f c (s.ctx c)).sum

variable {f : ℕ → FdContext → M}

/-- A sum over the contexts depends on nothing but the contexts. -/
theorem over_congr (hctx : s'.ctx = s.ctx) (hnext : s'.nextCtx = s.nextCtx) :
    s'.over f = s.over f := by
  unfold State.over
  rw [hctx, hnext]

/-- A write of one object. -/
theorem over_setCtx {c : ℕ} {x : FdContext} {a b : M} (hc : c < s.nextCtx)
    (h : b + f c x = a + f c (s.ctx c)) : b + (s.setCtx c x).over f = a + s.over f := by
  apply sum_of_share List.nodup_range (List.mem_range.mpr hc)
  · intro d hd
    rw [State.setCtx_ctx_of_ne _ _ hd]
  · rw [State.setCtx_ctx_self]
    exact h

/-- New objects count for nothing. -/
theorem over_resized (hh : Heap s) (hf : ∀ c, f c .new = 0) (size : ℕ) :
    (s.resized size).over f = s.over f := by
  show ((List.range (s.nextCtx + _)).map _).sum = _
  rw [List.range_add, List.map_append, List.sum_append]
  have hnew : ∀ m ∈ (List.map (fun x => s.nextCtx + x)
      (List.range (size - s.fdContexts.length))).map fun c => f c ((s.resized size).ctx c), m = 0 := by
    intro m hm
    obtain ⟨c, hc, rfl⟩ := List.mem_map.mp hm
    obtain ⟨i, -, rfl⟩ := List.mem_map.mp hc
    show f _ (s.ctx _) = 0
    rw [hh.fresh _ (Nat.le_add_right ..), hf]
  rw [List.sum_eq_zero hnew, add_zero]
  rfl

end Over

/-! ## What fires -/

section Fires

variable {c : ℕ} {ev : Event} {b : Bool}

/-- The waiter is handed over if the bit is set, and nobody otherwise. -/
theorem fireIf_handed (h : s.fireIf b c ev = .ok s') : s'.handed
    = s.handed ++ if b then (((s.ctx c).getEventContext ev).waiter c ev).toList else [] := by
  rcases State.fireIf_ok h with ⟨rfl, rfl⟩ | ⟨rfl, h⟩
  · exact (List.append_nil _).symm
  · obtain ⟨-, rfl⟩ := State.fire_ok h
    rfl

/-- A bit that is triggered had a scheduler in its slot. -/
theorem fireIf_scheduler (h : s.fireIf b c ev = .ok s') (hb : b = true) :
    ((s.ctx c).getEventContext ev).scheduler ≠ none := by
  rcases State.fireIf_ok h with ⟨rfl, -⟩ | ⟨-, h⟩
  · cases hb
  · exact (State.fire_ok h).1

/-- One slot is emptied, the other one is as it was. -/
theorem fireIf_slot {ev' : Event} (h : s.fireIf b c ev = .ok s') (hev : ev ≠ .none)
    (hev' : ev' ≠ .none) (hne : ev' ≠ ev) :
    (s'.ctx c).getEventContext ev' = (s.ctx c).getEventContext ev' ∧
      (s'.ctx c).events.has ev' = (s.ctx c).events.has ev' := by
  rcases State.fireIf_ok h with ⟨-, rfl⟩ | ⟨-, h⟩
  · exact ⟨rfl, rfl⟩
  · obtain ⟨-, rfl⟩ := State.fire_ok h
    show ((State.setCtx _ c _).ctx c).getEventContext ev' = _ ∧
      ((State.setCtx _ c _).ctx c).events.has ev' = _
    rw [State.setCtx_ctx_self, FdContext.events_triger, Events.has_erase_of_ne hne]
    exact ⟨FdContext.getEventContext_set_of_ne hev hev' hne, rfl⟩

end Fires

/-- An invariant that `epoll_ctl` and `trigerEvent` keep. -/
structure KeptByFire (I : State → Prop) : Prop where
  epollCtl : ∀ {s op fd mask c success}, I s → c < s.nextCtx →
    I (s.epollCtl op fd mask c success)
  fire : ∀ {s s' c ev}, I s → c < s.nextCtx → ev ≠ .none → s.fire c ev = .ok s' → I s'

namespace KeptByFire

variable {I : State → Prop} {c fd : ℕ} {ev : Event} {success : Bool}

/-- Behind the test of a bit. -/
theorem fireIf (hI : KeptByFire I) {b : Bool} (hi : I s) (hc : c < s.nextCtx) (hev : ev ≠ .none)
    (h : s.fireIf b c ev = .ok s') : I s' := by
  rcases State.fireIf_ok h with ⟨-, rfl⟩ | ⟨-, h⟩
  · exact hi
  · exact hI.fire hi hc hev h

/-- In `cancelEvent`, behind its `epoll_ctl`. -/
theorem cancelEvent (hI : KeptByFire I) {r : Bool} (hi : I s) (hc : c < s.nextCtx)
    (hev : ev ≠ .none) (h : s.cancelEvent c fd ev success = .ok (r, s')) : I s' := by
  rcases State.cancelEvent_ok h with ⟨-, rfl⟩ | hfire
  · exact hi
  · exact hI.fire (hI.epollCtl hi hc) (by rwa [State.epollCtl_nextCtx]) hev hfire

/-- In `cancelAll`, for both events. -/
theorem cancelAll (hI : KeptByFire I) {r : Bool} (hi : I s) (hc : c < s.nextCtx)
    (h : s.cancelAll c fd success = .ok (r, s')) : I s' := by
  rcases State.cancelAll_ok h with ⟨-, rfl⟩ | ⟨-, t, hread, hwrite⟩
  · exact hi
  · -- `READ` first, then `WRITE`
    have ht : I t := hI.fireIf (hI.epollCtl hi hc) (by rwa [State.epollCtl_nextCtx]) (by decide) hread
    refine hI.fireIf ht ?_ (by decide) hwrite
    rwa [State.fireIf_nextCtx hread, State.epollCtl_nextCtx]

/-- In `idle`, for both events of one report. -/
theorem handle (hI : KeptByFire I) {events : BitVec 32} (hi : I s) (hc : c < s.nextCtx)
    (h : s.handle c events success = .ok s') : I s' := by
  rcases State.handle_ok h with rfl | ⟨op, t, -, hread, hwrite⟩
  · exact hi
  · have ht : I t := hI.fireIf (hI.epollCtl hi hc) (by rwa [State.epollCtl_nextCtx]) (by decide) hread
    refine hI.fireIf ht ?_ (by decide) hwrite
    rwa [State.fireIf_nextCtx hread, State.epollCtl_nextCtx]

/-- In `idle`, for a whole batch of reports. -/
theorem idle (hI : KeptByFire I) {reports : List Report} (hi : I s)
    (hreports : ∀ r ∈ reports, r.ctx < s.nextCtx) (h : s.idle reports = .ok s') : I s' := by
  have hinv : I s' ∧ s'.nextCtx = s.nextCtx := by
    apply State.idle_invariant (I := fun t => I t ∧ t.nextCtx = s.nextCtx) h ⟨hi, rfl⟩
    intro t u r hr ht hu
    have hc : r.ctx < t.nextCtx := by
      rw [ht.2]
      exact hreports r hr
    exact ⟨hI.handle ht.1 hc hu, (State.handle_nextCtx hu).trans ht.2⟩
  exact hinv.1

end KeptByFire

/-- What `epoll_wait` reports are objects. -/
theorem Heap.reported (hh : Heap s) {reports : List Report}
    (h : ∀ r ∈ reports, (s.epfd r.fd).map Prod.snd = some r.ctx) :
    ∀ r ∈ reports, r.ctx < s.nextCtx := by
  intro r hr
  obtain ⟨⟨mask, c⟩, hmask, hc⟩ := Option.map_eq_some_iff.mp (h r hr)
  rw [← hc]
  exact hh.kernel _ _ _ hmask

end CoKV.IOManager
