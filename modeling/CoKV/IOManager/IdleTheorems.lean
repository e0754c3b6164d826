import CoKV.IOManager.Loops
import CoKV.IOManager.Objects
import CoKV.Lib.Run

/-!
# What idle loops trigger

`idle_trigers_registered`: however idle loops and operations are interleaved, `idle` triggers what
is registered, as long as no report names both events when one of them only is left. A report is as
old as its batch, and `idle` tests that some event of it is registered, and then triggers all.
-/

namespace CoKV.IOManager

variable {T : Type}

/-! ## The events of a report -/

/-- What is reported is registered, or both events are reported and one is registered. -/
theorem has_of_agree {e real : Events} (hmeet : e.bits &&& real.bits ≠ 0#32)
    (hagree : real.read = true → real.write = true → e.read = e.write) (ev : Event)
    (hev : real.has ev = true) : e.has ev = true := by
  obtain ⟨r, w⟩ := e
  obtain ⟨r', w'⟩ := real
  cases ev <;> cases r <;> cases w <;> cases r' <;> cases w' <;>
    first
      | rfl
      | exact absurd rfl hmeet
      | exact absurd (hagree rfl rfl) (by decide)
      | cases hev

theorem Events.mem_toList {e : Events} {ev : Event} : ev ∈ e.toList ↔ e.has ev = true := by
  obtain ⟨r, w⟩ := e
  cases ev <;> cases r <;> cases w <;> decide

theorem Events.toList_nodup (e : Events) : e.toList.Nodup := by
  obtain ⟨r, w⟩ := e
  cases r <;> cases w <;> decide

variable {x : FdContext} {c : ℕ}

/-- One call does not clear the bit of another. -/
theorem trigers_registered (hx : x.Slots Callable) {evs : List Event} (hnodup : evs.Nodup)
    (hset : ∀ ev ∈ evs, x.events.has ev = true) : ∀ g ∈ x.trigers c evs, g.Registered := by
  induction evs generalizing x with
  | nil =>
    intro g hg
    cases hg
  | cons ev evs ih =>
    obtain ⟨hnotin, hnodup⟩ := List.nodup_cons.mp hnodup
    have hhas : x.events.has ev = true := hset ev (List.mem_cons_self ..)
    have hev : ev ≠ .none := Events.ne_none_of_has hhas
    have hsched : (x.getEventContext ev).scheduler ≠ none := hx ev hev hhas
    intro g hg
    unfold FdContext.trigers at hg
    rw [if_neg hsched] at hg
    rcases List.mem_cons.mp hg with rfl | hg
    · exact ⟨hhas, hsched⟩
    · apply ih (hx.triger hev (callable_false _)) hnodup _ g hg
      intro ev' hev'
      have hne : ev' ≠ ev := fun heq => hnotin (heq ▸ hev')
      rw [FdContext.events_triger, Events.has_erase_of_ne hne]
      exact hset ev' (List.mem_cons_of_mem ev hev')

/-- With both events reported and one registered, the other is triggered. -/
theorem trigers_not_registered (hx : x.Slots Callable) (h : x.events.read ≠ x.events.write) :
    ∃ g ∈ x.trigers c [.read, .write], ¬ g.Registered := by
  by_cases hread : x.events.read = true
  · have hwrite : x.events.write = false := by
      rw [hread] at h
      simpa using h.symm
    have hsched : (x.getEventContext .read).scheduler ≠ none := hx .read (by decide) hread
    refine ⟨⟨c, .write, x.triger .read⟩, ?_, fun hg => ?_⟩
    · unfold FdContext.trigers
      rw [if_neg hsched]
      exact List.mem_cons_of_mem _ (List.mem_cons_self ..)
    · have hset : (x.triger .read).events.has .write = true := hg.set
      rw [FdContext.events_triger, Events.has_erase_of_ne (by decide)] at hset
      exact absurd (hwrite.symm.trans hset) Bool.false_ne_true
  · refine ⟨⟨c, .read, x⟩, ?_, fun hg => hread hg.set⟩
    unfold FdContext.trigers
    exact List.mem_cons_self ..

/-! ## Runs -/

/-- Nothing but registered events has been triggered, so that no scheduler was null. -/
structure Settled (s : Loops T) : Prop where
  registered : ∀ g ∈ s.trigered, g.Registered
  fault : s.fault = none

/-- What a thread is called with. -/
def Calls (_ : Loops T) : LoopLabel T → Prop
  | .thread (.call _ op) => op.Called
  | _ => True

/-- The next report of a thread does not name both events while one of them is registered and the
other is not. -/
def Untorn (s : Loops T) : LoopLabel T → Prop
  | .handle t => ∀ r ∈ (s.events t).head?,
      let x := s.threads.shared.ctx r.ctx
      (x.realEvents r.events).read = true → (x.realEvents r.events).write = true →
        x.events.read = x.events.write
  | _ => True

def ThreadPc.op : ThreadPc → Option Op
  | outside => none
  | readLock op | writeLock op | act op _ => some op

/-- What holds in every run. -/
structure Idling (s : Loops T) : Prop where
  objects : Objects s.threads.shared
  called : ∀ t op, (s.threads.pc t).op = some op → op.Called
  acting : ∀ t op c, s.threads.pc t = .act op c → c < s.threads.shared.nextCtx
  batched : ∀ t, ∀ r ∈ s.events t, r.ctx < s.threads.shared.nextCtx
  settled : Settled s

theorem Idling.start : Idling (Loops.start : Loops T) where
  objects := Objects.init
  called t op h := by cases h
  acting t op c h := by cases h
  batched t r hr := by cases hr
  settled := ⟨nofun, rfl⟩

theorem act_nextCtx {s s' : State} {success : Bool} {op : Op} (h : s.act c success op = .ok s') :
    s'.nextCtx = s.nextCtx := by
  rcases does_act h with rfl | ⟨ctl, mask, fd', es, hdoes, -⟩
  · rfl
  · rw [hdoes.nextCtx, State.epollCtl_nextCtx]

section Steps

variable [DecidableEq T] {s : Loops T}

/-- A thread that moves on knows its context, if it has one, and its operation. -/
theorem Idling.moves (hi : Idling s) {threads : Threads T} {t : T} {pc : ThreadPc}
    (hpc : threads.pc = Function.update s.threads.pc t pc) (ho : Objects threads.shared)
    (hgrown : s.threads.shared.nextCtx ≤ threads.shared.nextCtx)
    (hop : ∀ op, pc.op = some op → op.Called)
    (hact : ∀ op c, pc = .act op c → c < threads.shared.nextCtx) :
    Idling { s with threads := threads } where
  objects := ho
  called t' op h := by
    change (threads.pc t').op = some op at h
    rw [hpc] at h
    by_cases ht : t' = t
    · rw [ht, Function.update_self] at h
      exact hop op h
    · rw [Function.update_of_ne ht] at h
      exact hi.called t' op h
  acting t' op c h := by
    change threads.pc t' = .act op c at h
    rw [hpc] at h
    by_cases ht : t' = t
    · rw [ht, Function.update_self] at h
      exact hact op c h
    · rw [Function.update_of_ne ht] at h
      exact Nat.lt_of_lt_of_le (hi.acting t' op c h) hgrown
  batched t' r hr := Nat.lt_of_lt_of_le (hi.batched t' r hr) hgrown
  settled := ⟨hi.settled.registered, hi.settled.fault⟩

theorem Idling.thread (hi : Idling s) {l : ThreadLabel T} {threads : Threads T}
    (hok : Calls s (.thread l)) (h : s.threads.step l = some threads) :
    Idling { s with threads := threads } := by
  cases Threads.step_moves h with
  | call hpc =>
    refine hi.moves rfl hi.objects (Nat.le_refl _) ?_ (by rintro op c ⟨⟩)
    rintro op ⟨⟩
    exact hok
  | found hpc hc =>
    have hcalled := hi.called _ _ (congrArg ThreadPc.op hpc)
    refine hi.moves rfl hi.objects (Nat.le_refl _) ?_ ?_
    · rintro op ⟨⟩
      exact hcalled
    · rintro op c ⟨⟩
      exact hi.objects.heap.made _ (List.mem_of_getElem? hc)
  | short hpc =>
    have hcalled := hi.called _ _ (congrArg ThreadPc.op hpc)
    refine hi.moves rfl hi.objects (Nat.le_refl _) ?_ (by rintro op c ⟨⟩)
    rintro op ⟨⟩
    exact hcalled
  | @resized t success op c shared hpc hw =>
    have hcalled := hi.called _ _ (congrArg ThreadPc.op hpc)
    obtain ⟨hc, hresized, hbound⟩ := State.writeSection_ok hw
    have ho : Objects shared := by
      rw [hresized] at hbound ⊢
      exact hi.objects.resized hbound
    refine hi.moves rfl ho ?_ ?_ ?_
    · rw [hresized]
      exact Nat.le_add_right ..
    · rintro op ⟨⟩
      exact hcalled
    · rintro op c ⟨⟩
      exact ho.heap.made _ (List.mem_of_getElem? hc)
  | act hpc hact =>
    have hcalled := hi.called _ _ (congrArg ThreadPc.op hpc)
    have ho := hi.objects.act (hi.acting _ _ _ hpc) hcalled hact
    refine hi.moves rfl ho (Nat.le_of_eq (act_nextCtx hact).symm) ?_ ?_
    · rintro op ⟨⟩
    · rintro op c ⟨⟩

theorem Idling.epollWait (hi : Idling s) {t : T} {events : List Report}
    (hevents : events.all s.threads.shared.reports = true) :
    Idling { s with events := Function.update s.events t events } where
  objects := hi.objects
  called := hi.called
  acting := hi.acting
  batched t' r hr := by
    change r ∈ Function.update s.events t events t' at hr
    by_cases ht : t' = t
    · rw [ht, Function.update_self] at hr
      have hreports := List.all_eq_true.mp hevents r hr
      unfold State.reports at hreports
      split at hreports
      case h_1 => cases hreports
      case h_2 mask c hentry =>
        rw [Bool.and_eq_true, beq_iff_eq] at hreports
        rw [← hreports.1]
        exact hi.objects.heap.kernel r.fd mask c hentry
    · rw [Function.update_of_ne ht] at hr
      exact hi.batched t' r hr
  settled := ⟨hi.settled.registered, hi.settled.fault⟩

/-- A report is handled: the first of those that are left. -/
theorem step_handle {t : T} {s' : Loops T} (h : s.step (.handle t) = some s') :
    ∃ r events, s.events t = r :: events ∧
      s'.trigered = s.trigered ++ s.threads.shared.trigers r.ctx r.events ∧
      ∀ shared, s.threads.shared.handle r.ctx r.events r.success = .ok shared →
        s'.threads = { s.threads with shared := shared } ∧
          s'.events = Function.update s.events t events ∧ s'.fault = s.fault := by
  unfold Loops.step at h
  dsimp only at h
  split at h
  case h_2 => cases h
  case h_1 r events hfault hr =>
    refine ⟨r, events, hr, ?_, ?_⟩
    · split at h <;> cases h <;> rfl
    · intro shared hshared
      rw [hshared] at h
      cases h
      exact ⟨rfl, rfl, rfl⟩

theorem Idling.handle (hi : Idling s) {t : T} {s' : Loops T} (hok : Untorn s (.handle t))
    (h : s.step (.handle t) = some s') : Idling s' := by
  obtain ⟨r, events, hr, htrigered, hrun⟩ := step_handle h
  have hc : r.ctx < s.threads.shared.nextCtx :=
    hi.batched t r (by rw [hr]; exact List.mem_cons_self ..)
  have hagree := hok r (by rw [hr]; rfl)
  obtain ⟨shared, hshared⟩ := hi.objects.handles hc fun hmeet => has_of_agree hmeet hagree
  obtain ⟨hthreads, hevents, hfault⟩ := hrun shared hshared
  have hnext := State.handle_nextCtx hshared
  refine ⟨?_, ?_, ?_, ?_, ?_, ?_⟩
  · rw [hthreads]
    exact Objects.keptByFire.handle hi.objects hc hshared
  · rw [hthreads]
    exact hi.called
  · rw [hthreads]
    intro t' op c hpc
    show c < shared.nextCtx
    rw [hnext]
    exact hi.acting t' op c hpc
  · rw [hthreads, hevents]
    intro t' r' hr'
    show r'.ctx < shared.nextCtx
    rw [hnext]
    apply hi.batched t' r'
    by_cases ht : t' = t
    · rw [ht, Function.update_self] at hr'
      rw [ht, hr]
      exact List.mem_cons_of_mem r hr'
    · rwa [Function.update_of_ne ht] at hr'
  · intro g hg
    rw [htrigered] at hg
    rcases List.mem_append.mp hg with hg | hg
    · exact hi.settled.registered g hg
    · -- the calls for this report
      unfold State.trigers at hg
      dsimp only at hg
      split at hg
      case isTrue => cases hg
      case isFalse hmeet =>
        apply trigers_registered (hi.objects.slots r.ctx) (Events.toList_nodup _) _ g hg
        intro ev hev
        exact has_of_agree hmeet hagree ev (Events.mem_toList.mp hev)
  · rw [hfault]
    exact hi.settled.fault

theorem Idling.step (hi : Idling s) {l : LoopLabel T} {s' : Loops T} (hok : Calls s l ∧ Untorn s l)
    (h : s.step l = some s') : Idling s' := by
  cases l with
  | thread l =>
    unfold Loops.step at h
    dsimp only at h
    split at h
    case isFalse => cases h
    case isTrue =>
      obtain ⟨threads, hthreads, rfl⟩ := Option.map_eq_some_iff.mp h
      exact hi.thread hok.1 hthreads
  | epollWait t events =>
    unfold Loops.step at h
    dsimp only at h
    split at h
    case isFalse => cases h
    case isTrue hevents =>
      cases h
      exact hi.epollWait hevents.2.2.2.2.2
  | handle t => exact hi.handle hok.2 h

/-- A report that names both events, when one is registered. -/
theorem Idling.not_settled (hi : Idling s) {t : T} {s' : Loops T} (hok : ¬ Untorn s (.handle t))
    (h : s.step (.handle t) = some s') : ¬ Settled s' := by
  intro hsettled
  obtain ⟨r, events, hr, htrigered, -⟩ := step_handle h
  apply hok
  intro r' hr'
  rw [hr] at hr'
  cases hr'
  dsimp only
  intro hread hwrite
  by_contra hne
  -- some event is registered, so all calls are made
  have hcalls : s.threads.shared.trigers r.ctx r.events
      = (s.threads.shared.ctx r.ctx).trigers r.ctx [.read, .write] := by
    unfold State.trigers
    dsimp only
    generalize s.threads.shared.ctx r.ctx = x at hread hwrite hne
    generalize x.realEvents r.events = real at hread hwrite
    obtain ⟨r', w'⟩ := real
    cases hread
    cases hwrite
    have hmeet : x.events.bits &&& Events.bits ⟨true, true⟩ ≠ 0#32 := by
      generalize x.events = e at hne
      obtain ⟨r, w⟩ := e
      cases r <;> cases w <;> first | exact absurd rfl hne | decide
    exact if_neg hmeet
  obtain ⟨g, hg, hnot⟩ := trigers_not_registered (c := r.ctx) (hi.objects.slots r.ctx) hne
  rw [← hcalls] at hg
  apply hnot
  apply hsettled.registered
  rw [htrigered]
  exact List.mem_append_right _ hg

end Steps

/-- **Idle loops**: in every interleaving in which no report names both events of a context that
has only one of them, `idle` triggers registered events only and calls no null scheduler; and
such a report makes it trigger an event that is not registered. -/
theorem idle_trigers_registered {T : Type} [DecidableEq T] (s : Loops T)
    (h : Run Loops.step (fun s l => Calls s l ∧ Untorn s l) Loops.start s) :
    Settled s ∧ ∀ t s', ¬ Untorn s (.handle t) → s.step (.handle t) = some s' → ¬ Settled s' := by
  have hi : Idling s := h.invariant Idling.start fun _ _ _ hi hok hs => hi.step hok hs
  exact ⟨hi.settled, fun t s' hok hs => hi.not_settled hok hs⟩

/-- One thread registers both events of 5, and another one collects them. -/
def collectLabels : List (LoopLabel Bool) :=
  [.thread (.call false (.addEvent 5 .read none 1 (some 0))), .thread (.step false true),
    .thread (.step false true), .thread (.call false (.addEvent 5 .write none 2 (some 0))),
    .thread (.step false true), .thread (.step false true),
    .epollWait true [⟨5, 5, EPOLLIN ||| EPOLLOUT, true⟩]]

theorem collect_allowed : ∀ l ∈ collectLabels, ∀ s, Calls s l ∧ Untorn s l := by
  intro l hl s
  unfold collectLabels at hl
  simp only [List.mem_cons, List.not_mem_nil, or_false] at hl
  rcases hl with rfl | rfl | rfl | rfl | rfl | rfl | rfl
  case inl | inr.inr.inr.inl => exact ⟨⟨by decide, by decide⟩, trivial⟩
  all_goals exact ⟨trivial, trivial⟩

theorem collect_state : (runLabels Loops.step Loops.start collectLabels).bind
      (fun s => (s.step (.handle true)).map fun s' =>
        ((s.events true).map Report.ctx, (s.threads.shared.ctx 5).events, s'.trigered.length))
    = some ([5], ⟨true, true⟩, 2) := by
  rfl

/-- Both coroutines go on. -/
theorem idle_trigers_registered_witness : ∃ s : Loops Bool, Settled s ∧ s.trigered.length = 2 := by
  obtain ⟨s, hs, hrest⟩ := Option.bind_eq_some_iff.mp collect_state
  obtain ⟨s', hs', hstate⟩ := Option.map_eq_some_iff.mp hrest
  have hctx : (s.events true).map Report.ctx = [5] := congrArg (·.1) hstate
  have hevents : (s.threads.shared.ctx 5).events = ⟨true, true⟩ := congrArg (·.2.1) hstate
  have huntorn : Untorn s (.handle true) := by
    intro r hr
    have hr5 : r.ctx = 5 := by
      have hmem := List.mem_map_of_mem (f := Report.ctx) (List.mem_of_mem_head? hr)
      rw [hctx] at hmem
      exact List.mem_singleton.mp hmem
    dsimp only
    rw [hr5, hevents]
    exact fun _ _ => rfl
  have hrun : Run Loops.step (fun s l => Calls s l ∧ Untorn s l) Loops.start s' :=
    (Run.of_allowed collect_allowed hs).tail (a := .handle true) ⟨trivial, huntorn⟩ hs'
  exact ⟨s', (idle_trigers_registered s' hrun).1, congrArg (·.2.2) hstate⟩

/-- Before they are handled, the first thread deletes `READ`. -/
def tornLabels : List (LoopLabel Bool) :=
  collectLabels ++ [.thread (.call false (.delEvent 5 .read)), .thread (.step false true),
    .thread (.step false true), .handle true]

theorem torn_state : (runLabels Loops.step Loops.start tornLabels).map Loops.fault
    = some (some .nullScheduler) := by
  rfl

/-- **A stale report**: `WRITE` is still registered, so `READ` is triggered too. -/
theorem torn_not_settled : ¬ ∀ s : Loops Bool, Run Loops.step Calls Loops.start s → Settled s := by
  intro h
  obtain ⟨s, hs, hfault⟩ := Option.map_eq_some_iff.mp torn_state
  have hcalls : ∀ l ∈ tornLabels, ∀ s : Loops Bool, Calls s l := by
    intro l hl s
    rcases List.mem_append.mp hl with hl | hl
    · exact (collect_allowed l hl s).1
    · simp only [List.mem_cons, List.not_mem_nil, or_false] at hl
      rcases hl with rfl | rfl | rfl | rfl <;> exact trivial
  have hsettled := h s (Run.of_allowed hcalls hs)
  rw [hsettled.fault] at hfault
  cases hfault

end CoKV.IOManager
