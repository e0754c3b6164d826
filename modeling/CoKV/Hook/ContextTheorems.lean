import CoKV.Hook.Waits
import CoKV.IOManager.Sections
import CoKV.Lib.Run
import Mathlib.Data.List.Perm.Basic

/-!
# The contexts are those of the manager

`Waits` has a context for each descriptor, and does to it what `IOManager` does behind its lookup.
`contexts_of_run`: with any table that has a context of its own for each descriptor, every run of
`Waits` goes along with a run of the manager's own sections, in which each descriptor's context is
the same and the coroutines that `trigerEvent` has handed over are those that are in the task queue
or have been resumed.
-/

namespace CoKV.Hook

open IOManager (EPOLLET FdContext EventContext Waiter Op)

/-- The coroutine that a waiter is. -/
def coroutine : Waiter → Option ℕ
  | ⟨_, _, _, .co k⟩ => some k
  | ⟨_, _, _, .cb _⟩ => none

/-- No callback waits in a context. -/
def NoCallback (x : FdContext) : Prop := ∀ ev, (x.getEventContext ev).cb = none

section NoCallback

variable {x : FdContext} {ev : IOManager.Event} {e : EventContext}

/-- A slot is written without a callback. -/
theorem NoCallback.setEventContext (h : NoCallback x) (he : e.cb = none) :
    NoCallback (x.setEventContext ev e) := by
  intro ev'
  have hread := h .read
  have hwrite := h .write
  cases ev <;> cases ev' <;> assumption

/-- `trigerEvent` puts no callback in. -/
theorem NoCallback.triger (h : NoCallback x) : NoCallback (x.triger ev) := by
  have htaken : (x.getEventContext ev).taken = .empty := by
    unfold EventContext.taken
    rw [h ev]
    rfl
  have hevents : NoCallback { x with events := x.events.erase ev } := h
  refine hevents.setEventContext ?_
  rw [htaken]
  rfl

/-- What `addTask` gets of a slot without callback. -/
theorem coroutine_waiter (he : e.cb = none) (c : ℕ) :
    (e.waiter c ev).toList.filterMap coroutine = e.co.toList := by
  unfold EventContext.waiter
  rw [he]
  cases e.co <;> rfl

end NoCallback

/-- The manager with a table of contexts has the contexts of `Waits`. -/
structure Serves (table : ℕ → ℕ) (w : Waits) (s : IOManager.State) : Prop where
  ctx : ∀ fd, w.ctx fd = s.ctx (table fd)
  waiting : ∀ fd, NoCallback (w.ctx fd)

/-- What became of both: the contexts are alike again, and the same coroutines have been handed over;
or both have stopped at a fault. -/
def Agree (table : ℕ → ℕ) (w : Waits) (s : IOManager.State) :
    Option Waits → Except IOManager.Fault IOManager.State → Prop
  | some w', .ok s' => Serves table w' s' ∧ ∃ more : List Waiter, s'.handed = s.handed ++ more ∧
    w'.tasks = w.tasks ++ more.filterMap coroutine
  | none, .error _ => True
  | _, _ => False

variable {table : ℕ → ℕ} {w w' : Waits} {s s' : IOManager.State} {fd : ℕ} {ev : IOManager.Event}

/-- Where nothing is done, both stay as they are. -/
theorem Serves.agree (h : Serves table w s) : Agree table w s (some w) (.ok s) :=
  ⟨h, [], by simp, by simp⟩

/-- What the kernel is told does not matter. -/
theorem Serves.epollCtl (h : Serves table w s) (op : IOManager.CtlOp) (fd : ℕ) (mask : BitVec 32)
    (c : ℕ) (success : Bool) : Serves table w (s.epollCtl op fd mask c success) := by
  refine ⟨fun fd' => ?_, h.waiting⟩
  rw [IOManager.State.epollCtl_ctx]
  exact h.ctx fd'

/-- What comes behind goes on from states that are alike. -/
theorem Agree.bind {r : Option Waits} {r' : Except IOManager.Fault IOManager.State}
    {f : Waits → Option Waits} {g : IOManager.State → Except IOManager.Fault IOManager.State}
    (h : Agree table w s r r')
    (hf : ∀ w' s', Serves table w' s' → Agree table w' s' (f w') (g s')) :
    Agree table w s (r.bind f) (r' >>= g) := by
  cases r with
  | none =>
    cases r' with
    | ok _ => exact h.elim
    | error _ => trivial
  | some w' =>
    cases r' with
    | error _ => exact h.elim
    | ok s' =>
      obtain ⟨hserves, more, hhanded, htasks⟩ := h
      have hnext := hf w' s' hserves
      show Agree table w s (f w') (g s')
      cases hw : f w' with
      | none =>
        rw [hw] at hnext
        cases hs : g s' with
        | ok _ => rw [hs] at hnext; exact hnext.elim
        | error _ => trivial
      | some w'' =>
        rw [hw] at hnext
        cases hs : g s' with
        | error _ => rw [hs] at hnext; exact hnext.elim
        | ok s'' =>
          rw [hs] at hnext
          obtain ⟨hserves', more', hhanded', htasks'⟩ := hnext
          refine ⟨hserves', more ++ more', ?_, ?_⟩
          · rw [hhanded', hhanded, List.append_assoc]
          · rw [htasks', htasks, List.filterMap_append, List.append_assoc]

/-- An `epoll_ctl` before it does not matter. -/
theorem Agree.of_epollCtl {op : IOManager.CtlOp} {mask : BitVec 32} {c : ℕ} {success : Bool}
    {r : Option Waits} {r' : Except IOManager.Fault IOManager.State}
    (h : Agree table w (s.epollCtl op fd mask c success) r r') : Agree table w s r r' := by
  unfold Agree at h ⊢
  rwa [IOManager.State.epollCtl_handed] at h

/-- What a section of the manager returns besides does not matter. -/
theorem Agree.answer {β : Type} {r : Option Waits} {r' : Except IOManager.Fault IOManager.State}
    (h : Agree table w s r r') (b : β) :
    Agree table w s r (Prod.snd <$> (r' >>= fun s => .ok (b, s))) := by
  cases r <;> cases r' <;> exact h

/-! ## What is done to a context -/

section Contexts

variable (htable : Function.Injective table) (h : Serves table w s)
include htable h

/-- One context is written, and its waiter may have been handed over. -/
theorem Serves.write {x : FdContext} (hx : NoCallback x)
    (hw : w'.ctx = Function.update w.ctx fd x) (hs : s'.ctx = Function.update s.ctx (table fd) x) :
    Serves table w' s' := by
  constructor
  · intro fd'
    rw [hw, hs]
    by_cases hfd : fd' = fd
    · rw [hfd, Function.update_self, Function.update_self]
    · rw [Function.update_of_ne hfd, Function.update_of_ne (htable.ne hfd)]
      exact h.ctx fd'
  · intro fd'
    rw [hw]
    by_cases hfd : fd' = fd
    · rw [hfd, Function.update_self]
      exact hx
    · rw [Function.update_of_ne hfd]
      exact h.waiting fd'

/-- `trigerEvent` hands over the same coroutine, or finds no scheduler in both. -/
theorem Serves.fire : Agree table w s (w.fire fd ev) (s.fire (table fd) ev) := by
  unfold Waits.fire IOManager.State.fire IOManager.State.trigerEvent
  dsimp only
  rw [← h.ctx fd]
  cases ((w.ctx fd).getEventContext ev).scheduler with
  | none => trivial
  | some _ =>
    refine ⟨h.write htable (h.waiting fd).triger rfl rfl, _, rfl, ?_⟩
    rw [coroutine_waiter (h.waiting fd ev)]

/-- Behind the test of a bit, too. -/
theorem Serves.fireIf (b : Bool) : Agree table w s (w.fireIf b fd ev) (s.fireIf b (table fd) ev) := by
  cases b with
  | false => exact h.agree
  | true => exact h.fire htable

/-- `cancelEvent`, whatever `epoll_ctl` does. -/
theorem Serves.cancelEvent (success : Bool) :
    Agree table w s ((w.cancelEvent fd ev).map Prod.snd)
      (s.act (table fd) success (.cancelEvent fd ev)) := by
  unfold Waits.cancelEvent IOManager.State.act IOManager.State.cancelEvent
  dsimp only
  rw [← h.ctx fd]
  by_cases hnot : (if (w.ctx fd).events = .none then 1#32 else 0#32) &&& ev.bits ≠ 0#32
  · rw [if_pos hnot, if_pos hnot]
    exact h.agree
  · rw [if_neg hnot, if_neg hnot, Option.map_map]
    have hctl := h.epollCtl (if (w.ctx fd).events.erase ev ≠ .none then .mod else .del) fd
      (w.ctx fd).events.bits (table fd) success
    have hfire : Agree table w s (w.fire fd ev) _ := Agree.of_epollCtl (hctl.fire htable)
    have hsame : (Prod.snd ∘ fun w' => (((w.ctx fd).getEventContext ev).co.map
        fun _ => w.registrant fd ev, w')) = @id Waits := rfl
    rw [hsame, Option.map_id]
    exact Agree.answer hfire true

/-- `cancelAll`, for both events. -/
theorem Serves.cancelAll (success : Bool) :
    Agree table w s (w.cancelAll fd) (s.act (table fd) success (.cancelAll fd)) := by
  unfold Waits.cancelAll IOManager.State.act IOManager.State.cancelAll
  dsimp only
  rw [IOManager.State.epollCtl_ctx, ← h.ctx fd]
  by_cases hnone : (w.ctx fd).events = .none
  · rw [if_pos hnone, if_pos hnone]
    exact h.agree
  · rw [if_neg hnone, if_neg hnone, map_bind]
    have hctl := h.epollCtl .del fd 0#32 (table fd) success
    refine Agree.bind (Agree.of_epollCtl (hctl.fireIf htable _)) fun w' s' h' => ?_
    rw [← h'.ctx fd]
    exact Agree.answer (h'.fireIf htable _) true

/-- What `idle` does for a report. -/
theorem Serves.ready (events : BitVec 32) (success : Bool) :
    Agree table w s (w.ready fd events) (s.handle (table fd) events success) := by
  unfold Waits.ready IOManager.State.handle
  dsimp only
  rw [← h.ctx fd]
  by_cases hnone : (w.ctx fd).events.bits &&& ((w.ctx fd).realEvents events).bits = 0#32
  · rw [if_pos hnone, if_pos hnone]
    exact h.agree
  · rw [if_neg hnone, if_neg hnone]
    have hctl := h.epollCtl
      (if (w.ctx fd).events.diff ((w.ctx fd).realEvents events) ≠ .none then .mod else .del)
      (w.ctx fd).fd (EPOLLET ||| ((w.ctx fd).events.diff ((w.ctx fd).realEvents events)).bits) (table fd)
      success
    exact Agree.bind (Agree.of_epollCtl (hctl.fireIf htable _)) fun w' s' h' => h'.fireIf htable _

/-- The coroutine puts itself into its slot, whatever `epoll_ctl` does. -/
theorem Serves.addEvent (co : ℕ) (p : Place) (success : Bool) :
    Agree table w s (w.addEvent co p success) (s.act (table (w.call p.call).fd) success
      (.addEvent (w.call p.call).fd (w.call p.call).event none co (some 0))) := by
  unfold Waits.addEvent IOManager.State.act IOManager.State.addEvent
  dsimp only
  rw [← h.ctx]
  split
  case isTrue => trivial
  case isFalse =>
    split
    case isTrue => trivial
    case isFalse =>
      have hx : NoCallback ((w.ctx (w.call p.call).fd).add (w.call p.call).fd (w.call p.call).event
          (.waiting none co (some 0))) := by
        have hfields : NoCallback { w.ctx (w.call p.call).fd with
            fd := (w.call p.call).fd
            events := (w.ctx (w.call p.call).fd).events.insert (w.call p.call).event } :=
          h.waiting _
        exact hfields.setEventContext rfl
      have hnone {l : List ℕ} : l = l ++ ([] : List Waiter).filterMap coroutine := by simp
      cases success with
      | true => exact ⟨h.write htable hx rfl rfl, [], (List.append_nil _).symm, hnone⟩
      | false => exact ⟨h.write htable hx rfl rfl, [], (List.append_nil _).symm, hnone⟩

end Contexts

/-! ## Runs -/

/-- A section of the manager behind its lookup: of an operation, or of `idle`. -/
inductive ContextLabel
  | act (op : Op) (success : Bool)
  | handle (fd : ℕ) (events : BitVec 32) (success : Bool)

/-- The sections, where the table of contexts does not change. -/
def contextStep (table : ℕ → ℕ) (s : IOManager.State) : ContextLabel → Option IOManager.State
  | .act op success => (s.act (table op.fd) success op).toOption
  | .handle fd events success => (s.handle (table fd) events success).toOption

/-- The coroutines in the task queue, and those that have been resumed, have been handed over. -/
def HandedOver (w : Waits) (s : IOManager.State) : Prop :=
  ∃ resumed, (w.tasks ++ resumed).Perm (s.handed.filterMap coroutine)

/-- What `Waits` and the manager have in common. -/
def Follows (table : ℕ → ℕ) (w : Waits) (s : IOManager.State) : Prop :=
  Serves table w s ∧ HandedOver w s

/-- What is handed over goes into the task queue. -/
theorem HandedOver.more (h : HandedOver w s) {more : List Waiter} (hs : s'.handed = s.handed ++ more)
    (hw : w'.tasks = w.tasks ++ more.filterMap coroutine) : HandedOver w' s' := by
  obtain ⟨resumed, hperm⟩ := h
  refine ⟨resumed, ?_⟩
  rw [hs, hw, List.filterMap_append, List.append_assoc]
  refine (List.Perm.append_left _ List.perm_append_comm).trans ?_
  rw [← List.append_assoc]
  exact hperm.append_right _

/-- A step of `Waits` is a section of the manager, which does not fault. -/
theorem Agree.follows {l : ContextLabel} {r : Option Waits} {r' : Except IOManager.Fault IOManager.State}
    (h : Agree table w s r r') (hr : r = some w') (hl : contextStep table s l = r'.toOption)
    (hf : Follows table w s) :
    ∃ s', Run (contextStep table) anyStep s s' ∧ Follows table w' s' := by
  rw [hr] at h
  cases r' with
  | error _ => exact h.elim
  | ok s' =>
    obtain ⟨hserves, more, hhanded, htasks⟩ := h
    exact ⟨s', .single trivial hl, hserves, hf.2.more hhanded htasks⟩

/-- A step that leaves the contexts and the task queue alone. -/
theorem Follows.same (h : Follows table w s) (hctx : w'.ctx = w.ctx) (htasks : w'.tasks = w.tasks) :
    Follows table w' s := by
  obtain ⟨⟨hsame, hwaiting⟩, hhanded⟩ := h
  refine ⟨⟨by rw [hctx]; exact hsame, by rw [hctx]; exact hwaiting⟩, ?_⟩
  unfold HandedOver
  rw [htasks]
  exact hhanded

/-- A coroutine that has been handed over is resumed. -/
theorem Follows.resume (h : Follows table w s) {co : ℕ} (hmem : co ∈ w.tasks) (hctx : w'.ctx = w.ctx)
    (htasks : w'.tasks = w.tasks.erase co) : Follows table w' s := by
  obtain ⟨⟨hsame, hwaiting⟩, resumed, hperm⟩ := h
  refine ⟨⟨by rw [hctx]; exact hsame, by rw [hctx]; exact hwaiting⟩, co :: resumed, ?_⟩
  rw [htasks]
  refine List.perm_middle.trans (.trans ?_ hperm)
  rw [← List.cons_append]
  exact (List.perm_cons_erase hmem).symm.append_right _

/-- A step of `Waits` is a section of the manager, or none. -/
theorem Follows.step (htable : Function.Injective table) (h : Follows table w s) {l : Label}
    (hs : Waits.step w l = some w') :
    ∃ s', Run (contextStep table) anyStep s s' ∧ Follows table w' s' := by
  unfold Waits.step at hs
  cases l with
  | call c =>
    obtain ⟨-, heq⟩ := Option.ite_none_left_eq_some.mp hs
    cases heq
    exact ⟨s, .refl, h.same rfl rfl⟩
  | attempt co r =>
    dsimp only at hs
    split at hs <;> cases hs <;> exact ⟨s, .refl, h.same rfl rfl⟩
  | addTimer co now addr =>
    dsimp only at hs
    split at hs
    case h_1 call timer _ =>
      unfold Waits.addTimer at hs
      split at hs
      case isTrue => cases hs; exact ⟨s, .refl, h.same rfl rfl⟩
      case isFalse =>
        obtain ⟨timers, -, rfl⟩ := Option.map_eq_some_iff.mp hs
        exact ⟨s, .refl, h.same rfl rfl⟩
    case h_2 => cases hs
  | addEvent co success =>
    dsimp only at hs
    split at hs
    case h_1 call timer _ =>
      exact (h.1.addEvent htable co ⟨call, .armed, timer⟩ success).follows
        (l := .act (.addEvent (w.call call).fd (w.call call).event none co (some 0)) success) hs rfl h
    case h_2 => cases hs
  | resume co =>
    dsimp only at hs
    split at hs
    case h_1 =>
      obtain ⟨hmem, heq⟩ := Option.ite_none_right_eq_some.mp hs
      cases heq
      exact ⟨s, .refl, h.resume hmem rfl rfl⟩
    case h_2 => cases hs
  | cancelTimer co =>
    have hcancel {timer : Option ℕ} {w₁ : Waits} (hw : w.cancelTimer timer = some w₁) :
        w₁.ctx = w.ctx ∧ w₁.tasks = w.tasks := by
      cases timer with
      | none => cases hw; exact ⟨rfl, rfl⟩
      | some t =>
        obtain ⟨timers, -, rfl⟩ := Option.map_eq_some_iff.mp hw
        exact ⟨rfl, rfl⟩
    dsimp only at hs
    split at hs
    case h_1 | h_2 =>
      obtain ⟨w₁, hw, rfl⟩ := Option.map_eq_some_iff.mp hs
      exact ⟨s, .refl, h.same (hcancel hw).1 (hcancel hw).2⟩
    case h_3 => cases hs
  | testCancel co =>
    dsimp only at hs
    split at hs
    case h_1 => split at hs <;> cases hs <;> exact ⟨s, .refl, h.same rfl rfl⟩
    case h_2 => cases hs
  | listExpiredCb now probe =>
    dsimp only at hs
    unfold Waits.listExpiredCb at hs
    obtain ⟨timers, -, rfl⟩ := Option.map_eq_some_iff.mp hs
    exact ⟨s, .refl, h.same rfl rfl⟩
  | writeCancel f =>
    obtain ⟨-, heq⟩ := Option.ite_none_right_eq_some.mp hs
    cases heq
    exact ⟨s, .refl, h.same rfl rfl⟩
  | cancelEvent f =>
    obtain ⟨-, heq⟩ := Option.ite_none_right_eq_some.mp hs
    obtain ⟨⟨victim, w₁⟩, hw, rfl⟩ := Option.map_eq_some_iff.mp heq
    obtain ⟨s₁, hrun, h₁⟩ := (h.1.cancelEvent htable true).follows
      (l := .act (.cancelEvent (w.call (w.armedBy f)).fd (w.call (w.armedBy f)).event) true)
      (congrArg (Option.map Prod.snd) hw) rfl h
    exact ⟨s₁, hrun, h₁.same rfl rfl⟩
  | ready fd events =>
    exact (h.1.ready htable events true).follows (l := .handle fd events true) hs rfl h
  | cancelAll fd => exact (h.1.cancelAll htable true).follows (l := .act (.cancelAll fd) true) hs rfl h

/-- **The same contexts**: every run of `Waits` goes along with a run of the manager's sections, with
the same contexts, and each coroutine in the task queue has been handed over by `trigerEvent`. -/
theorem contexts_of_run (htable : Function.Injective table)
    (h : Run Waits.step anyStep Waits.start w) :
    ∃ s, Run (contextStep table) anyStep IOManager.init s ∧ (∀ fd, w.ctx fd = s.ctx (table fd)) ∧
      HandedOver w s := by
  have hstart : Follows table Waits.start IOManager.init := by
    refine ⟨⟨fun _ => rfl, fun _ ev => ?_⟩, [], .refl _⟩
    cases ev <;> rfl
  obtain ⟨s, hrun, hserves, hhanded⟩ := h.invariant
    (I := fun w => ∃ s, Run (contextStep table) anyStep IOManager.init s ∧ Follows table w s)
    ⟨_, .refl, hstart⟩ fun w l w' ⟨s, hrun, hf⟩ _ hs => by
      obtain ⟨s', hrun', hf'⟩ := hf.step htable hs
      exact ⟨s', hrun.trans hrun', hf'⟩
  exact ⟨s, hrun, hserves.ctx, hhanded⟩

end CoKV.Hook
