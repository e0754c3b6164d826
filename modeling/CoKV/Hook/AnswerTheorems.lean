import CoKV.Hook.Answers
import CoKV.Hook.TimeoutTheorems
import CoKV.Hook.WaitTheorems

/-!
# Why a call returns

`returned_accounted`: in every orderly run a call of `io_func` that has returned has handed on what
the original function has returned at last, and then none of its timers has run out; or `addEvent`
has refused it; or it says `ETIMEDOUT`, and then a timer of its own was due when it was collected.
The invariant follows a timer from `addTimer` to the `cancel` that its callback writes.
-/

namespace CoKV.Hook

/-- Where a coroutine may be when its timer has been collected: in its wait, or behind it with
`cancel` written. -/
def Stage.Open (cancel : Bool) (stage : Stage) : Prop :=
  stage.Waiting ∨ cancel = true ∧ (stage = .refused ∨ stage = .resumed ∨ stage = .cancelled)

/-- A stage that is open before the callback has written is open afterwards. -/
theorem Stage.Open.of_written {b : Bool} {stage : Stage} (h : stage.Open b) : stage.Open true :=
  h.imp_right fun h => ⟨rfl, h.2⟩

/-- A call that is open has armed its timer. -/
theorem Stage.Open.ne_retry {b : Bool} {stage : Stage} (h : stage.Open b) :
    stage ≠ .retry ∧ stage ≠ .again := by
  rcases h with (rfl | rfl) | ⟨-, rfl | rfl | rfl⟩ <;> exact ⟨nofun, nofun⟩

/-- The original function is not called again behind this. -/
def Final (r : Ret) : Prop := r ≠ .error .eintr ∧ r ≠ .error .eagain

/-- The deadline of a new timer. -/
theorem next_addTimer {s s' : Time.State} {ms now : UInt64} {cb addr : ℕ}
    (hs : Time.step s (.addTimer ms cb false now addr) = some s') :
    (s'.timer s.nextTimer).next = now + ms := by
  obtain ⟨-, heq⟩ := Option.ite_none_right_eq_some.mp hs
  cases heq
  exact congrArg Time.Timer.next (Time.setTimer_timer_self ..)

section Places

variable {s : Waits} {co co' : ℕ} {p p' q : Place}

/-- Where a coroutine stands after another has moved. -/
theorem setPc_eq_some {q : Option Place} (h : (s.setPc co q).pc co' = some p') :
    (co' = co ∧ q = some p') ∨ (co' ≠ co ∧ s.pc co' = some p') := by
  by_cases hco : co' = co
  · subst hco
    rw [Waits.setPc_pc] at h
    exact Or.inl ⟨rfl, h⟩
  · have hsame : (s.setPc co q).pc co' = s.pc co' := Function.update_of_ne hco ..
    exact Or.inr ⟨hco, hsame.symm.trans h⟩

/-- Who goes on in a call has not returned from it, nor from another. -/
theorem returned_setPc (hpc : s.pc co = some p) (hcall : q.call = p.call) (c : ℕ) :
    (s.setPc co (some q)).returned c = s.returned c := by
  show ((Function.update s.pc co (some q) (s.call c).co).map Place.call != some c) = _
  unfold Waits.returned
  by_cases hco : (s.call c).co = co
  · rw [hco, Function.update_self, hpc]
    simp [hcall]
  · rw [Function.update_of_ne hco]

/-- An attempt that is the last one. -/
theorem answers_attempt {call : ℕ} {timer : Option ℕ} {r : Ret}
    (hpc : s.pc co = some ⟨call, .retry, timer⟩) (hr : Final r) :
    s.answers (.attempt co r) = some (call, .result r) := by
  simp [Waits.answers, hpc, hr.1, hr.2]

end Places

namespace Answers

/-- The deadline of a timer, and that it has been made for a call with a timeout. -/
def Due (s : Answers) (f : ℕ) (deadline : UInt64) : Prop :=
  s.waits.armedBy f < s.waits.nextCall ∧ (s.waits.call (s.waits.armedBy f)).timeout ≠ -1 ∧
    deadline = s.madeAt f + (s.waits.call (s.waits.armedBy f)).delay

/-- A deadline stays while its call and the time it was made at stay. -/
theorem Due.congr {s s' : Answers} {f : ℕ} {d : UInt64} (h : s.Due f d)
    (hnext : s.waits.nextCall ≤ s'.waits.nextCall)
    (harmed : s'.waits.armedBy f = s.waits.armedBy f)
    (hcall : s'.waits.call (s.waits.armedBy f) = s.waits.call (s.waits.armedBy f))
    (hmade : s'.madeAt f = s.madeAt f) : s'.Due f d := by
  unfold Due at h ⊢
  rw [harmed, hcall, hmade]
  exact ⟨Nat.lt_of_lt_of_le h.1 hnext, h.2⟩

/-- Why a call has returned. -/
inductive Accounted (s : Answers) (c : ℕ) : Prop
  | result (r : Ret) (h : s.answer c = some (.result r)) (hr : Final r)
      (htimers : ∀ f, s.waits.armedBy f = c → s.collectedAt f = none)
  | refused (h : s.answer c = some .refused)
  | timedOut (f : ℕ) (now : UInt64) (h : s.answer c = some .timedOut)
      (harmed : s.waits.armedBy f = c) (hcollected : s.collectedAt f = some now)
      (htimeout : (s.waits.call c).timeout ≠ -1) (hdue : s.madeAt f + (s.waits.call c).delay ≤ now)

/-- Who says `ETIMEDOUT` has waited for as many seconds as the timeout says, unless the product or
the sum wraps. -/
theorem Accounted.waited {s : Answers} {c : ℕ} (h : s.Accounted c)
    (hanswer : s.answer c = some .timedOut) {seconds : ℕ} (hle : seconds ≤ 2147483)
    (htimeout : (s.waits.call c).timeout.toInt = seconds) :
    ∃ f now, s.waits.armedBy f = c ∧ s.collectedAt f = some now ∧
      ((s.madeAt f).toNat + 1000 * seconds < 2 ^ 64 →
        (s.madeAt f).toNat + 1000 * seconds ≤ now.toNat) := by
  cases h with
  | result r h =>
    rw [hanswer] at h
    cases h
  | refused h =>
    rw [hanswer] at h
    cases h
  | timedOut f now h harmed hcollected _ hdue =>
    refine ⟨f, now, harmed, hcollected, fun hlt => ?_⟩
    have hdelay : (s.waits.call c).delay.toNat = 1000 * seconds := by
      have hover : ¬ (s.waits.call c).timeout.toBitVec.smulOverflow 1000#32 := by
        rw [smulOverflow_iff]
        omega
      have hprod := toNat_product hover
      rw [htimeout, if_pos (by omega)] at hprod
      unfold Call.delay
      omega
    have hnat := UInt64.le_iff_toNat_le.mp hdue
    rwa [UInt64.toNat_add, hdelay, Nat.mod_eq_of_lt hlt] at hnat

/-- What the record keeps. -/
structure Records (s : Answers) : Prop where
  due : ∀ t ∈ s.waits.timers.timers, s.Due t (s.waits.timers.timer t).next
  known : ∀ f, s.collectedAt f ≠ none → f < s.waits.timers.nextTimer
  late : ∀ f now, s.collectedAt f = some now → ∃ deadline ≤ now, s.Due f deadline
  begun : ∀ f, s.collectedAt f = none ↔ s.waits.callback f = .idle
  cancel : ∀ f, s.waits.cancel f = true → s.collectedAt f ≠ none
  written : ∀ f, s.waits.callback f = .written ∨ s.waits.callback f = .finished →
    s.waits.cancel f = true
  timer : ∀ co p f, s.waits.pc co = some p → p.timer = some f →
    f < s.waits.timers.nextTimer ∧ s.waits.armedBy f = p.call
  stage : ∀ f, s.collectedAt f ≠ none → s.waits.InStage f (Stage.Open (s.waits.cancel f)) ∨
    s.answer (s.waits.armedBy f) = some .timedOut ∨ s.answer (s.waits.armedBy f) = some .refused
  inside : ∀ co p, s.waits.pc co = some p → s.answer p.call = none
  outside : ∀ c < s.waits.nextCall, s.answer c = none → s.waits.returned c = false
  fresh : ∀ c, s.waits.nextCall ≤ c → s.answer c = none
  result : ∀ c r, s.answer c = some (.result r) →
    Final r ∧ ∀ f, s.waits.armedBy f = c → s.collectedAt f = none
  timedOut : ∀ c, s.answer c = some .timedOut →
    ∃ f, s.waits.armedBy f = c ∧ s.collectedAt f ≠ none

/-- At first there is nothing to account for. -/
theorem Records.start : Records start where
  due t ht := by cases ht
  known f hf := absurd rfl hf
  late f now hf := by cases hf
  begun f := ⟨fun _ => rfl, fun _ => rfl⟩
  cancel f hf := by cases hf
  written f hf := by rcases hf with hf | hf <;> cases hf
  timer co p f hp := by cases hp
  stage f hf := absurd rfl hf
  inside co p hp := by cases hp
  outside c hc := absurd hc (Nat.not_lt_zero c)
  fresh c _ := rfl
  result c r h := by cases h
  timedOut c h := by cases h

/-- Only timers that were made are collected. -/
theorem Records.lt_of_collected {s : Answers} (h : Records s) {f : ℕ} {now : UInt64}
    (hf : s.collectedAt f = some now) : f < s.waits.timers.nextTimer :=
  h.known f (Option.ne_none_iff_exists'.mpr ⟨now, hf⟩)

/-- A callback is queued when its timer is collected. -/
theorem Records.collected_of_begun {s : Answers} (h : Records s) {f : ℕ}
    (hf : s.waits.callback f = .queued ∨ s.waits.callback f = .written ∨
      s.waits.callback f = .finished) : s.collectedAt f ≠ none := by
  intro hnone
  rw [(h.begun f).mp hnone] at hf
  rcases hf with hf | hf | hf <;> cases hf

section Steps

variable {s : Answers} {co : ℕ} {p q : Place}

/-- Contexts, tasks and deeds do not matter here. -/
theorem Records.quiet (h : Records s) (ctx : ℕ → IOManager.FdContext) (tasks : List ℕ)
    (registrant : ℕ → IOManager.Event → ℕ) (log : List Deed) :
    Records { s with waits := { s.waits with
      ctx := ctx, tasks := tasks, registrant := registrant, log := log } } :=
  ⟨h.due, h.known, h.late, h.begun, h.cancel, h.written, h.timer, h.stage, h.inside,
    h.outside, h.fresh, h.result, h.timedOut⟩

/-- Timers leave the set. -/
theorem Records.fewer (h : Records s) {timers : Time.State} (hf : Fewer s.waits.timers timers) :
    Records { s with waits := { s.waits with timers := timers } } where
  due t ht := by
    obtain ⟨hmem, hsame⟩ := hf.timers t ht
    show s.Due t (timers.timer t).next
    rw [hsame]
    exact h.due t hmem
  known f hcollected := Nat.lt_of_lt_of_le (h.known f hcollected) hf.nextTimer
  late := h.late
  begun := h.begun
  cancel := h.cancel
  written := h.written
  timer co p f hp ht := ⟨Nat.lt_of_lt_of_le (h.timer co p f hp ht).1 hf.nextTimer,
    (h.timer co p f hp ht).2⟩
  stage := h.stage
  inside := h.inside
  outside := h.outside
  fresh := h.fresh
  result := h.result
  timedOut := h.timedOut

/-- A coroutine goes on in its call. -/
theorem Records.goOn (h : Records s) (hpc : s.waits.pc co = some p) (hcall : q.call = p.call)
    (htimer : ∀ f, q.timer = some f →
      p.timer = some f ∨ f < s.waits.timers.nextTimer ∧ s.waits.armedBy f = p.call)
    (hopen : ∀ f, p.timer = some f → s.collectedAt f ≠ none → p.stage.Open (s.waits.cancel f) →
      q.timer = some f ∧ q.stage.Open (s.waits.cancel f)) :
    Records { s with waits := s.waits.setPc co (some q) } where
  due := h.due
  known := h.known
  late := h.late
  begun := h.begun
  cancel := h.cancel
  written := h.written
  timer co' p' f hp ht := by
    rcases setPc_eq_some hp with ⟨rfl, heq⟩ | ⟨-, hp⟩
    · cases heq
      rw [hcall]
      exact (htimer f ht).elim (h.timer co' p f hpc) id
    · exact h.timer co' p' f hp ht
  stage f hf := by
    refine (h.stage f hf).imp_left fun hin => hin.setPc hpc fun ht hstage => ?_
    obtain ⟨hq, hopen⟩ := hopen f ht hf hstage
    exact ⟨q.stage, hopen, by rw [← hcall, ← hq]⟩
  inside co' p' hp := by
    rcases setPc_eq_some hp with ⟨rfl, heq⟩ | ⟨-, hp⟩
    · cases heq
      rw [hcall]
      exact h.inside co' p hpc
    · exact h.inside co' p' hp
  outside c hc hanswer := by
    rw [returned_setPc hpc hcall]
    exact h.outside c hc hanswer
  fresh := h.fresh
  result := h.result
  timedOut := h.timedOut

/-- A call returns. -/
theorem Records.leave (h : Records s) (hi : Inv s.waits) (hpc : s.waits.pc co = some p) {a : Answer}
    (hresult : ∀ r, a = .result r → Final r ∧ p.stage = .retry)
    (htimedOut : a = .timedOut → ∃ f, p.timer = some f ∧ s.waits.cancel f = true) :
    Records { s with
      waits := s.waits.setPc co none, answer := Function.update s.answer p.call (some a) } := by
  obtain ⟨hlt, hown⟩ := hi.places co p hpc
  have hnone : s.answer p.call = none := h.inside co p hpc
  have hself : Function.update s.answer p.call (some a) p.call = some a := Function.update_self ..
  -- a timer of this call that has been collected is the one it holds
  have hheld : ∀ f, s.waits.armedBy f = p.call → s.collectedAt f ≠ none →
      p.stage.Open (s.waits.cancel f) := by
    intro f harmed hf
    rcases h.stage f hf with ⟨stage, hopen, hplace⟩ | hanswer | hanswer
    · rw [harmed, hown, hpc] at hplace
      rw [show p.stage = stage from congrArg Place.stage (Option.some.inj hplace)]
      exact hopen
    · rw [harmed, hnone] at hanswer
      cases hanswer
    · rw [harmed, hnone] at hanswer
      cases hanswer
  refine ⟨h.due, h.known, h.late, h.begun, h.cancel, h.written, ?timer, ?stage, ?inside, ?outside,
    ?fresh, ?result, ?timedOut⟩
  case timer =>
    intro co' p' f hp ht
    rcases setPc_eq_some hp with ⟨-, heq⟩ | ⟨-, hp⟩
    · cases heq
    · exact h.timer co' p' f hp ht
  case stage =>
    intro f hf
    show _ ∨ Function.update s.answer p.call (some a) (s.waits.armedBy f) = _ ∨
      Function.update s.answer p.call (some a) (s.waits.armedBy f) = _
    by_cases harmed : s.waits.armedBy f = p.call
    · rw [harmed, Function.update_self]
      right
      cases a with
      | result r => exact absurd (hresult r rfl).2 (hheld f harmed hf).ne_retry.1
      | refused => exact Or.inr rfl
      | timedOut => exact Or.inl rfl
    · rw [Function.update_of_ne harmed]
      refine (h.stage f hf).imp_left fun hin => hin.setPc hpc fun ht _ => ?_
      exact absurd (h.timer co p f hpc ht).2 harmed
  case inside =>
    intro co' p' hp
    rcases setPc_eq_some hp with ⟨-, heq⟩ | ⟨hne, hp⟩
    · cases heq
    · refine (Function.update_of_ne ?_ ..).trans (h.inside co' p' hp)
      intro hsame
      exact hne (by rw [← (hi.places co' p' hp).2, hsame, hown])
  case outside =>
    intro c hc hanswer
    by_cases hcall : c = p.call
    · subst hcall
      cases hself.symm.trans hanswer
    · have hold : s.answer c = none := (Function.update_of_ne hcall ..).symm.trans hanswer
      have hinside := h.outside c hc hold
      show ((Function.update s.waits.pc co none (s.waits.call c).co).map Place.call != some c)
        = false
      unfold Waits.returned at hinside
      by_cases hco : (s.waits.call c).co = co
      · rw [hco, hpc] at hinside
        exact absurd (by simpa using hinside) (Ne.symm hcall)
      · rw [Function.update_of_ne hco]
        exact hinside
  case fresh =>
    intro c hc
    exact (Function.update_of_ne (Nat.ne_of_gt (Nat.lt_of_lt_of_le hlt hc)) ..).trans (h.fresh c hc)
  case result =>
    intro c r hanswer
    by_cases hcall : c = p.call
    · subst hcall
      obtain ⟨hfinal, hstage⟩ := hresult r (Option.some.inj (hself.symm.trans hanswer))
      refine ⟨hfinal, fun f harmed => ?_⟩
      by_contra hf
      exact (hheld f harmed hf).ne_retry.1 hstage
    · exact h.result c r ((Function.update_of_ne hcall ..).symm.trans hanswer)
  case timedOut =>
    intro c hanswer
    by_cases hcall : c = p.call
    · subst hcall
      obtain ⟨f, ht, hcancel⟩ := htimedOut (Option.some.inj (hself.symm.trans hanswer))
      exact ⟨f, (h.timer co p f hpc ht).2, h.cancel f hcancel⟩
    · exact h.timedOut c ((Function.update_of_ne hcall ..).symm.trans hanswer)

/-- A call begins. -/
theorem Records.enter (h : Records s) (hi : Inv s.waits) {c : Call} (hpc : s.waits.pc c.co = none) :
    Records { s with waits := s.waits.enter c } := by
  have hcall {n : ℕ} (hn : n < s.waits.nextCall) : (s.waits.enter c).call n = s.waits.call n :=
    Function.update_of_ne (Nat.ne_of_lt hn) ..
  have hdue {f : ℕ} {d : UInt64} (hd : s.Due f d) : Due { s with waits := s.waits.enter c } f d :=
    hd.congr (Nat.le_succ _) rfl (hcall hd.1) rfl
  have hother {co : ℕ} {p : Place} (hp : s.waits.pc co = some p) :
      (s.waits.enter c).pc co = some p := by
    refine (Function.update_of_ne ?_ ..).trans hp
    rintro rfl
    rw [hpc] at hp
    cases hp
  refine ⟨fun t ht => hdue (h.due t ht), h.known, ?late, h.begun, h.cancel, h.written, ?timer,
    ?stage, ?inside, ?outside, fun n hn => h.fresh n (Nat.le_of_succ_le hn), h.result, h.timedOut⟩
  case late =>
    intro f now hf
    obtain ⟨d, hle, hd⟩ := h.late f now hf
    exact ⟨d, hle, hdue hd⟩
  case timer =>
    intro co p f hp ht
    rcases setPc_eq_some hp with ⟨-, heq⟩ | ⟨-, hp⟩
    · cases heq
      cases ht
    · exact h.timer co p f hp ht
  case stage =>
    intro f hf
    exact (h.stage f hf).imp_left fun hin => hin.congr rfl (hcall (hin.lt hi)) fun _ hp => hother hp
  case inside =>
    intro co p hp
    rcases setPc_eq_some hp with ⟨-, heq⟩ | ⟨-, hp⟩
    · cases heq
      exact h.fresh _ le_rfl
    · exact h.inside co p hp
  case outside =>
    intro n hn hanswer
    have hle : n < s.waits.nextCall + 1 := hn
    show (((s.waits.enter c).pc ((s.waits.enter c).call n).co).map Place.call != some n) = false
    by_cases hnew : n = s.waits.nextCall
    · rw [show (s.waits.enter c).call n = c by rw [hnew]; exact Function.update_self ..,
        show (s.waits.enter c).pc c.co = some ⟨s.waits.nextCall, .retry, none⟩ from
          Function.update_self .., hnew]
      simp
    · have hlt : n < s.waits.nextCall := by omega
      have hinside := h.outside n hlt hanswer
      unfold Waits.returned at hinside
      rw [hcall hlt]
      cases hp : s.waits.pc (s.waits.call n).co with
      | none =>
        rw [hp] at hinside
        cases hinside
      | some p => rwa [hother hp, ← hp]

/-- No timer has the number of the next one yet. -/
theorem Records.remade (h : Records s) (hi : Inv s.waits) (now : UInt64) :
    Records { s with madeAt := Function.update s.madeAt s.waits.timers.nextTimer now } := by
  have hmade {f : ℕ} (hf : f < s.waits.timers.nextTimer) :
      Function.update s.madeAt s.waits.timers.nextTimer now f = s.madeAt f :=
    Function.update_of_ne (Nat.ne_of_lt hf) ..
  refine ⟨?due, h.known, ?late, h.begun, h.cancel, h.written, h.timer, h.stage, h.inside,
    h.outside, h.fresh, h.result, h.timedOut⟩
  case due =>
    intro t ht
    exact (h.due t ht).congr le_rfl rfl rfl (hmade ((hi.holds.pending t).mp ht).1)
  case late =>
    intro f at' hf
    obtain ⟨d, hle, hdue⟩ := h.late f at' hf
    exact ⟨d, hle, hdue.congr le_rfl rfl rfl (hmade (h.lt_of_collected hf))⟩

/-- A timer is made. -/
theorem Records.newTimer (h : Records s) (hi : Inv s.waits) {call : ℕ}
    (hlt : call < s.waits.nextCall) (htimeout : (s.waits.call call).timeout ≠ -1) {now : UInt64}
    {timers : Time.State}
    (ha : Added s.waits.timers timers s.waits.timers.nextTimer)
    (hnext : (timers.timer s.waits.timers.nextTimer).next = now + (s.waits.call call).delay) :
    Records { s with
      waits := { s.waits with
        timers := timers
        armedBy := Function.update s.waits.armedBy s.waits.timers.nextTimer call
        cancel := Function.update s.waits.cancel s.waits.timers.nextTimer false }
      madeAt := Function.update s.madeAt s.waits.timers.nextTimer now } := by
  have hnew : s.collectedAt s.waits.timers.nextTimer = none := by
    by_contra hf
    exact Nat.lt_irrefl _ (h.known _ hf)
  -- what is known of the timers that have been made stays as it is
  have harmed {f : ℕ} (hf : f < s.waits.timers.nextTimer) :
      Function.update s.waits.armedBy s.waits.timers.nextTimer call f = s.waits.armedBy f :=
    Function.update_of_ne (Nat.ne_of_lt hf) ..
  have hcancel {f : ℕ} (hf : f < s.waits.timers.nextTimer) :
      Function.update s.waits.cancel s.waits.timers.nextTimer false f = s.waits.cancel f :=
    Function.update_of_ne (Nat.ne_of_lt hf) ..
  have hmade {f : ℕ} (hf : f < s.waits.timers.nextTimer) :
      Function.update s.madeAt s.waits.timers.nextTimer now f = s.madeAt f :=
    Function.update_of_ne (Nat.ne_of_lt hf) ..
  refine ⟨?due, ?known, ?late, h.begun, ?cancel, ?written, ?timer, ?stage, h.inside, h.outside,
    h.fresh, ?result, ?timedOut⟩
  case due =>
    intro t ht
    rcases ha.timers t ht with rfl | ⟨hmem, hsame⟩
    · unfold Due
      dsimp only
      rw [Function.update_self, Function.update_self, hnext]
      exact ⟨hlt, htimeout, rfl⟩
    · have ht := ((hi.holds.pending t).mp hmem).1
      show Due _ t (timers.timer t).next
      rw [hsame]
      exact (h.due t hmem).congr le_rfl (harmed ht) rfl (hmade ht)
  case known =>
    intro f hf
    show f < timers.nextTimer
    rw [ha.nextTimer]
    exact Nat.lt_succ_of_lt (h.known f hf)
  case late =>
    intro f at' hf
    obtain ⟨d, hle, hdue⟩ := h.late f at' hf
    have hlt' := h.lt_of_collected hf
    exact ⟨d, hle, hdue.congr le_rfl (harmed hlt') rfl (hmade hlt')⟩
  case cancel =>
    intro f hf
    refine h.cancel f ?_
    by_cases heq : f = s.waits.timers.nextTimer
    · subst heq
      dsimp only at hf
      rw [Function.update_self] at hf
      cases hf
    · exact (Function.update_of_ne heq ..).symm.trans hf
  case written =>
    intro f hf
    have hcollected : s.collectedAt f ≠ none := h.collected_of_begun (Or.inr hf)
    exact (hcancel (h.known f hcollected)).trans (h.written f hf)
  case timer =>
    intro co p f hp ht
    obtain ⟨hf, hcall⟩ := h.timer co p f hp ht
    refine ⟨?_, (harmed hf).trans hcall⟩
    show f < timers.nextTimer
    rw [ha.nextTimer]
    exact Nat.lt_succ_of_lt hf
  case stage =>
    intro f hf
    dsimp only
    rw [harmed (h.known f hf), hcancel (h.known f hf)]
    exact (h.stage f hf).imp_left fun hin => hin.congr (harmed (h.known f hf)) rfl fun _ hp => hp
  case result =>
    intro c r hanswer
    refine ⟨(h.result c r hanswer).1, fun f hf => ?_⟩
    by_cases heq : f = s.waits.timers.nextTimer
    · rw [heq]
      exact hnew
    · exact (h.result c r hanswer).2 f ((Function.update_of_ne heq ..).symm.trans hf)
  case timedOut =>
    intro c hanswer
    obtain ⟨f, hf, hcollected⟩ := h.timedOut c hanswer
    exact ⟨f, (harmed (h.known f hcollected)).trans hf, hcollected⟩

/-- A new timer records its time. -/
theorem Records.addTimer (h : Records s) (hi : Inv s.waits) (hpc : s.waits.pc co = some p)
    (hstage : p.stage = .again) {now : UInt64} {addr : ℕ} {w : Waits}
    (hs : s.waits.addTimer co p now addr = some w) :
    Records { s with
      waits := w, madeAt := Function.update s.madeAt s.waits.timers.nextTimer now } := by
  have hclosed : ∀ b, ¬ p.stage.Open b := fun b hopen => hopen.ne_retry.2 hstage
  unfold Waits.addTimer at hs
  by_cases htimeout : (s.waits.call p.call).timeout = -1
  · rw [if_pos htimeout] at hs
    cases hs
    exact (h.remade hi now).goOn hpc rfl nofun fun f _ _ hopen => absurd hopen (hclosed _)
  · rw [if_neg htimeout] at hs
    obtain ⟨timers, htimers, rfl⟩ := Option.map_eq_some_iff.mp hs
    have ha := added_addTimer hi.holds htimers
    have hmade := h.newTimer hi (hi.places co p hpc).1 htimeout ha (next_addTimer htimers)
    refine hmade.goOn (p := p) (q := ⟨p.call, .armed, some s.waits.timers.nextTimer⟩) hpc rfl
      ?_ fun f _ _ hopen => absurd hopen (hclosed _)
    intro f hf
    cases hf
    right
    refine ⟨?_, Function.update_self ..⟩
    show s.waits.timers.nextTimer < timers.nextTimer
    rw [ha.nextTimer]
    exact Nat.lt_succ_self _

/-- Some timers are collected, at a time when they are due and in the waits they are made for. -/
theorem Records.collect (h : Records s) (hi : Inv s.waits) {now : UInt64} {timers : Time.State}
    (hf : Fewer s.waits.timers timers) {cbs : List ℕ}
    (hcbs : ∀ f ∈ cbs, f ∈ s.waits.timers.timers ∧ (s.waits.timers.timer f).next ≤ now ∧
      s.waits.InStage f Stage.Waiting) :
    Records { s with
      waits := { s.waits with
        timers := timers
        callback := fun f => if f ∈ cbs then .queued else s.waits.callback f }
      collectedAt := fun f => if f ∈ cbs then some now else s.collectedAt f } := by
  have hleft := h.fewer hf
  refine ⟨hleft.due, ?known, ?late, ?begun, ?cancel, ?written, hleft.timer, ?stage, h.inside,
    h.outside, h.fresh, ?result, ?timedOut⟩
  case known =>
    intro f hcollected
    by_cases hmem : f ∈ cbs
    · exact Nat.lt_of_lt_of_le ((hi.holds.pending f).mp (hcbs f hmem).1).1 hf.nextTimer
    · exact hleft.known f (by simpa [hmem] using hcollected)
  case late =>
    intro f at' hcollected
    by_cases hmem : f ∈ cbs
    · obtain rfl : now = at' := by simpa [hmem] using hcollected
      exact ⟨_, (hcbs f hmem).2.1, h.due f (hcbs f hmem).1⟩
    · exact h.late f at' (by simpa [hmem] using hcollected)
  case begun =>
    intro f
    by_cases hmem : f ∈ cbs
    · simp [hmem]
    · simpa [hmem] using h.begun f
  case cancel =>
    intro f hcancel
    by_cases hmem : f ∈ cbs
    · simp [hmem]
    · simpa [hmem] using h.cancel f hcancel
  case written =>
    intro f hwritten
    by_cases hmem : f ∈ cbs
    · simp [hmem] at hwritten
    · exact h.written f (by simpa [hmem] using hwritten)
  case stage =>
    intro f hcollected
    by_cases hmem : f ∈ cbs
    · obtain ⟨stage, hwaiting, hplace⟩ := (hcbs f hmem).2.2
      exact Or.inl ⟨stage, Or.inl hwaiting, hplace⟩
    · exact h.stage f (by simpa [hmem] using hcollected)
  case result =>
    intro c r hanswer
    obtain ⟨hfinal, hnone⟩ := h.result c r hanswer
    refine ⟨hfinal, fun f harmed => ?_⟩
    by_cases hmem : f ∈ cbs
    · -- its call is in a wait, and has not returned
      obtain ⟨stage, -, hplace⟩ := (hcbs f hmem).2.2
      have hin : s.answer (s.waits.armedBy f) = none := h.inside _ _ hplace
      rw [show s.waits.armedBy f = c from harmed, hanswer] at hin
      cases hin
    · simpa [hmem] using hnone f harmed
  case timedOut =>
    intro c hanswer
    obtain ⟨f, harmed, hcollected⟩ := h.timedOut c hanswer
    refine ⟨f, harmed, ?_⟩
    by_cases hmem : f ∈ cbs
    · simp [hmem]
    · simpa [hmem] using hcollected

/-- What is collected is due. -/
theorem Records.listExpiredCb (h : Records s) (hi : Inv s.waits) {now : UInt64} {probe : ℕ}
    {w : Waits} (hok : Orderly s.waits (.listExpiredCb now probe))
    (hs : s.waits.listExpiredCb now probe = some w) :
    Records ⟨w, s.answer, s.madeAt, s.recordCollected (.listExpiredCb now probe)⟩ := by
  unfold Waits.listExpiredCb at hs
  obtain ⟨timers, htimers, rfl⟩ := Option.map_eq_some_iff.mp hs
  obtain ⟨hfewer, hcbs⟩ :=
    fewer_listExpiredCb hi.holds (fun t ht => (hi.oneShot t ht).1) htimers
  refine h.collect hi hfewer fun f hf => ?_
  obtain ⟨t, ht, hle, hcb⟩ := hcbs f hf
  rw [(hi.oneShot t ht).2] at hcb
  cases hcb
  exact ⟨ht, hle, (hok f ht hle).1⟩

/-- A callback goes on. -/
theorem Records.progress (h : Records s) {f : ℕ} (hf : Pending s.waits f) {progress : Progress}
    (hprogress : progress = .written ∨ progress = .finished) {cancel : ℕ → Bool}
    (hcancel : cancel f = true) (hsame : ∀ g, g ≠ f → cancel g = s.waits.cancel g) :
    Records { s with waits := { s.waits.setCallback f progress with cancel := cancel } } := by
  have hcollected : s.collectedAt f ≠ none := h.collected_of_begun (hf.imp_right Or.inl)
  refine ⟨h.due, h.known, h.late, ?begun, ?cancel, ?written, h.timer, ?stage, h.inside, h.outside,
    h.fresh, h.result, h.timedOut⟩
  case begun =>
    intro g
    show s.collectedAt g = none ↔ Function.update s.waits.callback f progress g = .idle
    by_cases hgf : g = f
    · subst hgf
      rw [Function.update_self]
      exact ⟨fun hnone => absurd hnone hcollected, by rcases hprogress with rfl | rfl <;> nofun⟩
    · rw [Function.update_of_ne hgf]
      exact h.begun g
  case cancel =>
    intro g hg
    by_cases hgf : g = f
    · rwa [hgf]
    · exact h.cancel g ((hsame g hgf).symm.trans hg)
  case written =>
    intro g hg
    show cancel g = true
    by_cases hgf : g = f
    · rw [hgf, hcancel]
    · rw [hsame g hgf]
      refine h.written g ?_
      change Function.update s.waits.callback f progress g = _ ∨
        Function.update s.waits.callback f progress g = _ at hg
      rwa [Function.update_of_ne hgf] at hg
  case stage =>
    intro g hg
    refine (h.stage g hg).imp_left fun ⟨stage, hopen, hplace⟩ => ⟨stage, ?_, hplace⟩
    show stage.Open (cancel g)
    by_cases hgf : g = f
    · rw [hgf, hcancel]
      exact hopen.of_written
    · rwa [hsame g hgf]

/-- Behind a wait without a callback in the task queue, one that has been collected has run. -/
theorem Records.cancel_of_not_pending (h : Records s) {f : ℕ} (hf : ¬ Pending s.waits f)
    (hcollected : s.collectedAt f ≠ none) : s.waits.cancel f = true := by
  refine h.written f ?_
  cases hcallback : s.waits.callback f with
  | idle => exact absurd ((h.begun f).mpr hcallback) hcollected
  | queued => exact absurd (Or.inl hcallback) hf
  | written => exact Or.inl rfl
  | finished => exact Or.inr rfl

/-- A waiter that is registered changes no record. -/
theorem Records.addEvent (h : Records s) (hpc : s.waits.pc co = some p) {success : Bool}
    {w : Waits} (hok : Orderly s.waits (.addEvent co success))
    (hs : s.waits.addEvent co p success = some w) : Records { s with waits := w } := by
  unfold Waits.addEvent at hs
  dsimp only at hs
  split at hs
  · cases hs
  · split at hs
    · cases hs
    · cases hs
      refine (h.goOn (q := ⟨p.call, if success then .yielded else .refused, p.timer⟩) hpc rfl
        (fun f hf => Or.inl hf) fun f hf hcollected _ => ⟨hf, ?_⟩).quiet _ _ _ _
      cases success with
      | true => exact Or.inl (Or.inr rfl)
      | false =>
        -- the wait is over for a coroutine that is refused, so its callback must have run
        exact Or.inr ⟨h.cancel_of_not_pending ((hok p hpc).1 rfl f hf) hcollected, Or.inl rfl⟩

/-- `timer->cancel()` leaves the record as it is. -/
theorem Records.cancelTimer (h : Records s) (hi : Inv s.waits) {timer : Option ℕ} {w : Waits}
    (hs : s.waits.cancelTimer timer = some w) :
    Records { s with waits := w } ∧ Inv w ∧ w.pc = s.waits.pc ∧ w.cancel = s.waits.cancel := by
  unfold Waits.cancelTimer at hs
  split at hs
  · cases hs
    exact ⟨h, hi, rfl, rfl⟩
  · obtain ⟨timers, htimers, rfl⟩ := Option.map_eq_some_iff.mp hs
    have hfewer := (fewer_cancel hi.holds htimers).1
    exact ⟨h.fewer hfewer, hi.fewer hfewer, rfl, rfl⟩

/-- A coroutine that is scheduled changes no record. -/
theorem Records.scheduled (h : Records s) {w : Waits} (hs : Scheduled s.waits w) :
    Records { s with waits := w } := by
  obtain ⟨ctx, tasks, rfl⟩ := hs.same
  exact h.quiet ctx tasks _ _

/-- Every orderly step keeps the records. -/
theorem Records.step (h : Records s) (hi : Inv s.waits) {l : Label} {s' : Answers}
    (hok : Orderly s.waits l) (hs : s.step l = some s') : Records s' := by
  obtain ⟨w, hw, rfl⟩ := Option.map_eq_some_iff.mp hs
  clear hs
  cases l with
  | call c =>
    obtain ⟨hnot, heq⟩ := Option.ite_none_left_eq_some.mp hw
    cases heq
    rw [not_or, not_not] at hnot
    exact h.enter hi hnot.2
  | attempt co r =>
    unfold Waits.step at hw
    dsimp only at hw
    show Records ⟨w, s.record (s.waits.answers (.attempt co r)), s.madeAt, s.collectedAt⟩
    split at hw
    case h_1 call timer hpc =>
      cases hw
      rw [show s.waits.answers (.attempt co (.error .eintr)) = none by simp [Waits.answers, hpc]]
      exact h
    case h_2 call timer hpc =>
      cases hw
      rw [show s.waits.answers (.attempt co (.error .eagain)) = none by simp [Waits.answers, hpc]]
      exact h.goOn hpc rfl (fun f hf => by cases hf) fun f _ _ hopen => absurd rfl hopen.ne_retry.1
    case h_3 call timer hpc hintr hagain =>
      cases hw
      rw [answers_attempt hpc ⟨hintr, hagain⟩]
      exact h.leave hi hpc (fun r hr => by cases hr; exact ⟨⟨hintr, hagain⟩, rfl⟩)
        fun ht => by cases ht
    case h_4 => cases hw
  | addTimer co now addr =>
    unfold Waits.step at hw
    dsimp only at hw
    split at hw
    case h_1 call timer hpc => exact h.addTimer hi hpc rfl hw
    case h_2 => cases hw
  | addEvent co success =>
    unfold Waits.step at hw
    dsimp only at hw
    split at hw
    case h_1 call timer hpc => exact h.addEvent hpc hok hw
    case h_2 => cases hw
  | resume co =>
    unfold Waits.step at hw
    dsimp only at hw
    split at hw
    case h_1 call timer hpc =>
      obtain ⟨-, heq⟩ := Option.ite_none_right_eq_some.mp hw
      cases heq
      -- whoever has scheduled it, no callback of its own is left in the task queue
      refine (h.goOn (q := ⟨call, .resumed, timer⟩) hpc rfl (fun f hf => Or.inl hf)
        fun f hf hcollected _ => ⟨hf, Or.inr ⟨?_, Or.inr (Or.inl rfl)⟩⟩).quiet _ _ _ _
      exact h.cancel_of_not_pending (hok _ f hpc hf) hcollected
    case h_2 => cases hw
  | cancelTimer co =>
    unfold Waits.step at hw
    dsimp only at hw
    show Records ⟨w, s.record (s.waits.answers (.cancelTimer co)), s.madeAt, s.collectedAt⟩
    split at hw
    case h_1 call timer hpc =>
      obtain ⟨w, hcancel, rfl⟩ := Option.map_eq_some_iff.mp hw
      obtain ⟨hr, hinv, hsame, -⟩ := h.cancelTimer hi hcancel
      rw [show s.waits.answers (.cancelTimer co) = some (call, .refused) by
        simp [Waits.answers, hpc]]
      exact hr.leave hinv (p := ⟨call, .refused, timer⟩) (by rw [← hpc, ← hsame])
        (fun r hr => by cases hr) fun ht => by cases ht
    case h_2 call timer hpc =>
      obtain ⟨w, hcancel, rfl⟩ := Option.map_eq_some_iff.mp hw
      obtain ⟨hr, -, hsame, -⟩ := h.cancelTimer hi hcancel
      rw [show s.waits.answers (.cancelTimer co) = none by simp [Waits.answers, hpc]]
      refine hr.goOn (p := ⟨call, .resumed, timer⟩) (by rw [← hpc, ← hsame]) rfl
        (fun f hf => Or.inl hf) fun f hf _ hopen => ⟨hf, ?_⟩
      rcases hopen with (heq | heq) | ⟨hwritten, -⟩
      · cases heq
      · cases heq
      · exact Or.inr ⟨hwritten, Or.inr (Or.inr rfl)⟩
    case h_3 => cases hw
  | testCancel co =>
    unfold Waits.step at hw
    dsimp only at hw
    show Records ⟨w, s.record (s.waits.answers (.testCancel co)), s.madeAt, s.collectedAt⟩
    split at hw
    case h_1 call timer hpc =>
      split at hw
      case isTrue hcancel =>
        cases hw
        rw [show s.waits.answers (.testCancel co) = some (call, .timedOut) by
          simp [Waits.answers, hpc, hcancel]]
        refine h.leave hi hpc (fun r hr => by cases hr) fun _ => ?_
        exact (Option.any_eq_true _ _).mp hcancel
      case isFalse hcancel =>
        cases hw
        rw [show s.waits.answers (.testCancel co) = none by simp [Waits.answers, hpc, hcancel]]
        -- a timer that had been collected would have written `cancel` by now
        refine h.goOn hpc rfl (fun f hf => by cases hf) fun f hf _ hopen => ?_
        rcases hopen with (heq | heq) | ⟨hwritten, -⟩
        · cases heq
        · cases heq
        · exact absurd (by rw [show timer = some f from hf]; exact hwritten) hcancel
    case h_2 => cases hw
  | listExpiredCb now probe => exact h.listExpiredCb hi hok hw
  | writeCancel f =>
    obtain ⟨hqueued, heq⟩ := Option.ite_none_right_eq_some.mp hw
    cases heq
    exact (h.progress (Or.inl hqueued) (Or.inl rfl) (Function.update_self ..)
      fun g hg => Function.update_of_ne hg ..).quiet _ _ _ _
  | cancelEvent f =>
    obtain ⟨hwritten, heq⟩ := Option.ite_none_right_eq_some.mp hw
    obtain ⟨⟨victim, w⟩, hcancel, rfl⟩ := Option.map_eq_some_iff.mp heq
    -- `cancel` has been written in the step before
    have hdone : s.waits.cancel f = true := h.written f (Or.inl hwritten)
    obtain ⟨ctx, tasks, rfl⟩ := (cancelEvent_scheduled hcancel).1.same
    exact (h.progress (Or.inr hwritten) (Or.inr rfl) hdone fun _ _ => rfl).quiet _ _ _ _
  | ready fd events => exact h.scheduled (ready_scheduled hw)
  | cancelAll fd => exact h.scheduled (cancelAll_scheduled hw)

end Steps

end Answers

end CoKV.Hook
