import CoKV.Hook.Descriptors

/-!
# A context for each opening

`contexts_follow`: an `FdCtx` is in the table only while the descriptor is open that it was made for,
and it is what the calls of `setTimeout` since then have made of a new one: no connection inherits from
an earlier one with its number. That is so in every run in which no two calls are under way for one
number: no `close` begins while a `socket`, `accept` or `close` is at work on its number, be the number
open or not, and the kernel gives no number to a new descriptor while a call is. What `socket` and
`accept` return is to be so small that `fd*1.5` fits an `int`. `get(1)` is null whatever the table holds,
and so a hooked descriptor 1 has no `FdCtx`. Two calls of `close` for one number, side by side, are
enough to leave an `FdCtx` behind (`context_left`).
-/

namespace CoKV.Hook

open FdManager (Holds Sized)

namespace Descriptors

variable {T : Type} {s s' : Descriptors T} {t : T} {fd : ℤ} {p : ℕ}

/-- The `FdCtx` of a descriptor is in the table: a hooked call has opened it, and no call is under way
that is still to put it there or has taken it out. -/
def Has (s : Descriptors T) (fd : ℤ) : Prop :=
  fd ≠ 1 ∧ (∃ o, s.kernel fd = some o ∧ o.hooked = true) ∧
    ∀ t c, s.call t = some c → c.fd = fd → c = .found fd

/-- What a call knows about its descriptor. A `close` may have been called with a number that is not
open. -/
def Fits (o : Option Opening) : FdCall → Prop
  | .opened fd => 3 * fd / 2 < 2 ^ 31 ∧ o = some ⟨true, true, []⟩
  | .missing fd => fd ≠ 1 ∧ 3 * fd / 2 < 2 ^ 31 ∧ o = some ⟨true, true, []⟩
  | .found fd => fd ≠ 1 ∧ ∃ o', o = some o' ∧ o'.hooked = true
  | .deleted _ => True

/-- What every step keeps. -/
structure Inv (s : Descriptors T) : Prop where
  sized : Sized s.manager
  bound : ∀ fd p, Holds s.manager fd p → p < s.manager.objects.length
  distinct : ∀ fd fd' p, Holds s.manager fd p → Holds s.manager fd' p → fd = fd'
  fits : ∀ t c, s.call t = some c → Fits (s.kernel c.fd) c
  alone : ∀ t u c c', s.call t = some c → s.call u = some c' → c.fd = c'.fd → t = u
  holds : ∀ fd p, Holds s.manager fd p → s.Has fd
  has : ∀ fd, s.Has fd → ∃ p o, Holds s.manager fd p ∧ s.kernel fd = some o ∧
    s.manager.objects[p]? = some (o.ctx fd)

/-- No call is under way for a number. -/
def Unused (s : Descriptors T) (fd : ℤ) : Prop := ∀ u c, s.call u = some c → c.fd ≠ fd

/-- Each number is in the hands of one call: a call does not begin for a number, and the kernel does
not give it away, while another call is under way for it. What a hooked call opens leaves room for
`fd*1.5` in an `int`. -/
def Owned (s : Descriptors T) : FdLabel T → Prop
  | .opens _ fd => 3 * fd / 2 < 2 ^ 31 ∧ s.Unused fd
  | .opensDirect fd _ | .close _ fd => s.Unused fd
  | _ => True

section Lookup

variable {m m' : FdManager}

/-- Behind the end of the table there is no object. -/
theorem not_holds_of_le (hm : Sized m) (h : m.intSize ≤ fd) : ¬ Holds m fd p := by
  intro hp
  obtain ⟨hpos, hentry⟩ := hp.inRange
  obtain ⟨hlt, -⟩ := List.getElem?_eq_some_iff.mp hentry
  rw [hm.intSize] at h
  omega

/-- `get` under the read lock sees what the table holds. -/
theorem lookup_iff (hm : Sized m) {autoCreate : Bool} {r : Option (Option ℕ)}
    (h : m.lookup fd autoCreate = some r) : Holds m fd p ↔ r = some (some p) := by
  unfold FdManager.lookup at h
  by_cases hlt : m.intSize ≤ fd
  · rw [if_pos hlt] at h
    refine ⟨fun hp => absurd hp (not_holds_of_le hm hlt), ?_⟩
    rintro rfl
    split at h <;> cases h
  · rw [if_neg hlt] at h
    obtain ⟨ctx, hentry, rfl⟩ := Option.map_eq_some_iff.mp h
    unfold Holds
    rw [hentry]
    cases ctx <;> cases autoCreate <;> simp

/-- With `auto_create`, `get` goes on unless the table holds an object. -/
theorem lookup_true {ctx : Option ℕ} (h : m.lookup fd true = some (some ctx)) :
    ∃ p, Holds m fd p := by
  cases ctx with
  | some p => exact ⟨p, FdManager.lookup_holds h⟩
  | none =>
    unfold FdManager.lookup at h
    split at h
    · cases h
    · obtain ⟨ctx, -, hctx⟩ := Option.map_eq_some_iff.mp h
      cases ctx <;> cases hctx

/-- The object that is made is one of `init` for its descriptor. -/
theorem create_objects {stat : Option Bool} (h : m.create fd stat = some (p, m')) :
    m'.objects = m.objects ++ [FdCtx.new fd stat] := by
  unfold FdManager.create at h
  obtain ⟨m₂, hset, heq⟩ := Option.map_eq_some_iff.mp h
  cases heq
  rw [(FdManager.setEntry_written hset).objects]
  split <;> rfl

/-- `del` leaves nothing of what the table holds. -/
theorem del_none (hm : Sized m) (h : m.del fd = some m') : ¬ Holds m' fd p := by
  unfold FdManager.del at h
  by_cases hlt : m.intSize ≤ fd
  · rw [if_pos hlt] at h
    cases h
    exact not_holds_of_le hm hlt
  · rw [if_neg hlt] at h
    intro hp
    have hentry := (FdManager.setEntry_written h).entry
    unfold Holds at hp
    rw [hentry] at hp
    cases hp

end Lookup

/-! ## A step -/

/-- What stays of `Has` when another descriptor is in hand. -/
theorem Has.congr (hk : s'.kernel fd = s.kernel fd)
    (hc : ∀ t c, c.fd = fd → (s'.call t = some c ↔ s.call t = some c)) :
    s'.Has fd ↔ s.Has fd := by
  unfold Has
  rw [hk]
  refine and_congr_right fun _ => and_congr_right fun _ => ?_
  exact forall_congr' fun t => forall_congr' fun c =>
    ⟨fun h hcall hfd => h ((hc t c hfd).mpr hcall) hfd, fun h hcall hfd => h ((hc t c hfd).mp hcall) hfd⟩

/-- Nothing changes for the other descriptors. -/
structure Elsewhere (s s' : Descriptors T) (fd : ℤ) : Prop where
  holds : ∀ fd' ≠ fd, ∀ p, Holds s'.manager fd' p ↔ Holds s.manager fd' p
  kernel : ∀ fd' ≠ fd, s'.kernel fd' = s.kernel fd'
  call : ∀ u c, c.fd ≠ fd → (s'.call u = some c ↔ s.call u = some c)
  objects : ∀ p < s.manager.objects.length, (∀ fd', Holds s.manager fd' p → fd' ≠ fd) →
    s'.manager.objects[p]? = s.manager.objects[p]?
  length : s.manager.objects.length ≤ s'.manager.objects.length

/-- What a step has to leave of its own descriptor. -/
structure Here (s s' : Descriptors T) (fd : ℤ) : Prop where
  sized : Sized s'.manager
  call : ∀ u c, s'.call u = some c → c.fd = fd → Fits (s'.kernel fd) c
  alone : ∀ u v c c', s'.call u = some c → s'.call v = some c' → c.fd = fd → c'.fd = fd → u = v
  holds : ∀ p, Holds s'.manager fd p → s'.Has fd ∧ p < s'.manager.objects.length ∧
    ∀ fd' ≠ fd, ¬ Holds s.manager fd' p
  has : s'.Has fd → ∃ p o, Holds s'.manager fd p ∧ s'.kernel fd = some o ∧
    s'.manager.objects[p]? = some (o.ctx fd)

/-- A step that concerns one descriptor has to be checked there only. -/
theorem Inv.of_here (h : Inv s) (fd : ℤ) (he : Elsewhere s s' fd) (hh : Here s s' fd) : Inv s' := by
  have hhas {fd' : ℤ} (hne : fd' ≠ fd) : s'.Has fd' ↔ s.Has fd' :=
    Has.congr (he.kernel fd' hne) fun u c hc => he.call u c (by rw [hc]; exact hne)
  constructor
  · exact hh.sized
  · intro fd' p hp
    by_cases hne : fd' = fd
    · rw [hne] at hp
      exact (hh.holds p hp).2.1
    · exact (h.bound fd' p ((he.holds fd' hne p).mp hp)).trans_le he.length
  · intro fd₁ fd₂ p hp₁ hp₂
    by_cases h₁ : fd₁ = fd <;> by_cases h₂ : fd₂ = fd
    · rw [h₁, h₂]
    · rw [h₁] at hp₁
      exact absurd ((he.holds fd₂ h₂ p).mp hp₂) ((hh.holds p hp₁).2.2 fd₂ h₂)
    · rw [h₂] at hp₂
      exact absurd ((he.holds fd₁ h₁ p).mp hp₁) ((hh.holds p hp₂).2.2 fd₁ h₁)
    · exact h.distinct fd₁ fd₂ p ((he.holds fd₁ h₁ p).mp hp₁) ((he.holds fd₂ h₂ p).mp hp₂)
  · intro u c hc
    by_cases hne : c.fd = fd
    · rw [hne]
      exact hh.call u c hc hne
    · rw [he.kernel c.fd hne]
      exact h.fits u c ((he.call u c hne).mp hc)
  · intro u v c c' hc hc' heq
    by_cases hne : c.fd = fd
    · exact hh.alone u v c c' hc hc' hne (heq.symm.trans hne)
    · have hne' : c'.fd ≠ fd := by rw [← heq]; exact hne
      exact h.alone u v c c' ((he.call u c hne).mp hc) ((he.call v c' hne').mp hc') heq
  · intro fd' p hp
    by_cases hne : fd' = fd
    · rw [hne] at hp ⊢
      exact (hh.holds p hp).1
    · exact (hhas hne).mpr (h.holds fd' p ((he.holds fd' hne p).mp hp))
  · intro fd' hfd'
    by_cases hne : fd' = fd
    · rw [hne] at hfd' ⊢
      exact hh.has hfd'
    · obtain ⟨p, o, hp, ho, hobject⟩ := h.has fd' ((hhas hne).mp hfd')
      refine ⟨p, o, (he.holds fd' hne p).mpr hp, by rw [he.kernel fd' hne]; exact ho, ?_⟩
      rw [he.objects p (h.bound fd' p hp) fun fd₁ hp₁ => by rw [h.distinct fd₁ fd' p hp₁ hp]; exact hne]
      exact hobject

/-- The object that `get(fd)` returns. -/
theorem get_iff (h : Inv s) {ctx : Option ℕ} (hget : s.get fd = some ctx) :
    Holds s.manager fd p ↔ ctx = some p := by
  unfold get at hget
  split at hget
  case isTrue hone =>
    cases hget
    exact ⟨fun hp => absurd hone (h.holds fd p hp).1, fun heq => by cases heq⟩
  case isFalse =>
    cases hlookup : s.manager.lookup fd false with
    | none =>
      rw [hlookup] at hget
      cases hget
    | some r =>
      rw [hlookup] at hget
      have hr : r = some ctx := hget
      rw [lookup_iff h.sized hlookup, hr, Option.some.injEq]

/-- A call in which the object is not in the table. -/
theorem Inv.absent (h : Inv s) {c : FdCall} (hc : s.call t = some c) (hne : c ≠ .found c.fd) (p : ℕ) :
    ¬ Holds s.manager c.fd p := by
  intro hp
  exact hne ((h.holds c.fd p hp).2.2 t c hc rfl)

/-- A descriptor that a call is under way for is not promised to have its context. -/
theorem not_has_of_call {c : FdCall} (hc : s.call t = some c) (hfd : c.fd = fd)
    (hne : c ≠ .found fd) : ¬ s.Has fd := fun h => hne (h.2.2 t c hc hfd)

/-- The other threads, when one of them has the descriptor in hand. -/
theorem Inv.free (h : Inv s) {c₁ : FdCall} (hc₁ : s.call t = some c₁) :
    ∀ u ≠ t, ∀ c, s.call u = some c → c.fd ≠ c₁.fd :=
  fun u hu c hc heq => hu (h.alone u t c c₁ hc hc₁ heq)

/-- A closed descriptor has no context. -/
theorem Inv.not_holds_of_closed (h : Inv s) (hk : s.kernel fd = none) (p : ℕ) :
    ¬ Holds s.manager fd p := by
  intro hp
  obtain ⟨-, ⟨o, ho, -⟩, -⟩ := h.holds fd p hp
  rw [hk] at ho
  cases ho

/-- A call that is not hooked may open any number that is unused. -/
theorem Inv.opensDirect (h : Inv s) (hk : s.kernel fd = none) (hfree : s.Unused fd)
    (isSocket : Bool) : Inv (s.setKernel fd (some ⟨isSocket, false, []⟩)) := by
  refine h.of_here fd ⟨fun _ _ _ => Iff.rfl, fun fd' hne => Function.update_of_ne hne _ _,
    fun _ _ _ => Iff.rfl, fun _ _ _ => rfl, le_rfl⟩ ⟨h.sized, ?_, ?_, ?_, ?_⟩
  · exact fun u c hc heq => absurd heq (hfree u c hc)
  · exact fun u v c c' hc _ heq => absurd heq (hfree u c hc)
  · exact fun p hp => absurd hp (h.not_holds_of_closed hk p)
  · rintro ⟨-, ⟨o, ho, hhooked⟩, -⟩
    rw [setKernel_self] at ho
    cases ho
    cases hhooked

/-- `setTimeout` changes the context as it changes the record of the descriptor. -/
theorem Inv.setTimeout (h : Inv s) {type : ℤ} {v : UInt64} (hs : s.setTimeout fd type v = some s') :
    Inv s' := by
  unfold Descriptors.setTimeout at hs
  split at hs
  case h_2 => cases hs
  case h_1 q hget =>
    cases hs
    have hq : Holds s.manager fd q := (get_iff h hget).mpr rfl
    obtain ⟨hone, ⟨o, ho, hhooked⟩, hcalls⟩ := h.holds fd q hq
    obtain ⟨q', o', hq', ho', hobject⟩ := h.has fd (h.holds fd q hq)
    rw [hq'.unique hq] at hobject
    rw [ho] at ho'
    cases ho'
    let timeouts := o.timeouts ++ [(type, v)]
    refine h.of_here fd ⟨fun _ _ _ => Iff.rfl, fun fd' hne => Function.update_of_ne hne _ _,
      fun _ _ _ => Iff.rfl, ?_, (List.length_modify ..).ge⟩
      ⟨⟨h.sized.ge, h.sized.lt⟩, ?_, fun u v c c' hc hc' heq heq' =>
        h.alone u v c c' hc hc' (heq.trans heq'.symm), ?_, ?_⟩
    · intro p _ hp
      have hne : q ≠ p := by
        rintro rfl
        exact hp fd hq rfl
      exact List.getElem?_modify_ne _ _ hne
    · intro u c hc heq
      rw [hcalls u c hc heq]
      refine ⟨hone, { o with timeouts := timeouts }, ?_, hhooked⟩
      dsimp only
      rw [Function.update_self, ho]
      rfl
    · intro p hp
      refine ⟨⟨hone, ⟨{ o with timeouts := timeouts }, ?_, hhooked⟩, hcalls⟩, ?_, ?_⟩
      · dsimp only
        rw [Function.update_self, ho]
        rfl
      · dsimp only
        rw [List.length_modify]
        exact h.bound fd p hp
      · exact fun fd' hne hp' => hne (h.distinct fd' fd p hp' hp)
    · intro _
      refine ⟨q, { o with timeouts := timeouts }, hq, ?_, ?_⟩
      · dsimp only
        rw [Function.update_self, ho]
        rfl
      · dsimp only
        rw [List.getElem?_modify_eq, hobject]
        simp [Opening.ctx, timeouts]

variable [DecidableEq T]

/-- The calls of the other threads, when `t` goes on with a call for `fd`. -/
theorem call_congr {c' : Option FdCall} (hcall : s'.call = Function.update s.call t c')
    (hold : ∀ c, s.call t = some c → c.fd = fd) (hnew : ∀ c, c' = some c → c.fd = fd) {fd' : ℤ}
    (hne : fd' ≠ fd) (u : T) (c : FdCall) (hc : c.fd = fd') :
    s'.call u = some c ↔ s.call u = some c := by
  rw [hcall]
  by_cases hu : u = t
  · rw [hu, Function.update_self]
    constructor
    · intro h
      exact absurd (hc.symm.trans (hnew c h)) hne
    · intro h
      exact absurd (hc.symm.trans (hold c h)) hne
  · rw [Function.update_of_ne hu]

section Step

variable {c₀ : Option FdCall}

/-- Only the call of a thread changes. -/
theorem Elsewhere.of_call (hm : s'.manager = s.manager) (hk : ∀ fd' ≠ fd, s'.kernel fd' = s.kernel fd')
    (hcall : s'.call = Function.update s.call t c₀) (hold : ∀ c, s.call t = some c → c.fd = fd)
    (hnew : ∀ c, c₀ = some c → c.fd = fd) : Elsewhere s s' fd := by
  refine ⟨fun fd' _ p => by rw [hm], hk, fun u c hne => ?_, fun p _ _ => by rw [hm], by rw [hm]⟩
  exact call_congr hcall hold hnew hne u c rfl

/-- The descriptor is in the hands of this thread only. -/
theorem Here.of_call (hs : Sized s'.manager) (hcall : s'.call = Function.update s.call t c₀)
    (hfree : ∀ u ≠ t, ∀ c, s.call u = some c → c.fd ≠ fd)
    (hfits : ∀ c, c₀ = some c → Fits (s'.kernel fd) c)
    (holds : ∀ p, Holds s'.manager fd p → s'.Has fd ∧ p < s'.manager.objects.length ∧
      ∀ fd' ≠ fd, ¬ Holds s.manager fd' p)
    (has : s'.Has fd → ∃ p o, Holds s'.manager fd p ∧ s'.kernel fd = some o ∧
      s'.manager.objects[p]? = some (o.ctx fd)) : Here s s' fd := by
  have hself : ∀ u c, s'.call u = some c → c.fd = fd → u = t ∧ c₀ = some c := by
    intro u c hc heq
    rw [hcall] at hc
    by_cases hu : u = t
    · rw [hu, Function.update_self] at hc
      exact ⟨hu, hc⟩
    · rw [Function.update_of_ne hu] at hc
      exact absurd heq (hfree u hu c hc)
  refine ⟨hs, fun u c hc heq => hfits c (hself u c hc heq).2, ?_, holds, has⟩
  intro u v c c' hc hc' heq heq'
  rw [(hself u c hc heq).1, (hself v c' hc' heq').1]

/-- The object is not in the table, and it need not be. -/
theorem Here.gone (hs : Sized s'.manager) (hcall : s'.call = Function.update s.call t c₀)
    (hfree : ∀ u ≠ t, ∀ c, s.call u = some c → c.fd ≠ fd)
    (hfits : ∀ c, c₀ = some c → Fits (s'.kernel fd) c)
    (hnot : ∀ p, ¬ Holds s'.manager fd p) (hhas : ¬ s'.Has fd) : Here s s' fd :=
  .of_call hs hcall hfree hfits (fun p hp => absurd hp (hnot p)) fun h => absurd h hhas

/-- The kernel opens a descriptor for `socket` or `accept`, whose context is still to come. -/
theorem Inv.opens (h : Inv s) (hcall : s.call t = none) (hk : s.kernel fd = none)
    (hroom : 3 * fd / 2 < 2 ^ 31) (hfree : s.Unused fd) :
    Inv ((s.setKernel fd (some ⟨true, true, []⟩)).setCall t (some (.opened fd))) := by
  refine h.of_here fd (.of_call rfl (fun fd' hne => Function.update_of_ne hne _ _) rfl
    (fun c hc => by rw [hcall] at hc; cases hc) fun c hc => by cases hc; rfl)
    (.gone h.sized rfl (fun u _ => hfree u) ?_ (h.not_holds_of_closed hk) ?_)
  · intro c hc
    cases hc
    exact ⟨hroom, setKernel_self ..⟩
  · exact not_has_of_call (setCall_self ..) rfl nofun

/-- `close` begins with `get`. -/
theorem Inv.close (h : Inv s) {ctx : Option ℕ} (hcall : s.call t = none) (hget : s.get fd = some ctx)
    (hfree : s.Unused fd) :
    Inv (s.setCall t (some (if ctx.isSome then .found fd else .deleted fd))) := by
  have helse (c₁ : FdCall) (hc₁ : c₁.fd = fd) : Elsewhere s (s.setCall t (some c₁)) fd :=
    .of_call rfl (fun _ _ => rfl) rfl (fun c hc => by rw [hcall] at hc; cases hc)
      fun c hc => by cases hc; exact hc₁
  cases ctx with
  | none =>
    refine h.of_here fd (helse (.deleted fd) rfl) (.gone h.sized rfl (fun u _ => hfree u) ?_ ?_ ?_)
    · intro c hc
      cases hc
      trivial
    · intro p hp
      cases (get_iff h hget).mp hp
    · exact not_has_of_call (setCall_self ..) rfl nofun
  | some p =>
    have hp : Holds s.manager fd p := (get_iff h hget).mpr rfl
    have hhas := h.holds fd p hp
    have hhas' : (s.setCall t (some (.found fd))).Has fd := by
      refine ⟨hhas.1, hhas.2.1, fun u c hc heq => ?_⟩
      by_cases hu : u = t
      · rw [hu, setCall_self] at hc
        exact (Option.some.inj hc).symm
      · rw [setCall_of_ne _ hu] at hc
        exact absurd heq (hfree u c hc)
    refine h.of_here fd (helse (.found fd) rfl) (.of_call h.sized rfl (fun u _ => hfree u) ?_ ?_ ?_)
    · intro c hc
      cases hc
      exact ⟨hhas.1, hhas.2.1⟩
    · intro q hq
      exact ⟨hhas', h.bound fd q hq, fun fd' hne hp' => hne (h.distinct fd' fd q hp' hq)⟩
    · exact fun _ => h.has fd hhas

/-- A call goes on to its next section. -/
theorem Inv.next (h : Inv s) {c : FdCall} (hc : s.call t = some c) (hs : s.next t c = some s') :
    Inv s' := by
  have hfits := h.fits t c hc
  have hfree := h.free hc
  have helse {m : FdManager} {c₁ : Option FdCall} (hm : m = s.manager)
      (hc₁ : ∀ c', c₁ = some c' → c'.fd = c.fd) :
      Elsewhere s ({ s with manager := m }.setCall t c₁) c.fd := by
    refine .of_call hm (fun _ _ => rfl) rfl (fun c' hc' => ?_) hc₁
    rw [hc] at hc'
    rw [Option.some.inj hc']
  cases c with
  | opened fd =>
    unfold Descriptors.next at hs
    dsimp only at hs
    have hnot : ∀ p, ¬ Holds s.manager fd p := h.absent hc nofun
    split at hs
    case isTrue hone =>
      cases hs
      refine h.of_here fd (helse rfl nofun) (.gone h.sized rfl hfree nofun hnot ?_)
      exact fun hhas => hhas.1 hone
    case isFalse hone =>
      obtain ⟨ctx, hlookup, rfl⟩ := Option.map_eq_some_iff.mp hs
      cases ctx with
      | some ctx =>
        obtain ⟨p, hp⟩ := lookup_true hlookup
        exact absurd hp (hnot p)
      | none =>
        refine h.of_here fd (helse rfl fun c' hc' => by cases hc'; rfl)
          (.gone h.sized rfl hfree ?_ hnot ?_)
        · intro c' hc'
          cases hc'
          exact ⟨hone, hfits⟩
        · exact not_has_of_call (setCall_self ..) rfl nofun
  | missing fd =>
    obtain ⟨⟨p, m⟩, hcreate, rfl⟩ := Option.map_eq_some_iff.mp hs
    obtain ⟨hone, hroom, ho⟩ := hfits
    have hcr := FdManager.create_created h.sized (fun _ => hroom) hcreate
    have hobjects := create_objects hcreate
    have hfree' : ∀ u c', (({ s with manager := m } : Descriptors T).setCall t none).call u =
        some c' → c'.fd ≠ fd := by
      intro u c' hc'
      by_cases hu : u = t
      · rw [hu, setCall_self] at hc'
        cases hc'
      · rw [setCall_of_ne _ hu] at hc'
        exact hfree u hu c' hc'
    have hobject : m.objects[p]? = some (Opening.ctx ⟨true, true, []⟩ fd) := by
      rw [hobjects, hcr.fresh, List.getElem?_concat_length]
      simp [Opening.ctx, show s.kernel fd = some ⟨true, true, []⟩ from ho]
    refine h.of_here fd ⟨fun fd' hne p' => hcr.others fd' p' hne, fun _ _ => rfl, ?_, ?_, ?_⟩
      (.of_call hcr.sized rfl hfree nofun ?_ ?_)
    · exact fun u c' hne => call_congr rfl (fun c₁ hc₁ => by rw [hc] at hc₁; cases hc₁; rfl)
        (fun c₁ hc₁ => by cases hc₁) hne u c' rfl
    · intro q hq _
      exact (congrArg (·[q]?) hobjects).trans (List.getElem?_append_left hq)
    · exact (Nat.le_succ _).trans hcr.objects.ge
    · intro q hq
      refine ⟨⟨hone, ⟨_, ho, rfl⟩, fun u c' hc' heq => absurd heq (hfree' u c' hc')⟩, ?_, ?_⟩
      · exact (List.getElem?_eq_some_iff.mp (hcr.holds.unique hq ▸ hobject)).1
      · intro fd' _ hq'
        have hlt := h.bound fd' q hq'
        rw [← hcr.holds.unique hq, hcr.fresh] at hlt
        exact absurd hlt (lt_irrefl _)
    · exact fun _ => ⟨p, _, hcr.holds, ho, hobject⟩
  | found fd =>
    obtain ⟨m, hdel, rfl⟩ := Option.map_eq_some_iff.mp hs
    have hr := FdManager.del_removed hdel
    refine h.of_here fd ⟨fun fd' hne p => hr.others fd' p hne, fun _ _ => rfl, ?_, ?_, ?_⟩
      (.gone ⟨?_, ?_⟩ rfl hfree ?_ (fun p => del_none h.sized hdel) ?_)
    · exact fun u c' hne => call_congr rfl (fun c₁ hc₁ => by rw [hc] at hc₁; cases hc₁; rfl)
        (fun c₁ hc₁ => by cases hc₁; rfl) hne u c' rfl
    · exact fun q _ _ => congrArg (·[q]?) hr.objects
    · exact (congrArg List.length hr.objects).ge
    · exact h.sized.ge.trans hr.length.ge
    · exact hr.length.trans_lt h.sized.lt
    · intro c' hc'
      cases hc'
      trivial
    · exact not_has_of_call (setCall_self ..) rfl nofun
  | deleted fd =>
    cases hs
    have hnot : ∀ p, ¬ Holds s.manager fd p := h.absent hc nofun
    refine h.of_here fd (.of_call rfl (fun fd' hne => Function.update_of_ne hne _ _) rfl
      (fun c' hc' => ?_) nofun) (.gone h.sized rfl hfree nofun hnot ?_)
    · rw [hc] at hc'
      rw [← Option.some.inj hc']
      rfl
    · rintro ⟨-, ⟨o', ho', -⟩, -⟩
      cases (s.setKernel_self fd none).symm.trans ho'

/-- Every step keeps the invariant. -/
theorem Inv.step (h : Inv s) {l : FdLabel T} (hl : Owned s l) (hs : s.step l = some s') : Inv s' := by
  cases l with
  | opens t fd =>
    obtain ⟨⟨hcall, hk, -⟩, heq⟩ := Option.ite_none_right_eq_some.mp hs
    cases heq
    exact h.opens hcall hk hl.1 hl.2
  | opensDirect fd isSocket =>
    obtain ⟨⟨hk, -⟩, heq⟩ := Option.ite_none_right_eq_some.mp hs
    cases heq
    exact h.opensDirect hk hl isSocket
  | setTimeout fd type v => exact h.setTimeout hs
  | close t fd =>
    unfold Descriptors.step at hs
    dsimp only at hs
    split at hs
    case h_1 ctx hcall hget =>
      cases hs
      exact h.close hcall hget hl
    case h_2 => cases hs
  | next t =>
    unfold Descriptors.step at hs
    dsimp only at hs
    split at hs
    case h_1 c hcall => exact h.next hcall hs
    case h_2 => cases hs

/-- One `close` has deleted the `FdCtx`, another has then found none, and the number is opened again
between the two calls of the kernel: its `FdCtx` stays when the second of them closes it. -/
theorem context_left : ∃ (s : Descriptors Bool) (p : ℕ),
    Run step anyStep (init fun _ => none) s ∧ s.kernel 5 = none ∧ Holds s.manager 5 p := by
  obtain ⟨s, hs, hk, hp⟩ : ∃ s : Descriptors Bool, runLabels step (init fun _ => none)
      [.opens false 5, .next false, .next false, .close false 5, .next false, .close true 5,
        .next false, .opens false 5, .next false, .next false, .next true] = some s ∧
        s.kernel 5 = none ∧ Holds s.manager 5 1 :=
    ⟨_, rfl, rfl, rfl⟩
  exact ⟨s, 1, .of_labels hs, hk, hp⟩

end Step

end Descriptors

end CoKV.Hook
