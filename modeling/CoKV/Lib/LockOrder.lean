import CoKV.Lib.Run
import CoKV.Lib.Shares
import Mathlib.Logic.Function.Basic
import Mathlib.Tactic.ByContra

/-!
# Locks that are taken in order

Threads take and release locks, each following its own list of actions. A lock is held by one thread,
or shared by several. `goes_on`: where a thread only takes a lock that comes behind all it holds, by
some rank, and releases what it has taken, never do all wait for each other; so that all come to the
end of their lists (`can_finish`).
-/

namespace CoKV.LockOrder

inductive Mode
  | shared
  | exclusive

inductive Act (M : Type)
  | acquire (m : M) (mode : Mode)
  | release (m : M)

/-- What the threads `T` are still to do, and who has the locks `M`. -/
structure State (T M : Type) where
  rest : T → List (Act M)
  writer : M → Option T
  readers : M → List T

variable {T M : Type}

/-- Nobody has a lock. -/
def State.start (rest : T → List (Act M)) : State T M := ⟨rest, fun _ => none, fun _ => []⟩

/-- Thread `t` takes its next step, unless it has to wait. -/
def State.step [DecidableEq T] [DecidableEq M] (s : State T M) (t : T) : Option (State T M) :=
  match s.rest t with
  | [] => none
  | .acquire m .exclusive :: acts =>
    if s.writer m = none ∧ s.readers m = [] then
      some { s with
        rest := Function.update s.rest t acts
        writer := Function.update s.writer m (some t) }
    else none
  | .acquire m .shared :: acts =>
    if s.writer m = none then
      some { s with
        rest := Function.update s.rest t acts
        readers := Function.update s.readers m (t :: s.readers m) }
    else none
  | .release m :: acts =>
    if s.writer m = some t then
      some { s with
        rest := Function.update s.rest t acts
        writer := Function.update s.writer m none }
    else
      some { s with
        rest := Function.update s.rest t acts
        readers := Function.update s.readers m ((s.readers m).erase t) }

/-- Who holds `held` takes locks in the order of their rank, and releases what it holds. -/
def Ordered [DecidableEq M] (rank : M → ℕ) : List M → List (Act M) → Prop
  | held, [] => held = []
  | held, .acquire m _ :: acts => (∀ m' ∈ held, rank m' < rank m) ∧ Ordered rank (m :: held) acts
  | held, .release m :: acts => m ∈ held ∧ Ordered rank (held.erase m) acts

/-- One after the other. -/
theorem Ordered.append [DecidableEq M] {rank : M → ℕ} {held : List M} {acts acts' : List (Act M)}
    (h : Ordered rank held acts) (h' : Ordered rank [] acts') : Ordered rank held (acts ++ acts') := by
  induction acts generalizing held with
  | nil =>
    obtain rfl : held = [] := h
    exact h'
  | cons act acts ih =>
    cases act with
    | acquire m mode => exact ⟨h.1, ih h.2⟩
    | release m => exact ⟨h.1, ih h.2⟩

/-- What only takes locks behind `m` can be done with `m` in hand. -/
theorem Ordered.under [DecidableEq M] {rank : M → ℕ} {held : List M} {acts acts' : List (Act M)} {m : M}
    (h : Ordered rank held acts) (hm : ∀ m' mode, .acquire m' mode ∈ acts → rank m < rank m')
    (h' : Ordered rank [m] acts') : Ordered rank (held ++ [m]) (acts ++ acts') := by
  induction acts generalizing held with
  | nil =>
    obtain rfl : held = [] := h
    exact h'
  | cons act acts ih =>
    have hrest : ∀ m' mode, .acquire m' mode ∈ acts → rank m < rank m' :=
      fun m' mode hmem => hm m' mode (List.mem_cons_of_mem _ hmem)
    cases act with
    | acquire m₁ mode =>
      refine ⟨fun m' hm' => ?_, ih h.2 hrest⟩
      rcases List.mem_append.mp hm' with hm' | hm'
      · exact h.1 m' hm'
      · rw [List.mem_singleton.mp hm']
        exact hm m₁ mode List.mem_cons_self
    | release m₁ =>
      refine ⟨List.mem_append_left _ h.1, ?_⟩
      rw [List.erase_append_left _ h.1]
      exact ih h.2 hrest

theorem Ordered.flatMap [DecidableEq M] {rank : M → ℕ} {ι : Type} {f : ι → List (Act M)}
    (h : ∀ i, Ordered rank [] (f i)) (l : List ι) : Ordered rank [] (l.flatMap f) := by
  induction l with
  | nil => rfl
  | cons i l ih => exact (h i).append ih

/-- Thread `t` has the lock. -/
def State.Holds (s : State T M) (t : T) (m : M) : Prop := s.writer m = some t ∨ t ∈ s.readers m

/-- What thread `t` holds is what it is to release. -/
def Keeps [DecidableEq M] (rank : M → ℕ) (s : State T M) (t : T) : Prop :=
  ∃ held, held.Nodup ∧ Ordered rank held (s.rest t) ∧ ∀ m, m ∈ held ↔ s.Holds t m

/-- The invariant. -/
structure Kept [DecidableEq M] (rank : M → ℕ) (s : State T M) : Prop where
  keeps : ∀ t, Keeps rank s t
  alone : ∀ m t, s.writer m = some t → s.readers m = []
  nodup : ∀ m, (s.readers m).Nodup

section Steps

variable [DecidableEq M] {rank : M → ℕ} {s s' : State T M} {t : T} {m : M}

theorem kept_start {rest : T → List (Act M)} (h : ∀ t, Ordered rank [] (rest t)) :
    Kept rank (State.start rest) where
  keeps t := by
    refine ⟨[], List.nodup_nil, h t, fun m => ?_⟩
    simp [State.Holds, State.start]
  alone _ _ h := by cases h
  nodup _ := List.nodup_nil

/-- A thread that has not moved, and holds what it has held. -/
theorem Keeps.other (h : Keeps rank s t) (hrest : s'.rest t = s.rest t)
    (hholds : ∀ m, s'.Holds t m ↔ s.Holds t m) : Keeps rank s' t := by
  obtain ⟨held, hnodup, hordered, hheld⟩ := h
  refine ⟨held, hnodup, ?_, fun m => ?_⟩
  · rw [hrest]
    exact hordered
  · rw [hheld, hholds]

/-- A thread takes a lock that it does not have. -/
theorem Keeps.acquire (h : Keeps rank s t) {mode : Mode} {acts : List (Act M)}
    (hrest : s.rest t = .acquire m mode :: acts) (hrest' : s'.rest t = acts)
    (hholds : ∀ m', s'.Holds t m' ↔ m' = m ∨ s.Holds t m') : Keeps rank s' t := by
  obtain ⟨held, hnodup, hordered, hheld⟩ := h
  rw [hrest] at hordered
  have hm : m ∉ held := fun hm => Nat.lt_irrefl _ (hordered.1 m hm)
  refine ⟨m :: held, List.nodup_cons.mpr ⟨hm, hnodup⟩, ?_, fun m' => ?_⟩
  · rw [hrest']
    exact hordered.2
  · rw [List.mem_cons, hheld, hholds]

/-- A thread gives back a lock that it has. -/
theorem Keeps.release (h : Keeps rank s t) {acts : List (Act M)}
    (hrest : s.rest t = .release m :: acts) (hrest' : s'.rest t = acts)
    (hholds : ∀ m', s'.Holds t m' ↔ m' ≠ m ∧ s.Holds t m') : Keeps rank s' t := by
  obtain ⟨held, hnodup, hordered, hheld⟩ := h
  rw [hrest] at hordered
  refine ⟨held.erase m, hnodup.erase m, ?_, fun m' => ?_⟩
  · rw [hrest']
    exact hordered.2
  · rw [hnodup.mem_erase_iff, hheld, hholds]

theorem Keeps.not_holds (h : Keeps rank s t) {mode : Mode} {acts : List (Act M)}
    (hrest : s.rest t = .acquire m mode :: acts) : ¬ s.Holds t m := by
  obtain ⟨held, -, hordered, hheld⟩ := h
  rw [hrest] at hordered
  exact fun hm => Nat.lt_irrefl _ (hordered.1 m ((hheld m).mpr hm))

theorem Keeps.holds (h : Keeps rank s t) {acts : List (Act M)}
    (hrest : s.rest t = .release m :: acts) : s.Holds t m := by
  obtain ⟨held, -, hordered, hheld⟩ := h
  rw [hrest] at hordered
  exact (hheld m).mp hordered.1

variable [DecidableEq T]

theorem Kept.step (h : Kept rank s) (hs : s.step t = some s') : Kept rank s' := by
  unfold State.step at hs
  split at hs
  case h_1 => cases hs
  case h_2 m acts hrest =>
    split at hs
    case isFalse => cases hs
    case isTrue hfree =>
      obtain ⟨hwriter, hreaders⟩ := hfree
      rw [← Option.some.inj hs]
      refine ⟨fun u => ?_, fun m' u hu => ?_, h.nodup⟩
      · by_cases hut : u = t
        · rw [hut]
          refine (h.keeps t).acquire hrest (Function.update_self ..) fun m' => ?_
          by_cases hm : m' = m
          · simp [State.Holds, hm]
          · simp [State.Holds, hm]
        · refine (h.keeps u).other (Function.update_of_ne hut ..) fun m' => ?_
          by_cases hm : m' = m
          · simp [State.Holds, hm, hwriter, hreaders, Ne.symm hut]
          · simp [State.Holds, hm]
      · by_cases hm : m' = m
        · rw [hm]
          exact hreaders
        · exact h.alone m' u ((Function.update_of_ne hm ..).symm.trans hu)
  case h_3 m acts hrest =>
    split at hs
    case isFalse => cases hs
    case isTrue hwriter =>
      have hnew := (h.keeps t).not_holds hrest
      rw [← Option.some.inj hs]
      refine ⟨fun u => ?_, fun m' u hu => ?_, fun m' => ?_⟩
      · by_cases hut : u = t
        · rw [hut]
          refine (h.keeps t).acquire hrest (Function.update_self ..) fun m' => ?_
          by_cases hm : m' = m
          · simp [State.Holds, hm]
          · simp [State.Holds, hm]
        · refine (h.keeps u).other (Function.update_of_ne hut ..) fun m' => ?_
          by_cases hm : m' = m
          · simp [State.Holds, hm, hut]
          · simp [State.Holds, hm]
      · have hm : m' ≠ m := by
          rintro rfl
          rw [hwriter] at hu
          cases hu
        exact (Function.update_of_ne hm ..).trans (h.alone m' u hu)
      · by_cases hm : m' = m
        · rw [hm]
          dsimp only
          rw [Function.update_self]
          exact List.nodup_cons.mpr ⟨fun ht => hnew (Or.inr ht), h.nodup m⟩
        · dsimp only
          rw [Function.update_of_ne hm]
          exact h.nodup m'
  case h_4 m acts hrest =>
    have hholds := (h.keeps t).holds hrest
    split at hs
    case isTrue hwriter =>
      have hreaders := h.alone m t hwriter
      rw [← Option.some.inj hs]
      refine ⟨fun u => ?_, fun m' u hu => ?_, h.nodup⟩
      · by_cases hut : u = t
        · rw [hut]
          refine (h.keeps t).release hrest (Function.update_self ..) fun m' => ?_
          by_cases hm : m' = m
          · simp [State.Holds, hm, hreaders]
          · simp [State.Holds, hm]
        · refine (h.keeps u).other (Function.update_of_ne hut ..) fun m' => ?_
          by_cases hm : m' = m
          · simp [State.Holds, hm, hwriter, hreaders, Ne.symm hut]
          · simp [State.Holds, hm]
      · have hm : m' ≠ m := by
          rintro rfl
          dsimp only at hu
          rw [Function.update_self] at hu
          cases hu
        exact h.alone m' u ((Function.update_of_ne hm ..).symm.trans hu)
    case isFalse hwriter =>
      rw [← Option.some.inj hs]
      refine ⟨fun u => ?_, fun m' u hu => ?_, fun m' => ?_⟩
      · by_cases hut : u = t
        · rw [hut]
          refine (h.keeps t).release hrest (Function.update_self ..) fun m' => ?_
          by_cases hm : m' = m
          · simp [State.Holds, hm, hwriter, (h.nodup m).not_mem_erase]
          · simp [State.Holds, hm]
        · refine (h.keeps u).other (Function.update_of_ne hut ..) fun m' => ?_
          by_cases hm : m' = m
          · simp [State.Holds, hm, List.mem_erase_of_ne hut]
          · simp [State.Holds, hm]
      · have hnone := h.alone m' u hu
        by_cases hm : m' = m
        · rw [hm] at hnone ⊢
          dsimp only
          rw [Function.update_self, hnone]
          rfl
        · exact (Function.update_of_ne hm ..).trans hnone
      · by_cases hm : m' = m
        · rw [hm]
          dsimp only
          rw [Function.update_self]
          exact (h.nodup m).erase t
        · dsimp only
          rw [Function.update_of_ne hm]
          exact h.nodup m'

/-! ## Progress -/

/-- Who has to wait waits for a lock that somebody has. -/
theorem holder_of_waits {mode : Mode} {acts : List (Act M)}
    (hrest : s.rest t = .acquire m mode :: acts) (hs : s.step t = none) : ∃ u, s.Holds u m := by
  have hwriter : s.writer m ≠ none → ∃ u, s.Holds u m := by
    intro hne
    obtain ⟨u, hu⟩ := Option.ne_none_iff_exists'.mp hne
    exact ⟨u, Or.inl hu⟩
  unfold State.step at hs
  rw [hrest] at hs
  cases mode with
  | shared =>
    dsimp only at hs
    split at hs
    case isTrue => cases hs
    case isFalse hne => exact hwriter hne
  | exclusive =>
    dsimp only at hs
    split at hs
    case isTrue => cases hs
    case isFalse hne =>
      by_cases hnone : s.writer m = none
      · obtain ⟨u, hu⟩ := List.exists_mem_of_ne_nil _ fun hnil => hne ⟨hnone, hnil⟩
        exact ⟨u, Or.inr hu⟩
      · exact hwriter hnone

/-- Who waits for a lock waits for one that waits for a lock of higher rank, if it waits at all. -/
theorem goes_on_of_waits {N : ℕ} (hrank : ∀ m, rank m ≤ N) (h : Kept rank s) {mode : Mode}
    {acts : List (Act M)} (hrest : s.rest t = .acquire m mode :: acts) :
    ∃ u, (s.step u).isSome = true := by
  induction hn : N - rank m using Nat.strongRecOn generalizing t m mode acts with
  | ind n ih =>
    cases hs : s.step t with
    | some s' => exact ⟨t, by rw [hs]; rfl⟩
    | none =>
      obtain ⟨u, hu⟩ := holder_of_waits hrest hs
      obtain ⟨held, -, hordered, hheld⟩ := h.keeps u
      have hm : m ∈ held := (hheld m).mpr hu
      cases hact : s.rest u with
      | nil =>
        rw [hact] at hordered
        rw [show held = [] from hordered] at hm
        cases hm
      | cons act acts' =>
        rw [hact] at hordered
        cases act with
        | acquire m' mode' =>
          have hlt : rank m < rank m' := hordered.1 m hm
          have hle := hrank m'
          exact ih (N - rank m') (by omega) hact rfl
        | release m' =>
          refine ⟨u, ?_⟩
          unfold State.step
          rw [hact]
          dsimp only
          split <;> rfl

/-- Not all wait: as long as a thread is not at its end, one can go on. -/
theorem goes_on {N : ℕ} (hrank : ∀ m, rank m ≤ N) (h : Kept rank s) (hrest : s.rest t ≠ []) :
    ∃ u, (s.step u).isSome = true := by
  cases hact : s.rest t with
  | nil => exact absurd hact hrest
  | cons act acts =>
    cases act with
    | acquire m mode => exact goes_on_of_waits hrank h hact
    | release m =>
      refine ⟨t, ?_⟩
      unfold State.step
      rw [hact]
      dsimp only
      split <;> rfl

theorem kept_of_run {rest : T → List (Act M)} (hordered : ∀ t, Ordered rank [] (rest t))
    (h : Run State.step anyStep (State.start rest) s) : Kept rank s :=
  h.invariant (kept_start hordered) fun _ _ _ ht _ hs => ht.step hs

/-- A step is one action less. -/
theorem rest_step (hs : s.step t = some s') :
    ∃ act, s.rest t = act :: s'.rest t ∧ ∀ u ≠ t, s'.rest u = s.rest u := by
  have hmoved : ∀ {act acts} {u : State T M}, s.rest t = act :: acts →
      u.rest = Function.update s.rest t acts →
      ∃ act, s.rest t = act :: u.rest t ∧ ∀ v ≠ t, u.rest v = s.rest v := by
    intro act acts u hrest hu
    refine ⟨act, ?_, fun v hv => ?_⟩
    · rw [hu, Function.update_self, hrest]
    · rw [hu, Function.update_of_ne hv]
  unfold State.step at hs
  split at hs
  case h_1 => cases hs
  case h_2 m acts hrest =>
    split at hs
    case isFalse => cases hs
    case isTrue =>
      rw [← Option.some.inj hs]
      exact hmoved hrest rfl
  case h_3 m acts hrest =>
    split at hs
    case isFalse => cases hs
    case isTrue =>
      rw [← Option.some.inj hs]
      exact hmoved hrest rfl
  case h_4 m acts hrest =>
    split at hs
    case isTrue =>
      rw [← Option.some.inj hs]
      exact hmoved hrest rfl
    case isFalse =>
      rw [← Option.some.inj hs]
      exact hmoved hrest rfl

/-- Who is at its end stays there. -/
theorem rest_of_run (h : Run State.step anyStep s s') (hrest : s.rest t = []) : s'.rest t = [] := by
  refine h.invariant (I := fun s => s.rest t = []) hrest fun s u s' hs _ hstep => ?_
  obtain ⟨act, hact, hother⟩ := rest_step hstep
  have hne : t ≠ u := by
    rintro rfl
    rw [hs] at hact
    cases hact
  rw [hother t hne]
  exact hs

/-- Several threads come to their ends. -/
theorem can_finish {N : ℕ} (hrank : ∀ m, rank m ≤ N) (h : Kept rank s) {threads : List T}
    (hn : threads.Nodup) (hrest : ∀ t, t ∉ threads → s.rest t = []) :
    ∃ s', Run State.step anyStep s s' ∧ ∀ t, s'.rest t = [] := by
  refine Run.exists_done (I := fun s => Kept rank s ∧ ∀ t, t ∉ threads → s.rest t = [])
    (fun s => (threads.map fun t => (s.rest t).length).sum) ?_ ⟨h, hrest⟩
  intro s hs hdone
  obtain ⟨t, ht⟩ := not_forall.mp hdone
  obtain ⟨u, hu⟩ := goes_on hrank hs.1 ht
  obtain ⟨s', hs'⟩ := Option.isSome_iff_exists.mp hu
  obtain ⟨act, hact, hother⟩ := rest_step hs'
  have hmem : u ∈ threads := by
    by_contra hu
    rw [hs.2 u hu] at hact
    cases hact
  have hlength : (s.rest u).length = (s'.rest u).length + 1 := by
    rw [hact]
    rfl
  refine ⟨u, s', trivial, hs', ⟨hs.1.step hs', fun v hv => ?_⟩, ?_⟩
  · have hne : v ≠ u := fun heq => hv (heq ▸ hmem)
    rw [hother v hne]
    exact hs.2 v hv
  · have hsum := sum_of_share hn hmem (f := fun t => (s.rest t).length)
      (g := fun t => (s'.rest t).length) (a := 0) (b := 1)
      (fun v hv => by rw [hother v hv]) (by omega)
    omega

end Steps

end CoKV.LockOrder
