import CoKV.FdManager.Defs
import CoKV.Lib.Run
import Mathlib.Algebra.Order.Ring.Int

/-!
# One object for a descriptor

`gets_same`: as long as each `get` that comes to the write lock finds its entry still empty, all
`get(fd, true)` between two deletions return the same object, which is the one in the table. The
section under the write lock does not look again: of two threads that have both found no object,
the second one replaces what the first one has already been given.
-/

namespace CoKV.FdManager

/-! ## The sections -/

section Sections

variable {m m' : FdManager} {fd fd' : ℤ} {p ctx : ℕ}

/-- The entry holds this object. -/
def Holds (m : FdManager) (fd : ℤ) (p : ℕ) : Prop := m.entry fd = some (some p)

/-- The table is not empty, and `(int)m_datas.size()` is its size. -/
structure Sized (m : FdManager) : Prop where
  ge : 64 ≤ m.datas.length
  lt : m.datas.length < 2 ^ 31

/-- The table starts with 64 entries. -/
theorem sized_new : Sized new := ⟨by decide, by decide⟩

/-- The cast of `size()` to `int` is the length. -/
theorem Sized.intSize (h : Sized m) : m.intSize = m.datas.length := by
  have hlt := h.lt
  unfold FdManager.intSize
  rw [BitVec.toInt_eq_toNat_of_lt, BitVec.toNat_ofNat, Nat.mod_eq_of_lt (by omega)]
  rw [BitVec.toNat_ofNat, Nat.mod_eq_of_lt (by omega)]
  omega

/-- An entry holds one object. -/
theorem Holds.unique (h : Holds m fd p) (h' : Holds m fd ctx) : p = ctx :=
  Option.some.inj (Option.some.inj (h.symm.trans h'))

/-- An entry that holds an object is within the table. -/
theorem Holds.inRange (h : Holds m fd p) : 0 ≤ fd ∧ m.datas[fd.toNat]? = some (some p) := by
  unfold Holds entry at h
  by_cases hfd : 0 ≤ fd
  · rw [if_pos hfd] at h
    exact ⟨hfd, h⟩
  · rw [if_neg hfd] at h
    cases h

/-- An entry is written, and no other. -/
structure Written (m m' : FdManager) (fd : ℤ) (ctx : Option ℕ) : Prop where
  entry : m'.entry fd = some ctx
  others : ∀ fd' p, fd' ≠ fd → (Holds m' fd' p ↔ Holds m fd' p)
  objects : m'.objects = m.objects
  length : m'.datas.length = m.datas.length

/-- A write to the table changes its entry and no other, and makes no object. -/
theorem setEntry_written {ctx : Option ℕ} (h : m.setEntry fd ctx = some m') :
    Written m m' fd ctx := by
  unfold setEntry at h
  obtain ⟨old, hold, rfl⟩ := Option.map_eq_some_iff.mp h
  unfold FdManager.entry at hold
  by_cases hfd : 0 ≤ fd
  · rw [if_pos hfd] at hold
    obtain ⟨hlt, -⟩ := List.getElem?_eq_some_iff.mp hold
    refine ⟨?_, ?_, rfl, List.length_set⟩
    · unfold FdManager.entry
      rw [if_pos hfd, List.getElem?_set_self hlt]
    · intro fd' p hne
      unfold Holds FdManager.entry
      by_cases hfd' : 0 ≤ fd'
      · rw [if_pos hfd', if_pos hfd', List.getElem?_set_ne (by omega)]
      · rw [if_neg hfd', if_neg hfd']
  · rw [if_neg hfd] at hold
    cases hold

/-- A longer table holds what it has held. -/
theorem resize_holds {size : ℕ} (h : m.datas.length ≤ size) :
    Holds (m.resize size) fd p ↔ Holds m fd p := by
  unfold Holds FdManager.entry resize
  by_cases hfd : 0 ≤ fd
  · rw [if_pos hfd, if_pos hfd]
    dsimp only
    rw [List.take_of_length_le h]
    by_cases hlt : fd.toNat < m.datas.length
    · rw [List.getElem?_append_left hlt]
    · have hnone : m.datas[fd.toNat]? = none := List.getElem?_eq_none (by omega)
      rw [List.getElem?_append_right (by omega), hnone]
      simp [List.getElem?_replicate]
  · rw [if_neg hfd, if_neg hfd]

/-- `lookup` returns what the table holds. -/
theorem lookup_holds (h : m.lookup fd true = some (some (some p))) : Holds m fd p := by
  unfold lookup at h
  by_cases hlt : m.intSize ≤ fd
  · rw [if_pos hlt] at h
    cases h
  · rw [if_neg hlt] at h
    obtain ⟨ctx, hentry, h⟩ := Option.map_eq_some_iff.mp h
    cases ctx with
    | none => cases h
    | some ctx =>
      cases h
      exact hentry

/-- What `get` does under the write lock. -/
structure Created (m m' : FdManager) (fd : ℤ) (ctx : ℕ) : Prop where
  holds : Holds m' fd ctx
  others : ∀ fd' p, fd' ≠ fd → (Holds m' fd' p ↔ Holds m fd' p)
  fresh : ctx = m.objects.length
  objects : m'.objects.length = m.objects.length + 1
  sized : Sized m'

/-- The section under the write lock makes a new object and stores it, if the resize stays below `2
^ 31`. -/
theorem create_created (hm : Sized m) {stat : Option Bool}
    (hfd : m.intSize ≤ fd → 3 * fd / 2 < 2 ^ 31) (h : m.create fd stat = some (ctx, m')) :
    Created m m' fd ctx := by
  unfold create at h
  obtain ⟨m₂, hset, h⟩ := Option.map_eq_some_iff.mp h
  cases h
  have hw := setEntry_written hset
  have hge := hm.ge
  have hlt := hm.lt
  have hsize := hm.intSize
  have hint : FdManager.intSize { m with objects := m.objects ++ [FdCtx.new fd stat] } = m.intSize :=
    rfl
  rw [hint] at hw
  by_cases hgrow : m.intSize ≤ fd
  · rw [if_pos hgrow] at hw
    have hroom := hfd hgrow
    have hle : m.datas.length ≤ (3 * fd / 2).toNat := by omega
    refine ⟨hw.entry, ?_, rfl, ?_, ?_, ?_⟩
    · intro fd' p hne
      exact (hw.others fd' p hne).trans
        (resize_holds (m := { m with objects := m.objects ++ [FdCtx.new fd stat] }) hle)
    · rw [hw.objects]
      exact List.length_append
    · rw [hw.length]
      simp [resize]
      omega
    · rw [hw.length]
      simp [resize]
      omega
  · rw [if_neg hgrow] at hw
    refine ⟨hw.entry, hw.others, rfl, ?_, ?_, ?_⟩
    · rw [hw.objects]
      exact List.length_append
    · rw [hw.length]
      exact hge
    · rw [hw.length]
      exact hlt

/-- What `del` does. -/
structure Removed (m m' : FdManager) (fd : ℤ) : Prop where
  entry : m'.entry fd = m.entry fd ∨ m'.entry fd = some none
  others : ∀ fd' p, fd' ≠ fd → (Holds m' fd' p ↔ Holds m fd' p)
  objects : m'.objects = m.objects
  length : m'.datas.length = m.datas.length

/-- `del` empties its entry, or leaves the table as it is. -/
theorem del_removed (h : m.del fd = some m') : Removed m m' fd := by
  unfold del at h
  by_cases hlt : m.intSize ≤ fd
  · rw [if_pos hlt] at h
    cases h
    exact ⟨Or.inl rfl, fun _ _ _ => Iff.rfl, rfl, rfl⟩
  · rw [if_neg hlt] at h
    have hw := setEntry_written h
    exact ⟨Or.inr hw.entry, hw.others, hw.objects, hw.length⟩

end Sections

/-! ## The threads -/

section Threads

variable {T : Type} {s s' : Threads T} {l : Label T} {fd : ℤ} {p : ℕ}

/-- All that `get(fd, true)` has returned between two deletions is one object, and until the next
deletion it is in the table. -/
structure Same (s : Threads T) : Prop where
  same : ∀ fd p q newer between older,
    s.log = newer ++ .got fd q :: (between ++ .got fd p :: older) →
      .deleted fd ∉ between → p = q
  stored : ∀ fd p newer older, s.log = newer ++ .got fd p :: older →
    .deleted fd ∉ newer → Holds s.manager fd p

/-- A thread that takes the write lock in `get` finds the entry empty, and a descriptor for which
`(int)m_datas.size()` stays positive. -/
def Undisputed (s : Threads T) (l : Label T) : Prop :=
  ∀ t stat fd, l = .create t stat → s.creating t = some fd →
    (∀ p, ¬ Holds s.manager fd p) ∧ 3 * fd / 2 < 2 ^ 31

/-- An answer is the object of the table, before and after; a deletion takes out its own entry. -/
theorem Same.cons (h : Same s) {d : Event} (hlog : s'.log = d :: s.log)
    (hgot : ∀ fd p, d = .got fd p →
      Holds s'.manager fd p ∧ ∀ q, Holds s.manager fd q → q = p)
    (hkept : ∀ fd q, d ≠ .deleted fd → Holds s.manager fd q → Holds s'.manager fd q) : Same s' := by
  constructor
  · intro fd p q newer between older heq hnot
    rw [hlog, List.cons_eq_append_iff] at heq
    rcases heq with ⟨-, heq⟩ | ⟨newer, -, heq⟩
    · obtain ⟨hd, hrest⟩ := List.cons.inj heq
      exact (hgot fd q hd.symm).2 p (h.stored fd p between older hrest.symm hnot)
    · exact h.same fd p q newer between older heq hnot
  · intro fd p newer older heq hnot
    rw [hlog, List.cons_eq_append_iff] at heq
    rcases heq with ⟨-, heq⟩ | ⟨newer, rfl, heq⟩
    · exact (hgot fd p (List.cons.inj heq).1.symm).1
    · rw [List.mem_cons, not_or] at hnot
      exact hkept fd p (Ne.symm hnot.1) (h.stored fd p newer older heq hnot.2)

/-- Kept by a `get` that returns what its entry holds afterwards, and has held before, if anything. -/
theorem Same.got (h : Same s) (hlog : s'.log = .got fd p :: s.log) (hp : Holds s'.manager fd p)
    (hold : ∀ q, Holds s.manager fd q → q = p)
    (hothers : ∀ fd' q, fd' ≠ fd → Holds s.manager fd' q → Holds s'.manager fd' q) : Same s' := by
  apply h.cons hlog
  · intro fd₁ p₁ hd
    cases hd
    exact ⟨hp, hold⟩
  · intro fd₁ q _ hq
    by_cases hfd : fd₁ = fd
    · rw [hfd] at hq ⊢
      rw [hold q hq]
      exact hp
    · exact hothers fd₁ q hfd hq

/-- A `del` may lose what its own entry held, since it is in the log. -/
theorem Same.deleted (h : Same s) (hlog : s'.log = .deleted fd :: s.log)
    (hothers : ∀ fd' q, fd' ≠ fd → Holds s.manager fd' q → Holds s'.manager fd' q) : Same s' := by
  apply h.cons hlog
  · intro fd₁ p₁ hd
    cases hd
  · intro fd₁ q hd hq
    apply hothers fd₁ q _ hq
    intro hfd
    exact hd (congrArg Event.deleted hfd.symm)

/-- A step that no log tells of keeps what the entries hold. -/
theorem Same.unchanged (h : Same s) (hlog : s'.log = s.log)
    (hkept : ∀ fd q, Holds s.manager fd q → Holds s'.manager fd q) : Same s' := by
  constructor
  · intro fd₁ p₁ q₁ newer between older hlog₁
    rw [hlog] at hlog₁
    exact h.same fd₁ p₁ q₁ newer between older hlog₁
  · intro fd₁ p₁ newer older hlog₁ hnot
    rw [hlog] at hlog₁
    exact hkept fd₁ p₁ (h.stored fd₁ p₁ newer older hlog₁ hnot)

/-- What is in the table has been returned since the last deletion. -/
def Recorded (s : Threads T) : Prop :=
  ∀ fd p, Holds s.manager fd p → ∃ newer older,
    s.log = newer ++ .got fd p :: older ∧ .deleted fd ∉ newer

/-- A `get` accounts for what its entry holds. -/
theorem Recorded.got (h : Recorded s) (hlog : s'.log = .got fd p :: s.log)
    (hp : Holds s'.manager fd p)
    (hothers : ∀ fd' q, fd' ≠ fd → Holds s'.manager fd' q → Holds s.manager fd' q) : Recorded s' := by
  intro fd₁ p₁ hp₁
  by_cases hfd : fd₁ = fd
  · subst hfd
    rw [hp₁.unique hp]
    exact ⟨[], s.log, hlog, by simp⟩
  · obtain ⟨newer, older, heq, hnot⟩ := h fd₁ p₁ (hothers fd₁ p₁ hfd hp₁)
    exact ⟨.got fd p :: newer, older, by rw [hlog, heq]; rfl, by simpa using hnot⟩

/-- A `del` that empties its entry leaves nothing to account for. -/
theorem Recorded.deleted (h : Recorded s) (hlog : s'.log = .deleted fd :: s.log)
    (hnone : ∀ q, ¬ Holds s'.manager fd q)
    (hothers : ∀ fd' q, fd' ≠ fd → Holds s'.manager fd' q → Holds s.manager fd' q) : Recorded s' := by
  intro fd₁ p₁ hp₁
  have hfd : fd₁ ≠ fd := by
    rintro rfl
    exact hnone p₁ hp₁
  obtain ⟨newer, older, heq, hnot⟩ := h fd₁ p₁ (hothers fd₁ p₁ hfd hp₁)
  exact ⟨.deleted fd :: newer, older, by rw [hlog, heq]; rfl, by simpa [hfd] using hnot⟩

/-- What the runs keep. -/
structure Tracked (s : Threads T) : Prop where
  sized : Sized s.manager
  same : Same s
  recorded : Recorded s
  bound : ∀ fd p, Holds s.manager fd p → p < s.manager.objects.length

/-- At first no entry holds anything. -/
theorem tracked_start : Tracked (Threads.start : Threads T) := by
  have hnone : ∀ fd p, ¬ Holds new fd p := by
    intro fd p hp
    have hmem := List.mem_of_getElem? hp.inRange.2
    cases List.eq_of_mem_replicate hmem
  refine ⟨sized_new, ⟨?_, ?_⟩, fun fd p hp => absurd hp (hnone fd p), fun fd p hp =>
    absurd hp (hnone fd p)⟩
  · intro fd p q newer between older hlog
    simp [Threads.start] at hlog
  · intro fd p newer older hlog
    simp [Threads.start] at hlog

variable [DecidableEq T]

/-- What a step has done. -/
inductive Effect (s : Threads T) (l : Label T) (s' : Threads T) : Prop
  | nothing (hm : s'.manager = s.manager) (hlog : s'.log = s.log)
  | found (fd : ℤ) (p : ℕ) (hp : Holds s.manager fd p) (hm : s'.manager = s.manager)
      (hlog : s'.log = .got fd p :: s.log)
  | created (t : T) (stat : Option Bool) (fd : ℤ) (p : ℕ) (hl : l = .create t stat)
      (hpc : s.creating t = some fd) (hm : s.manager.create fd stat = some (p, s'.manager))
      (hlog : s'.log = .got fd p :: s.log)
  | deleted (fd : ℤ) (hm : s.manager.del fd = some s'.manager)
      (hlog : s'.log = if s.manager.entry fd = s'.manager.entry fd then s.log else .deleted fd :: s.log)

/-- Every step is one of the four effects. -/
theorem step_effect (h : s.step l = some s') : Effect s l s' := by
  cases l with
  | lookup t fd autoCreate =>
    unfold Threads.step at h
    dsimp only at h
    split at h
    · cases h
    · by_cases hone : fd = 1
      · rw [if_pos hone] at h
        cases h
        exact .nothing rfl rfl
      · rw [if_neg hone] at h
        obtain ⟨result, hlookup, rfl⟩ := Option.map_eq_some_iff.mp h
        cases result with
        | none => exact .nothing rfl rfl
        | some ctx =>
          cases autoCreate with
          | false => exact .nothing rfl rfl
          | true =>
            cases ctx with
            | none => exact .nothing rfl rfl
            | some p => exact .found fd p (lookup_holds hlookup) rfl rfl
  | create t stat =>
    unfold Threads.step at h
    dsimp only at h
    split at h
    · cases h
    · rename_i fd hpc
      obtain ⟨⟨p, m⟩, hcreate, rfl⟩ := Option.map_eq_some_iff.mp h
      exact .created t stat fd p rfl hpc hcreate rfl
  | del t fd =>
    unfold Threads.step at h
    dsimp only at h
    split at h
    · cases h
    · obtain ⟨m, hdel, rfl⟩ := Option.map_eq_some_iff.mp h
      exact .deleted fd hdel rfl

/-- A step that stores nothing over an object keeps the invariant. -/
theorem Tracked.step (h : Tracked s) (hok : Undisputed s l) (hs : s.step l = some s') :
    Tracked s' := by
  cases step_effect hs with
  | nothing hm hlog =>
    refine ⟨by rw [hm]; exact h.sized, h.same.unchanged hlog fun _ _ hp => by rw [hm]; exact hp, ?_,
      by rw [hm]; exact h.bound⟩
    unfold Recorded
    rw [hm, hlog]
    exact h.recorded
  | found fd p hp hm hlog =>
    have hp' : Holds s'.manager fd p := by rw [hm]; exact hp
    exact ⟨by rw [hm]; exact h.sized,
      h.same.got hlog hp' (fun _ hq => hq.unique hp) fun _ _ _ hq => by rw [hm]; exact hq,
      h.recorded.got hlog hp' fun _ _ _ hq => by rw [← hm]; exact hq,
      by rw [hm]; exact h.bound⟩
  | created t stat fd p hl hpc hm hlog =>
    obtain ⟨hempty, hroom⟩ := hok t stat fd hl hpc
    have hc := create_created h.sized (fun _ => hroom) hm
    refine ⟨hc.sized, h.same.got hlog hc.holds (fun q hq => absurd hq (hempty q))
        fun fd' q hne => (hc.others fd' q hne).mpr,
      h.recorded.got hlog hc.holds fun fd' q hne => (hc.others fd' q hne).mp, ?_⟩
    intro fd' q hq
    rw [hc.objects]
    by_cases hfd : fd' = fd
    · subst hfd
      rw [hq.unique hc.holds, hc.fresh]
      omega
    · have hlt := h.bound fd' q ((hc.others fd' q hfd).mp hq)
      omega
  | deleted fd hm hlog =>
    have hr := del_removed hm
    have hsized : Sized s'.manager := ⟨by rw [hr.length]; exact h.sized.ge,
      by rw [hr.length]; exact h.sized.lt⟩
    by_cases heq : s.manager.entry fd = s'.manager.entry fd
    · rw [if_pos heq] at hlog
      have hiff : ∀ fd' q, Holds s'.manager fd' q ↔ Holds s.manager fd' q := by
        intro fd' q
        by_cases hfd : fd' = fd
        · subst hfd
          unfold Holds
          rw [heq]
        · exact hr.others fd' q hfd
      refine ⟨hsized, h.same.unchanged hlog fun fd' q => (hiff fd' q).mpr, ?_, ?_⟩
      · intro fd' q hq
        rw [hlog]
        exact h.recorded fd' q ((hiff fd' q).mp hq)
      · intro fd' q hq
        rw [hr.objects]
        exact h.bound fd' q ((hiff fd' q).mp hq)
    · rw [if_neg heq] at hlog
      have hnone : ∀ q, ¬ Holds s'.manager fd q := by
        intro q hq
        rcases hr.entry with hentry | hentry
        · exact heq hentry.symm
        · cases hentry.symm.trans hq
      refine ⟨hsized, h.same.deleted hlog fun fd' q hne => (hr.others fd' q hne).mpr,
        h.recorded.deleted hlog hnone fun fd' q hne => (hr.others fd' q hne).mp, ?_⟩
      intro fd' q hq
      rw [hr.objects]
      refine h.bound fd' q ((hr.others fd' q ?_).mp hq)
      rintro rfl
      exact hnone q hq

/-- The invariant holds in every state of an undisputed run. -/
theorem Tracked.run (h : Run Threads.step Undisputed (Threads.start : Threads T) s) : Tracked s :=
  h.invariant tracked_start fun _ _ _ ht hok hs => ht.step hok hs

end Threads

/-- **One object for a descriptor**: in every interleaving in which each thread that takes the write
lock in `get` finds the entry empty, all that is returned between two deletions is the object of the
table; and a step that replaces an object makes two answers differ. -/
theorem gets_same (T : Type) [DecidableEq T] :
    (∀ s : Threads T, Run Threads.step Undisputed Threads.start s → Same s) ∧
    (∀ (s s' : Threads T) t stat fd p, Run Threads.step Undisputed Threads.start s →
      s.creating t = some fd → Holds s.manager fd p → s.step (.create t stat) = some s' →
        ¬ Same s') := by
  refine ⟨fun s h => (Tracked.run h).same, ?_⟩
  intro s s' t stat fd p h hpc hp hs hsame
  have ht := Tracked.run h
  obtain ⟨newer, older, hlog, hnot⟩ := ht.recorded fd p hp
  have hlt := ht.bound fd p hp
  have hrange := (List.getElem?_eq_some_iff.mp hp.inRange.2).choose
  have hsize := ht.sized.intSize
  unfold Threads.step at hs
  dsimp only at hs
  rw [hpc] at hs
  obtain ⟨⟨q, m⟩, hcreate, rfl⟩ := Option.map_eq_some_iff.mp hs
  have hc := create_created ht.sized (fun hle => by omega) hcreate
  have heq : p = q := hsame.same fd p q [] newer older (by rw [← hlog]; rfl) hnot
  rw [heq, hc.fresh] at hlt
  exact absurd hlt (Nat.lt_irrefl _)

/-- Two threads look for the `FdCtx` of 7, and then each creates it. -/
def racingLabels : List (Label Bool) :=
  [.lookup false 7 true, .lookup true 7 true, .create false (some true), .create true (some true)]

/-- Two threads that both look first and create then: the second object replaces the first. -/
theorem racing_log :
    (runLabels Threads.step Threads.start racingLabels).map Threads.log
      = some [.got 7 1, .got 7 0] := by
  rfl

def undisputedTest (s : Threads Bool) : Label Bool → Bool
  | .create t _ => (s.creating t).all fun fd =>
    (s.manager.entry fd).join.isNone && decide (3 * fd / 2 < 2 ^ 31)
  | _ => true

/-- The test is enough for the condition. -/
theorem undisputed_of_test (s : Threads Bool) (l : Label Bool) (h : undisputedTest s l = true) :
    Undisputed s l := by
  rintro t stat fd rfl hfd
  unfold undisputedTest at h
  dsimp only at h
  rw [hfd, Option.all_some, Bool.and_eq_true_iff] at h
  refine ⟨fun p hp => ?_, of_decide_eq_true h.2⟩
  unfold Holds at hp
  rw [hp] at h
  cases h.1

/-- One thread creates the `FdCtx` of 7, and the other one gets it, deletes it and creates another; and
of two threads that have both found none, the second replaces the first one's. -/
theorem gets_same_witness :
    (∃ s : Threads Bool, Same s ∧ s.log = [.got 7 1, .deleted 7, .got 7 0, .got 7 0]) ∧
    ∃ s s' : Threads Bool, s.step (.create true (some true)) = some s' ∧ ¬ Same s' := by
  obtain ⟨hsame, hfails⟩ := gets_same Bool
  constructor
  · obtain ⟨s, hs, hlog⟩ : ∃ s,
        runLabels (fun s l => if undisputedTest s l then Threads.step s l else none) Threads.start
          [.lookup false 7 true, .create false (some true), .lookup true 7 true, .del true 7,
            .lookup true 7 true, .create true (some true)] = some s ∧
        s.log = [.got 7 1, .deleted 7, .got 7 0, .got 7 0] :=
      ⟨_, rfl, rfl⟩
    exact ⟨s, hsame s (.of_tested undisputed_of_test hs), hlog⟩
  · obtain ⟨s, hs, hpc, hp, s', hs'⟩ : ∃ s,
        runLabels (fun s l => if undisputedTest s l then Threads.step s l else none) Threads.start
          [.lookup false 7 true, .lookup true 7 true, .create false (some true)] = some s ∧
        s.creating true = some 7 ∧ Holds s.manager 7 0 ∧
        ∃ s', s.step (.create true (some true)) = some s' :=
      ⟨_, rfl, rfl, rfl, _, rfl⟩
    exact ⟨s, s', hs', hfails s s' true _ 7 0 (.of_tested undisputed_of_test hs) hpc hp hs'⟩

/-- **Two objects**: what the first thread has been given is not in the table any more. -/
theorem racing_not_same :
    ¬ ∀ s : Threads Bool, Run Threads.step anyStep Threads.start s → Same s := by
  intro h
  obtain ⟨s, hrun, hlog⟩ := Option.map_eq_some_iff.mp racing_log
  have hsame := (h s (Run.of_labels hrun)).same 7 0 1 [] [] [] hlog (by simp)
  exact absurd hsame (by decide)

end CoKV.FdManager
