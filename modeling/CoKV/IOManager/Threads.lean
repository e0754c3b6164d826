import CoKV.IOManager.Links

/-!
# Several threads

Threads call the operations, and their sections are interleaved: the size check under the read
lock, `contextResize` under the write lock, and the rest under the mutex of the context. What
`contextResize` asks for has been decided before the write lock is taken.
-/

namespace CoKV.IOManager

/-- Where a thread stands: outside, or before a section. -/
inductive ThreadPc
  | outside
  | readLock (op : Op)
  | writeLock (op : Op)
  | act (op : Op) (ctx : ℕ)

/-- Threads `T` that share an `IOManager`. -/
structure Threads (T : Type) where
  shared : State
  pc : T → ThreadPc

/-- A thread calls an operation, or goes through its next section. -/
inductive ThreadLabel (T : Type)
  | call (t : T) (op : Op)
  | step (t : T) (success : Bool)

namespace Threads

variable {T : Type}

def start : Threads T := ⟨IOManager.init, fun _ => .outside⟩

variable [DecidableEq T]

/-- The next section of a thread, if it ends without a fault. -/
def step (s : Threads T) : ThreadLabel T → Option (Threads T)
  | .call t op =>
    match s.pc t with
    | .outside => some { s with pc := Function.update s.pc t (.readLock op) }
    | _ => none
  | .step t success =>
    match s.pc t with
    | .outside => none
    | .readLock op => do
      match ← (s.shared.readSection op.fd).toOption with
      | some c => some { s with pc := Function.update s.pc t (.act op c) }
      | none => some { s with pc := Function.update s.pc t (.writeLock op) }
    | .writeLock op => do
      let (c, shared) ← (s.shared.writeSection op.fd).toOption
      some ⟨shared, Function.update s.pc t (.act op c)⟩
    | .act op c => do
      let shared ← (s.shared.act c success op).toOption
      some ⟨shared, Function.update s.pc t .outside⟩

/-! ## What a section does to the table -/

theorem act_fdContexts {s s' : State} {c : ℕ} {success : Bool} {op : Op}
    (h : s.act c success op = .ok s') : s'.fdContexts = s.fdContexts := by
  rcases does_act h with rfl | ⟨ctl, mask, fd', es, hdoes, -⟩
  · rfl
  · rw [hdoes.fdContexts, State.epollCtl_fdContexts]

variable {s s' : Threads T} {l : ThreadLabel T}

/-- What a step does. -/
inductive Moves (s : Threads T) : ThreadLabel T → Threads T → Prop
  | call {t op} : s.pc t = .outside →
      Moves s (.call t op) ⟨s.shared, Function.update s.pc t (.readLock op)⟩
  | found {t success op c} : s.pc t = .readLock op → s.shared.fdContexts[op.fd]? = some c →
      Moves s (.step t success) ⟨s.shared, Function.update s.pc t (.act op c)⟩
  | short {t success op} : s.pc t = .readLock op →
      Moves s (.step t success) ⟨s.shared, Function.update s.pc t (.writeLock op)⟩
  | resized {t success op c shared} : s.pc t = .writeLock op →
      s.shared.writeSection op.fd = .ok (c, shared) →
      Moves s (.step t success) ⟨shared, Function.update s.pc t (.act op c)⟩
  | act {t success op c shared} : s.pc t = .act op c → s.shared.act c success op = .ok shared →
      Moves s (.step t success) ⟨shared, Function.update s.pc t .outside⟩

theorem step_moves (h : s.step l = some s') : s.Moves l s' := by
  cases l with
  | call t op =>
    unfold step at h
    dsimp only at h
    split at h
    case h_1 hpc =>
      cases h
      exact .call hpc
    case h_2 => cases h
  | step t success =>
    unfold step at h
    dsimp only at h
    split at h
    case h_1 => cases h
    case h_2 op hpc =>
      obtain ⟨r, hr, h⟩ := Option.bind_eq_some_iff.mp h
      rcases State.readSection_ok (ok_of_toOption hr) with ⟨c, rfl, hc, -⟩ | ⟨rfl, -⟩
      · -- the table is long enough, and the context is in it
        cases h
        exact .found hpc hc
      · cases h
        exact .short hpc
    case h_3 op hpc =>
      obtain ⟨⟨c, shared⟩, hw, h⟩ := Option.bind_eq_some_iff.mp h
      cases h
      exact .resized hpc (ok_of_toOption hw)
    case h_4 op c hpc =>
      obtain ⟨shared, hact, h⟩ := Option.bind_eq_some_iff.mp h
      cases h
      exact .act hpc (ok_of_toOption hact)

/-- A section leaves the table alone, or it is the one under the write lock; and a thread that has
looked a descriptor up has found its context. -/
theorem step_ok (h : s.step l = some s') :
    ∃ t pc', s'.pc = Function.update s.pc t pc' ∧
      (∀ op c, pc' = .act op c → s'.shared.fdContexts[op.fd]? = some c) ∧
      (s'.shared.fdContexts = s.shared.fdContexts ∨
        ∃ op success, l = .step t success ∧ s.pc t = .writeLock op ∧
          s'.shared.fdContexts = (s.shared.resized (3 * op.fd / 2)).fdContexts) := by
  cases step_moves h with
  | call hpc => exact ⟨_, _, rfl, by rintro op c ⟨⟩, Or.inl rfl⟩
  | found hpc hc =>
    refine ⟨_, _, rfl, ?_, Or.inl rfl⟩
    rintro op c ⟨⟩
    exact hc
  | short hpc => exact ⟨_, _, rfl, by rintro op c ⟨⟩, Or.inl rfl⟩
  | resized hpc hw =>
    -- the size is not tested again
    obtain ⟨hc, hresized, -⟩ := State.writeSection_ok hw
    refine ⟨_, _, rfl, ?_, Or.inr ⟨_, _, rfl, hpc, by rw [hresized]⟩⟩
    rintro op c ⟨⟩
    exact hc
  | act hpc hact => exact ⟨_, _, rfl, by rintro op c ⟨⟩, Or.inl (act_fdContexts hact)⟩

theorem step_writeLock {t : T} {success : Bool} {op : Op} (hpc : s.pc t = .writeLock op)
    (h : s.step (.step t success) = some s') :
    s'.shared.fdContexts = (s.shared.resized (3 * op.fd / 2)).fdContexts := by
  unfold step at h
  dsimp only at h
  rw [hpc] at h
  obtain ⟨⟨c, shared⟩, hw, h⟩ := Option.bind_eq_some_iff.mp h
  cases h
  rw [(State.writeSection_ok (ok_of_toOption hw)).2.1]

end Threads

end CoKV.IOManager
