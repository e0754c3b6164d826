import CoKV.IOManager.Threads
import CoKV.Lib.Run

/-!
# The table, as threads see it

`lookups_last`: the table only grows, and what has been found for a descriptor is found again, as
long as no thread takes the write lock with a size that the table has outgrown. `contextResize`
does not test the size again: of two threads that have both found the table too short, the one
with the smaller descriptor may come last, and cuts off what the other has put there.
-/

namespace CoKV.IOManager

variable {T : Type}

/-- What is known of the table at `s` is still true at `s'`: it has not shrunk, each descriptor has
its context, and whoever has looked one up has found it. -/
structure Lasting (s s' : Threads T) : Prop where
  grown : s.shared.fdContexts.length ≤ s'.shared.fdContexts.length
  kept : ∀ (fd c : ℕ), s.shared.fdContexts[fd]? = some c → s'.shared.fdContexts[fd]? = some c
  found : ∀ (fd c : ℕ), s.shared.fdContexts[fd]? = some c →
    ∀ t op c', s'.pc t = .act op c' → op.fd = fd → c' = c

/-- The next section of thread `t` does not index behind the end of the table. -/
def InRange (s : Threads T) (t : T) : Prop :=
  match s.pc t with
  | .readLock op => s.shared.readSection op.fd ≠ .error .outOfRange
  | .writeLock op => s.shared.writeSection op.fd ≠ .error .outOfRange
  | _ => True

/-- A thread that takes the write lock finds the table no longer than it will make it. -/
def Roomy (s : Threads T) (l : ThreadLabel T) : Prop :=
  ∀ t success op, l = .step t success → s.pc t = .writeLock op →
    s.shared.fdContexts.length ≤ 3 * op.fd / 2

/-! ## The table -/

theorem getElem?_of_isPrefix {α : Type} {xs ys : List α} {i : ℕ} {a : α} (h : xs <+: ys)
    (hi : xs[i]? = some a) : ys[i]? = some a := by
  obtain ⟨rest, rfl⟩ := h
  rw [List.getElem?_append_left (List.getElem?_eq_some_iff.mp hi).choose, hi]

theorem resized_isPrefix {s : State} {size : ℕ} (h : s.fdContexts.length ≤ size) :
    s.fdContexts <+: (s.resized size).fdContexts := by
  show s.fdContexts <+: s.fdContexts.take size ++ _
  rw [List.take_of_length_le h]
  exact List.prefix_append ..

theorem intSize_le (s : State) : s.intSize ≤ s.fdContexts.length := by
  have hmod : s.fdContexts.length % 2 ^ 32 ≤ s.fdContexts.length := Nat.mod_le ..
  unfold State.intSize
  rw [BitVec.toInt_eq_toNat_cond, BitVec.toNat_ofNat]
  split <;> omega

/-- The section under the read lock needs no condition. -/
theorem readSection_inRange (s : State) (fd : ℕ) : s.readSection fd ≠ .error .outOfRange := by
  intro h
  unfold State.readSection at h
  split at h
  case isTrue hlt =>
    have hle := intSize_le s
    have hlen : fd < s.fdContexts.length := by omega
    rw [List.getElem?_eq_getElem hlen] at h
    cases h
  case isFalse => cases h

theorem writeSection_inRange (s : State) {fd : ℕ} (h : fd < 3 * fd / 2) :
    s.writeSection fd ≠ .error .outOfRange := by
  intro herror
  rcases error_of_bind herror with hresize | ⟨t, ht, herror⟩
  · cases State.contextResize_error hresize
  · obtain ⟨rfl, -⟩ := State.contextResize_ok ht
    have hlen : fd < (s.resized (3 * fd / 2)).fdContexts.length := by rwa [resized_length]
    rw [List.getElem?_eq_getElem hlen] at herror
    cases herror

/-! ## The invariant -/

/-- What holds as long as there is room. -/
structure Tabled (s : Threads T) : Prop where
  size : 32 ≤ s.shared.fdContexts.length
  looked : ∀ t op c, s.pc t = .act op c → s.shared.fdContexts[op.fd]? = some c

theorem Tabled.start : Tabled (Threads.start : Threads T) where
  size := Nat.le_of_eq List.length_range.symm
  looked t op c h := by cases h

theorem Tabled.inRange {s : Threads T} (hi : Tabled s) {t : T} {success : Bool}
    (hroom : Roomy s (.step t success)) : InRange s t := by
  unfold InRange
  split
  case h_1 op hpc => exact readSection_inRange _ _
  case h_2 op hpc =>
    apply writeSection_inRange
    -- the table has 32 entries at least, so the descriptor is not 0 or 1
    have hsize := hi.size
    have hle := hroom t success op rfl hpc
    omega
  case h_3 => trivial

section Steps

variable [DecidableEq T] {s s' : Threads T} {l : ThreadLabel T}

/-- Where there is room the table grows. -/
theorem isPrefix_of_roomy (hroom : Roomy s l) (h : s.step l = some s') :
    s.shared.fdContexts <+: s'.shared.fdContexts := by
  obtain ⟨t, pc', -, -, hsame | ⟨op, success, hl, hpc, hresized⟩⟩ := Threads.step_ok h
  · exact hsame ▸ List.prefix_rfl
  · rw [hresized]
    exact resized_isPrefix (hroom t success op hl hpc)

theorem Tabled.step (hi : Tabled s) (hroom : Roomy s l) (h : s.step l = some s') : Tabled s' := by
  have hgrown := isPrefix_of_roomy hroom h
  obtain ⟨t, pc', hpc, hfound, -⟩ := Threads.step_ok h
  refine ⟨Nat.le_trans hi.size hgrown.length_le, ?_⟩
  intro t' op c hact
  rw [hpc] at hact
  -- the thread that moves has just looked the table up, the others did before
  by_cases ht : t' = t
  · rw [ht, Function.update_self] at hact
    exact hfound op c hact
  · rw [Function.update_of_ne ht] at hact
    exact getElem?_of_isPrefix hgrown (hi.looked t' op c hact)

theorem Tabled.run (h : Run Threads.step Roomy Threads.start s) : Tabled s :=
  h.invariant Tabled.start fun _ _ _ hi hroom hs => hi.step hroom hs

/-- Where there is no room the table shrinks. -/
theorem not_lasting (hroom : ¬ Roomy s l) (h : s.step l = some s') : ¬ Lasting s s' := by
  intro hlasting
  apply hroom
  rintro t success op rfl hpc
  have hgrown := hlasting.grown
  rwa [Threads.step_writeLock hpc h, resized_length] at hgrown

end Steps

/-- **Lookups last**: in every interleaving in which each thread that takes the write lock has
room, the table grows, contexts stay where they are, and no index is out of range; and a step
without room cuts the table off. -/
theorem lookups_last (T : Type) [DecidableEq T] :
    (∀ s s' : Threads T, Run Threads.step Roomy Threads.start s → Run Threads.step Roomy s s' →
      Lasting s s') ∧
    (∀ (s : Threads T) t success, Run Threads.step Roomy Threads.start s →
      Roomy s (.step t success) → InRange s t) ∧
    (∀ (s s' : Threads T) l, ¬ Roomy s l → s.step l = some s' → ¬ Lasting s s') := by
  refine ⟨?_, fun s t success h hroom => (Tabled.run h).inRange hroom, fun s s' l => not_lasting⟩
  intro s s' h h'
  have hgrown : s.shared.fdContexts <+: s'.shared.fdContexts :=
    h'.invariant (I := fun u => s.shared.fdContexts <+: u.shared.fdContexts) List.prefix_rfl
      fun _ _ _ hu hroom hs => hu.trans (isPrefix_of_roomy hroom hs)
  refine ⟨hgrown.length_le, fun fd c hc => getElem?_of_isPrefix hgrown hc, ?_⟩
  rintro fd c hc t op c' hpc rfl
  have hlooked := (Tabled.run (h.trans h')).looked t op c' hpc
  rw [getElem?_of_isPrefix hgrown hc] at hlooked
  exact (Option.some.inj hlooked).symm

/-- Two threads find the table too short, for 48 and for 32; the first one registers 48. -/
def overtakenLabels : List (ThreadLabel Bool) :=
  [.call false (.addEvent 48 .read none 1 (some 0)), .call true (.addEvent 32 .read none 2 (some 0)),
    .step false true, .step true true, .step false true, .step false true]

theorem overtaken_state : (runLabels Threads.step Threads.start overtakenLabels).bind
      (fun s => (s.step (.step true true)).map fun s' =>
        (s.shared.fdContexts[48]?, s.shared.eventsOf 48, s'.shared.fdContexts[48]?))
    = some (some 48, ⟨true, false⟩, none) := by
  rfl

def roomyTest (s : Threads Bool) : ThreadLabel Bool → Bool
  | .step t _ =>
    match s.pc t with
    | .writeLock op => decide (s.shared.fdContexts.length ≤ 3 * op.fd / 2)
    | _ => true
  | _ => true

theorem roomy_of_test (s : Threads Bool) (l : ThreadLabel Bool) (h : roomyTest s l = true) :
    Roomy s l := by
  rintro t success op rfl hpc
  unfold roomyTest at h
  dsimp only at h
  rw [hpc] at h
  exact of_decide_eq_true h

/-- Two threads find the table too short. If the one with 32 comes first, its context stays, and the
other one has room; if it comes second, it cuts the other one's context off. -/
theorem lookups_last_witness :
    (∃ s s' : Threads Bool, s.shared.fdContexts[32]? = some 32 ∧
      s'.shared.fdContexts.length = 72 ∧ Lasting s s' ∧ InRange s true) ∧
    ∃ s s' : Threads Bool, s.step (.step true true) = some s' ∧ ¬ Lasting s s' := by
  obtain ⟨hlast, hrange, hcut⟩ := lookups_last Bool
  constructor
  · obtain ⟨s, hs, h32, hroom, s', hs', hlength⟩ : ∃ s,
        runLabels (fun s l => if roomyTest s l then Threads.step s l else none) Threads.start
          [.call false (.addEvent 32 .read none 1 (some 0)),
            .call true (.addEvent 48 .read none 2 (some 0)), .step false true, .step true true,
            .step false true, .step false true] = some s ∧
        s.shared.fdContexts[32]? = some 32 ∧ roomyTest s (.step true true) = true ∧
        ∃ s', runLabels (fun s l => if roomyTest s l then Threads.step s l else none) s
          [.step true true, .step true true] = some s' ∧ s'.shared.fdContexts.length = 72 :=
      ⟨_, rfl, rfl, rfl, _, rfl, rfl⟩
    have hrun := Run.of_tested roomy_of_test hs
    exact ⟨s, s', h32, hlength, hlast s s' hrun (.of_tested roomy_of_test hs'),
      hrange s true true hrun (roomy_of_test s _ hroom)⟩
  · obtain ⟨s, -, hpc, hlength, s', hs'⟩ : ∃ s,
        runLabels Threads.step Threads.start overtakenLabels = some s ∧
        s.pc true = .writeLock (.addEvent 32 .read none 2 (some 0)) ∧
        s.shared.fdContexts.length = 72 ∧ ∃ s', s.step (.step true true) = some s' :=
      ⟨_, rfl, rfl, rfl, _, rfl⟩
    refine ⟨s, s', hs', hcut s s' _ (fun hroom => ?_) hs'⟩
    have hle := hroom true true _ rfl hpc
    rw [hlength] at hle
    exact absurd hle (by decide)

/-- **The table shrinks**: the second thread cuts the context of 48 off, with its event. -/
theorem overtaken_not_lasting : ¬ ∀ s s' : Threads Bool, Run Threads.step anyStep Threads.start s →
    Run Threads.step anyStep s s' → Lasting s s' := by
  intro h
  obtain ⟨s, hs, hrest⟩ := Option.bind_eq_some_iff.mp overtaken_state
  obtain ⟨s', hs', hstate⟩ := Option.map_eq_some_iff.mp hrest
  have hlasting := h s s' (Run.of_labels hs) (Run.single trivial hs')
  have hbefore : s.shared.fdContexts[48]? = some 48 := congrArg (·.1) hstate
  have hafter : s'.shared.fdContexts[48]? = none := congrArg (·.2.2) hstate
  rw [hlasting.kept 48 48 hbefore] at hafter
  cases hafter

end CoKV.IOManager
