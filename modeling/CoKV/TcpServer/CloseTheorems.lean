import CoKV.TcpServer.Defs
import CoKV.Lib.Run
import Mathlib.Data.Bool.Basic

/-!
# Who closes what

`closes_own`: as long as no `recv` returns 0, each handler closes its descriptor once, and `close`
only touches a descriptor that is still the handler's own. When `recv` returns 0 the handler closes
twice (`closes_twice`), and between the two the number may have been given to another connection.
-/

namespace CoKV.TcpServer

variable {C : Type}

/-- Nobody has closed twice, and nothing has been done to the descriptor of another connection. -/
structure Proper (s : Server C) : Prop where
  once : ∀ c, s.closes c ≤ 1
  own : ∀ e ∈ s.done, ∀ d, e.owner = some d → d = e.conn

/-- The client does not end the connection in an orderly way: no `recv` returns 0. -/
def NotEnded (_ : Server C) : Label C → Prop
  | .recv _ .zero => False
  | _ => True

/-! ## The invariant -/

/-- The descriptor a handler has, until it has closed it. -/
def HandlerPc.fd : HandlerPc → Option ℕ
  | outside | finished => none
  | accepted fd | recv fd | send fd | waiting fd _ | close fd _ _ => some fd

/-- Whether a second `close` will follow. -/
def HandlerPc.closesTwice : HandlerPc → Bool
  | close _ again _ => again
  | _ => false

def HandlerPc.isFinished : HandlerPc → Bool
  | finished => true
  | _ => false

/-- A handler owns its descriptor, and closes it when it is done. -/
structure Holding (s : Server C) (c : C) : Prop where
  owner : ∀ fd, (s.pc c).fd = some fd → s.owner fd = some c
  once : (s.pc c).closesTwice = false
  closes : s.closes c ≤ (s.pc c).isFinished.toNat

structure Held (s : Server C) : Prop where
  holding : ∀ c, Holding s c
  own : ∀ e ∈ s.done, e.owner = some e.conn

theorem Held.start : Held (Server.start : Server C) where
  holding _ := ⟨nofun, rfl, Nat.le_refl 0⟩
  own := nofun

theorem Held.proper {s : Server C} (hi : Held s) : Proper s where
  once c := Nat.le_trans (hi.holding c).closes (Bool.toNat_le _)
  own e he d hd := by
    rw [hi.own e he] at hd
    exact (Option.some.inj hd).symm

/-- Whoever is woken up tries again with the descriptor it has. -/
theorem woken_same (fd : ℕ) (pc : HandlerPc) :
    (Server.woken fd pc).fd = pc.fd ∧ (Server.woken fd pc).closesTwice = pc.closesTwice ∧
      (Server.woken fd pc).isFinished = pc.isFinished := by
  unfold Server.woken
  split
  · split
    · split <;> exact ⟨rfl, rfl, rfl⟩
    · exact ⟨rfl, rfl, rfl⟩
  · exact ⟨rfl, rfl, rfl⟩

section Steps

variable {s s' : Server C} {c : C}

/-- What the step of one handler may do to the others: wake them up. -/
theorem Holding.other {d : C} (hi : Holding s d)
    (hpc : s'.pc d = s.pc d ∨ ∃ fd, s'.pc d = Server.woken fd (s.pc d))
    (hcloses : s'.closes d = s.closes d)
    (howner : ∀ fd, s.owner fd = some d → s'.owner fd = some d) : Holding s' d := by
  have hsame : (s'.pc d).fd = (s.pc d).fd ∧ (s'.pc d).closesTwice = (s.pc d).closesTwice ∧
      (s'.pc d).isFinished = (s.pc d).isFinished := by
    rcases hpc with hpc | ⟨fd, hpc⟩
    · rw [hpc]
      exact ⟨rfl, rfl, rfl⟩
    · rw [hpc]
      exact woken_same fd _
  obtain ⟨hfd, htwice, hfinished⟩ := hsame
  refine ⟨?_, ?_, ?_⟩
  · rw [hfd]
    exact fun fd h => howner fd (hi.owner fd h)
  · rw [htwice]
    exact hi.once
  · rw [hfinished, hcloses]
    exact hi.closes

/-- One handler moves, to `pc`, and others are woken up at most. -/
theorem Held.move (hi : Held s) {pc : HandlerPc} (hpc : s'.pc c = pc)
    (hother : ∀ d ≠ c, s'.pc d = s.pc d ∨ ∃ fd, s'.pc d = Server.woken fd (s.pc d))
    (howner : ∀ d ≠ c, ∀ fd, s.owner fd = some d → s'.owner fd = some d)
    (hcloses : ∀ d ≠ c, s'.closes d = s.closes d)
    (hself : ∀ fd, pc.fd = some fd → s'.owner fd = some c) (honce : pc.closesTwice = false)
    (hfinished : s'.closes c ≤ pc.isFinished.toNat)
    (hown : ∀ e ∈ s'.done, e.owner = some e.conn) : Held s' where
  holding d := by
    by_cases hd : d = c
    · rw [hd]
      refine ⟨?_, ?_, ?_⟩ <;> rw [hpc]
      · exact hself
      · exact honce
      · exact hfinished
    · exact (hi.holding d).other (hother d hd) (hcloses d hd) (howner d hd)
  own := hown

variable [DecidableEq C]

/-- A handler goes on, and the table stays as it is. -/
theorem Held.setPc (hi : Held s) (entry : ℕ → Bool) {pc : HandlerPc}
    (hfd : ∀ fd, pc.fd = some fd → (s.pc c).fd = some fd) (honce : pc.closesTwice = false)
    (hnot : (s.pc c).isFinished = false) : Held ({ s with entry := entry }.setPc c pc) := by
  refine hi.move (Function.update_self ..) (fun d hd => Or.inl (Function.update_of_ne hd ..))
    (fun _ _ _ h => h) (fun _ _ => rfl) ?_ honce ?_ hi.own
  · exact fun fd h => (hi.holding c).owner fd (hfd fd h)
  · have hcloses := (hi.holding c).closes
    rw [hnot] at hcloses
    exact Nat.le_trans hcloses (Nat.zero_le _)

/-- A section of `close`, of a handler that will not close again. -/
theorem Held.closeSection (hi : Held s) {fd : ℕ} {next : CloseSection}
    (hpc : s.pc c = .close fd false next) : Held (s.closeSection c fd false next) := by
  have howner : s.owner fd = some c := (hi.holding c).owner fd (by rw [hpc]; rfl)
  have hzero : s.closes c = 0 := by
    have hcloses := (hi.holding c).closes
    rw [hpc] at hcloses
    exact Nat.le_zero.mp hcloses
  have hsame : ∀ next' fd', (HandlerPc.close fd false next').fd = some fd' →
      s.owner fd' = some c := by
    rintro next' fd' ⟨⟩
    exact howner
  -- what is touched is the handler's own
  have hown : ∀ e ∈ (s.touch c fd).done, e.owner = some e.conn := by
    intro e he
    rcases List.mem_append.mp he with he | he
    · exact hi.own e he
    · rw [List.mem_singleton.mp he]
      exact howner
  cases next with
  | get =>
    exact hi.move (Function.update_self ..) (fun d hd => Or.inl (Function.update_of_ne hd ..))
      (fun _ _ _ h => h) (fun _ _ => rfl) (hsame _) rfl (Nat.le_of_eq hzero) hi.own
  | cancelAll =>
    exact hi.move (Function.update_self ..) (fun d hd => Or.inr ⟨fd, Function.update_of_ne hd ..⟩)
      (fun _ _ _ h => h) (fun _ _ => rfl) (hsame _) rfl (Nat.le_of_eq hzero) hown
  | del =>
    exact hi.move (Function.update_self ..) (fun d hd => Or.inl (Function.update_of_ne hd ..))
      (fun _ _ _ h => h) (fun _ _ => rfl) (hsame _) rfl (Nat.le_of_eq hzero) hown
  | close =>
    refine hi.move (Function.update_self ..) (fun d hd => Or.inl (Function.update_of_ne hd ..)) ?_
      (fun d hd => Function.update_of_ne hd ..) nofun rfl ?_ hown
    · intro d hd fd' h
      have hne : fd' ≠ fd := by
        rintro rfl
        rw [howner] at h
        exact hd (Option.some.inj h).symm
      exact (Function.update_of_ne hne ..).trans h
    · show Function.update s.closes c (s.closes c + 1) c ≤ 1
      rw [Function.update_self]
      omega

theorem Held.accept (hi : Held s) {fd : ℕ} (hpc : s.pc c = .outside) (hfree : s.owner fd = none) :
    Held ({ s with owner := Function.update s.owner fd (some c) }.setPc c (.accepted fd)) := by
  refine hi.move (Function.update_self ..) (fun d hd => Or.inl (Function.update_of_ne hd ..)) ?_
    (fun _ _ => rfl) ?_ rfl ?_ hi.own
  · intro d hd fd' h
    have hne : fd' ≠ fd := by
      rintro rfl
      rw [hfree] at h
      cases h
    exact (Function.update_of_ne hne ..).trans h
  · rintro fd' ⟨⟩
    exact Function.update_self ..
  · have hcloses := (hi.holding c).closes
    rwa [hpc] at hcloses

theorem Held.step {handler : C → Handler} {l : Label C} (hi : Held s) (hok : NotEnded s l)
    (h : s.step handler l = some s') : Held s' := by
  unfold Server.step at h
  cases l with
  | accept c fd =>
    dsimp only at h
    split at h <;> cases h
    rename_i hpc hfree
    exact hi.accept hpc hfree
  | get c =>
    dsimp only at h
    split at h <;> cases h
    rename_i fd hpc
    refine hi.setPc _ ?_ rfl (by rw [hpc]; rfl)
    rw [hpc]
    exact fun fd h => h
  | recv c r =>
    dsimp only at h
    split at h <;> cases h
    rename_i fd hpc
    have hgo : ∀ pc : HandlerPc, pc.fd = some fd → pc.closesTwice = false → Held (s.setPc c pc) := by
      intro pc hfd honce
      refine hi.setPc s.entry ?_ honce (by rw [hpc]; rfl)
      rw [hpc, hfd]
      exact fun fd h => h
    cases r with
    | zero => exact hok.elim
    | _ => exact hgo _ rfl rfl
  | send c r =>
    dsimp only at h
    split at h <;> cases h
    rename_i fd hpc
    refine hi.setPc s.entry ?_ ?_ (by rw [hpc]; rfl)
    · rw [hpc]
      split
      · exact fun fd h => h
      · nofun
      · exact fun fd h => h
    · split <;> rfl
  | ready c =>
    dsimp only at h
    split at h <;> cases h
    rename_i fd sending hpc
    obtain ⟨hfd, htwice, -⟩ := woken_same fd (s.pc c)
    refine hi.setPc s.entry ?_ ?_ (by rw [hpc]; rfl)
    · rw [hfd]
      exact fun fd h => h
    · rw [htwice, hpc]
      rfl
  | close c =>
    dsimp only at h
    split at h <;> cases h
    rename_i fd again next hpc
    have honce := (hi.holding c).once
    rw [hpc] at honce
    obtain rfl : again = false := honce
    exact hi.closeSection hpc

end Steps

/-! ## Closing twice -/

/-- The connection whose handler moves. -/
def Label.conn : Label C → C
  | accept c _ | get c | recv c _ | send c _ | ready c | close c => c

/-- Where a handler stands behind a `recv` that has returned 0. -/
def ClosingTwice (s : Server C) (c : C) : Prop :=
  match s.pc c with
  | .close _ again _ => again = true ∨ 1 ≤ s.closes c
  | .finished => 2 ≤ s.closes c
  | _ => False

section Twice

variable {s s' : Server C} {c : C}

/-- Whoever closes or has closed is not woken up. -/
theorem ClosingTwice.other (hi : ClosingTwice s c)
    (hpc : s'.pc c = s.pc c ∨ ∃ fd, s'.pc c = Server.woken fd (s.pc c))
    (hcloses : s'.closes c = s.closes c) : ClosingTwice s' c := by
  have hsame : s'.pc c = s.pc c := by
    rcases hpc with hpc | ⟨fd, hpc⟩
    · exact hpc
    · unfold ClosingTwice at hi
      rw [hpc]
      split at hi
      case h_1 hclose => rw [hclose]; rfl
      case h_2 hfinished => rw [hfinished]; rfl
      case h_3 => exact hi.elim
  unfold ClosingTwice at hi ⊢
  rwa [hsame, hcloses]

variable [DecidableEq C]

theorem step_other {handler : C → Handler} {l : Label C} (h : s.step handler l = some s')
    (hne : c ≠ l.conn) : (s'.pc c = s.pc c ∨ ∃ fd, s'.pc c = Server.woken fd (s.pc c)) ∧
      s'.closes c = s.closes c := by
  unfold Server.step at h
  cases l with
  | close d =>
    dsimp only at h
    split at h <;> cases h
    rename_i fd again next hpc
    cases next with
    | cancelAll => exact ⟨Or.inr ⟨fd, Function.update_of_ne hne ..⟩, rfl⟩
    | close => exact ⟨Or.inl (Function.update_of_ne hne ..), Function.update_of_ne hne ..⟩
    | _ => exact ⟨Or.inl (Function.update_of_ne hne ..), rfl⟩
  | _ =>
    dsimp only at h
    split at h <;> cases h
    exact ⟨Or.inl (Function.update_of_ne hne ..), rfl⟩

theorem ClosingTwice.step {handler : C → Handler} {l : Label C} (hi : ClosingTwice s c)
    (h : s.step handler l = some s') : ClosingTwice s' c := by
  by_cases hne : c = l.conn
  · unfold Server.step at h
    unfold ClosingTwice at hi
    cases l with
    | close d =>
      obtain rfl : c = d := hne
      dsimp only at h
      split at h <;> cases h
      rename_i fd again next hpc
      rw [hpc] at hi
      -- the last section of a `close`, or another one
      cases next with
      | close =>
        unfold ClosingTwice Server.closeSection Server.setPc
        dsimp only
        rw [Function.update_self, Function.update_self]
        cases again with
        | true => exact Or.inr (Nat.le_add_left 1 _)
        | false => exact Nat.succ_le_succ (hi.resolve_left Bool.false_ne_true)
      | _ =>
        unfold ClosingTwice Server.closeSection Server.setPc
        dsimp only
        rw [Function.update_self]
        exact hi
    | accept d fd =>
      obtain rfl : c = d := hne
      dsimp only at h
      split at h
      case h_1 hpc _ =>
        rw [hpc] at hi
        exact hi.elim
      case h_2 => cases h
    | _ =>
      -- a handler that closes has nothing else to do
      dsimp only at h
      obtain rfl : c = _ := hne
      split at h
      case h_1 hpc =>
        rw [hpc] at hi
        exact hi.elim
      case h_2 => cases h
  · obtain ⟨hpc, hcloses⟩ := step_other h hne
    exact hi.other hpc hcloses

end Twice

/-- **Closing**: in every interleaving in which no `recv` returns 0, each handler closes at most
once, and no `close` touches the descriptor of another connection, its events or its entry; and
a handler whose `recv` has returned 0 has closed twice when it is finished. -/
theorem closes_own {C : Type} [DecidableEq C] (handler : C → Handler) (s : Server C)
    (h : Run (Server.step handler) NotEnded Server.start s) :
    Proper s ∧ ∀ c s' u, s.step handler (.recv c .zero) = some s' →
      Run (Server.step handler) anyStep s' u → u.pc c = .finished → ¬ Proper u := by
  have hi : Held s := h.invariant Held.start fun _ _ _ hi hok hs => hi.step hok hs
  refine ⟨hi.proper, ?_⟩
  intro c s' u hs' hu hfinished hproper
  have hzero : ClosingTwice s' c := by
    unfold Server.step at hs'
    dsimp only at hs'
    split at hs' <;> cases hs'
    unfold ClosingTwice Server.setPc
    dsimp only
    rw [Function.update_self]
    exact Or.inl rfl
  have htwice : ClosingTwice u c :=
    hu.invariant (I := (ClosingTwice · c)) hzero fun _ _ _ hi _ hs => hi.step hs
  unfold ClosingTwice at htwice
  rw [hfinished] at htwice
  exact absurd (hproper.once c) (Nat.not_le.mpr htwice)

/-- A connection is accepted as 5 and ends with an error; then 5 is given to another one, which goes
on. -/
theorem closes_own_witness : ∃ s : Server Bool, Proper s ∧ s.owner 5 = some true ∧
    s.closes false = 1 ∧ s.closes true = 0 := by
  obtain ⟨s, hs, howner, hfalse, htrue⟩ : ∃ s : Server Bool,
      runLabels (Server.step fun _ => .kvs) Server.start [.accept false 5, .get false,
        .recv false .error, .close false, .close false, .close false, .close false,
        .accept true 5, .get true, .recv true .again] = some s ∧
        s.owner 5 = some true ∧ s.closes false = 1 ∧ s.closes true = 0 :=
    ⟨_, rfl, rfl, rfl, rfl⟩
  exact ⟨s, (closes_own _ _ (.of_allowed (by simp [NotEnded]) hs)).1, howner, hfalse, htrue⟩

/-- A connection ends, and before its handler closes again, 5 is given to another one. -/
def reusedLabels : List (Label Bool) :=
  [.accept false 5, .get false, .recv false .zero, .close false, .close false, .close false,
    .close false, .accept true 5, .get true, .recv true .again, .close false, .close false]

theorem reused_state : (runLabels (Server.step fun _ => .kvs) Server.start reusedLabels).map
    (fun s => s.done.map fun e => (e.conn, e.fd, e.owner))
      = some [(false, 5, some false), (false, 5, some false), (false, 5, some false),
        (false, 5, some true)] := by
  rfl

/-- **A second close**: the events of the other connection are cancelled. -/
theorem reused_not_proper : ¬ ∀ s : Server Bool,
    Run (Server.step fun _ => .kvs) anyStep Server.start s → Proper s := by
  intro h
  obtain ⟨s, hs, hstate⟩ := Option.map_eq_some_iff.mp reused_state
  have hproper := h s (Run.of_labels hs)
  obtain ⟨e, he, heq⟩ : ∃ e ∈ s.done, (e.conn, e.fd, e.owner) = (false, 5, some true) := by
    apply List.mem_map.mp
    rw [hstate]
    exact List.mem_of_getElem? (i := 3) rfl
  obtain ⟨hconn, -, howner⟩ : e.conn = false ∧ e.fd = 5 ∧ e.owner = some true := by
    simpa using heq
  have hsame := hproper.own e he true howner
  rw [hconn] at hsame
  cases hsame

end CoKV.TcpServer
