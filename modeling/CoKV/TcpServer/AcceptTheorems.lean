import CoKV.Lib.Run
import CoKV.TcpServer.Accept
import Mathlib.Data.List.Perm.Subperm
import Mathlib.Data.List.Nodup

/-!
# Every connection gets one handler, and `stop` ends the loops

`clients_in_order`: whatever `start` and `stop` do in between, each loop hands over what it has
accepted in the order in which it accepted it, and no connection gets two handlers.
`stop_final`: when `stop` has been called and nobody calls `start`, a loop accepts one more connection
if it is in `accept`, and none else.
-/

namespace CoKV.TcpServer

namespace Acceptor

variable {T C : Type}

@[simp] theorem byLoop_append (i : ℕ) (log log' : List (ℕ × C)) :
    byLoop i (log ++ log') = byLoop i log ++ byLoop i log' := by
  simp [byLoop]

@[simp] theorem byLoop_self (i : ℕ) (c : C) : byLoop i [(i, c)] = [c] := by
  simp [byLoop]

theorem byLoop_of_ne {i j : ℕ} (h : i ≠ j) (c : C) : byLoop j [(i, c)] = [] := by
  simp [byLoop, h]

/-- Every loop has handed over what it has accepted, but for what it has in hand. -/
structure Handing (s : Acceptor T C) : Prop where
  handed : ∀ i, byLoop i s.accepted = byLoop i s.clients ++ (s.loop i).inHand
  once : (s.accepted.map (·.2)).Nodup
  unused : ∀ i, s.nextLoop ≤ i → s.loop i = .none
  ended : s.listening = false ↔ ∃ i, s.loop i = .ended

theorem handing_new : Handing (new : Acceptor T C) where
  handed _ := rfl
  once := List.nodup_nil
  unused _ _ := rfl
  ended := by simp [new]

/-- A connection that has been handed over has been accepted, by the same loop. -/
theorem Handing.clients_subperm [DecidableEq C] {s : Acceptor T C} (h : Handing s) :
    s.clients.Subperm s.accepted := by
  rw [List.subperm_ext_iff]
  intro e he
  have hcount : ∀ log : List (ℕ × C), log.count e = (byLoop e.1 log).count e.2 := by
    intro log
    induction log with
    | nil => rfl
    | cons e' log ih =>
      rw [← List.singleton_append, byLoop_append, List.count_append, List.count_append, ih]
      congr 1
      obtain ⟨i, c⟩ := e
      obtain ⟨j, d⟩ := e'
      by_cases hij : j = i
      · rw [hij, byLoop_self]
        simp [List.count_singleton]
      · rw [byLoop_of_ne hij]
        simp [hij]
  rw [hcount, hcount, h.handed, List.count_append]
  omega

section Steps

variable {s s' : Acceptor T C}

/-- Loop `i` moves, and what it puts into the logs it had in hand. -/
theorem Handing.move (h : Handing s) {i : ℕ} {p : AcceptPc C} (hi : s.loop i ≠ .none)
    (hloop : s'.loop = Function.update s.loop i p) (hnext : s'.nextLoop = s.nextLoop)
    (hother : ∀ j ≠ i, byLoop j s'.accepted = byLoop j s.accepted ∧
      byLoop j s'.clients = byLoop j s.clients)
    (hself : byLoop i s'.accepted = byLoop i s'.clients ++ p.inHand)
    (honce : (s'.accepted.map (·.2)).Nodup)
    (hended : s'.listening = false ↔ (p = .ended ∨ ∃ j ≠ i, s.loop j = .ended)) : Handing s' where
  handed j := by
    rw [hloop]
    by_cases hj : j = i
    · rw [hj, Function.update_self]
      exact hself
    · rw [Function.update_of_ne hj, (hother j hj).1, (hother j hj).2]
      exact h.handed j
  once := honce
  unused j hj := by
    rw [hnext] at hj
    have hne : j ≠ i := by
      rintro rfl
      exact hi (h.unused j hj)
    rw [hloop, Function.update_of_ne hne]
    exact h.unused j hj
  ended := by
    rw [hended, hloop]
    constructor
    · rintro (rfl | ⟨j, hj, hend⟩)
      · exact ⟨i, Function.update_self ..⟩
      · exact ⟨j, (Function.update_of_ne hj ..).trans hend⟩
    · rintro ⟨j, hend⟩
      by_cases hj : j = i
      · rw [hj, Function.update_self] at hend
        exact Or.inl hend
      · rw [Function.update_of_ne hj] at hend
        exact Or.inr ⟨j, hj, hend⟩

/-- A loop that goes on has not closed the socket. -/
theorem Handing.ended_elsewhere (h : Handing s) {i : ℕ} {p : AcceptPc C} (hend : s.loop i ≠ .ended)
    (hp : p ≠ .ended) : s.listening = false ↔ (p = .ended ∨ ∃ j ≠ i, s.loop j = .ended) := by
  rw [h.ended]
  constructor
  · rintro ⟨j, hj⟩
    refine Or.inr ⟨j, ?_, hj⟩
    rintro rfl
    exact hend hj
  · rintro (heq | ⟨j, -, hj⟩)
    · exact absurd heq hp
    · exact ⟨j, hj⟩

/-- Where the logs and the socket stay, nothing is left in hand. -/
theorem Handing.goto (h : Handing s) {i : ℕ} {p : AcceptPc C} (hi : s.loop i ≠ .none)
    (hhand : (s.loop i).inHand = []) (hhand' : p.inHand = []) (hend : s.loop i ≠ .ended)
    (hp : p ≠ .ended) : Handing (s.setLoop i p) := by
  refine h.move hi rfl rfl (fun _ _ => ⟨rfl, rfl⟩) ?_ h.once (h.ended_elsewhere hend hp)
  rw [hhand', ← hhand]
  exact h.handed i

theorem Handing.startStep [DecidableEq T] (h : Handing s) (t : T) : Handing (s.startStep t (s.start t)) := by
  cases s.start t with
  | outside =>
    unfold Acceptor.startStep
    dsimp only
    split
    · exact h
    · exact ⟨h.handed, h.once, h.unused, h.ended⟩
  | setIsStop => exact ⟨h.handed, h.once, h.unused, h.ended⟩
  | addTask =>
    have hnone := h.unused s.nextLoop (Nat.le_refl _)
    refine ⟨fun i => ?_, h.once, fun i hi => ?_, ?_⟩
    · show _ = _ ++ (Function.update s.loop s.nextLoop .task i).inHand
      by_cases hi : i = s.nextLoop
      · rw [hi, Function.update_self]
        have hhanded := h.handed s.nextLoop
        rwa [hnone] at hhanded
      · rw [Function.update_of_ne hi]
        exact h.handed i
    · have hne : i ≠ s.nextLoop := Nat.ne_of_gt hi
      exact (Function.update_of_ne hne ..).trans (h.unused i (Nat.le_of_succ_le hi))
    · show s.listening = false ↔ ∃ i, Function.update s.loop s.nextLoop .task i = .ended
      rw [h.ended]
      constructor
      · rintro ⟨i, hi⟩
        have hne : i ≠ s.nextLoop := by
          rintro rfl
          rw [hnone] at hi
          cases hi
        exact ⟨i, (Function.update_of_ne hne ..).trans hi⟩
      · rintro ⟨i, hi⟩
        by_cases hne : i = s.nextLoop
        · rw [hne, Function.update_self] at hi
          cases hi
        · rw [Function.update_of_ne hne] at hi
          exact ⟨i, hi⟩

/-- What the loops have done since `stop`: who was in `accept` may have accepted one connection. -/
structure Stopping (s s' : Acceptor T C) : Prop where
  isStop : s'.isStop = true
  outside : ∀ i, s'.loop i = .accept → s.loop i = .accept
  accepted : ∀ i, byLoop i s'.accepted = byLoop i s.accepted ∨
    s.loop i = .accept ∧ s'.loop i ≠ .accept ∧
      ∃ c, byLoop i s'.accepted = byLoop i s.accepted ++ [c]

/-- A loop that does not accept moves, and does not go to `accept`. -/
theorem Stopping.move {t t' : Acceptor T C} (h : Stopping s t) {i : ℕ} {p : AcceptPc C}
    (hp : p ≠ .accept) (hisStop : t'.isStop = t.isStop) (hloop : t'.loop = Function.update t.loop i p)
    (haccepted : t'.accepted = t.accepted) : Stopping s t' := by
  have hpc : ∀ j, t'.loop j = .accept → j ≠ i ∧ t.loop j = .accept := by
    intro j hj
    rw [hloop] at hj
    by_cases hji : j = i
    · rw [hji, Function.update_self] at hj
      exact absurd hj hp
    · rw [Function.update_of_ne hji] at hj
      exact ⟨hji, hj⟩
  refine ⟨hisStop.trans h.isStop, fun j hj => h.outside j (hpc j hj).2, fun j => ?_⟩
  rw [haccepted]
  rcases h.accepted j with hsame | ⟨hj, hnot, hmore⟩
  · exact Or.inl hsame
  · exact Or.inr ⟨hj, fun hacc => hnot (hpc j hacc).2, hmore⟩

variable [DecidableEq C]

theorem Handing.loopStep (h : Handing s) {i : ℕ} {r : Option C}
    (hs : s.loopStep i r (s.loop i) = some s') : Handing s' := by
  have hhanded := h.handed i
  cases hi : s.loop i with
  | none =>
    rw [hi] at hs
    cases hs
  | task =>
    rw [hi] at hs
    rw [← Option.some.inj hs]
    exact h.goto (by rw [hi]; exact nofun) (by rw [hi]; rfl) rfl (by rw [hi]; exact nofun) nofun
  | check =>
    rw [hi] at hs
    rw [← Option.some.inj hs]
    refine h.goto (by rw [hi]; exact nofun) (by rw [hi]; rfl) ?_ (by rw [hi]; exact nofun) ?_
    · split <;> rfl
    · split <;> exact nofun
  | accept =>
    rw [hi] at hs hhanded
    dsimp only [Acceptor.loopStep] at hs
    split at hs
    case h_1 c =>
      split at hs
      case isFalse => cases hs
      case isTrue hnew =>
        rw [← Option.some.inj hs]
        refine h.move (by rw [hi]; exact nofun) rfl rfl (fun j hj => ⟨?_, rfl⟩) ?_ ?_
          (h.ended_elsewhere (by rw [hi]; exact nofun) nofun)
        · show byLoop j (s.accepted ++ [(i, c)]) = _
          rw [byLoop_append, byLoop_of_ne hj.symm, List.append_nil]
        · show byLoop i (s.accepted ++ [(i, c)]) = byLoop i s.clients ++ [c]
          rw [byLoop_append, byLoop_self, hhanded]
          simp [AcceptPc.inHand]
        · show ((s.accepted ++ [(i, c)]).map (·.2)).Nodup
          rw [List.map_append]
          refine List.nodup_append.mpr ⟨h.once, List.nodup_singleton _, ?_⟩
          intro d hd d' hd' heq
          obtain ⟨e, he, rfl⟩ := List.mem_map.mp hd
          exact hnew e he (heq.trans (List.mem_singleton.mp hd'))
    case h_2 =>
      rw [← Option.some.inj hs]
      exact h.goto (by rw [hi]; exact nofun) (by rw [hi]; rfl) rfl (by rw [hi]; exact nofun) nofun
  | addTask c =>
    rw [hi] at hs hhanded
    rw [← Option.some.inj hs]
    refine h.move (by rw [hi]; exact nofun) rfl rfl (fun j hj => ⟨rfl, ?_⟩) ?_ h.once
      (h.ended_elsewhere (by rw [hi]; exact nofun) nofun)
    · show byLoop j (s.clients ++ [(i, c)]) = _
      rw [byLoop_append, byLoop_of_ne hj.symm, List.append_nil]
    · show byLoop i s.accepted = byLoop i (s.clients ++ [(i, c)]) ++ []
      rw [byLoop_append, byLoop_self, List.append_nil]
      exact hhanded
  | close =>
    rw [hi] at hs hhanded
    rw [← Option.some.inj hs]
    refine h.move (by rw [hi]; exact nofun) rfl rfl (fun _ _ => ⟨rfl, rfl⟩) hhanded h.once ?_
    exact ⟨fun _ => Or.inl rfl, fun _ => rfl⟩
  | ended =>
    rw [hi] at hs
    cases hs

variable [DecidableEq T]

theorem Handing.step (h : Handing s) {l : AcceptLabel T C} (hs : Acceptor.step s l = some s') :
    Handing s' := by
  cases l with
  | start t =>
    rw [← Option.some.inj hs]
    exact h.startStep t
  | stop =>
    rw [← Option.some.inj hs]
    exact ⟨h.handed, h.once, h.unused, h.ended⟩
  | loop i r => exact h.loopStep hs

/-- In every run, each loop has handed over the connections that it has accepted, in that order, but
for the one it has in hand; no connection is handed over twice. -/
theorem clients_in_order (h : Run Acceptor.step anyStep (new : Acceptor T C) s) :
    (∀ i, byLoop i s.accepted = byLoop i s.clients ++ (s.loop i).inHand) ∧
    (s.clients.map (·.2)).Nodup ∧ (s.listening = false ↔ ∃ i, s.loop i = .ended) := by
  have hinv : Handing s := h.invariant handing_new fun _ _ _ hi _ hs => hi.step hs
  refine ⟨hinv.handed, ?_, hinv.ended⟩
  obtain ⟨log, hperm, hsub⟩ := hinv.clients_subperm
  exact (hperm.map _).nodup_iff.mp (hinv.once.sublist (hsub.map _))

/-- One loop, with its first connection in hand. -/
theorem clients_in_order_witness : ∃ s : Acceptor Unit Bool, s.loop 0 = .addTask false ∧
    ∀ i, byLoop i s.accepted = byLoop i s.clients ++ (s.loop i).inHand := by
  obtain ⟨s, hs, hloop⟩ : ∃ s : Acceptor Unit Bool, runLabels Acceptor.step new [.start (),
      .start (), .start (), .loop 0 none, .loop 0 none, .loop 0 (some false)] = some s ∧
      s.loop 0 = .addTask false :=
    ⟨_, rfl, rfl⟩
  exact ⟨s, hloop, (clients_in_order (.of_labels hs)).1⟩

/-- Nobody calls `start`. -/
def NotStarted (_ : Acceptor T C) : AcceptLabel T C → Prop
  | .start _ => False
  | _ => True

theorem Stopping.step {t t' : Acceptor T C} (h : Stopping s t) {l : AcceptLabel T C}
    (hok : NotStarted t l) (hs : Acceptor.step t l = some t') : Stopping s t' := by
  cases l with
  | start t => exact hok.elim
  | stop =>
    rw [← Option.some.inj hs]
    exact ⟨rfl, h.outside, h.accepted⟩
  | loop i r =>
    dsimp only [Acceptor.step] at hs
    cases hi : t.loop i with
    | check =>
      rw [hi] at hs
      rw [← Option.some.inj hs]
      refine h.move (i := i) (p := if t.isStop = true then .close else .accept) ?_ rfl rfl rfl
      rw [if_pos h.isStop]
      exact nofun
    | accept =>
      rw [hi] at hs
      dsimp only [Acceptor.loopStep] at hs
      split at hs
      case h_1 c =>
        split at hs
        case isFalse => cases hs
        case isTrue =>
          rw [← Option.some.inj hs]
          refine ⟨h.isStop, fun j hj => ?_, fun j => ?_⟩
          · by_cases hji : j = i
            · rw [hji]
              exact h.outside i hi
            · exact h.outside j ((Function.update_of_ne hji ..).symm.trans hj)
          · show byLoop j (t.accepted ++ [(i, c)]) = _ ∨ _ ∧ Function.update t.loop i _ j ≠ _ ∧
              ∃ d, byLoop j (t.accepted ++ [(i, c)]) = _
            rw [byLoop_append]
            by_cases hji : j = i
            · -- it was in `accept` all the time
              rw [hji, byLoop_self, Function.update_self]
              refine Or.inr ⟨h.outside i hi, nofun, c, ?_⟩
              rcases h.accepted i with hsame | ⟨-, hnot, -⟩
              · rw [hsame]
              · exact absurd hi hnot
            · rw [byLoop_of_ne (Ne.symm hji), List.append_nil, Function.update_of_ne hji]
              exact h.accepted j
      case h_2 =>
        rw [← Option.some.inj hs]
        exact h.move (i := i) (p := .check) nofun rfl rfl rfl
    | none =>
      rw [hi] at hs
      cases hs
    | ended =>
      rw [hi] at hs
      cases hs
    | task =>
      rw [hi] at hs
      rw [← Option.some.inj hs]
      exact h.move (i := i) (p := .check) nofun rfl rfl rfl
    | addTask c =>
      rw [hi] at hs
      rw [← Option.some.inj hs]
      exact h.move (i := i) (p := .check) nofun rfl rfl rfl
    | close =>
      rw [hi] at hs
      rw [← Option.some.inj hs]
      exact h.move (i := i) (p := .ended) nofun rfl rfl rfl

/-- **After `stop`**: while nobody goes on in `start`, a loop that is in `accept` accepts one more
connection at most, and no other loop does. -/
theorem stop_final (hstop : s.isStop = true) (h : Run Acceptor.step NotStarted s s') (i : ℕ) :
    byLoop i s'.accepted = byLoop i s.accepted ∨
      s.loop i = .accept ∧ ∃ c, byLoop i s'.accepted = byLoop i s.accepted ++ [c] := by
  have hinv : Stopping s s' :=
    h.invariant ⟨hstop, fun _ hi => hi, fun _ => Or.inl rfl⟩ fun _ _ _ hi hok hs => hi.step hok hs
  rcases hinv.accepted i with hsame | ⟨hi, -, hmore⟩
  · exact Or.inl hsame
  · exact Or.inr ⟨hi, hmore⟩

/-- Two loops: the one in `accept` when `stop` is called accepts one more connection and closes, the
other one closes. -/
theorem stop_final_witness : ∃ s s' : Acceptor Unit Bool, s.loop 0 = .accept ∧
    s'.clients = [(0, false), (0, true)] ∧ s'.loop 1 = .ended ∧
    ∀ i, byLoop i s'.accepted = byLoop i s.accepted ∨
      s.loop i = .accept ∧ ∃ c, byLoop i s'.accepted = byLoop i s.accepted ++ [c] := by
  obtain ⟨s, hloop, hstop, s', hs', hclients, hended⟩ : ∃ s : Acceptor Unit Bool,
      s.loop 0 = .accept ∧ s.isStop = true ∧ ∃ s', runLabels Acceptor.step s
        [.loop 0 (some true), .loop 1 none, .loop 0 none, .loop 0 none, .loop 0 none,
          .loop 1 none] = some s' ∧
        s'.clients = [(0, false), (0, true)] ∧ s'.loop 1 = .ended :=
    ⟨⟨true, true, fun _ => .outside, fun i => if i = 0 then .accept else .check, 2, [(0, false)],
      [(0, false)]⟩, rfl, rfl, _, rfl, rfl, rfl⟩
  refine ⟨s, s', hloop, hclients, hended, stop_final hstop (.of_allowed ?_ hs')⟩
  simp [NotStarted]

end Steps

end Acceptor

end CoKV.TcpServer
