import Mathlib.Data.Nat.Notation
import Mathlib.Data.Option.Basic

/-!
# Runs of a step system

A system is a partial step function `step : S → L → Option S`: the label says which party moves
and how the environment's choices fall, and `none` means that the move is not enabled. A run is
a finite sequence of enabled steps, each taken where `ok` allows it, so that one notion covers
arbitrary runs (`ok` always true) and runs restricted to a kind of step. The induction over a
run is stated once, as `Run.invariant`.
-/

namespace CoKV

variable {S L : Type}

/-- `Run step ok s t`: some sequence of steps, each allowed by `ok`, leads from `s` to `t`. -/
inductive Run (step : S → L → Option S) (ok : S → L → Prop) (s : S) : S → Prop
  | refl : Run step ok s s
  | tail {t u : S} {a : L} : Run step ok s t → ok t a → step t a = some u → Run step ok s u

/-- Every label is allowed. -/
def anyStep : S → L → Prop := fun _ _ => True

namespace Run

variable {step : S → L → Option S} {ok : S → L → Prop} {s t u : S}

/-- What every allowed step preserves holds at the end of a run. -/
theorem invariant {I : S → Prop} (h : Run step ok s t) (hs : I s)
    (hstep : ∀ t a u, I t → ok t a → step t a = some u → I u) : I t := by
  induction h with
  | refl => exact hs
  | tail _ hok htu ih => exact hstep _ _ _ ih hok htu

theorem trans (h : Run step ok s t) (h' : Run step ok t u) : Run step ok s u := by
  induction h' with
  | refl => exact h
  | tail _ hok htu ih => exact ih.tail hok htu

section Simulation

variable {S' L' : Type} {step' : S' → L' → Option S'} {ok' : S' → L' → Prop} {I : S → Prop}
  {f : S → S'}

/-- A run seen through `f`, each of whose steps `f` sends to a run, perhaps of no step. -/
theorem refines (h : Run step ok s t) (hs : I s)
    (hstep : ∀ t a u, I t → ok t a → step t a = some u →
      I u ∧ Run step' ok' (f t) (f u)) :
    I t ∧ Run step' ok' (f s) (f t) := by
  induction h with
  | refl => exact ⟨hs, .refl⟩
  | tail _ hok htu ih =>
    obtain ⟨hinv, hrun⟩ := hstep _ _ _ ih.1 hok htu
    exact ⟨hinv, ih.2.trans hrun⟩

/-- A run seen through `f`, each of whose steps `f` sends to a step. -/
theorem simulates (h : Run step ok s t) (hs : I s)
    (hstep : ∀ t a u, I t → ok t a → step t a = some u →
      I u ∧ ∃ a', ok' (f t) a' ∧ step' (f t) a' = some (f u)) :
    I t ∧ Run step' ok' (f s) (f t) := by
  apply h.refines hs
  intro t a u ht hok htu
  obtain ⟨hinv, a', hok', htu'⟩ := hstep t a u ht hok htu
  exact ⟨hinv, refl.tail hok' htu'⟩

/-- A run of what `f` shows comes from a run, if every step of it comes from one. -/
theorem lifts {t' : S'} (h : Run step' ok' (f s) t') (hs : I s)
    (hstep : ∀ t a' u', I t → ok' (f t) a' → step' (f t) a' = some u' →
      ∃ a u, ok t a ∧ step t a = some u ∧ f u = u' ∧ I u) :
    ∃ t, Run step ok s t ∧ f t = t' ∧ I t := by
  induction h with
  | refl => exact ⟨s, .refl, rfl, hs⟩
  | tail _ hok htu ih =>
    obtain ⟨t, hrun, rfl, ht⟩ := ih
    obtain ⟨a, u, hok', htu', rfl, hu⟩ := hstep t _ _ ht hok htu
    exact ⟨u, hrun.tail hok' htu', rfl, hu⟩

end Simulation

/-- What can always go on, and at every step has less to do, can be brought to its end. -/
theorem exists_done {I done : S → Prop} (left : S → ℕ)
    (hstep : ∀ s, I s → ¬ done s → ∃ a t, ok s a ∧ step s a = some t ∧ I t ∧ left t < left s)
    (hs : I s) : ∃ t, Run step ok s t ∧ done t := by
  induction hn : left s using Nat.strongRecOn generalizing s with
  | ind n ih =>
    by_cases hdone : done s
    · exact ⟨s, .refl, hdone⟩
    · obtain ⟨a, t, hok, hst, ht, hlt⟩ := hstep s hs hdone
      obtain ⟨u, hrun, hu⟩ := ih (left t) (hn ▸ hlt) ht rfl
      exact ⟨u, (refl.tail hok hst).trans hrun, hu⟩

theorem single {a : L} (hok : ok s a) (h : step s a = some t) : Run step ok s t :=
  refl.tail hok h

end Run

/-- The state a list of labels leads to, if every one of them is enabled in turn. -/
def runLabels (step : S → L → Option S) : S → List L → Option S
  | s, [] => some s
  | s, a :: as => (step s a).bind (runLabels step · as)

/-- A list of allowed labels that is enabled throughout is a run. -/
theorem Run.of_allowed {step : S → L → Option S} {ok : S → L → Prop} {s t : S} {as : List L}
    (hok : ∀ a ∈ as, ∀ s, ok s a) (h : runLabels step s as = some t) : Run step ok s t := by
  induction as generalizing s with
  | nil => rw [← Option.some.inj h]; exact .refl
  | cons a as ih =>
    obtain ⟨u, hu, ht⟩ := Option.bind_eq_some_iff.mp h
    have hrest : Run step ok u t := ih (fun b hb => hok b (List.mem_cons_of_mem a hb)) ht
    exact (Run.single (hok a (List.mem_cons_self ..) s) hu).trans hrest

theorem Run.of_labels {step : S → L → Option S} {s t : S} {as : List L}
    (h : runLabels step s as = some t) : Run step anyStep s t :=
  Run.of_allowed (fun _ _ _ => trivial) h

/-- A list of labels that are enabled throughout, where each passes a test that is enough for `ok`. -/
theorem Run.of_tested {step : S → L → Option S} {ok : S → L → Prop} {s t : S} {as : List L}
    {test : S → L → Bool} (htest : ∀ s a, test s a = true → ok s a)
    (h : runLabels (fun s a => if test s a then step s a else none) s as = some t) :
    Run step ok s t := by
  induction as generalizing s with
  | nil => rw [← Option.some.inj h]; exact .refl
  | cons a as ih =>
    obtain ⟨u, hu, ht⟩ := Option.bind_eq_some_iff.mp h
    obtain ⟨hpass, hstep⟩ := Option.ite_none_right_eq_some.mp hu
    exact (Run.single (htest s a hpass) hstep).trans (ih ht)

/-- A run that ends in a state that has been tested. -/
theorem Run.of_any {step : S → L → Option S} {s : S} {as : List L} {p : S → Bool}
    (h : (runLabels step s as).any p = true) : ∃ t, Run step anyStep s t ∧ p t = true := by
  obtain ⟨t, ht, hp⟩ := (Option.any_eq_true _ _).mp h
  exact ⟨t, Run.of_labels ht, hp⟩

end CoKV
