import Mathlib.Algebra.BigOperators.Group.List.Basic
import Mathlib.Data.Nat.Notation

/-!
# A whole that is divided into shares

A sum over a list of holders. Conservation laws of a step system are proved through it: a step
changes one share and what is kept outside of the shares, or takes one summand out of the list.
-/

namespace CoKV

variable {ι M : Type} [AddCommMonoid M]

/-- If all shares but one are as before, the whole has changed by what that share has. -/
theorem sum_of_share [DecidableEq ι] {l : List ι} (hl : l.Nodup) {i : ι} (hi : i ∈ l) {f g : ι → M}
    {a b : M} (hfg : ∀ j ≠ i, g j = f j) (h : b + g i = a + f i) :
    b + (l.map g).sum = a + (l.map f).sum := by
  have hrest : ((l.erase i).map g).sum = ((l.erase i).map f).sum := by
    congr 1
    apply List.map_congr_left
    intro j hj
    apply hfg
    rintro rfl
    exact hl.not_mem_erase hj
  rw [← List.sum_map_erase f hi, ← List.sum_map_erase g hi, hrest, ← add_assoc, h, add_assoc]

/-- Shares that are all as before. -/
theorem sum_congr {l : List ι} {f g : ι → M} (h : ∀ i ∈ l, g i = f i) :
    (l.map g).sum = (l.map f).sum := by
  congr 1
  exact List.map_congr_left h

/-- What the first match takes out of the list. -/
theorem sum_map_eraseP {f : ι → M} {p : ι → Bool} {l : List ι} {a : ι} (h : l.find? p = some a) :
    ((l.eraseP p).map f).sum + f a = (l.map f).sum := by
  obtain ⟨ha, as, bs, rfl, has⟩ := List.find?_eq_some_iff_append.mp h
  have has' : ∀ b ∈ as, ¬ p b = true := by simpa using has
  rw [List.eraseP_append_right _ has', List.eraseP_cons_of_pos ha]
  simp only [List.map_append, List.sum_append, List.map_cons, List.sum_cons]
  rw [add_assoc, add_comm _ (f a)]

end CoKV
