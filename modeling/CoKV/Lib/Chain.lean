import Mathlib.Data.List.Nodup

/-!
# Linked chains

A heap of cells is seen through one link field: `nx p = some q` when the field of cell `p`
can be read and holds `q`, where `q = none` is the null link. `Chain nx p l` says that the
links lead from `p` through exactly the cells of `l` and then stop. The lemmas are the moves
every pointer algorithm on such a chain makes: follow it to an inner cell, splice a cell in
after another, take a cell out, and leave alone a chain whose links were not touched.
-/

namespace CoKV

variable {α β : Type}

/-- The link field `nx` leads from `p` through the cells of `l`, in order, and ends in null. -/
def Chain (nx : α → Option (Option α)) (p : α) : List α → Prop
  | [] => nx p = some none
  | a :: l => nx p = some (some a) ∧ Chain nx a l

namespace Chain

variable {nx nx' : α → Option (Option α)} {p c : α} {l l₁ l₂ : List α}

@[simp] theorem chain_nil : Chain nx p [] ↔ nx p = some none := Iff.rfl

@[simp] theorem chain_cons {a : α} : Chain nx p (a :: l) ↔ nx p = some (some a) ∧ Chain nx a l :=
  Iff.rfl

/-- The first link of a chain points at its first cell. -/
theorem next_eq (h : Chain nx p l) : nx p = some l.head? := by
  cases l with
  | nil => exact h
  | cons a l => exact h.1

/-- A chain restricted to what follows one of its prefixes. -/
theorem suffix (h : Chain nx p (l₁ ++ l₂)) : Chain nx (l₁.getLastD p) l₂ := by
  induction l₁ generalizing p with
  | nil => exact h
  | cons a l₁ ih => rw [List.getLastD_cons]; exact ih h.2

/-- Cells whose link was not written keep their chain. -/
theorem congr (hnx : ∀ a ∈ p :: l, nx' a = nx a) (h : Chain nx p l) : Chain nx' p l := by
  induction l generalizing p with
  | nil => rw [chain_nil, hnx p (List.mem_cons_self ..)]; exact h
  | cons a l ih =>
    refine ⟨(hnx p (List.mem_cons_self ..)).trans h.1, ih (fun b hb => ?_) h.2⟩
    exact hnx b (List.mem_cons_of_mem _ hb)

/-- A link of a chain leads to one of its cells. -/
theorem mem_of_next {a b : α} (h : Chain nx p l) (ha : a ∈ p :: l) (hb : nx a = some (some b)) :
    b ∈ l := by
  induction l generalizing p with
  | nil =>
    rw [List.mem_singleton.mp ha, chain_nil.mp h] at hb
    cases hb
  | cons c l ih =>
    rcases List.mem_cons.mp ha with rfl | ha
    · have hcb : c = b := by simpa using h.1.symm.trans hb
      exact hcb ▸ List.mem_cons_self ..
    · exact List.mem_cons_of_mem _ (ih h.2 ha)

/-- The links determine the chain. -/
theorem unique {l' : List α} (h : Chain nx p l) (h' : Chain nx p l') : l = l' := by
  induction l generalizing p l' with
  | nil =>
    cases l' with
    | nil => rfl
    | cons b l' => exact absurd (h.symm.trans h'.1) (by simp)
  | cons a l ih =>
    cases l' with
    | nil => exact absurd (h'.symm.trans h.1) (by simp)
    | cons b l' =>
      have hab : a = b := by simpa using h.1.symm.trans h'.1
      subst hab
      rw [ih h.2 h'.2]

theorem getLastD_append (p : α) (l₁ l₂ : List α) :
    (l₁ ++ l₂).getLastD p = l₂.getLastD (l₁.getLastD p) := by
  induction l₁ generalizing p with
  | nil => rfl
  | cons a l₁ ih => rw [List.cons_append, List.getLastD_cons, List.getLastD_cons, ih]

/-- The last cell of a prefix is on the list, or is its start. -/
theorem getLastD_mem_append : l₁.getLastD p ∈ p :: (l₁ ++ l₂) :=
  ((List.sublist_append_left l₁ l₂).cons_cons p).mem List.getLastD_mem_cons

theorem ne_getLastD {a : α} (h : c ∉ a :: (l₁ ++ l₂)) : c ≠ l₁.getLastD a := by
  rintro rfl
  exact h getLastD_mem_append

/-- **Splicing in.** Cell `c` takes over the link of the last cell of `l₁`, which then points
at `c`. -/
theorem splice (h : Chain nx p (l₁ ++ l₂)) (hnd : (p :: (l₁ ++ l₂)).Nodup)
    (hc : c ∉ p :: (l₁ ++ l₂)) (hcn : nx' c = nx (l₁.getLastD p))
    (hq : nx' (l₁.getLastD p) = some (some c))
    (hne : ∀ a, a ≠ c → a ≠ l₁.getLastD p → nx' a = nx a) :
    Chain nx' p (l₁ ++ c :: l₂) := by
  induction l₁ generalizing p with
  | nil =>
    refine ⟨hq, ?_⟩
    -- behind the new cell nothing was written
    have hcongr : ∀ a ∈ l₂, nx' a = nx a := fun a ha =>
      hne a (by rintro rfl; exact hc (List.mem_cons_of_mem _ ha))
        (by rintro rfl; exact (List.nodup_cons.mp hnd).1 ha)
    cases l₂ with
    | nil => exact hcn.trans h
    | cons b l₂ => exact ⟨hcn.trans h.1, h.2.congr hcongr⟩
  | cons a l₁ ih =>
    rw [List.getLastD_cons] at hcn hq hne
    have hnd' := List.nodup_cons.mp hnd
    refine ⟨?_, ih h.2 hnd'.2 (fun hm => hc (List.mem_cons_of_mem _ hm)) hcn hq hne⟩
    rw [hne p (by rintro rfl; exact hc (List.mem_cons_self ..)) (ne_getLastD hnd'.1), h.1]

/-- **Taking out.** The last cell of `l₁` takes over the link of the cell `c` behind it. -/
theorem unlink (h : Chain nx p (l₁ ++ c :: l₂)) (hnd : (p :: (l₁ ++ c :: l₂)).Nodup)
    (hq : nx' (l₁.getLastD p) = nx c) (hne : ∀ a, a ≠ l₁.getLastD p → nx' a = nx a) :
    Chain nx' p (l₁ ++ l₂) := by
  induction l₁ generalizing p with
  | nil =>
    have hp : p ∉ l₂ := fun hm => (List.nodup_cons.mp hnd).1 (List.mem_cons_of_mem _ hm)
    have hcongr : ∀ a ∈ l₂, nx' a = nx a := fun a ha => hne a (by rintro rfl; exact hp ha)
    cases l₂ with
    | nil => exact hq.trans h.2
    | cons b l₂ => exact ⟨hq.trans h.2.1, h.2.2.congr hcongr⟩
  | cons a l₁ ih =>
    rw [List.getLastD_cons] at hq hne
    have hnd' := List.nodup_cons.mp hnd
    exact ⟨(hne p (ne_getLastD hnd'.1)).trans h.1, ih h.2 hnd'.2 hq hne⟩

/-- Thinning a list cuts it where the thinned list ends: the last kept element is the last
element of some prefix. -/
theorem getLastD_filter_split (q : β → Bool) (f : β → α) (m : List β) (p : α) :
    ∃ xs ys, m = xs ++ ys ∧ (xs.map f).getLastD p = ((m.filter q).map f).getLastD p := by
  induction m generalizing p with
  | nil => exact ⟨[], [], rfl, rfl⟩
  | cons a m ih =>
    by_cases ha : q a
    · obtain ⟨xs, ys, rfl, hlast⟩ := ih (f a)
      refine ⟨a :: xs, ys, rfl, ?_⟩
      rw [List.filter_cons_of_pos ha, List.map_cons, List.map_cons, List.getLastD_cons,
        List.getLastD_cons, hlast]
    · obtain ⟨xs, ys, rfl, hlast⟩ := ih p
      rw [List.filter_cons_of_neg ha, ← hlast]
      cases xs with
      | nil => exact ⟨[], a :: ys, rfl, rfl⟩
      | cons b xs => exact ⟨a :: b :: xs, ys, rfl, by simp⟩

end Chain
end CoKV
