import Mathlib.Data.List.Pairwise
import Mathlib.Data.List.TakeWhile
import Mathlib.Order.Lattice

/-!
# Ordered sets

A `std::set` of pointers as the list of its elements in order: `find` and `insert` with a
comparator. Behind a comparator there is a key, `less a b` being `key a < key b`; the key may belong
to what the pointers point to, and then it may change while the pointer is not in the set.
-/

namespace CoKV

variable {α κ : Type}

section Defs

variable (less : α → α → Bool)

/-- `lower_bound`: the elements from the first on that is not less than `x`. -/
def lowerBound (l : List α) (x : α) : List α := l.dropWhile (less · x)

/-- `find`: the element equivalent to `x`. -/
def setFind (l : List α) (x : α) : Option α :=
  match lowerBound less l x with
  | [] => none
  | e :: _ => if less x e then none else some e

/-- `insert`: the set, and the element the iterator returned stands at. -/
def setInsert (l : List α) (x : α) : List α × α :=
  match lowerBound less l x with
  | [] => (l ++ [x], x)
  | e :: after => if less x e then (l.takeWhile (less · x) ++ x :: e :: after, x) else (l, e)

end Defs

/-- If `p` holds of whatever stands before an element that it holds of, it holds of none from
`dropWhile p` on. -/
theorem not_of_mem_dropWhile {p : α → Bool} {l : List α}
    (h : l.Pairwise fun a b => p b = true → p a = true) : ∀ a ∈ l.dropWhile p, p a = false := by
  induction l with
  | nil => nofun
  | cons b l ih =>
    obtain ⟨hb, hl⟩ := List.pairwise_cons.mp h
    by_cases hpos : p b = true
    · rw [List.dropWhile_cons_of_pos hpos]
      exact ih hl
    · rw [List.dropWhile_cons_of_neg hpos]
      intro a ha
      rcases List.mem_cons.mp ha with rfl | ha
      · exact eq_false_of_ne_true hpos
      · exact eq_false_of_ne_true fun hpa => hpos (hb a ha hpa)

variable [LinearOrder κ]

/-- The elements are in strict order. -/
def StrictBy (key : α → κ) (l : List α) : Prop := l.Pairwise fun a b => key a < key b

namespace StrictBy

variable {key : α → κ} {l l' : List α} {x : α}

theorem sublist (h : StrictBy key l) (hsub : l'.Sublist l) : StrictBy key l' :=
  List.Pairwise.sublist hsub h

/-- Another key, which is the same in the set. -/
theorem congr {key' : α → κ} (h : StrictBy key l) (hkey : ∀ a ∈ l, key' a = key a) :
    StrictBy key' l := by
  refine List.Pairwise.imp_of_mem ?_ h
  intro a b ha hb hlt
  rwa [hkey a ha, hkey b hb]

variable {less : α → α → Bool}

/-- The elements before `lowerBound`. -/
theorem takeWhile_lt (hless : ∀ a b, less a b = decide (key a < key b)) :
    ∀ a ∈ l.takeWhile (less · x), key a < key x := by
  intro a ha
  have hlt := List.mem_takeWhile_imp ha
  rwa [hless, decide_eq_true_eq] at hlt

/-- The elements from `lowerBound` on. -/
theorem lowerBound_ge (h : StrictBy key l) (hless : ∀ a b, less a b = decide (key a < key b)) :
    ∀ a ∈ lowerBound less l x, key x ≤ key a := by
  have hdown : l.Pairwise fun a b => less b x = true → less a x = true := by
    refine List.Pairwise.imp (fun {a b} hab => ?_) h
    rw [hless, hless, decide_eq_true_eq, decide_eq_true_eq]
    exact lt_trans hab
  intro a ha
  have hnot := not_of_mem_dropWhile hdown a ha
  rw [hless, decide_eq_false_iff_not] at hnot
  exact not_lt.mp hnot

theorem takeWhile_append_lowerBound (less : α → α → Bool) (l : List α) (x : α) :
    l.takeWhile (less · x) ++ lowerBound less l x = l := List.takeWhile_append_dropWhile

/-- An element of the set is found. -/
theorem find_mem (h : StrictBy key l) (hless : ∀ a b, less a b = decide (key a < key b))
    (hx : x ∈ l) : setFind less l x = some x := by
  have hmem : x ∈ lowerBound less l x := by
    rw [← takeWhile_append_lowerBound less l x, List.mem_append] at hx
    rcases hx with hx | hx
    · exact absurd (takeWhile_lt hless x hx) (lt_irrefl _)
    · exact hx
  have hge := h.lowerBound_ge (x := x) hless
  have hrest : StrictBy key (lowerBound less l x) := h.sublist (List.dropWhile_sublist _)
  unfold setFind
  cases hl : lowerBound less l x with
  | nil =>
    rw [hl] at hmem
    cases hmem
  | cons e after =>
    rw [hl] at hmem hge hrest
    obtain ⟨he, -⟩ := List.pairwise_cons.mp hrest
    -- the first element is `x`, or less than `x`
    rcases List.mem_cons.mp hmem with rfl | hafter
    · dsimp only
      rw [hless, decide_eq_false (lt_irrefl _)]
      rfl
    · exact absurd (he x hafter) (not_lt.mpr (hge e (List.mem_cons_self ..)))

/-- A new element goes before those that are greater. -/
theorem insert_eq (h : StrictBy key l) (hless : ∀ a b, less a b = decide (key a < key b))
    (hx : ∀ a ∈ l, key a ≠ key x) :
    setInsert less l x = (l.takeWhile (less · x) ++ x :: lowerBound less l x, x) := by
  have hge := h.lowerBound_ge (x := x) hless
  unfold setInsert
  cases hl : lowerBound less l x with
  | nil =>
    have happ := takeWhile_append_lowerBound less l x
    rw [hl, List.append_nil] at happ
    dsimp only
    rw [happ]
  | cons e after =>
    rw [hl] at hge
    have he : e ∈ l := (List.dropWhile_sublist _).subset (hl ▸ List.mem_cons_self ..)
    have hlt : key x < key e :=
      lt_of_le_of_ne (hge e (List.mem_cons_self ..)) (hx e he).symm
    dsimp only
    rw [hless, decide_eq_true hlt]
    rfl

theorem insert (h : StrictBy key l) (hless : ∀ a b, less a b = decide (key a < key b))
    (hx : ∀ a ∈ l, key a ≠ key x) :
    StrictBy key (l.takeWhile (less · x) ++ x :: lowerBound less l x) := by
  have hsub : (lowerBound less l x).Sublist l := List.dropWhile_sublist _
  have hgt : ∀ a ∈ lowerBound less l x, key x < key a := by
    intro a ha
    exact lt_of_le_of_ne (h.lowerBound_ge hless a ha) (hx a (hsub.subset ha)).symm
  refine List.pairwise_append.mpr ⟨h.sublist (List.takeWhile_sublist _),
    List.pairwise_cons.mpr ⟨hgt, h.sublist hsub⟩, ?_⟩
  intro a ha b hb
  have hax := takeWhile_lt hless a ha
  rcases List.mem_cons.mp hb with rfl | hb
  · exact hax
  · exact lt_trans hax (hgt b hb)

theorem insert_perm (less : α → α → Bool) (l : List α) (x : α) :
    (l.takeWhile (less · x) ++ x :: lowerBound less l x).Perm (x :: l) := by
  have hperm : (l.takeWhile (less · x) ++ x :: lowerBound less l x).Perm
      (x :: (l.takeWhile (less · x) ++ lowerBound less l x)) := List.perm_middle
  rwa [takeWhile_append_lowerBound] at hperm

/-- The new element is the first one, if all others are greater. -/
theorem head?_insert (hless : ∀ a b, less a b = decide (key a < key b))
    (hx : ∀ a ∈ l, key x < key a) :
    (l.takeWhile (less · x) ++ x :: lowerBound less l x).head? = some x := by
  have hnil : l.takeWhile (less · x) = [] := by
    rw [List.takeWhile_eq_nil_iff]
    intro hpos
    rw [hless, decide_eq_true_eq]
    exact not_lt.mpr (le_of_lt (hx _ (List.getElem_mem hpos)))
  rw [hnil]
  rfl

end StrictBy

end CoKV
