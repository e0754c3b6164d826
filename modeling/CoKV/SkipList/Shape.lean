import CoKV.SkipList.Defs
import Mathlib.Data.Nat.Basic
import Mathlib.Data.List.Pairwise
import Mathlib.Data.List.Perm.Subperm

/-!
# The shape of a skip list

`Shape s cells` says that the heap of `s` is the skip list over the live nodes `cells`, listed
in the order of level `0`: the chain of every level is the sublist of the cells that reach it,
the height is the largest level of a cell and the counter counts the cells. The operations are
proved against this predicate; the pure list `cells` is what the map view and the shape
theorems are read off from.
-/

namespace CoKV.SkipList

variable {K V : Type}

/-- A live node without its links. -/
structure Cell (K V : Type) where
  addr : Addr
  key : K
  value : V
  level : ℕ

/-- The largest level of a cell, `0` without cells. -/
def height : List (Cell K V) → ℕ
  | [] => 0
  | e :: cells => max e.level (height cells)

/-- The addresses of the cells that reach level `i`. -/
def reach (i : ℕ) (cells : List (Cell K V)) : List Addr :=
  (cells.filter fun e => i ≤ e.level).map Cell.addr

section Reach

variable {cells cells₁ cells₂ : List (Cell K V)} {e : Cell K V} {i : ℕ}

@[simp] theorem reach_nil : reach i ([] : List (Cell K V)) = [] := rfl

@[simp] theorem reach_append : reach i (cells₁ ++ cells₂) = reach i cells₁ ++ reach i cells₂ := by
  rw [reach, List.filter_append, List.map_append]; rfl

/-- A node is in the chains up to its level. -/
theorem reach_cons_of_le (h : i ≤ e.level) : reach i (e :: cells) = e.addr :: reach i cells := by
  rw [reach, List.filter_cons_of_pos (by simpa using h), List.map_cons]; rfl

/-- A node is in no chain above its level. -/
theorem reach_cons_of_lt (h : e.level < i) : reach i (e :: cells) = reach i cells := by
  rw [reach, List.filter_cons_of_neg (by simpa using h)]; rfl

/-- The chain of level `i` has the addresses of the nodes that reach it. -/
theorem mem_reach {a : Addr} : a ∈ reach i cells ↔ ∃ e ∈ cells, i ≤ e.level ∧ e.addr = a := by
  simp [reach, and_assoc]

/-- A chain keeps the order of the whole list. -/
theorem reach_sublist : (reach i cells).Sublist (cells.map Cell.addr) :=
  List.filter_sublist.map _

/-- Level `0` is reached by every cell. -/
@[simp] theorem reach_zero : reach 0 cells = cells.map Cell.addr := by simp [reach]

/-- The height is the least bound of the levels. -/
theorem height_le_iff {n : ℕ} : height cells ≤ n ↔ ∀ e ∈ cells, e.level ≤ n := by
  induction cells with
  | nil => simp [height]
  | cons e cells ih => simp [height, ih]

/-- No node is higher than the height. -/
theorem level_le_height (h : e ∈ cells) : e.level ≤ height cells :=
  height_le_iff.mp le_rfl e h

/-- The height of two parts is the greater one. -/
theorem height_append : height (cells₁ ++ cells₂) = max (height cells₁) (height cells₂) := by
  induction cells₁ with
  | nil => simp [height]
  | cons e cells ih => rw [List.cons_append, height, ih, height, max_assoc]

/-- Without cells the height is `0`; with cells it is the level of one of them. -/
theorem exists_level_eq_height (h : cells ≠ []) : ∃ e ∈ cells, e.level = height cells := by
  induction cells with
  | nil => exact absurd rfl h
  | cons e cells ih =>
    rcases le_total (height cells) e.level with hle | hle
    · exact ⟨e, List.mem_cons_self .., (max_eq_left hle).symm⟩
    · by_cases hnil : cells = []
      · subst hnil
        exact ⟨e, List.mem_cons_self .., (max_eq_left (Nat.zero_le _)).symm⟩
      · obtain ⟨e', he', heq⟩ := ih hnil
        exact ⟨e', List.mem_cons_of_mem _ he', heq.trans (max_eq_right hle).symm⟩

/-- Nothing reaches above the height. -/
theorem reach_eq_nil (h : height cells < i) : reach i cells = [] := by
  rw [reach, List.map_eq_nil_iff, List.filter_eq_nil_iff]
  intro e he
  have := level_le_height he
  simp only [decide_eq_true_eq]
  omega

/-- The chain of the highest level is not empty. -/
theorem reach_height_ne_nil (h : 0 < height cells) : reach (height cells) cells ≠ [] := by
  have hne : cells ≠ [] := by rintro rfl; simp [height] at h
  obtain ⟨e, he, heq⟩ := exists_level_eq_height hne
  exact List.ne_nil_of_mem (mem_reach.mpr ⟨e, he, heq.ge, rfl⟩)

end Reach

/-! ## The links and the nodes of a heap -/

/-- The link of level `i` of the node at `a`, if that node is allocated and tall enough. -/
def next (s : SkipList K V) (i : ℕ) (a : Addr) : Option (Option Addr) :=
  (s.heap a).bind fun n => n.forward[i]?

/-- A node with these contents is allocated at `a`, its forward array of the right length. -/
def Holds (s : SkipList K V) (a : Addr) (k : K) (v : V) (level : ℕ) : Prop :=
  ∃ fw : List (Option Addr), s.heap a = some ⟨k, v, level, fw⟩ ∧ fw.length = level + 1

section Access

variable {s : SkipList K V} {a b : Addr} {k : K} {v : V} {level i : ℕ} {q : Option Addr}

/-- Reading a forward pointer that is there does not fault. -/
theorem forwardAt_of_next (h : s.next i a = some q) : s.forwardAt (some a) i = .ok q := by
  obtain ⟨n, hn, hq⟩ := Option.bind_eq_some_iff.mp h
  simp [forwardAt, deref, hn, hq]

/-- A node that is there can be read. -/
theorem Holds.deref (h : s.Holds a k v level) :
    ∃ fw, s.deref (some a) = .ok ⟨k, v, level, fw⟩ := by
  obtain ⟨fw, hfw, _⟩ := h
  exact ⟨fw, by simp [SkipList.deref, hfw]⟩

/-- The comparison with its key does not fault. -/
theorem Holds.hasKey [LinearOrder K] (h : s.Holds a k v level) (key : K) :
    s.hasKey (some a) key = .ok (decide (k = key)) := by
  obtain ⟨fw, hfw⟩ := h.deref
  simp [SkipList.hasKey, hfw]

/-- A forward pointer up to the node's level can be written. -/
theorem Holds.setForward (h : s.Holds a k v level) (hi : i ≤ level) (q : Option Addr) :
    s.setForward (some a) i q = .ok (s.writeForward a i q) := by
  obtain ⟨fw, hfw, hlen⟩ := h
  have hlt : i < fw.length := by omega
  simp [SkipList.setForward, SkipList.deref, hfw, hlt]

/-- Writing one link keeps every node. -/
@[simp] theorem holds_writeForward : (s.writeForward a i q).Holds b k v level ↔
    s.Holds b k v level := by
  by_cases hb : b = a
  · subst hb
    constructor
    · rintro ⟨fw, hfw, hlen⟩
      simp only [writeForward, if_true, Option.map_eq_some_iff] at hfw
      obtain ⟨n, hn, heq⟩ := hfw
      cases heq
      exact ⟨n.forward, hn, by simpa using hlen⟩
    · rintro ⟨fw, hfw, hlen⟩
      exact ⟨fw.set i q, by simp [writeForward, hfw], by simpa using hlen⟩
  · simp [Holds, writeForward, hb]

/-- What is written is what is read. -/
theorem next_writeForward_self (h : s.Holds a k v level) (hi : i ≤ level) :
    (s.writeForward a i q).next i a = some q := by
  obtain ⟨fw, hfw, hlen⟩ := h
  have hlt : i < fw.length := by omega
  simp [next, writeForward, hfw, hlt]

/-- The other links are as before. -/
theorem next_writeForward_of_ne {j : ℕ} (h : b ≠ a ∨ j ≠ i) :
    (s.writeForward a i q).next j b = s.next j b := by
  by_cases hb : b = a
  · subst hb
    have hj : i ≠ j := (h.resolve_left (by simp)).symm
    cases hn : s.heap b with
    | none => simp [next, writeForward, hn]
    | some n => simp [next, writeForward, hn, hj]
  · simp [next, writeForward, hb]

@[simp] theorem isSome_heap_writeForward :
    ((s.writeForward a i q).heap b).isSome = (s.heap b).isSome := by
  by_cases hb : b = a
  · subst hb; simp [writeForward]
  · simp [writeForward, hb]

end Access

/-! ## The invariant -/

variable [LinearOrder K]

/-- The heap of `s` is the skip list over the live nodes `cells`. -/
structure Shape (s : SkipList K V) (cells : List (Cell K V)) : Prop where
  header : ∃ k v, s.Holds s.header k v s.maxLevel
  cell : ∀ e ∈ cells, s.Holds e.addr e.key e.value e.level
  level : ∀ e ∈ cells, min 1 s.maxLevel ≤ e.level ∧ e.level ≤ s.maxLevel
  nodup : (s.header :: cells.map Cell.addr).Nodup
  sorted : cells.Pairwise (·.key < ·.key)
  chain : ∀ i ≤ s.maxLevel, Chain (s.next i) s.header (reach i cells)
  height : s.skipListLevel = height cells
  count : s.elementCount = Int32.ofNat cells.length
  live : ∀ a, (s.heap a).isSome ↔ a ∈ s.header :: cells.map Cell.addr
  fresh : ∀ a ∈ s.header :: cells.map Cell.addr, a < s.brk

namespace Shape

variable {s : SkipList K V} {cells cells₁ cells₂ : List (Cell K V)} {i : ℕ}

/-- `skipListLevel` never exceeds `maxLevel`. -/
theorem height_le (h : Shape s cells) : s.skipListLevel ≤ s.maxLevel := by
  rw [h.height, height_le_iff]
  exact fun e he => (h.level e he).2

/-- No chain meets an address twice, nor the header. -/
theorem reach_nodup (h : Shape s cells) : (s.header :: reach i cells).Nodup :=
  h.nodup.sublist (reach_sublist.cons_cons _)

/-- The fuel of a walk, the number of addresses handed out, covers every chain. -/
theorem length_lt_brk (h : Shape s cells) : cells.length < s.brk := by
  have hsub : (s.header :: cells.map Cell.addr) ⊆ List.range s.brk := fun a ha =>
    List.mem_range.mpr (h.fresh a ha)
  have hle := (List.Nodup.subperm h.nodup hsub).length_le
  rwa [List.length_cons, List.length_map, List.length_range, Nat.succ_le_iff] at hle

/-- The next address is nobody's. -/
theorem ne_brk (h : Shape s cells) {a : Addr} (ha : a ∈ s.header :: cells.map Cell.addr) :
    a ≠ s.brk := Nat.ne_of_lt (h.fresh a ha)

/-- The fresh list. -/
theorem new (k : K) (v : V) (maxlevel : ℕ) : Shape (SkipList.new k v maxlevel) [] where
  header := ⟨k, v, List.replicate (maxlevel + 1) none, rfl, List.length_replicate⟩
  cell e he := absurd he List.not_mem_nil
  level e he := absurd he List.not_mem_nil
  nodup := by simp
  sorted := List.Pairwise.nil
  chain i hi := by
    have hlt : i < maxlevel + 1 := Nat.lt_succ_of_le hi
    simp [SkipList.next, SkipList.new, Node.new, hlt]
  height := rfl
  count := rfl
  live a := by
    by_cases ha : a = 0 <;> simp [SkipList.new, ha]
  fresh a ha := by simp_all [SkipList.new]

end Shape

/-- What a call does to the heap: no freed node comes back, and the new ones are those from `brk`
on. -/
structure Allocates (s t : SkipList K V) : Prop where
  old : ∀ a < s.brk, (t.heap a).isSome → (s.heap a).isSome
  new : ∀ a, s.brk ≤ a → ((t.heap a).isSome ↔ a < t.brk)
  brk : s.brk ≤ t.brk

/-- A state allocates from itself. -/
theorem Allocates.refl {s : SkipList K V} {cells : List (Cell K V)} (h : Shape s cells) :
    Allocates s s where
  old _ _ ha := ha
  new a hge := by
    have hlt := h.fresh a
    rw [← h.live] at hlt
    exact ⟨hlt, fun ha => absurd ha (Nat.not_lt.mpr hge)⟩
  brk := Nat.le_refl _

end CoKV.SkipList
