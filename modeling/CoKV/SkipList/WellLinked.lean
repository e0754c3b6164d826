import CoKV.SkipList.Shape

/-!
# The pointer structure, read off the heap

`WellLinked` says what the heap of a skip list looks like without naming its cells: every level
is a chain through the live nodes tall enough for it, in the order of their keys, and the height
and the counter agree with the live nodes. `Shape.wellLinked` derives it.
-/

namespace CoKV.SkipList

variable {K V : Type}

/-- An allocated node other than the header. -/
def Live (s : SkipList K V) (a : Addr) : Prop := a ≠ s.header ∧ (s.heap a).isSome

/-- `a` is a live node of level `level`. -/
def HasLevel (s : SkipList K V) (a : Addr) (level : ℕ) : Prop :=
  s.Live a ∧ ∃ n, s.heap a = some n ∧ n.nodeLevel = level

variable [LinearOrder K]

/-- The nodes at `a` and `b` have increasing keys. -/
def KeyLt (s : SkipList K V) (a b : Addr) : Prop :=
  ∃ m n, s.heap a = some m ∧ s.heap b = some n ∧ m.key < n.key

/-- The heap of `s` is a skip list of at most `maxlevel` levels. -/
structure WellLinked (s : SkipList K V) (maxlevel : ℕ) : Prop where
  /-- Level `i` visits exactly the live nodes of that level, once each, by increasing key. -/
  level : ∀ i ≤ maxlevel, ∃ l, Chain (s.next i) s.header l ∧ l.Nodup ∧ l.Pairwise s.KeyLt ∧
    ∀ a, a ∈ l ↔ ∃ level, i ≤ level ∧ s.HasLevel a level
  /-- No live node is taller than the height. -/
  le_height : ∀ a level, s.HasLevel a level → level ≤ s.skipListLevel
  /-- The height is the level of a live node, if there is one, and `0` otherwise. -/
  height : (∃ a, s.HasLevel a s.skipListLevel) ∨ (s.skipListLevel = 0 ∧ ∀ a, ¬ s.Live a)
  /-- Above the height the header points nowhere. -/
  above : ∀ i ≤ maxlevel, s.skipListLevel < i → s.next i s.header = some none
  /-- The counter is the length of the chain of level `0`. -/
  count : ∀ l, Chain (s.next 0) s.header l → s.elementCount = Int32.ofNat l.length
  /-- A forward pointer of the header or of a live node refers to a live node. -/
  noDangling : ∀ a i b, (a = s.header ∨ s.Live a) → s.next i a = some (some b) → s.Live b

namespace Shape

variable {s : SkipList K V} {cells : List (Cell K V)}

theorem live_iff (h : Shape s cells) {a : Addr} : s.Live a ↔ a ∈ cells.map Cell.addr := by
  rw [Live, h.live, List.mem_cons]
  constructor
  · rintro ⟨hne, hmem⟩
    exact hmem.resolve_left hne
  · intro hmem
    exact ⟨by rintro rfl; exact (List.nodup_cons.mp h.nodup).1 hmem, Or.inr hmem⟩

theorem hasLevel_iff (h : Shape s cells) {a : Addr} {level : ℕ} :
    s.HasLevel a level ↔ ∃ e ∈ cells, e.addr = a ∧ e.level = level := by
  rw [HasLevel, h.live_iff, List.mem_map]
  constructor
  · rintro ⟨⟨e, he, rfl⟩, n, hn, rfl⟩
    obtain ⟨fw, hfw, -⟩ := h.cell e he
    rw [hn] at hfw
    exact ⟨e, he, rfl, by rw [Option.some.inj hfw]⟩
  · rintro ⟨e, he, rfl, rfl⟩
    obtain ⟨fw, hfw, -⟩ := h.cell e he
    exact ⟨⟨e, he, rfl⟩, _, hfw, rfl⟩

theorem keyLt (h : Shape s cells) (i : ℕ) : (reach i cells).Pairwise s.KeyLt := by
  refine List.pairwise_map.mpr (((List.Pairwise.and_mem.mp h.sorted).imp ?_).sublist
    List.filter_sublist)
  rintro e f ⟨he, hf, hlt⟩
  obtain ⟨fw, hfw, -⟩ := h.cell e he
  obtain ⟨fw', hfw', -⟩ := h.cell f hf
  exact ⟨_, _, hfw, hfw', hlt⟩

/-- A node whose level-`i` link can be read lies on the chain of level `i`. -/
theorem mem_reach_of_next (h : Shape s cells) {a : Addr} {i : ℕ} {q : Option Addr}
    (ha : a = s.header ∨ s.Live a) (hq : s.next i a = some q) :
    i ≤ s.maxLevel ∧ a ∈ s.header :: reach i cells := by
  have hlen : ∀ {k v level}, s.Holds a k v level → i ≤ level := by
    rintro k v level ⟨fw, hfw, hlen⟩
    rw [next, hfw, Option.bind_some] at hq
    have hi : i < fw.length := (List.getElem?_eq_some_iff.mp hq).1
    omega
  rcases ha with rfl | ha
  · obtain ⟨k, v, hold⟩ := h.header
    exact ⟨hlen hold, List.mem_cons_self ..⟩
  · obtain ⟨e, he, rfl⟩ := List.mem_map.mp (h.live_iff.mp ha)
    have hi := hlen (h.cell e he)
    exact ⟨hi.trans (h.level e he).2, List.mem_cons_of_mem _ (mem_reach.mpr ⟨e, he, hi, rfl⟩)⟩

theorem wellLinked (h : Shape s cells) : WellLinked s s.maxLevel where
  level i hi := by
    refine ⟨reach i cells, h.chain i hi, (List.nodup_cons.mp h.reach_nodup).2, h.keyLt i, ?_⟩
    intro a
    rw [mem_reach]
    constructor
    · rintro ⟨e, he, hle, rfl⟩
      exact ⟨e.level, hle, h.hasLevel_iff.mpr ⟨e, he, rfl, rfl⟩⟩
    · rintro ⟨level, hle, hlev⟩
      obtain ⟨e, he, rfl, rfl⟩ := h.hasLevel_iff.mp hlev
      exact ⟨e, he, hle, rfl⟩
  le_height a level hlev := by
    obtain ⟨e, he, rfl, rfl⟩ := h.hasLevel_iff.mp hlev
    rw [h.height]
    exact level_le_height he
  height := by
    by_cases hnil : cells = []
    · subst hnil
      exact Or.inr ⟨h.height, fun a ha => by simpa using h.live_iff.mp ha⟩
    · -- some cell is as tall as the list
      obtain ⟨e, he, hlev⟩ := exists_level_eq_height hnil
      exact Or.inl ⟨e.addr, h.hasLevel_iff.mpr ⟨e, he, rfl, hlev.trans h.height.symm⟩⟩
  above i hi hlt := by
    rw [(h.chain i hi).next_eq, reach_eq_nil (h.height ▸ hlt), List.head?_nil]
  count l hl := by
    rw [hl.unique (h.chain 0 (Nat.zero_le _)), reach_zero, List.length_map, h.count]
  noDangling a i b ha hb := by
    obtain ⟨hi, hmem⟩ := h.mem_reach_of_next ha hb
    exact h.live_iff.mpr (reach_sublist.mem ((h.chain i hi).mem_of_next hmem hb))

end Shape
end CoKV.SkipList
