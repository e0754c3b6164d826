import CoKV.SkipList.Relink

/-!
# `insert_element` keeps the shape

A key that is present leaves the list as it is; an absent one gets a cell of its own, of the
level drawn, between the smaller cells and the larger ones.
-/

namespace CoKV.SkipList

variable {K V : Type} {s : SkipList K V} {cells₁ cells₂ : List (Cell K V)}
  {key : K} {value : V} {odds : ℕ}

theorem getRandomLevel_le (s : SkipList K V) (odds : ℕ) : s.getRandomLevel odds ≤ s.maxLevel := by
  rw [getRandomLevel]
  split <;> omega

theorem min_le_getRandomLevel (s : SkipList K V) (odds : ℕ) :
    min 1 s.maxLevel ≤ s.getRandomLevel odds := by
  rw [getRandomLevel]
  split <;> omega

/-! ## The recorded predecessors above the height -/

/-- The loop that fills the upper part of `update` with the header. -/
theorem raiseUpdate_ok {i n : ℕ} (update : List (Option Addr)) (hlen : i + n ≤ update.length) :
    ∃ update', s.raiseUpdate i n update = .ok update' ∧ update'.length = update.length ∧
      (∀ j, i ≤ j → j < i + n → update'[j]? = some (some s.header)) ∧
      ∀ j < i, update'[j]? = update[j]? := by
  induction n generalizing i update with
  | zero => exact ⟨update, rfl, rfl, fun j _ _ => absurd (by omega) (lt_irrefl j), fun _ _ => rfl⟩
  | succ n ih =>
    have hi : i < update.length := by omega
    obtain ⟨update', hraise, hlen', hnew, hold⟩ := ih (i := i + 1)
      (update.set i (some s.header)) (by rw [List.length_set]; omega)
    refine ⟨update', ?_, by simpa using hlen', fun j hj hjn => ?_, fun j hj => ?_⟩
    · simpa [raiseUpdate, setUpdate, hi] using hraise
    · rcases Nat.eq_or_lt_of_le hj with rfl | hj
      · rw [hold i (Nat.lt_succ_self i), List.getElem?_set_self hi]
      · exact hnew j hj (by omega)
    · rw [hold j (by omega), List.getElem?_set_ne (by omega)]

/-! ## The new node -/

section Create

variable {level lvl : ℕ} {a : Addr} {k : K} {v : V}

/-- The state in which the splicing loop starts. -/
abbrev created (s : SkipList K V) (lvl : ℕ) (k : K) (v : V) (level : ℕ) : SkipList K V :=
  ({ s with skipListLevel := lvl }.createNode k v level).1

theorem holds_created_self : (s.created lvl k v level).Holds s.brk k v level :=
  ⟨List.replicate (level + 1) none, by simp [created, createNode, Node.new],
    List.length_replicate⟩

theorem holds_created_of_ne {k' : K} {v' : V} {level' : ℕ} (ha : a ≠ s.brk)
    (h : s.Holds a k' v' level') : (s.created lvl k v level).Holds a k' v' level' := by
  obtain ⟨fw, hfw, hlen⟩ := h
  exact ⟨fw, by simp [created, createNode, ha, hfw], hlen⟩

theorem next_created_of_ne {i : ℕ} (ha : a ≠ s.brk) :
    (s.created lvl k v level).next i a = s.next i a := by
  simp [created, createNode, next, ha]

theorem isSome_heap_created : ((s.created lvl k v level).heap a).isSome ↔
    a = s.brk ∨ (s.heap a).isSome := by
  by_cases ha : a = s.brk <;> simp [created, createNode, ha]

end Create

/-! ## The list with the new cell -/

section NewCell

variable {level : ℕ}

/-- The cell of the new node. -/
abbrev newCell (s : SkipList K V) (key : K) (value : V) (level : ℕ) : Cell K V :=
  ⟨s.brk, key, value, level⟩

theorem mem_of_mem_reach {j : ℕ} {a : Addr} {cells : List (Cell K V)}
    (h : a ∈ s.header :: reach j cells) : a ∈ s.header :: cells.map Cell.addr :=
  (reach_sublist.cons_cons _).mem h

/-- The chains with the new cell: up to its level they go through it. -/
theorem reach_newCell_of_le {j : ℕ} (h : j ≤ level) :
    reach j (cells₁ ++ s.newCell key value level :: cells₂)
      = reach j cells₁ ++ s.brk :: reach j cells₂ := by
  rw [reach_append, reach_cons_of_le h]

theorem reach_newCell_of_lt {j : ℕ} (h : level < j) :
    reach j (cells₁ ++ s.newCell key value level :: cells₂) = reach j (cells₁ ++ cells₂) := by
  rw [reach_append, reach_append, reach_cons_of_lt h]

variable [LinearOrder K]

/-- The splicing loop, from the state with the new node allocated. -/
theorem link_created (lvl : ℕ) (h : Shape s (cells₁ ++ cells₂)) (hle : level ≤ s.maxLevel)
    {update : List (Option Addr)}
    (hupd : ∀ j ≤ level, update[j]? = some (some (s.pred cells₁ j))) :
    ∃ t, link update s.brk 0 (level + 1) (s.created lvl key value level) = .ok t ∧
      Relinked (s.created lvl key value level) t ∧
      ∀ j ≤ s.maxLevel, Chain (t.next j) s.header
        (reach j (cells₁ ++ s.newCell key value level :: cells₂)) := by
  -- allocating the node leaves the old chains and nodes alone
  have hchain : ∀ j ≤ s.maxLevel, Chain ((s.created lvl key value level).next j) s.header
      (reach j (cells₁ ++ cells₂)) := fun j hj =>
    (h.chain j hj).congr fun a ha => next_created_of_ne (h.ne_brk (mem_of_mem_reach ha))
  have htall : ∀ j < 0 + (level + 1), (s.created lvl key value level).Tall j (s.pred cells₁ j) :=
    fun j hj => by
      have hmem : s.pred cells₁ j ∈ s.header :: reach j (cells₁ ++ cells₂) := by
        rw [reach_append]; exact Chain.getLastD_mem_append
      obtain ⟨k, v, l, hold, hjl⟩ := h.tall_of_mem (by omega) hmem
      exact ⟨k, v, l, holds_created_of_ne (h.ne_brk (mem_of_mem_reach hmem)) hold, hjl⟩
  obtain ⟨t, hlink, hrel, hspliced, hrest⟩ := link_ok update s.header (reach · cells₁)
    (reach · cells₂) (c := s.brk) (i := 0)
    (fun j hj => hupd j (by omega)) htall
    (fun j hj => ⟨key, value, level, holds_created_self, by omega⟩)
    (fun j => reach_append ▸ h.reach_nodup)
    (fun j hm => h.ne_brk (mem_of_mem_reach (reach_append ▸ hm)) rfl) (by simp)
    (fun j _ hj => reach_append ▸ hchain j (by omega))
  refine ⟨t, hlink, hrel, fun j hj => ?_⟩
  by_cases hjl : j ≤ level
  · rw [reach_newCell_of_le hjl]
    exact hspliced j (by omega)
  · rw [reach_newCell_of_lt (by omega)]
    exact (hchain j hj).congr fun a _ => hrest j (by omega) a

/-- What the loop leaves behind, with the counter raised, is the list with the new cell. -/
theorem Shape.insert (h : Shape s (cells₁ ++ cells₂)) {t : SkipList K V} (hpos : min 1 s.maxLevel ≤ level)
    (hle : level ≤ s.maxLevel) (hlt : ∀ e ∈ cells₁, e.key < key) (hgt : ∀ e ∈ cells₂, key < e.key)
    (hrel : Relinked (s.created (max s.skipListLevel level) key value level) t)
    (hchain : ∀ j ≤ s.maxLevel, Chain (t.next j) s.header
      (reach j (cells₁ ++ s.newCell key value level :: cells₂))) :
    Shape { t with elementCount := t.elementCount + 1 }
      (cells₁ ++ s.newCell key value level :: cells₂) := by
  have hmem : ∀ {e}, e ∈ cells₁ ++ s.newCell key value level :: cells₂ →
      e = s.newCell key value level ∨ e ∈ cells₁ ++ cells₂ := fun he =>
    List.mem_cons.mp (List.perm_middle.mem_iff.mp he)
  have hperm : (s.header :: (cells₁ ++ s.newCell key value level :: cells₂).map Cell.addr).Perm
      (s.brk :: s.header :: (cells₁ ++ cells₂).map Cell.addr) :=
    ((List.perm_middle.map Cell.addr).cons _).trans (List.Perm.swap ..)
  have hheader : t.header = s.header := hrel.header
  have hmax : t.maxLevel = s.maxLevel := hrel.maxLevel
  have hbrk : t.brk = s.brk + 1 := by rw [hrel.fields]; rfl
  exact {
    header := by
      obtain ⟨k, v, hold⟩ := h.header
      rw [hheader, hmax]
      exact ⟨k, v, hrel.holds (holds_created_of_ne (h.ne_brk (List.mem_cons_self ..)) hold)⟩
    cell := fun e he => by
      rcases hmem he with rfl | he
      · exact hrel.holds holds_created_self
      · exact hrel.holds (holds_created_of_ne
          (h.ne_brk (List.mem_cons_of_mem _ (List.mem_map_of_mem he))) (h.cell e he))
    level := fun e he => by
      rw [hmax]
      rcases hmem he with rfl | he
      · exact ⟨hpos, hle⟩
      · exact h.level e he
    nodup := by
      rw [hheader, hperm.nodup_iff, List.nodup_cons]
      exact ⟨fun hm => h.ne_brk hm rfl, h.nodup⟩
    sorted := by
      have hpw := List.pairwise_append.mp h.sorted
      rw [List.pairwise_append, List.pairwise_cons]
      refine ⟨hpw.1, ⟨hgt, hpw.2.1⟩, fun a ha b hb => ?_⟩
      rcases List.mem_cons.mp hb with rfl | hb
      · exact hlt a ha
      · exact hpw.2.2 a ha b hb
    chain := fun i hi => by
      rw [hheader]
      exact hchain i (hmax ▸ hi)
    height := by
      have hh : t.skipListLevel = max s.skipListLevel level := by rw [hrel.fields]; rfl
      rw [hh, h.height, height_append, height_append, SkipList.height]
      ac_rfl
    count := by
      have hc : t.elementCount = s.elementCount := by rw [hrel.fields]; rfl
      have hlen : (cells₁ ++ s.newCell key value level :: cells₂).length
          = (cells₁ ++ cells₂).length + 1 := List.perm_middle.length_eq
      rw [hlen, Int32.ofNat_add, ← h.count]
      exact congrArg (· + 1) hc
    live := fun a => by
      have halloc : (t.heap a).isSome ↔ a = s.brk ∨ (s.heap a).isSome := by
        rw [hrel.alloc, isSome_heap_created]
      rw [hheader, hperm.mem_iff, List.mem_cons, ← h.live]
      exact halloc
    fresh := fun a ha => by
      rw [hheader, hperm.mem_iff, List.mem_cons] at ha
      rw [hbrk]
      rcases ha with rfl | ha
      · exact Nat.lt_succ_self _
      · exact (h.fresh a ha).trans (Nat.lt_succ_self _) }

end NewCell

/-! ## The two outcomes -/

variable [LinearOrder K]

/-- A present key: `1`, and nothing changes. -/
theorem insertElement_present {e : Cell K V} (h : Shape s (cells₁ ++ e :: cells₂)) :
    s.insertElement e.key value odds = .ok (s, 1) := by
  obtain ⟨hlt, hge⟩ := h.split_at
  obtain ⟨update, hdesc, -⟩ := descend_ok h hlt hge
  obtain ⟨hfwd, hkey⟩ := hasKey_present h
  simp only [insertElement, hdesc, hfwd, hkey, ok_bind, if_true]
  rfl

/-- The node of the new cell is the only one that is allocated. -/
theorem Allocates.insert {t : SkipList K V} (h : Shape s (cells₁ ++ cells₂))
    (ht : Shape t (cells₁ ++ s.newCell key value level :: cells₂)) (hheader : t.header = s.header)
    (hbrk : t.brk = s.brk + 1) : Allocates s t := by
  have hlive : ∀ a, (t.heap a).isSome ↔ a = s.brk ∨ (s.heap a).isSome := by
    intro a
    rw [ht.live, h.live, hheader]
    simp only [List.map_append, List.map_cons, List.mem_cons, List.mem_append, newCell]
    tauto
  refine ⟨fun a hlt ha => ?_, fun a hge => ?_, hbrk ▸ Nat.le_succ _⟩
  · exact ((hlive a).mp ha).resolve_left (Nat.ne_of_lt hlt)
  · rw [hlive, (Allocates.refl h).new a hge, hbrk, Nat.lt_succ_iff_lt_or_eq]
    exact or_comm

/-- An absent key: `0`, and the list gains a cell of the drawn level. -/
theorem insertElement_absent (value : V) (odds : ℕ) (h : Shape s (cells₁ ++ cells₂))
    (hlt : ∀ e ∈ cells₁, e.key < key) (hgt : ∀ e ∈ cells₂, key < e.key) :
    ∃ s', s.insertElement key value odds = .ok (s', 0) ∧ s'.maxLevel = s.maxLevel ∧
      Shape s' (cells₁ ++ s.newCell key value (s.getRandomLevel odds) :: cells₂) ∧
      Allocates s s' := by
  set level := s.getRandomLevel odds with hlevel
  have hle : level ≤ s.maxLevel := getRandomLevel_le s odds
  have hpos : min 1 s.maxLevel ≤ level := min_le_getRandomLevel s odds
  obtain ⟨update, hdesc, hlen, hrec⟩ := descend_ok h hlt (fun e he => (hgt e he).asymm)
  have hslv := h.height_le
  obtain ⟨update', hraise, -, hnew, hold⟩ := raiseUpdate_ok (s := s) (i := s.skipListLevel + 1)
    (n := level - s.skipListLevel) update (by omega)
  -- every level up to the drawn one has its predecessor recorded
  have hupd : ∀ j ≤ level, update'[j]? = some (some (s.pred cells₁ j)) := by
    intro j hj
    by_cases hjs : j ≤ s.skipListLevel
    · rw [hold j (by omega), hrec j hjs]
    · have hheight : height cells₁ < j := by
        have := h.height
        rw [height_append] at this
        omega
      rw [hnew j (by omega) (by omega), pred_of_height_lt hheight]
  obtain ⟨t, hlink, hrel, hchain⟩ := link_created (max s.skipListLevel level) h hle hupd
  have hs' := h.insert hpos hle hlt hgt hrel hchain
  refine ⟨{ t with elementCount := t.elementCount + 1 }, ?_, hrel.maxLevel, hs',
    Allocates.insert h hs' hrel.header hrel.brk⟩
  simp only [insertElement, hdesc, forwardAt_pred_zero h, hasKey_absent h hgt, ok_bind,
    Bool.false_eq_true, if_false, ← hlevel, hraise]
  exact congrArg (· >>= fun t => pure ({ t with elementCount := t.elementCount + 1 }, 0)) hlink

end CoKV.SkipList
