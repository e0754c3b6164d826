import CoKV.SkipList.Shape

/-!
# The descent

All four operations start by descending from the height to level `0`, on each level walking
right while the next key is smaller. With the cells split into those before the key and the
rest, the walk on level `i` stops at `pred`, the last cell before the key that reaches level
`i` (the header when there is none); the descent ends at `pred` of level `0` and has recorded
`pred` of every level on its way.
-/

namespace CoKV.SkipList

variable {K V : Type}

/-- The last of `cells` that reaches level `i`, or the header. -/
def pred (s : SkipList K V) (cells : List (Cell K V)) (i : ℕ) : Addr :=
  (reach i cells).getLastD s.header

variable {s : SkipList K V} {cells cells₁ cells₂ : List (Cell K V)} {key : K} {i : ℕ}

theorem pred_of_height_lt (h : height cells < i) : s.pred cells i = s.header := by
  rw [pred, reach_eq_nil h, List.getLastD_nil]

/-- The predecessor on level `i + 1` is met on level `i`, before the predecessor there. -/
theorem exists_reach_split (s : SkipList K V) (cells : List (Cell K V)) (i : ℕ) :
    ∃ xs ys, cells.filter (fun e => i ≤ e.level) = xs ++ ys ∧
      (xs.map Cell.addr).getLastD s.header = s.pred cells (i + 1) := by
  obtain ⟨xs, ys, heq, hlast⟩ := Chain.getLastD_filter_split (fun e => decide (i + 1 ≤ e.level))
    Cell.addr (cells.filter fun e => i ≤ e.level) s.header
  refine ⟨xs, ys, heq, hlast.trans ?_⟩
  rw [List.filter_filter, pred, reach]
  congr 3
  funext e
  simp only [Bool.and_eq_left_iff_imp, decide_eq_true_eq]
  omega

variable [LinearOrder K]

/-- One walk along a chain whose first part has keys below `key` and whose rest has not. -/
theorem walk_chain (ys zs : List (Cell K V)) {current : Addr} {fuel : ℕ}
    (hchain : Chain (s.next i) current (ys.map Cell.addr ++ zs.map Cell.addr))
    (hcell : ∀ e ∈ ys ++ zs, s.Holds e.addr e.key e.value e.level)
    (hlt : ∀ e ∈ ys, e.key < key) (hge : ∀ e ∈ zs, ¬ e.key < key) (hfuel : ys.length < fuel) :
    s.walk key i fuel current = .ok ((ys.map Cell.addr).getLastD current) := by
  induction ys generalizing current fuel with
  | nil =>
    obtain ⟨fuel, rfl⟩ : ∃ n, fuel = n + 1 := ⟨fuel - 1, by simp at hfuel; omega⟩
    rw [walk, forwardAt_of_next hchain.next_eq]
    -- the walk stops at the end of the chain, or in front of a key that is not below
    cases zs with
    | nil => rfl
    | cons e zs =>
      obtain ⟨fw, hfw⟩ := (hcell e (List.mem_cons_self ..)).deref
      simp [hfw, hge e (List.mem_cons_self ..)]
  | cons e ys ih =>
    obtain ⟨fuel, rfl⟩ : ∃ n, fuel = n + 1 := ⟨fuel - 1, by simp at hfuel; omega⟩
    obtain ⟨fw, hfw⟩ := (hcell e (List.mem_cons_self ..)).deref
    rw [walk, forwardAt_of_next hchain.next_eq]
    simp only [ok_bind, List.map_cons, List.cons_append, List.head?_cons, hfw,
      if_pos (hlt e (List.mem_cons_self ..)), List.getLastD_cons]
    refine ih hchain.2 (fun e' he' => hcell e' (List.mem_cons_of_mem _ he'))
      (fun e' he' => hlt e' (List.mem_cons_of_mem _ he')) ?_
    simpa using hfuel

/-- The descent starts at the header, above every cell. -/
theorem pred_top (h : Shape s (cells₁ ++ cells₂)) :
    s.pred cells₁ (s.skipListLevel + 1) = s.header := by
  refine pred_of_height_lt (Nat.lt_succ_of_le ?_)
  rw [h.height, height_append]
  exact le_max_left ..

section Split

variable (h : Shape s (cells₁ ++ cells₂)) (hlt : ∀ e ∈ cells₁, e.key < key)
  (hge : ∀ e ∈ cells₂, ¬ e.key < key)
include h hlt hge

/-- The walk on level `i` leads from the predecessor one level up to the predecessor here. -/
theorem walk_pred (hi : i ≤ s.maxLevel) :
    s.walk key i s.brk (s.pred cells₁ (i + 1)) = .ok (s.pred cells₁ i) := by
  obtain ⟨xs, ys, heq, hlast⟩ := exists_reach_split s cells₁ i
  have hreach : reach i cells₁ = xs.map Cell.addr ++ ys.map Cell.addr := by
    rw [reach, heq, List.map_append]
  have hys : ∀ e ∈ ys, e ∈ cells₁ := fun e he =>
    List.mem_of_mem_filter (heq ▸ List.mem_append_right xs he)
  have hchain := h.chain i hi
  rw [reach_append, hreach, List.append_assoc] at hchain
  have hwalk : s.walk key i s.brk (s.pred cells₁ (i + 1))
      = .ok ((ys.map Cell.addr).getLastD (s.pred cells₁ (i + 1))) := by
    apply walk_chain ys (cells₂.filter fun e => i ≤ e.level) (hlast ▸ hchain.suffix)
    · intro e he
      refine h.cell e (List.mem_append.mpr ((List.mem_append.mp he).imp (hys e) ?_))
      exact List.mem_of_mem_filter
    · exact fun e he => hlt e (hys e he)
    · exact fun e he => hge e (List.mem_of_mem_filter he)
    · -- every cell has its own address below `brk`, so the fuel lasts
      have h1 : (xs ++ ys).length ≤ cells₁.length := heq ▸ List.length_filter_le ..
      have h2 := h.length_lt_brk
      simp only [List.length_append] at h1 h2
      omega
  have hpred : s.pred cells₁ i = (ys.map Cell.addr).getLastD (s.pred cells₁ (i + 1)) := by
    rw [pred, hreach, Chain.getLastD_append, hlast]
  rw [hwalk, hpred]

/-- The descent over `levels` levels, from the predecessor above them: it records the
predecessor of each of them and leaves the rest of `update` alone. -/
theorem descend_pred {levels : ℕ} (update : List (Option Addr)) (hlev : levels ≤ s.maxLevel + 1)
    (hlen : update.length = s.maxLevel + 1) :
    ∃ update', s.descend key levels (s.pred cells₁ levels) update
        = .ok (s.pred cells₁ 0, update') ∧ update'.length = s.maxLevel + 1 ∧
      (∀ i < levels, update'[i]? = some (some (s.pred cells₁ i))) ∧
      ∀ i, levels ≤ i → update'[i]? = update[i]? := by
  induction levels generalizing update with
  | zero => exact ⟨update, rfl, hlen, by simp, fun _ _ => rfl⟩
  | succ n ih =>
    have hn : n < update.length := by omega
    obtain ⟨update', hdesc, hlen', hrec, hrest⟩ := ih
      (update.set n (some (s.pred cells₁ n))) (by omega) (by simpa using hlen)
    refine ⟨update', ?_, hlen', fun i hi => ?_, fun i hi => ?_⟩
    · rw [descend, walk_pred h hlt hge (by omega)]
      simpa [setUpdate, hn] using hdesc
    · rcases Nat.lt_succ_iff_lt_or_eq.mp hi with hi | rfl
      · exact hrec i hi
      · rw [hrest i le_rfl, List.getElem?_set_self hn]
    · rw [hrest i (by omega), List.getElem?_set_ne (by omega)]

/-- The descent of an operation, from the header at the current height. -/
theorem descend_ok :
    ∃ update, s.descend key (s.skipListLevel + 1) s.header
        (List.replicate (s.maxLevel + 1) none) = .ok (s.pred cells₁ 0, update) ∧
      update.length = s.maxLevel + 1 ∧
      ∀ i ≤ s.skipListLevel, update[i]? = some (some (s.pred cells₁ i)) := by
  obtain ⟨update, hdesc, hlen, hrec, -⟩ := descend_pred h hlt hge
    (List.replicate (s.maxLevel + 1) none) (Nat.succ_le_succ h.height_le) List.length_replicate
  rw [pred_top h] at hdesc
  exact ⟨update, hdesc, hlen, fun i hi => hrec i (Nat.lt_succ_of_le hi)⟩

/-- The descent of `search_element` and `get_element`. -/
theorem locate_pred {levels : ℕ} (hlev : levels ≤ s.maxLevel + 1) :
    s.locate key levels (s.pred cells₁ levels) = .ok (s.pred cells₁ 0) := by
  induction levels with
  | zero => rfl
  | succ n ih =>
    rw [locate, walk_pred h hlt hge (by omega), ok_bind]
    exact ih (by omega)

theorem locate_ok : s.locate key (s.skipListLevel + 1) s.header = .ok (s.pred cells₁ 0) := by
  rw [← locate_pred h hlt hge (Nat.succ_le_succ h.height_le), pred_top h]

omit hlt hge

/-- What follows the predecessor on level `i`. -/
theorem chain_pred (hi : i ≤ s.maxLevel) :
    Chain (s.next i) (s.pred cells₁ i) (reach i cells₂) := by
  have hchain := h.chain i hi
  rw [reach_append] at hchain
  exact hchain.suffix

/-- `current = current->forward[0]` after the descent is the first cell not before the key. -/
theorem forwardAt_pred_zero :
    s.forwardAt (some (s.pred cells₁ 0)) 0 = .ok ((cells₂.map Cell.addr).head?) := by
  rw [forwardAt_of_next (chain_pred h (Nat.zero_le _)).next_eq, reach_zero]

end Split

/-- Around a cell of the list lie the smaller and the larger keys. -/
theorem Shape.split_at {e : Cell K V} (h : Shape s (cells₁ ++ e :: cells₂)) :
    (∀ e' ∈ cells₁, e'.key < e.key) ∧ ∀ e' ∈ e :: cells₂, ¬ e'.key < e.key := by
  have hpw := List.pairwise_append.mp h.sorted
  refine ⟨fun e' he' => hpw.2.2 e' he' e (List.mem_cons_self ..), fun e' he' => ?_⟩
  rcases List.mem_cons.mp he' with rfl | he'
  · exact lt_irrefl _
  · exact ((List.pairwise_cons.mp hpw.2.1).1 e' he').asymm

/-- Every sorted list of cells splits at a key into the smaller cells and the rest. -/
theorem exists_split (h : cells.Pairwise (·.key < ·.key)) (key : K) :
    ∃ cells₁ cells₂, cells = cells₁ ++ cells₂ ∧ (∀ e ∈ cells₁, e.key < key) ∧
      ∀ e ∈ cells₂, ¬ e.key < key := by
  induction cells with
  | nil => exact ⟨[], [], rfl, by simp, by simp⟩
  | cons e cells ih =>
    rw [List.pairwise_cons] at h
    by_cases he : e.key < key
    · obtain ⟨cells₁, cells₂, rfl, hlt, hge⟩ := ih h.2
      exact ⟨e :: cells₁, cells₂, rfl, by simpa using ⟨he, hlt⟩, hge⟩
    · refine ⟨[], e :: cells, rfl, by simp, ?_⟩
      intro e' he'
      rcases List.mem_cons.mp he' with rfl | he'
      · exact he
      · exact fun hlt => he ((h.1 e' he').trans hlt)

/-- At a key that is present the rest starts with its cell; otherwise the rest is above it. -/
theorem head_key_or (h : (cells₁ ++ cells₂).Pairwise (·.key < ·.key))
    (hlt : ∀ e ∈ cells₁, e.key < key) (hge : ∀ e ∈ cells₂, ¬ e.key < key) :
    (∃ e cells₃, cells₂ = e :: cells₃ ∧ e.key = key) ∨
      (key ∉ (cells₁ ++ cells₂).map Cell.key ∧ ∀ e ∈ cells₂, key < e.key) := by
  by_cases hmem : key ∈ cells₂.map Cell.key
  · left
    obtain ⟨e, he, rfl⟩ := List.mem_map.mp hmem
    cases cells₂ with
    | nil => exact absurd he List.not_mem_nil
    | cons e' cells₃ =>
      refine ⟨e', cells₃, rfl, ?_⟩
      rcases List.mem_cons.mp he with rfl | he
      · rfl
      · -- a later cell with that key has the first one below it
        have hpw := (List.pairwise_append.mp h).2.1
        exact absurd ((List.pairwise_cons.mp hpw).1 e he) (hge e' (List.mem_cons_self ..))
  · right
    refine ⟨?_, fun e he => lt_of_le_of_ne (not_lt.mp (hge e he)) ?_⟩
    · rw [List.map_append, List.mem_append, not_or]
      refine ⟨fun hm => ?_, hmem⟩
      obtain ⟨e, he, heq⟩ := List.mem_map.mp hm
      exact absurd (hlt e he) (heq ▸ lt_irrefl key)
    · rintro rfl
      exact hmem (List.mem_map_of_mem he)

/-! ## The key test after the descent -/

/-- A present key is what the descent ends in front of. -/
theorem hasKey_present {e : Cell K V} (h : Shape s (cells₁ ++ e :: cells₂)) :
    s.forwardAt (some (s.pred cells₁ 0)) 0 = .ok (some e.addr) ∧
      s.hasKey (some e.addr) e.key = .ok true := by
  have hold := h.cell e (List.mem_append_right _ (List.mem_cons_self ..))
  exact ⟨forwardAt_pred_zero h, by rw [hold.hasKey, decide_eq_true rfl]⟩

theorem hasKey_absent (h : Shape s (cells₁ ++ cells₂)) (hgt : ∀ e ∈ cells₂, key < e.key) :
    s.hasKey (cells₂.map Cell.addr).head? key = .ok false := by
  cases cells₂ with
  | nil => rfl
  | cons e cells₂ =>
    have hold := h.cell e (List.mem_append_right _ (List.mem_cons_self ..))
    have hne : ¬ e.key = key := (hgt e (List.mem_cons_self ..)).ne'
    rw [List.map_cons, List.head?_cons, hold.hasKey, decide_eq_false hne]

end CoKV.SkipList
