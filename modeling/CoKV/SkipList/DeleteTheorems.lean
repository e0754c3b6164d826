import CoKV.SkipList.Relink

/-!
# `delete_element` keeps the shape

An absent key leaves the list as it is. A present one loses its node: the loop unlinks it on
every level it reaches, the height falls to the largest level that is left, and only then is
the node freed.
-/

namespace CoKV.SkipList

variable {K V : Type} [LinearOrder K] {s : SkipList K V} {cells₁ cells₂ : List (Cell K V)}
  {key : K} {e : Cell K V}

/-- The unlinking loop, from a list that has the cell `e`. -/
theorem unlink_cell (h : Shape s (cells₁ ++ e :: cells₂)) {update : List (Option Addr)}
    (hupd : ∀ j ≤ s.skipListLevel, update[j]? = some (some (s.pred cells₁ j))) :
    ∃ t, unlink update (some e.addr) 0 (s.skipListLevel + 1) s = .ok t ∧ Relinked s t ∧
      ∀ j ≤ s.maxLevel, Chain (t.next j) s.header (reach j (cells₁ ++ cells₂)) := by
  have he : e ∈ cells₁ ++ e :: cells₂ := List.mem_append_right _ (List.mem_cons_self ..)
  have hlevel : e.level ≤ s.skipListLevel := h.height ▸ level_le_height he
  have hslv := h.height_le
  have hlow : ∀ j ≤ e.level, Chain (s.next j) s.header
      (reach j cells₁ ++ e.addr :: reach j cells₂) := fun j hj => by
    have hchain := h.chain j (by omega)
    rwa [reach_append, reach_cons_of_le hj] at hchain
  have hhigh : ∀ j, e.level < j → j ≤ s.maxLevel → Chain (s.next j) s.header
      (reach j cells₁ ++ reach j cells₂) := fun j hj hjm => by
    have hchain := h.chain j hjm
    rwa [reach_append, reach_cons_of_lt hj] at hchain
  have htall : ∀ j < 0 + (s.skipListLevel + 1), s.Tall j (s.pred cells₁ j) := fun j hj => by
    refine h.tall_of_mem (by omega) ?_
    rw [reach_append]
    exact Chain.getLastD_mem_append
  -- on no level does the node appear twice
  have hnd : ∀ j, (s.header :: (reach j cells₁ ++ e.addr :: reach j cells₂)).Nodup := fun j =>
    h.nodup.sublist (by
      rw [List.map_append, List.map_cons]
      exact (reach_sublist.append (reach_sublist.cons_cons _)).cons_cons _)
  obtain ⟨t, hun, hrel, hchain, hrest⟩ := unlink_ok update s.header (reach · cells₁)
    (reach · cells₂) e.level (i := 0) (n := s.skipListLevel + 1) (by omega) (Nat.zero_le _)
    (fun j hj => hupd j (by omega)) htall hnd (by simp) (fun j _ hj => hlow j hj)
    (fun j hj hjs => hhigh j hj (by omega))
  refine ⟨t, hun, hrel, fun j hj => ?_⟩
  rw [reach_append]
  by_cases hje : j ≤ e.level
  · exact hchain j hje
  · exact (hhigh j (by omega) hj).congr fun a _ => hrest j (by omega) a

/-- What the loop leaves behind, with the node freed and the height and the counter lowered,
is the list without the cell. -/
theorem Shape.delete (h : Shape s (cells₁ ++ e :: cells₂)) {t : SkipList K V}
    (hrel : Relinked s t)
    (hchain : ∀ j ≤ s.maxLevel, Chain (t.next j) s.header (reach j (cells₁ ++ cells₂))) :
    Shape { t with
      skipListLevel := SkipList.height (cells₁ ++ cells₂)
      heap := fun b => if some b = some e.addr then none else t.heap b
      elementCount := t.elementCount - 1 } (cells₁ ++ cells₂) := by
  have hheader : t.header = s.header := hrel.header
  have hmax : t.maxLevel = s.maxLevel := hrel.maxLevel
  have hperm : (s.header :: (cells₁ ++ e :: cells₂).map Cell.addr).Perm
      (e.addr :: s.header :: (cells₁ ++ cells₂).map Cell.addr) :=
    ((List.perm_middle.map Cell.addr).cons _).trans (List.Perm.swap ..)
  have hnd := List.nodup_cons.mp (hperm.nodup_iff.mp h.nodup)
  have hne : ∀ {a}, a ∈ s.header :: (cells₁ ++ cells₂).map Cell.addr → a ≠ e.addr :=
    fun ha heq => hnd.1 (heq ▸ ha)
  have hmem : ∀ {f}, f ∈ cells₁ ++ cells₂ → f ∈ cells₁ ++ e :: cells₂ := fun hf =>
    List.perm_middle.mem_iff.mpr (List.mem_cons_of_mem _ hf)
  -- freeing the node does not touch the others
  have hfree : ∀ {a k v level}, a ≠ e.addr → t.Holds a k v level →
      ∃ fw : List (Option Addr), (if some a = some e.addr then none else t.heap a)
        = some ⟨k, v, level, fw⟩ ∧ fw.length = level + 1 := fun ha hold => by
    obtain ⟨fw, hfw, hlen⟩ := hold
    exact ⟨fw, by simp [ha, hfw], hlen⟩
  exact {
    header := by
      obtain ⟨k, v, hold⟩ := h.header
      rw [hheader, hmax]
      exact ⟨k, v, hfree (hne (List.mem_cons_self ..)) (hrel.holds hold)⟩
    cell := fun f hf => hfree (hne (List.mem_cons_of_mem _ (List.mem_map_of_mem hf)))
      (hrel.holds (h.cell f (hmem hf)))
    level := fun f hf => by
      rw [hmax]
      exact h.level f (hmem hf)
    nodup := by
      rw [hheader]
      exact hnd.2
    sorted := h.sorted.sublist ((List.sublist_cons_self ..).append_left _)
    chain := fun i hi => by
      rw [hheader]
      refine (hchain i (hmax ▸ hi)).congr fun a ha => ?_
      have hae : a ≠ e.addr := hne ((reach_sublist.cons_cons _).mem ha)
      simp [next, hae]
    height := rfl
    count := by
      have hc : t.elementCount = s.elementCount := by rw [hrel.fields]
      have hlen : (cells₁ ++ e :: cells₂).length = (cells₁ ++ cells₂).length + 1 :=
        List.perm_middle.length_eq
      have hcount := h.count
      rw [hlen, Int32.ofNat_add] at hcount
      rw [hc, hcount]
      exact Int32.add_sub_cancel ..
    live := fun a => by
      rw [hheader]
      by_cases ha : a = e.addr
      · subst ha
        simpa using hnd.1
      · have hlive := h.live a
        rw [hperm.mem_iff, List.mem_cons] at hlive
        simpa [ha, hrel.alloc a] using hlive
    fresh := fun a ha => by
      have hb : t.brk = s.brk := by rw [hrel.fields]
      rw [hheader] at ha
      rw [hb]
      exact h.fresh a (hperm.mem_iff.mpr (List.mem_cons_of_mem _ ha)) }

/-- An absent key: nothing changes. -/
theorem deleteElement_absent (h : Shape s (cells₁ ++ cells₂)) (hlt : ∀ e ∈ cells₁, e.key < key)
    (hgt : ∀ e ∈ cells₂, key < e.key) : s.deleteElement key = .ok s := by
  obtain ⟨update, hdesc, -⟩ := descend_ok h hlt (fun e he => (hgt e he).asymm)
  simp only [deleteElement, hdesc, forwardAt_pred_zero h, hasKey_absent h hgt, ok_bind,
    Bool.false_eq_true, if_false]
  rfl

/-- No node is allocated. -/
theorem Allocates.delete {t : SkipList K V} (h : Shape s (cells₁ ++ e :: cells₂))
    (ht : Shape t (cells₁ ++ cells₂)) (hheader : t.header = s.header) (hbrk : t.brk = s.brk) :
    Allocates s t := by
  have hlive : ∀ a, (t.heap a).isSome → (s.heap a).isSome := by
    intro a
    rw [ht.live, h.live, hheader]
    simp only [List.map_append, List.map_cons, List.mem_cons, List.mem_append]
    tauto
  refine ⟨fun a _ => hlive a, fun a hge => ?_, Nat.le_of_eq hbrk.symm⟩
  rw [hbrk]
  constructor
  · exact fun ha => ((Allocates.refl h).new a hge).mp (hlive a ha)
  · exact fun hlt => absurd hlt (Nat.not_lt.mpr hge)

/-- A present key: the list loses its cell. -/
theorem deleteElement_present (h : Shape s (cells₁ ++ e :: cells₂)) :
    ∃ s', s.deleteElement e.key = .ok s' ∧ s'.maxLevel = s.maxLevel ∧
      Shape s' (cells₁ ++ cells₂) ∧ Allocates s s' := by
  obtain ⟨hlt, hge⟩ := h.split_at
  obtain ⟨update, hdesc, -, hrec⟩ := descend_ok h hlt hge
  obtain ⟨t, hun, hrel, hchain⟩ := unlink_cell h hrec
  have hlevel : t.skipListLevel = s.skipListLevel := by rw [hrel.fields]
  have hsub : height (cells₁ ++ cells₂) ≤ t.skipListLevel := by
    rw [hlevel, h.height, height_le_iff]
    exact fun f hf => level_le_height (List.perm_middle.mem_iff.mpr (List.mem_cons_of_mem _ hf))
  -- the chains are already those of the shorter list
  have htrim : t.trim t.skipListLevel = .ok (height (cells₁ ++ cells₂)) := by
    refine trim_ok (fun j hj => ?_) hsub
    have := h.height_le
    rw [hrel.header]
    exact hchain j (by omega)
  obtain ⟨fw, hfw⟩ := (hrel.holds (h.cell e (List.mem_append_right _
    (List.mem_cons_self ..)))).deref
  have hfw' : { t with skipListLevel := SkipList.height (cells₁ ++ cells₂) }.deref (some e.addr)
      = .ok ⟨e.key, e.value, e.level, fw⟩ := hfw
  obtain ⟨hfwd, hkey⟩ := hasKey_present h
  refine ⟨{ t with
    skipListLevel := SkipList.height (cells₁ ++ cells₂)
    heap := fun b => if some b = some e.addr then none else t.heap b
    elementCount := t.elementCount - 1 }, ?_, hrel.maxLevel, h.delete hrel hchain,
    Allocates.delete h (h.delete hrel hchain) hrel.header hrel.brk⟩
  simp only [deleteElement, hdesc, hfwd, hkey, ok_bind, if_true, hun, htrim, free, hfw']
  rfl

end CoKV.SkipList
