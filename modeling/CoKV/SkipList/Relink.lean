import CoKV.SkipList.Descent

/-!
# The splicing and unlinking loops

`insert_element` and `delete_element` change links only, level by level. `Relinked s t` says
that `t` is `s` up to links; the two loop theorems say what the chains are after any number of
levels, from the recorded predecessors.
-/

namespace CoKV.SkipList

variable {K V : Type}

/-- `t` has the nodes and fields of `s`, with some links overwritten. -/
structure Relinked (s t : SkipList K V) : Prop where
  fields : t = { s with heap := t.heap }
  holds : ∀ {a k v level}, s.Holds a k v level → t.Holds a k v level
  alloc : ∀ a, (t.heap a).isSome = (s.heap a).isSome

namespace Relinked

variable {s t u : SkipList K V}

theorem refl (s : SkipList K V) : Relinked s s := ⟨rfl, id, fun _ => rfl⟩

theorem trans (h : Relinked s t) (h' : Relinked t u) : Relinked s u where
  fields := by rw [h'.fields, h.fields]
  holds := h'.holds ∘ h.holds
  alloc a := (h'.alloc a).trans (h.alloc a)

theorem writeForward (s : SkipList K V) (a : Addr) (i : ℕ) (q : Option Addr) :
    Relinked s (s.writeForward a i q) :=
  ⟨rfl, holds_writeForward.mpr, fun _ => isSome_heap_writeForward⟩

theorem header (h : Relinked s t) : t.header = s.header := by rw [h.fields]

theorem maxLevel (h : Relinked s t) : t.maxLevel = s.maxLevel := by rw [h.fields]

theorem brk (h : Relinked s t) : t.brk = s.brk := by rw [h.fields]

end Relinked

/-- Level `i` can be written in the node at `a`. -/
def Tall (s : SkipList K V) (i : ℕ) (a : Addr) : Prop :=
  ∃ k v level, s.Holds a k v level ∧ i ≤ level

theorem Tall.relinked {s t : SkipList K V} {i : ℕ} {a : Addr} (h : s.Tall i a)
    (ht : Relinked s t) : t.Tall i a := by
  obtain ⟨k, v, level, hold, hi⟩ := h
  exact ⟨k, v, level, ht.holds hold, hi⟩

theorem Tall.setForward {s : SkipList K V} {i : ℕ} {a : Addr} (h : s.Tall i a)
    (q : Option Addr) : s.setForward (some a) i q = .ok (s.writeForward a i q) := by
  obtain ⟨k, v, level, hold, hi⟩ := h
  exact hold.setForward hi q

theorem Tall.next_writeForward {s : SkipList K V} {i : ℕ} {a : Addr} (h : s.Tall i a)
    (q : Option Addr) : (s.writeForward a i q).next i a = some q := by
  obtain ⟨k, v, level, hold, hi⟩ := h
  exact next_writeForward_self hold hi

/-- The nodes a chain of level `i` goes through are tall enough for it. -/
theorem Shape.tall_of_mem [LinearOrder K] {s : SkipList K V} {cells : List (Cell K V)} {i : ℕ}
    {a : Addr} (h : Shape s cells) (hi : i ≤ s.maxLevel) (ha : a ∈ s.header :: reach i cells) :
    s.Tall i a := by
  rcases List.mem_cons.mp ha with rfl | ha
  · obtain ⟨k, v, hold⟩ := h.header
    exact ⟨k, v, s.maxLevel, hold, hi⟩
  · obtain ⟨e, he, hle, rfl⟩ := mem_reach.mp ha
    exact ⟨e.key, e.value, e.level, h.cell e he, hle⟩

/-- `update[i]` read back. -/
theorem updateAt_ok {update : List (Option Addr)} {i : ℕ} {p : Option Addr}
    (h : update[i]? = some p) : updateAt update i = .ok p := by
  simp [updateAt, h]

section Link

variable (update : List (Option Addr)) (hdr : Addr) (left right : ℕ → List Addr) {c : Addr}

/-- The splicing loop of `insert_element` over the levels from `i` to `i + n - 1`: `left j` and
`right j` are the parts of chain `j` before and behind the new node `c`. -/
theorem link_ok {i n : ℕ} {t : SkipList K V}
    (hupd : ∀ j < i + n, update[j]? = some (some ((left j).getLastD hdr)))
    (hq : ∀ j < i + n, t.Tall j ((left j).getLastD hdr))
    (hct : ∀ j < i + n, t.Tall j c)
    (hnd : ∀ j, (hdr :: (left j ++ right j)).Nodup) (hc : ∀ j, c ∉ hdr :: (left j ++ right j))
    (hdone : ∀ j < i, Chain (t.next j) hdr (left j ++ c :: right j))
    (htodo : ∀ j, i ≤ j → j < i + n → Chain (t.next j) hdr (left j ++ right j)) :
    ∃ t', link update c i n t = .ok t' ∧ Relinked t t' ∧
      (∀ j < i + n, Chain (t'.next j) hdr (left j ++ c :: right j)) ∧
      ∀ j, i + n ≤ j → ∀ a, t'.next j a = t.next j a := by
  induction n generalizing i t with
  | zero => exact ⟨t, rfl, .refl t, hdone, fun _ _ _ => rfl⟩
  | succ n ih =>
    have hin : i < i + (n + 1) := by omega
    set q := (left i).getLastD hdr with hqdef
    have hcq : c ≠ q := Chain.ne_getLastD (hc i)
    set t₁ := t.writeForward c i (right i).head?
    set t₂ := t₁.writeForward q i (some c)
    have hrel₁ : Relinked t t₁ := .writeForward ..
    have hrel : Relinked t t₂ := hrel₁.trans (.writeForward ..)
    have hfwd : t.forwardAt (some q) i = .ok (right i).head? :=
      forwardAt_of_next (htodo i le_rfl hin).suffix.next_eq
    have hstep : link update c i (n + 1) t = link update c (i + 1) n t₂ := by
      rw [link, updateAt_ok (hupd i hin)]
      simp only [ok_bind]
      rw [hfwd, ok_bind, (hct i hin).setForward, ok_bind,
        ((hq i hin).relinked hrel₁).setForward, ok_bind]
    -- links of other levels are not written
    have hother : ∀ j, j ≠ i → t₂.next j = t.next j := fun j hj => by
      funext a
      rw [next_writeForward_of_ne (Or.inr hj), next_writeForward_of_ne (Or.inr hj)]
    have hsplice : Chain (t₂.next i) hdr (left i ++ c :: right i) := by
      refine (htodo i le_rfl hin).splice (hnd i) (hc i) ?_ ?_ fun a hac haq => ?_
      · rw [next_writeForward_of_ne (Or.inl hcq), (hct i hin).next_writeForward]
        exact (htodo i le_rfl hin).suffix.next_eq.symm
      · exact ((hq i hin).relinked hrel₁).next_writeForward _
      · rw [next_writeForward_of_ne (Or.inl haq), next_writeForward_of_ne (Or.inl hac)]
    obtain ⟨t', hlink, hrel', hchain, hrest⟩ := ih (i := i + 1) (t := t₂)
      (fun j hj => hupd j (by omega)) (fun j hj => (hq j (by omega)).relinked hrel)
      (fun j hj => (hct j (by omega)).relinked hrel)
      (fun j hj => by
        rcases Nat.lt_succ_iff_lt_or_eq.mp hj with hj | rfl
        · rw [hother j (by omega)]; exact hdone j hj
        · exact hsplice)
      (fun j hj hjn => by rw [hother j (by omega)]; exact htodo j (by omega) (by omega))
    refine ⟨t', hstep.trans hlink, hrel.trans hrel', fun j hj => hchain j (by omega), ?_⟩
    intro j hj a
    rw [hrest j (by omega), hother j (by omega)]

/-- The unlinking loop of `delete_element` over the levels from `i` to `i + n - 1`, for a node
`c` of level `level`: it stops above that level, where no chain goes through `c`. -/
theorem unlink_ok (level : ℕ) {i n : ℕ} {t : SkipList K V} (hlevel : level < i + n)
    (hi : i ≤ level + 1)
    (hupd : ∀ j < i + n, update[j]? = some (some ((left j).getLastD hdr)))
    (hq : ∀ j < i + n, t.Tall j ((left j).getLastD hdr))
    (hnd : ∀ j, (hdr :: (left j ++ c :: right j)).Nodup)
    (hdone : ∀ j < i, Chain (t.next j) hdr (left j ++ right j))
    (htodo : ∀ j, i ≤ j → j ≤ level → Chain (t.next j) hdr (left j ++ c :: right j))
    (habove : ∀ j, level < j → j < i + n → Chain (t.next j) hdr (left j ++ right j)) :
    ∃ t', unlink update (some c) i n t = .ok t' ∧ Relinked t t' ∧
      (∀ j ≤ level, Chain (t'.next j) hdr (left j ++ right j)) ∧
      ∀ j, level < j → ∀ a, t'.next j a = t.next j a := by
  induction n generalizing i t with
  | zero => exact ⟨t, rfl, .refl t, fun j hj => hdone j (by omega), fun _ _ _ => rfl⟩
  | succ n ih =>
    have hin : i < i + (n + 1) := by omega
    set q := (left i).getLastD hdr with hqdef
    rcases Nat.lt_succ_iff_lt_or_eq.mp (Nat.lt_succ_of_le hi) with hle | rfl
    · -- `c` is on this level
      have hchain := htodo i le_rfl (Nat.le_of_lt_succ hle)
      set t₁ := t.writeForward q i (right i).head?
      have hrel : Relinked t t₁ := .writeForward ..
      have hfwd : t.forwardAt (some q) i = .ok (some c) :=
        forwardAt_of_next hchain.suffix.next_eq
      have hfwd' : t.forwardAt (some c) i = .ok (right i).head? :=
        forwardAt_of_next hchain.suffix.2.next_eq
      have hstep : unlink update (some c) i (n + 1) t = unlink update (some c) (i + 1) n t₁ := by
        rw [unlink, updateAt_ok (hupd i hin)]
        simp only [ok_bind]
        rw [hfwd, ok_bind, if_neg (by simp), hfwd', ok_bind, (hq i hin).setForward, ok_bind]
      have hother : ∀ j, j ≠ i → t₁.next j = t.next j := fun j hj => by
        funext a
        rw [next_writeForward_of_ne (Or.inr hj)]
      have hunlink : Chain (t₁.next i) hdr (left i ++ right i) := by
        refine hchain.unlink (hnd i) ?_ fun a ha => next_writeForward_of_ne (Or.inl ha)
        rw [(hq i hin).next_writeForward]
        exact hchain.suffix.2.next_eq.symm
      obtain ⟨t', hun, hrel', hchain', hrest⟩ := ih (i := i + 1) (t := t₁) (by omega) (by omega)
        (fun j hj => hupd j (by omega)) (fun j hj => (hq j (by omega)).relinked hrel)
        (fun j hj => by
          rcases Nat.lt_succ_iff_lt_or_eq.mp hj with hj | rfl
          · rw [hother j (by omega)]; exact hdone j hj
          · exact hunlink)
        (fun j hj hjl => by rw [hother j (by omega)]; exact htodo j (by omega) hjl)
        (fun j hj hjn => by rw [hother j (by omega)]; exact habove j hj (by omega))
      refine ⟨t', hstep.trans hun, hrel.trans hrel', hchain', fun j hj a => ?_⟩
      rw [hrest j hj, hother j (by omega)]
    · -- above the level of `c` the recorded node points past it, and the loop breaks
      have hchain := habove (level + 1) (by omega) hin
      have hne : (right (level + 1)).head? ≠ some c := fun heq => by
        have hmem := List.mem_of_mem_head? heq
        have hnd' := (List.nodup_cons.mp (hnd (level + 1))).2
        exact (List.nodup_cons.mp (List.nodup_append.mp hnd').2.1).1 hmem
      refine ⟨t, ?_, .refl t, fun j hj => hdone j (by omega), fun _ _ _ => rfl⟩
      rw [unlink, updateAt_ok (hupd _ hin)]
      simp only [ok_bind]
      rw [forwardAt_of_next hchain.suffix.next_eq, ok_bind, if_pos hne]
      rfl

end Link

/-- The height-trimming loop stops at the height of the cells. -/
theorem trim_ok {s : SkipList K V} {cells : List (Cell K V)} {l : ℕ}
    (hchain : ∀ j ≤ l, Chain (s.next j) s.header (reach j cells)) (hl : height cells ≤ l) :
    s.trim l = .ok (height cells) := by
  induction l with
  | zero => rw [Nat.le_zero.mp hl]; rfl
  | succ l ih =>
    rw [trim, forwardAt_of_next (hchain (l + 1) le_rfl).next_eq]
    rcases Nat.lt_succ_iff_lt_or_eq.mp (Nat.lt_succ_of_le hl) with hlt | heq
    · rw [reach_eq_nil hlt]
      exact ih (fun j hj => hchain j (by omega)) (Nat.le_of_lt_succ hlt)
    · have hne : reach (height cells) cells ≠ [] := reach_height_ne_nil (by omega)
      rw [heq] at hne
      obtain ⟨a, as, has⟩ := List.exists_cons_of_ne_nil hne
      rw [has, heq]
      rfl

end CoKV.SkipList
