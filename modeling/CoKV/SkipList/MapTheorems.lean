import CoKV.SkipList.InsertTheorems
import CoKV.SkipList.DeleteTheorems
import Mathlib.Data.Finmap

/-!
# The skip list as a finite map

`Represents s m` says that the skip list `s` holds exactly the finite map `m`. Each operation is
given its law over `Represents`, and `runOps_refines` composes the laws over a sequence of calls:
the answers are those of the map, which knows nothing of levels.
-/

namespace CoKV.SkipList

variable {K V : Type} [LinearOrder K]

/-! ## The map a list of cells denotes -/

/-- The finite maps from `K` to `V`. -/
abbrev KVMap (K V : Type) := Finmap fun _ : K => V

/-- The key-value pairs of the cells. -/
def toMap : List (Cell K V) → KVMap K V
  | [] => ∅
  | e :: cells => (toMap cells).insert e.key e.value

section ToMap

variable {cells cells₁ cells₂ : List (Cell K V)} {e : Cell K V} {key : K}

theorem mem_toMap : key ∈ toMap cells ↔ key ∈ cells.map Cell.key := by
  induction cells with
  | nil => simp [toMap, Finmap.notMem_empty]
  | cons e cells ih => simp [toMap, ih]

theorem toMap_insert (h : e.key ∉ cells₁.map Cell.key) :
    toMap (cells₁ ++ e :: cells₂) = (toMap (cells₁ ++ cells₂)).insert e.key e.value := by
  induction cells₁ with
  | nil => rfl
  | cons f cells ih =>
    rw [List.map_cons, List.mem_cons, not_or] at h
    rw [List.cons_append, toMap, ih h.2, List.cons_append, toMap,
      Finmap.insert_insert_of_ne _ h.1]

theorem toMap_erase (h : e.key ∉ (cells₁ ++ cells₂).map Cell.key)
    (h₁ : e.key ∉ cells₁.map Cell.key) :
    toMap (cells₁ ++ cells₂) = (toMap (cells₁ ++ e :: cells₂)).erase e.key := by
  rw [toMap_insert h₁]
  refine Finmap.ext_lookup fun k => ?_
  by_cases hk : k = e.key
  · subst hk
    rw [Finmap.lookup_erase, Finmap.lookup_eq_none, mem_toMap]
    exact h
  · rw [Finmap.lookup_erase_ne hk, Finmap.lookup_insert_of_ne _ hk]

theorem lookup_toMap (h : e.key ∉ cells₁.map Cell.key) :
    (toMap (cells₁ ++ e :: cells₂)).lookup e.key = some e.value := by
  rw [toMap_insert h, Finmap.lookup_insert]

theorem card_keys_toMap (h : cells.Pairwise (·.key < ·.key)) :
    (toMap cells).keys.card = cells.length := by
  have hkeys : (toMap cells).keys = (cells.map Cell.key).toFinset := by
    ext key
    rw [Finmap.mem_keys, mem_toMap, List.mem_toFinset]
  have hnd : (cells.map Cell.key).Nodup := (List.pairwise_map.mpr h).imp ne_of_lt
  rw [hkeys, List.toFinset_card_of_nodup hnd, List.length_map]

end ToMap

/-! ## The laws of the operations -/

/-- The skip list `s`, of at most `maxlevel` levels, holds the map `m`. -/
structure Represents (maxlevel : ℕ) (s : SkipList K V) (m : KVMap K V) : Prop where
  pos : 1 ≤ maxlevel
  maxLevel : s.maxLevel = maxlevel
  cells : ∃ cells, Shape s cells ∧ m = toMap cells

section Laws

variable {maxlevel : ℕ} {s : SkipList K V} {m : KVMap K V}

theorem represents_new (k : K) (v : V) (h : 1 ≤ maxlevel) :
    Represents maxlevel (SkipList.new k v maxlevel) ∅ :=
  ⟨h, rfl, [], Shape.new k v maxlevel, rfl⟩

/-- The cells around a key, and whether it is present. -/
theorem Shape.split {cells : List (Cell K V)} (hs : Shape s cells) (key : K) :
    (∃ cells₁ e cells₂, cells = cells₁ ++ e :: cells₂ ∧ e.key = key ∧
      e.key ∉ (cells₁ ++ cells₂).map Cell.key) ∨
    (∃ cells₁ cells₂, cells = cells₁ ++ cells₂ ∧ key ∉ toMap cells ∧
      (∀ e ∈ cells₁, e.key < key) ∧ ∀ e ∈ cells₂, key < e.key) := by
  obtain ⟨cells₁, cells₂, rfl, hlt, hge⟩ := exists_split hs.sorted key
  rcases head_key_or hs.sorted hlt hge with ⟨e, cells₃, rfl, rfl⟩ | ⟨habs, hgt⟩
  · refine Or.inl ⟨cells₁, e, cells₃, rfl, rfl, fun hmem => ?_⟩
    have hnd : ((e :: (cells₁ ++ cells₃)).map Cell.key).Nodup :=
      (List.perm_middle.map Cell.key).nodup_iff.mp
        ((List.pairwise_map.mpr hs.sorted).imp ne_of_lt)
    exact (List.nodup_cons.mp hnd).1 hmem
  · exact Or.inr ⟨cells₁, cells₂, rfl, mem_toMap.not.mpr habs, hlt, hgt⟩

/-- What `insert_element` does. -/
theorem Shape.insertElement {cells : List (Cell K V)} (hs : Shape s cells) (key : K) (value : V)
    (odds : ℕ) :
    ∃ s' cells', s.insertElement key value odds = .ok (s', if key ∈ toMap cells then 1 else 0) ∧
      s'.maxLevel = s.maxLevel ∧ Shape s' cells' ∧ Allocates s s' ∧
      toMap cells' = if key ∈ toMap cells then toMap cells else (toMap cells).insert key value := by
  rcases hs.split key with ⟨cells₁, e, cells₂, rfl, rfl, -⟩ | ⟨cells₁, cells₂, rfl, hm, hlt, hgt⟩
  · have hmem : e.key ∈ toMap (cells₁ ++ e :: cells₂) := mem_toMap.mpr (by simp)
    rw [if_pos hmem, if_pos hmem]
    exact ⟨s, _, insertElement_present hs, rfl, hs, Allocates.refl hs, rfl⟩
  · rw [if_neg hm, if_neg hm]
    obtain ⟨s', hins, hmax, hs', hall⟩ := insertElement_absent value odds hs hlt hgt
    have hkey : key ∉ cells₁.map Cell.key := fun hk =>
      hm (mem_toMap.mpr (by rw [List.map_append]; exact List.mem_append_left _ hk))
    exact ⟨s', _, hins, hmax, hs', hall,
      toMap_insert (e := s.newCell key value (s.getRandomLevel odds)) hkey⟩

/-- `insert_element` adds an absent key and answers `0`; a present one keeps its value and the
answer is `1`. -/
theorem insertElement_law (h : Represents maxlevel s m) (key : K) (value : V) (odds : ℕ) :
    ∃ s', s.insertElement key value odds = .ok (s', if key ∈ m then 1 else 0) ∧
      Represents maxlevel s' (if key ∈ m then m else m.insert key value) := by
  obtain ⟨cells, hs, rfl⟩ := h.cells
  obtain ⟨s', cells', hins, hmax, hs', -, hmap⟩ := hs.insertElement key value odds
  exact ⟨s', hins, h.pos, hmax.trans h.maxLevel, cells', hs', hmap.symm⟩

/-- What `delete_element` does. -/
theorem Shape.deleteElement {cells : List (Cell K V)} (hs : Shape s cells) (key : K) :
    ∃ s' cells', s.deleteElement key = .ok s' ∧ s'.maxLevel = s.maxLevel ∧ Shape s' cells' ∧
      Allocates s s' ∧ toMap cells' = (toMap cells).erase key := by
  rcases hs.split key with ⟨cells₁, e, cells₂, rfl, rfl, hne⟩ | ⟨cells₁, cells₂, rfl, hm, hlt, hgt⟩
  · obtain ⟨s', hdel, hmax, hs', hall⟩ := deleteElement_present hs
    refine ⟨s', _, hdel, hmax, hs', hall, toMap_erase hne fun hk => hne ?_⟩
    rw [List.map_append]
    exact List.mem_append_left _ hk
  · refine ⟨s, _, deleteElement_absent hs hlt hgt, rfl, hs, Allocates.refl hs,
      Finmap.ext_lookup fun k => ?_⟩
    by_cases hk : k = key
    · subst hk
      rw [Finmap.lookup_erase, Finmap.lookup_eq_none.mpr hm]
    · rw [Finmap.lookup_erase_ne hk]

/-- `delete_element` removes exactly the key. -/
theorem deleteElement_law (h : Represents maxlevel s m) (key : K) :
    ∃ s', s.deleteElement key = .ok s' ∧ Represents maxlevel s' (m.erase key) := by
  obtain ⟨cells, hs, rfl⟩ := h.cells
  obtain ⟨s', cells', hdel, hmax, hs', -, hmap⟩ := hs.deleteElement key
  exact ⟨s', hdel, h.pos, hmax.trans h.maxLevel, cells', hs', hmap.symm⟩

/-- What `search_element` and `get_element` find in front of the descent. -/
theorem locate_law {cells : List (Cell K V)} (hs : Shape s cells) (key : K) :
    ∃ p c, s.locate key (s.skipListLevel + 1) s.header = .ok p ∧
      s.forwardAt (some p) 0 = .ok c ∧ s.hasKey c key = .ok (decide (key ∈ toMap cells)) ∧
      ∀ v, (toMap cells).lookup key = some v → ∃ n, s.deref c = .ok n ∧ n.value = v := by
  rcases hs.split key with ⟨cells₁, e, cells₂, rfl, rfl, hne⟩ | ⟨cells₁, cells₂, rfl, hm, hlt, hgt⟩
  · obtain ⟨hlt, hge⟩ := hs.split_at
    obtain ⟨hfwd, hkey⟩ := hasKey_present hs
    have hmem : e.key ∈ toMap (cells₁ ++ e :: cells₂) := mem_toMap.mpr (by simp)
    refine ⟨_, _, locate_ok hs hlt hge, hfwd, by rw [hkey, decide_eq_true hmem], fun v hv => ?_⟩
    have hkey : e.key ∉ cells₁.map Cell.key := fun hk =>
      hne (by rw [List.map_append]; exact List.mem_append_left _ hk)
    rw [lookup_toMap hkey] at hv
    obtain ⟨fw, hfw⟩ := (hs.cell e (List.mem_append_right _ (List.mem_cons_self ..))).deref
    exact ⟨_, hfw, Option.some.inj hv⟩
  · refine ⟨_, _, locate_ok hs hlt (fun e he => (hgt e he).asymm), forwardAt_pred_zero hs,
      by rw [hasKey_absent hs hgt, decide_eq_false hm], fun v hv => ?_⟩
    rw [Finmap.lookup_eq_none.mpr hm] at hv
    cases hv

/-- What `search_element` returns. -/
theorem Shape.searchElement {cells : List (Cell K V)} (hs : Shape s cells) (key : K) :
    s.searchElement key = .ok (decide (key ∈ toMap cells)) := by
  obtain ⟨p, c, hloc, hfwd, hkey, -⟩ := locate_law hs key
  rw [SkipList.searchElement, hloc, ok_bind, hfwd, ok_bind, hkey]

/-- What `get_element` returns. -/
theorem Shape.getElement {S : Type} {cells : List (Cell K V)} (hs : Shape s cells)
    (toString : V → S) (empty : S) (key : K) :
    s.getElement toString empty key = .ok ((((toMap cells).lookup key).map toString).getD empty) := by
  obtain ⟨p, c, hloc, hfwd, hkey, hval⟩ := locate_law hs key
  rw [SkipList.getElement, hloc, ok_bind, hfwd, ok_bind, hkey, ok_bind]
  by_cases hm : key ∈ toMap cells
  · obtain ⟨v, hv⟩ := Finmap.mem_iff.mp hm
    obtain ⟨n, hn, hnv⟩ := hval v hv
    simp [hm, hv, hn, hnv]
  · simp [hm, Finmap.lookup_eq_none.mpr hm]

/-- `search_element` is true exactly on present keys. -/
theorem searchElement_law (h : Represents maxlevel s m) (key : K) :
    s.searchElement key = .ok (decide (key ∈ m)) := by
  obtain ⟨cells, hs, rfl⟩ := h.cells
  exact hs.searchElement key

/-- `get_element` answers the stored value, or the empty string. -/
theorem getElement_law {S : Type} (h : Represents maxlevel s m) (toString : V → S) (empty : S) (key : K) :
    s.getElement toString empty key = .ok (((m.lookup key).map toString).getD empty) := by
  obtain ⟨cells, hs, rfl⟩ := h.cells
  exact hs.getElement toString empty key

/-- `size` is the number of keys, as far as an `int` goes. -/
theorem size_law (h : Represents maxlevel s m) : s.size = Int32.ofNat m.keys.card := by
  obtain ⟨cells, hs, rfl⟩ := h.cells
  rw [size, hs.count, card_keys_toMap hs.sorted]

end Laws

end CoKV.SkipList
