import CoKV.KVserver.Connection

/-!
# The room in `kvlist`

`kvstore_skiplist_token` stores every token it finds, and `handleClient` allocates 128 slots.
`slots_inside_iff`: the slots that are written are there exactly if at most 128 words end in what is
received; 1024 bytes have room for 512.
-/

namespace CoKV.KVserver

/-- The slots that `kvlist[idx++] = token` writes from `idx` on. What has been stored stays, when a
later call of `strtok` reads behind the memory. -/
def stores : (fuel : ℕ) → (mem : List UInt8) → (p idx : ℕ) → List ℕ
  | 0, _, _, _ => []
  | fuel + 1, mem, p, idx =>
    match strtok space mem p with
    | none | some ⟨none, _, _⟩ => []
    | some ⟨some _, saved, mem⟩ => idx :: stores fuel mem saved (idx + 1)

/-- The slots that `kvstore_skiplist_token` writes; the memory's length is enough fuel for it. -/
def slotsWritten (mem : List UInt8) : List ℕ := stores (mem.length + 1) mem 0 0

section Stores

variable {mem mem' : List UInt8} {fuel p idx : ℕ} {found : List ℕ}

/-- One turn of the loop. -/
theorem stores_step {t saved : ℕ} (h : strtok space mem p = some ⟨some t, saved, mem'⟩) :
    stores (fuel + 1) mem p idx = idx :: stores fuel mem' saved (idx + 1) := by
  rw [stores, h]

theorem stores_null {saved : ℕ} (h : strtok space mem p = some ⟨none, saved, mem'⟩) :
    stores (fuel + 1) mem p idx = [] := by
  rw [stores, h]

theorem stores_behind (h : strtok space mem p = none) : stores (fuel + 1) mem p idx = [] := by
  rw [stores, h]

/-- The loop as `kvstore_skiplist_token` runs it: one slot for each token. -/
theorem stores_of_strtokLoop (h : strtokLoop space fuel mem p = some (found, mem')) :
    stores fuel mem p idx = List.range' idx found.length := by
  induction fuel generalizing mem p idx found with
  | zero => cases h
  | succ fuel ih =>
    unfold strtokLoop at h
    cases hcall : strtok space mem p with
    | none =>
      rw [hcall] at h
      cases h
    | some r =>
      obtain ⟨token, saved, mem₁⟩ := r
      rw [hcall] at h
      cases token with
      | none =>
        cases h
        rw [stores_null hcall]
        rfl
      | some t =>
        obtain ⟨⟨ts, mem₂⟩, hloop, heq⟩ := Option.map_eq_some_iff.mp h
        cases heq
        rw [stores_step hcall, ih hloop]
        rfl

/-- **The loop from `p` on**, up to the first NUL or behind the memory: one slot for each word that
ends. -/
theorem stores_eq {s tail : List UInt8} (hs : 0 ∉ s) (htail : tail = [] ∨ ∃ rest, tail = 0 :: rest)
    (pre : List UInt8) (idx : ℕ) (hfuel : s.length < fuel) :
    stores fuel (pre ++ (s ++ tail)) pre.length idx
      = List.range' idx (wordEnds space (s ++ tail)) := by
  induction fuel generalizing s pre idx with
  | zero => exact absurd hfuel (Nat.not_lt_zero _)
  | succ fuel ih =>
    obtain ⟨gap, hgap, rfl | ⟨word, hne, hword, hs'⟩⟩ := exists_word space hs
    · -- no word is left
      rw [wordEnds_gap_append zero_notMem_space hgap]
      rcases htail with rfl | ⟨rest, rfl⟩
      · rw [List.append_nil, stores_behind (strtok_gap hgap)]
        rfl
      · rw [stores_null (strtok_null zero_notMem_space hgap), wordEnds_zero]
        rfl
    · have hpos : 0 < word.length := List.length_pos_iff.mpr hne
      rcases hs' with rfl | ⟨b, hb, t, ht, rfl⟩
      · rw [List.append_assoc, wordEnds_gap_append zero_notMem_space hgap]
        rcases htail with rfl | ⟨rest, rfl⟩
        · -- the last word does not end
          rw [wordEnds_word_append hne hword (by simp), List.append_nil,
            stores_behind (strtok_word_end hgap hne hword)]
          rfl
        · -- the NUL ends it, and the next call finds the NUL again
          have hnext := ih (s := []) nofun (pre ++ (gap ++ word)) (idx + 1)
            (by simp at hfuel ⊢; omega)
          rw [wordEnds_word_append hne hword (by simp), stores_step (strtok_word hgap hne hword)]
          simp only [List.length_append, List.append_assoc, List.nil_append, ← Nat.add_assoc] at hnext
          rw [hnext, wordEnds_zero]
          rfl
      · -- a space ends it
        have hnext := ih ht (pre ++ (gap ++ (word ++ [0]))) (idx + 1)
          (by simp at hfuel ⊢; omega)
        have hends : wordEnds space (gap ++ (word ++ b :: (t ++ tail)))
            = wordEnds space (t ++ tail) + 1 := by
          rw [wordEnds_gap_append zero_notMem_space hgap,
            wordEnds_word_append hne hword (by simp [hb]), wordEnds_delim zero_notMem_space hb]
          simp
        have hmem : pre ++ (gap ++ (word ++ b :: t) ++ tail)
            = pre ++ (gap ++ (word ++ b :: (t ++ tail))) := by simp
        have hsame : gap ++ (word ++ b :: t) ++ tail = gap ++ (word ++ b :: (t ++ tail)) := by simp
        rw [hmem, stores_step (strtok_word_delim zero_notMem_space hgap hne hword hb), hsame, hends]
        simp only [List.length_append, List.length_singleton, List.append_assoc,
          List.singleton_append, ← Nat.add_assoc] at hnext
        rw [hnext]
        rfl

/-- The slots are the first ones, one for each word that ends. -/
theorem slotsWritten_eq (mem : List UInt8) :
    slotsWritten mem = List.range (wordEnds space mem) := by
  have hsplit : ∃ s tail, mem = s ++ tail ∧ 0 ∉ s ∧ (tail = [] ∨ ∃ rest, tail = 0 :: rest) := by
    by_cases hzero : 0 ∈ mem
    · obtain ⟨s, rest, hmem, hs⟩ := List.eq_append_cons_of_mem hzero
      exact ⟨s, 0 :: rest, hmem, hs, Or.inr ⟨rest, rfl⟩⟩
    · exact ⟨mem, [], (List.append_nil mem).symm, hzero, Or.inl rfl⟩
  obtain ⟨s, tail, rfl, hs, htail⟩ := hsplit
  have hfuel : s.length < (s ++ tail).length + 1 := by
    rw [List.length_append]
    omega
  rw [List.range_eq_range']
  exact stores_eq hs htail [] 0 hfuel

end Stores

/-- **The slots that are written** are slots of `kvlist` exactly if at most 128 words end in the
memory, up to its first NUL; and if `strtok` has found that, they are as many as the tokens. -/
theorem slots_inside_iff (rbuf : List UInt8) (r : Message) (behind : List UInt8) :
    ((∀ i ∈ slotsWritten (received rbuf ⟨r.data, behind⟩), i < kvlistRoom) ↔
      wordEnds space (received rbuf ⟨r.data, behind⟩) ≤ kvlistRoom) ∧
    ∀ found mem, kvstoreSkiplistToken (received rbuf ⟨r.data, behind⟩) = some (found, mem) →
      slotsWritten (received rbuf ⟨r.data, behind⟩) = List.range found.length := by
  constructor
  · rw [slotsWritten_eq]
    constructor
    · intro h
      by_contra hlt
      have hlast := h kvlistRoom (List.mem_range.mpr (Nat.lt_of_not_le hlt))
      exact absurd hlast (Nat.lt_irrefl _)
    · intro h i hi
      exact Nat.lt_of_lt_of_le (List.mem_range.mp hi) h
  · intro found mem h
    rw [List.range_eq_range']
    exact stores_of_strtokLoop h

/-- 129 words of one byte, and a NUL. -/
def manyWords : Message where
  data := (List.replicate 128 [97, 32]).flatten ++ [97, 0]
  pos := by decide +kernel
  le := by decide +kernel

/-- **Too many words**: 258 bytes are received, and the last of their words is stored behind
`kvlist`. -/
theorem many_not_inside : ¬ ∀ (rbuf : List UInt8) (r : Message) (behind : List UInt8),
    rbuf.length = bufSize →
    ∀ i ∈ slotsWritten (received rbuf ⟨r.data, behind⟩), i < kvlistRoom := by
  intro h
  have hends : wordEnds space (received (List.replicate bufSize 0) ⟨manyWords.data, []⟩) = 129 := by
    decide +kernel
  have hlast := h (List.replicate bufSize 0) manyWords [] List.length_replicate 128 (by
    rw [slotsWritten_eq, hends]
    exact List.mem_range.mpr (by decide))
  exact absurd hlast (by decide)

end CoKV.KVserver
