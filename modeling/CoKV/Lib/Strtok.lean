import CoKV.Lib.CStr
import Mathlib.Algebra.Order.BigOperators.Group.List
import Mathlib.Data.List.TakeWhile

/-!
# Cutting a C string into tokens

`strtok` on a memory, which is a list of bytes, and the loop that calls it until there is no token
left. A call overwrites the delimiter behind its token and saves the position behind that; one that
finds no NUL has read behind the memory, and has no result. `words` is what the loop is for:
`strtokLoop_words` says that it cuts the string up to the first NUL into its words, and
`strtokLoop_unterminated` that it reads behind a memory without a NUL.
-/

namespace CoKV

/-- The maximal runs of bytes that are not in `delim`. -/
def words (delim s : CStr) : List CStr := (s.splitOnP (· ∈ delim)).filter (· ≠ [])

/-- What a call of `strtok` leaves: where the token starts, if there is one, the position that is
saved, and the memory. -/
structure Strtok where
  token : Option ℕ
  saved : ℕ
  mem : List UInt8

/-- `strtok(mem + p, delim)`, and `strtok(NULL, delim)` when `p` has been saved. -/
def strtok (delim : CStr) (mem : List UInt8) (p : ℕ) : Option Strtok :=
  let start := p + ((mem.drop p).takeWhile (· ∈ delim)).length
  match mem[start]? with
  | none => none
  | some b =>
    if b = 0 then some ⟨none, start, mem⟩
    else
      let stop := start + ((mem.drop start).takeWhile fun b => b ∉ delim ∧ b ≠ 0).length
      match mem[stop]? with
      | none => none
      | some b =>
        if b = 0 then some ⟨some start, stop, mem⟩
        else some ⟨some start, stop + 1, mem.set stop 0⟩

/-- `strtok` called until it returns `NULL`: where the tokens start, and the memory. -/
def strtokLoop (delim : CStr) : ℕ → List UInt8 → ℕ → Option (List ℕ × List UInt8)
  | 0, _, _ => none
  | fuel + 1, mem, p =>
    match strtok delim mem p with
    | none => none
    | some ⟨none, _, mem⟩ => some ([], mem)
    | some ⟨some t, saved, mem⟩ =>
      (strtokLoop delim fuel mem saved).map fun (ts, mem) => (t :: ts, mem)

/-- A string of the memory. -/
def cStringAt (mem : List UInt8) (p : ℕ) : CStr := cString (mem.drop p)

/-! ## Words -/

section Words

variable {delim s t : CStr} {b : UInt8}

theorem words_nil : words delim [] = [] := by
  unfold words
  rw [List.splitOnP_nil]
  rfl

/-- A delimiter ends a word. -/
theorem words_append_cons (hb : b ∈ delim) :
    words delim (s ++ b :: t) = words delim s ++ words delim t := by
  unfold words
  rw [List.splitOnP_append_cons _ _ (by simpa using hb), List.filter_append]

theorem words_gap (h : ∀ b ∈ s, b ∈ delim) : words delim s = [] := by
  induction s with
  | nil => exact words_nil
  | cons b s ih =>
    have hcons := words_append_cons (s := []) (t := s) (h b (List.mem_cons_self ..))
    rw [List.nil_append, words_nil, List.nil_append] at hcons
    rw [hcons]
    exact ih fun b' hb' => h b' (List.mem_cons_of_mem b hb')

theorem words_append_gap (h : ∀ b ∈ t, b ∈ delim) : words delim (s ++ t) = words delim s := by
  cases t with
  | nil => rw [List.append_nil]
  | cons b t =>
    rw [words_append_cons (h b (List.mem_cons_self ..)),
      words_gap fun b' hb' => h b' (List.mem_cons_of_mem b hb'), List.append_nil]

theorem words_gap_append (h : ∀ b ∈ s, b ∈ delim) : words delim (s ++ t) = words delim t := by
  induction s with
  | nil => rfl
  | cons b s ih =>
    have hcons := words_append_cons (s := []) (t := s ++ t) (h b (List.mem_cons_self ..))
    rw [List.nil_append, words_nil, List.nil_append] at hcons
    rw [List.cons_append, hcons]
    exact ih fun b' hb' => h b' (List.mem_cons_of_mem b hb')

theorem words_word (hne : s ≠ []) (h : ∀ b ∈ s, b ∉ delim) : words delim s = [s] := by
  have hsplit : s.splitOnP (· ∈ delim) = [s] := by
    apply List.splitOnP_eq_singleton
    intro b hb
    simpa using h b hb
  unfold words
  rw [hsplit, List.filter_cons_of_pos (by simpa using hne)]
  rfl

/-- The words together are what is no delimiter. -/
theorem words_flatten (delim s : CStr) : (words delim s).flatten = s.filter (· ∉ delim) := by
  unfold words
  rw [List.flatten_filter_ne_nil]
  induction s with
  | nil => rw [List.splitOnP_nil]; rfl
  | cons b s ih =>
    rw [List.splitOnP_cons_eq_if_modifyHead]
    by_cases hb : b ∈ delim
    · rw [if_pos (by simpa using hb), List.filter_cons_of_neg (by simpa using hb),
        List.flatten_cons, List.nil_append, ih]
    · rw [if_neg (by simpa using hb), List.filter_cons_of_pos (by simpa using hb), ← ih]
      obtain ⟨r, rs, hrs⟩ := List.exists_cons_of_ne_nil (List.splitOnP_ne_nil (· ∈ delim) s)
      rw [hrs]
      rfl

theorem of_mem_words (h : t ∈ words delim s) : t ≠ [] ∧ ∀ b ∈ t, b ∉ delim ∧ b ∈ s := by
  refine ⟨by simpa using (List.mem_filter.mp h).2, fun b hb => ?_⟩
  have hflat : b ∈ (words delim s).flatten := List.mem_flatten.mpr ⟨t, h, hb⟩
  rw [words_flatten, List.mem_filter] at hflat
  exact ⟨by simpa using hflat.2, hflat.1⟩

/-- Without a delimiter there is one word at most. -/
theorem length_words_le_one (h : ∀ b ∈ s, b ∉ delim) : (words delim s).length ≤ 1 := by
  by_cases hne : s = []
  · rw [hne, words_nil]
    exact Nat.zero_le 1
  · rw [words_word hne h]
    rfl

/-- Only delimiters behind a string leave its words alone. -/
theorem words_append_iff : words delim (s ++ t) = words delim s ↔ ∀ b ∈ t, b ∈ delim := by
  constructor
  · intro h
    have hflat := congrArg List.flatten h
    rw [words_flatten, words_flatten, List.filter_append, List.append_right_eq_self] at hflat
    intro b hb
    by_contra hnot
    have hmem : b ∈ t.filter (· ∉ delim) := List.mem_filter.mpr ⟨hb, by simpa using hnot⟩
    rw [hflat] at hmem
    cases hmem
  · exact words_append_gap

end Words

/-! ## A call -/

/-- A string starts with a run, and what is behind does not continue it. -/
theorem exists_run (p : UInt8 → Bool) (s : CStr) :
    ∃ run rest, s = run ++ rest ∧ (∀ b ∈ run, p b = true) ∧
      (rest = [] ∨ ∃ b r, rest = b :: r ∧ p b = false) := by
  induction s with
  | nil => exact ⟨[], [], rfl, nofun, Or.inl rfl⟩
  | cons b s ih =>
    cases hb : p b with
    | false => exact ⟨[], b :: s, rfl, nofun, Or.inr ⟨b, s, rfl, hb⟩⟩
    | true =>
      obtain ⟨run, rest, rfl, hrun, hrest⟩ := ih
      refine ⟨b :: run, rest, rfl, ?_, hrest⟩
      intro b' hb'
      rcases List.mem_cons.mp hb' with rfl | hb'
      · exact hb
      · exact hrun b' hb'

theorem takeWhile_run {p : UInt8 → Bool} {run r : List UInt8} {b : UInt8}
    (hrun : ∀ b ∈ run, p b = true) (hb : p b = false) : (run ++ b :: r).takeWhile p = run := by
  rw [List.takeWhile_append_of_pos hrun, List.takeWhile_cons_of_neg (by rw [hb]; exact Bool.false_ne_true),
    List.append_nil]

theorem takeWhile_all {p : UInt8 → Bool} {run : List UInt8} (hrun : ∀ b ∈ run, p b = true) :
    run.takeWhile p = run :=
  List.takeWhile_eq_self_iff.mpr hrun

section Call

variable {delim pre gap word rest : List UInt8} {b : UInt8}

/-- What the loop has to do is behind the memory it has gone through. -/
theorem strtok_null (h0 : 0 ∉ delim) (hgap : ∀ b ∈ gap, b ∈ delim) :
    strtok delim (pre ++ (gap ++ 0 :: rest)) pre.length
      = some ⟨none, pre.length + gap.length, pre ++ (gap ++ 0 :: rest)⟩ := by
  unfold strtok
  rw [List.drop_left, takeWhile_run (by simpa using hgap) (by simpa using h0)]
  have hstart : (pre ++ (gap ++ 0 :: rest))[pre.length + gap.length]? = some 0 := by
    simp
  dsimp only
  rw [hstart]
  rfl

theorem strtok_gap (hgap : ∀ b ∈ gap, b ∈ delim) :
    strtok delim (pre ++ gap) pre.length = none := by
  unfold strtok
  rw [List.drop_left, takeWhile_all (by simpa using hgap)]
  have hstart : (pre ++ gap)[pre.length + gap.length]? = none := by
    simp
  dsimp only
  rw [hstart]

/-- A call that finds a word: `tail` is what is behind the word. -/
theorem strtok_start (hgap : ∀ b ∈ gap, b ∈ delim) (hne : word ≠ [])
    (hword : ∀ b ∈ word, b ∉ delim ∧ b ≠ 0) (tail : List UInt8)
    (htail : tail.takeWhile (fun b => b ∉ delim ∧ b ≠ 0) = []) :
    strtok delim (pre ++ (gap ++ (word ++ tail))) pre.length
      = match tail with
        | [] => none
        | b :: rest =>
          if b = 0 then some ⟨some (pre.length + gap.length),
            pre.length + gap.length + word.length, pre ++ (gap ++ (word ++ b :: rest))⟩
          else some ⟨some (pre.length + gap.length),
            pre.length + gap.length + word.length + 1, pre ++ (gap ++ (word ++ 0 :: rest))⟩ := by
  obtain ⟨w, ws, rfl⟩ := List.exists_cons_of_ne_nil hne
  obtain ⟨hwdelim, hw0⟩ := hword w (List.mem_cons_self ..)
  unfold strtok
  rw [List.drop_left, List.cons_append, takeWhile_run (by simpa using hgap) (by simpa using hwdelim)]
  have hstart : (pre ++ (gap ++ w :: (ws ++ tail)))[pre.length + gap.length]? = some w := by
    simp
  have hdrop : (pre ++ (gap ++ w :: (ws ++ tail))).drop (pre.length + gap.length)
      = (w :: ws) ++ tail := by
    rw [← List.append_assoc, ← List.length_append, List.drop_left]
    rfl
  have hrun : ((w :: ws) ++ tail).takeWhile (fun b => b ∉ delim ∧ b ≠ 0) = w :: ws := by
    rw [List.takeWhile_append_of_pos (by simpa using hword), htail, List.append_nil]
  dsimp only
  rw [hstart]
  dsimp only
  rw [if_neg hw0, hdrop, hrun]
  -- the byte behind the word
  have hassoc : pre ++ (gap ++ w :: (ws ++ tail)) = (pre ++ gap ++ (w :: ws)) ++ tail := by
    simp
  have hlen : pre.length + gap.length + (w :: ws).length = (pre ++ gap ++ (w :: ws)).length := by
    rw [List.length_append, List.length_append]
  rw [hassoc, hlen]
  cases tail with
  | nil => simp
  | cons b rest =>
    rw [List.getElem?_append_right (le_refl _), Nat.sub_self, List.set_append_right _ _ (le_refl _),
      Nat.sub_self]
    simp

/-- The last word, which the NUL ends, and a word that a delimiter ends. -/
theorem strtok_word (hgap : ∀ b ∈ gap, b ∈ delim) (hne : word ≠ [])
    (hword : ∀ b ∈ word, b ∉ delim ∧ b ≠ 0) :
    strtok delim (pre ++ (gap ++ (word ++ 0 :: rest))) pre.length
      = some ⟨some (pre.length + gap.length), pre.length + gap.length + word.length,
        pre ++ (gap ++ (word ++ 0 :: rest))⟩ := by
  rw [strtok_start hgap hne hword (0 :: rest) (List.takeWhile_cons_of_neg (by simp))]
  exact if_pos rfl

theorem strtok_word_delim (h0 : 0 ∉ delim) (hgap : ∀ b ∈ gap, b ∈ delim) (hne : word ≠ [])
    (hword : ∀ b ∈ word, b ∉ delim ∧ b ≠ 0) (hb : b ∈ delim) :
    strtok delim (pre ++ (gap ++ (word ++ b :: rest))) pre.length
      = some ⟨some (pre.length + gap.length), pre.length + gap.length + word.length + 1,
        pre ++ (gap ++ (word ++ 0 :: rest))⟩ := by
  rw [strtok_start hgap hne hword (b :: rest) (List.takeWhile_cons_of_neg (by simpa using (absurd hb ·)))]
  exact if_neg fun hzero : b = 0 => h0 (hzero ▸ hb)

theorem strtok_word_end (hgap : ∀ b ∈ gap, b ∈ delim) (hne : word ≠ [])
    (hword : ∀ b ∈ word, b ∉ delim ∧ b ≠ 0) :
    strtok delim (pre ++ (gap ++ word)) pre.length = none := by
  have hstart : strtok delim (pre ++ (gap ++ (word ++ []))) pre.length = none :=
    strtok_start hgap hne hword [] rfl
  rwa [List.append_nil] at hstart

end Call

/-! ## The loop -/

section Loop

variable {delim : CStr}

/-- How a string goes on: it is over, or there is a word, which is the last one or not. -/
theorem exists_word (delim : CStr) {s : CStr} (hs : 0 ∉ s) :
    ∃ gap, (∀ b ∈ gap, b ∈ delim) ∧ (s = gap ∨
      ∃ word, word ≠ [] ∧ (∀ b ∈ word, b ∉ delim ∧ b ≠ 0) ∧
        (s = gap ++ word ∨ ∃ b ∈ delim, ∃ t, 0 ∉ t ∧ s = gap ++ (word ++ b :: t))) := by
  obtain ⟨gap, rest, rfl, hgap, hrest⟩ := exists_run (· ∈ delim) s
  refine ⟨gap, by simpa using hgap, ?_⟩
  rcases hrest with rfl | ⟨b, r, rfl, hb⟩
  · exact Or.inl (List.append_nil gap)
  · right
    obtain ⟨word, rest, hword, hall, hrest⟩ := exists_run (· ∉ delim) (b :: r)
    rw [hword, List.mem_append, List.mem_append, not_or, not_or] at hs
    have hne : word ≠ [] := by
      rintro rfl
      rcases hrest with rfl | ⟨b', r', rfl, hb'⟩
      · cases hword
      · cases hword
        simp_all
    refine ⟨word, hne, ?_, ?_⟩
    · intro b' hb'
      exact ⟨by simpa using hall b' hb', fun hzero : b' = 0 => hs.2.1 (hzero ▸ hb')⟩
    · rcases hrest with rfl | ⟨b', r', rfl, hb'⟩
      · left
        rw [hword, List.append_nil]
      · refine Or.inr ⟨b', by simpa using hb', r', ?_, by rw [hword]⟩
        exact fun hzero => hs.2.2 (List.mem_cons_of_mem b' hzero)

theorem cStringAt_append {pre word rest : List UInt8} (h : 0 ∉ word) :
    cStringAt (pre ++ (word ++ 0 :: rest)) pre.length = word := by
  unfold cStringAt
  rw [List.drop_left, cString_append h]

/-- What the loop returns for a string `s` at `p`. -/
structure Cut (delim s pre rest : List UInt8) (r : List ℕ × List UInt8) : Prop where
  words : r.1.map (cStringAt r.2) = words delim s
  mem : ∃ s', s'.length = s.length ∧ r.2 = pre ++ (s' ++ 0 :: rest)
  inside : ∀ t ∈ r.1, pre.length ≤ t ∧ t < pre.length + s.length

/-- A word goes before what is cut out behind it: `mid` is the NUL that has taken the place of a
delimiter, or nothing behind the last word. -/
theorem Cut.cons {s gap word mid t pre rest : List UInt8} {r : List ℕ × List UInt8}
    (h : Cut delim t (pre ++ (gap ++ (word ++ mid))) rest r) (h0 : 0 ∉ word) (hne : word ≠ [])
    (hmid : mid = [0] ∨ mid = [] ∧ t = []) (hwords : CoKV.words delim s = word :: CoKV.words delim t)
    (hlen : s.length = gap.length + word.length + mid.length + t.length) :
    Cut delim s pre rest ((pre.length + gap.length) :: r.1, r.2) := by
  have hpos : 0 < word.length := List.length_pos_iff.mpr hne
  obtain ⟨t', ht', hmem⟩ := h.mem
  refine ⟨?_, ⟨gap ++ (word ++ (mid ++ t')), ?_, ?_⟩, ?_⟩
  · -- the word is still there, with the NUL behind it
    obtain ⟨rest', hrest⟩ : ∃ rest', mid ++ (t' ++ 0 :: rest) = 0 :: rest' := by
      rcases hmid with rfl | ⟨rfl, rfl⟩
      · exact ⟨_, rfl⟩
      · rw [List.length_eq_zero_iff.mp ht']
        exact ⟨_, rfl⟩
    have hsplit : r.2 = (pre ++ gap) ++ (word ++ 0 :: rest') := by
      rw [hmem, ← hrest]
      simp
    have hat : cStringAt r.2 (pre.length + gap.length) = word := by
      rw [hsplit, ← List.length_append]
      exact cStringAt_append h0
    rw [hwords, ← h.words, List.map_cons, hat]
  · simp only [List.length_append]
    omega
  · rw [hmem]
    simp
  · intro p hp
    rcases List.mem_cons.mp hp with rfl | hp
    · omega
    · have hinside := h.inside p hp
      simp only [List.length_append] at hinside
      omega

section Call

variable {gap word : List UInt8} {b : UInt8}

/-- One turn of the loop: a delimiter gives way to a NUL, and the rest is behind it. -/
theorem strtokLoop_delim (h0 : 0 ∉ delim) (hgap : ∀ b ∈ gap, b ∈ delim) (hne : word ≠ [])
    (hword : ∀ b ∈ word, b ∉ delim ∧ b ≠ 0) (hb : b ∈ delim) (fuel : ℕ) (pre rest : List UInt8) :
    strtokLoop delim (fuel + 1) (pre ++ (gap ++ (word ++ b :: rest))) pre.length
      = (strtokLoop delim fuel ((pre ++ (gap ++ (word ++ [0]))) ++ rest)
          (pre ++ (gap ++ (word ++ [0]))).length).map
        fun (ts, mem) => ((pre.length + gap.length) :: ts, mem) := by
  have hmem : pre ++ (gap ++ (word ++ 0 :: rest)) = (pre ++ (gap ++ (word ++ [0]))) ++ rest := by
    simp
  have hsaved : pre.length + gap.length + word.length + 1
      = (pre ++ (gap ++ (word ++ [0]))).length := by
    simp only [List.length_append, List.length_singleton]
    omega
  rw [strtokLoop, strtok_word_delim h0 hgap hne hword hb, hmem, hsaved]

/-- The turn for the last word. -/
theorem strtokLoop_last (hgap : ∀ b ∈ gap, b ∈ delim) (hne : word ≠ [])
    (hword : ∀ b ∈ word, b ∉ delim ∧ b ≠ 0) (fuel : ℕ) (pre rest : List UInt8) :
    strtokLoop delim (fuel + 1) (pre ++ (gap ++ (word ++ 0 :: rest))) pre.length
      = (strtokLoop delim fuel ((pre ++ (gap ++ word)) ++ 0 :: rest)
          (pre ++ (gap ++ word)).length).map
        fun (ts, mem) => ((pre.length + gap.length) :: ts, mem) := by
  have hmem : pre ++ (gap ++ (word ++ 0 :: rest)) = (pre ++ (gap ++ word)) ++ 0 :: rest := by
    simp
  have hsaved : pre.length + gap.length + word.length = (pre ++ (gap ++ word)).length := by
    simp only [List.length_append]
    omega
  rw [strtokLoop, strtok_word hgap hne hword, hmem, hsaved]

/-- The turn that finds no word. -/
theorem strtokLoop_null (h0 : 0 ∉ delim) (hgap : ∀ b ∈ gap, b ∈ delim) (fuel : ℕ)
    (pre rest : List UInt8) :
    strtokLoop delim (fuel + 1) (pre ++ (gap ++ 0 :: rest)) pre.length
      = some ([], pre ++ (gap ++ 0 :: rest)) := by
  rw [strtokLoop, strtok_null h0 hgap]

end Call

/-- **The loop**: with fuel for the string, it cuts out the words. -/
theorem strtokLoop_words (h0 : 0 ∉ delim) {s : CStr} (hs : 0 ∉ s) (pre rest : List UInt8)
    (fuel : ℕ) (hfuel : s.length < fuel) :
    ∃ r, strtokLoop delim fuel (pre ++ (s ++ 0 :: rest)) pre.length = some r ∧
      Cut delim s pre rest r := by
  induction fuel generalizing s pre with
  | zero => exact absurd hfuel (Nat.not_lt_zero _)
  | succ fuel ih =>
    obtain ⟨gap, hgap, rfl | ⟨word, hne, hword, hs'⟩⟩ := exists_word delim hs
    · -- no word is left
      rw [strtokLoop_null h0 hgap]
      exact ⟨_, rfl, by rw [words_gap hgap]; rfl, ⟨_, rfl, rfl⟩, nofun⟩
    · have hpos : 0 < word.length := List.length_pos_iff.mpr hne
      have hnot : 0 ∉ word := fun hzero => (hword 0 hzero).2 rfl
      have hone : words delim word = [word] := words_word hne fun b hb => (hword b hb).1
      rcases hs' with rfl | ⟨b, hb, t, ht, rfl⟩
      · -- the last word: the next call finds the NUL
        obtain ⟨r, hloop, hcut⟩ := ih (s := []) nofun (pre ++ (gap ++ (word ++ [])))
          (by simp at hfuel ⊢; omega)
        refine ⟨((pre.length + gap.length) :: r.1, r.2), ?_, ?_⟩
        · rw [List.append_nil, List.nil_append] at hloop
          rw [List.append_assoc, strtokLoop_last hgap hne hword, hloop]
          rfl
        · apply hcut.cons hnot hne (Or.inr ⟨rfl, rfl⟩)
          · rw [words_gap_append hgap, hone, words_nil]
          · simp
      · -- a delimiter gives way to a NUL
        obtain ⟨r, hloop, hcut⟩ := ih ht (pre ++ (gap ++ (word ++ [0])))
          (by simp at hfuel ⊢; omega)
        refine ⟨((pre.length + gap.length) :: r.1, r.2), ?_, ?_⟩
        · rw [List.append_assoc, List.append_assoc, List.cons_append,
            strtokLoop_delim h0 hgap hne hword hb, hloop]
          rfl
        · apply hcut.cons hnot hne (Or.inl rfl)
          · rw [words_gap_append hgap, words_append_cons hb, hone]
            rfl
          · simp
            omega

/-- Without a NUL the loop reads behind the memory. -/
theorem strtokLoop_unterminated (h0 : 0 ∉ delim) {s : CStr} (hs : 0 ∉ s) (pre : List UInt8)
    (fuel : ℕ) : strtokLoop delim fuel (pre ++ s) pre.length = none := by
  induction fuel generalizing s pre with
  | zero => rfl
  | succ fuel ih =>
    obtain ⟨gap, hgap, rfl | ⟨word, hne, hword, rfl | ⟨b, hb, t, ht, rfl⟩⟩⟩ := exists_word delim hs
    · rw [strtokLoop, strtok_gap hgap]
    · rw [strtokLoop, strtok_word_end hgap hne hword]
    · rw [strtokLoop_delim h0 hgap hne hword hb, ih ht]
      rfl

end Loop

/-! ## Fuel -/

section Fuel

variable {delim : CStr} {mem : List UInt8} {p : ℕ}

theorem takeWhile_stop {q : UInt8 → Bool} {l : List UInt8} {b : UInt8}
    (h : l[(l.takeWhile q).length]? = some b) : q b = false := by
  induction l with
  | nil => cases h
  | cons a l ih =>
    cases ha : q a with
    | false =>
      rw [List.takeWhile_cons_of_neg (by rw [ha]; exact Bool.false_ne_true)] at h
      cases h
      exact ha
    | true =>
      rw [List.takeWhile_cons_of_pos ha] at h
      exact ih h

/-- A call stays in the memory, and one that finds a token moves on. -/
theorem strtok_saved {r : Strtok} (h : strtok delim mem p = some r) :
    r.mem.length = mem.length ∧ ∀ t, r.token = some t → p ≤ t ∧ t < r.saved ∧ t < mem.length := by
  unfold strtok at h
  dsimp only at h
  split at h
  case h_1 => cases h
  case h_2 b hb =>
    have hlt := (List.getElem?_eq_some_iff.mp hb).choose
    split at h
    case isTrue =>
      cases h
      exact ⟨rfl, nofun⟩
    case isFalse hne =>
      -- the token has a byte at least
      set start := p + ((mem.drop p).takeWhile (· ∈ delim)).length with hstart
      have hdelim : decide (b ∈ delim) = false := by
        apply takeWhile_stop (q := (· ∈ delim)) (l := mem.drop p)
        rwa [List.getElem?_drop]
      have hbyte : (mem.drop start).head? = some b := by
        rw [List.head?_drop, hb]
      obtain ⟨l, hl⟩ := List.head?_eq_some_iff.mp hbyte
      have hpos : 0 < ((mem.drop start).takeWhile fun b => b ∉ delim ∧ b ≠ 0).length := by
        rw [hl, List.takeWhile_cons_of_pos (by simpa using ⟨by simpa using hdelim, hne⟩)]
        exact Nat.succ_pos _
      split at h
      case h_1 => cases h
      case h_2 b' hb' =>
        split at h <;> cases h
        · refine ⟨rfl, ?_⟩
          rintro t ⟨⟩
          dsimp only
          omega
        · refine ⟨List.length_set .., ?_⟩
          rintro t ⟨⟩
          dsimp only
          omega

/-- Fuel for the rest of the memory is enough. -/
theorem strtokLoop_fuel {fuel fuel' : ℕ} (h : mem.length < p + fuel) (h' : mem.length < p + fuel')
    (hpos : 0 < fuel) (hpos' : 0 < fuel') :
    strtokLoop delim fuel mem p = strtokLoop delim fuel' mem p := by
  induction fuel generalizing mem p fuel' with
  | zero => exact absurd hpos (Nat.lt_irrefl 0)
  | succ fuel ih =>
    obtain ⟨fuel', rfl⟩ := Nat.exists_eq_succ_of_ne_zero (Nat.ne_of_gt hpos')
    unfold strtokLoop
    cases hr : strtok delim mem p with
    | none => rfl
    | some r =>
      obtain ⟨token, saved, mem'⟩ := r
      obtain ⟨hlen, htoken⟩ := strtok_saved hr
      cases token with
      | none => rfl
      | some t =>
        have ht := htoken t rfl
        dsimp only at hlen ht ⊢
        have hrest : strtokLoop delim fuel mem' saved = strtokLoop delim fuel' mem' saved := by
          apply ih <;> omega
        rw [hrest]

/-- The loop from one call on. -/
theorem strtokLoop_step {t saved : ℕ} {mem' : List UInt8}
    (h : strtok delim mem p = some ⟨some t, saved, mem'⟩) :
    strtokLoop delim (mem.length + 1) mem p
      = (strtokLoop delim (mem'.length + 1) mem' saved).map fun (ts, m) => (t :: ts, m) := by
  obtain ⟨hlen, htoken⟩ := strtok_saved h
  have ht := htoken t rfl
  dsimp only at hlen ht
  rw [strtokLoop, h]
  dsimp only
  have hrest : strtokLoop delim mem.length mem' saved
      = strtokLoop delim (mem'.length + 1) mem' saved := by
    apply strtokLoop_fuel <;> omega
  rw [hrest]

end Fuel

/-! ## Counting words -/

/-- How many words end before the first NUL: the bytes before it that are no delimiter, with a
delimiter or that NUL behind them. -/
def wordEnds (delim : CStr) : List UInt8 → ℕ
  | [] => 0
  | b :: mem =>
    if b = 0 then 0
    else if b ∉ delim ∧ ∃ b' ∈ mem.head?, b' = 0 ∨ b' ∈ delim then wordEnds delim mem + 1
    else wordEnds delim mem

section Count

variable {delim gap word mem : List UInt8} {b : UInt8}

theorem wordEnds_zero (mem : List UInt8) : wordEnds delim (0 :: mem) = 0 := if_pos rfl

/-- A delimiter ends nothing. -/
theorem wordEnds_delim (h0 : 0 ∉ delim) (hb : b ∈ delim) :
    wordEnds delim (b :: mem) = wordEnds delim mem := by
  have hne : b ≠ 0 := fun hzero => h0 (hzero ▸ hb)
  rw [wordEnds, if_neg hne, if_neg fun h => h.1 hb]

theorem wordEnds_gap_append (h0 : 0 ∉ delim) (hgap : ∀ b ∈ gap, b ∈ delim) :
    wordEnds delim (gap ++ mem) = wordEnds delim mem := by
  induction gap with
  | nil => rfl
  | cons b gap ih =>
    rw [List.cons_append, wordEnds_delim h0 (hgap b (List.mem_cons_self ..))]
    exact ih fun b' hb' => hgap b' (List.mem_cons_of_mem b hb')

/-- A word has one end, if there is one. -/
theorem wordEnds_word_append (hne : word ≠ []) (hword : ∀ b ∈ word, b ∉ delim ∧ b ≠ 0)
    (hmem : ∀ b ∈ mem.head?, b = 0 ∨ b ∈ delim) :
    wordEnds delim (word ++ mem) = wordEnds delim mem + min 1 mem.length := by
  induction word with
  | nil => exact absurd rfl hne
  | cons b word ih =>
    obtain ⟨hdelim, hzero⟩ := hword b (List.mem_cons_self ..)
    have hrest : ∀ b ∈ word, b ∉ delim ∧ b ≠ 0 := fun b' hb' => hword b' (List.mem_cons_of_mem b hb')
    rw [List.cons_append, wordEnds, if_neg hzero]
    cases word with
    | nil =>
      -- the last byte of the word
      cases mem with
      | nil => simp
      | cons b' mem =>
        have hend := hmem b' rfl
        rw [List.nil_append, if_pos ⟨hdelim, b', rfl, hend⟩]
        simp
    | cons w word =>
      have hnot : ¬ (b ∉ delim ∧ ∃ b' ∈ (w :: word ++ mem).head?, b' = 0 ∨ b' ∈ delim) := by
        rintro ⟨-, b', hb', hend⟩
        obtain rfl : w = b' := Option.some.inj hb'
        obtain ⟨hdelim', hzero'⟩ := hrest w (List.mem_cons_self ..)
        rcases hend with hend | hend
        · exact hzero' hend
        · exact hdelim' hend
      rw [if_neg hnot]
      exact ih (List.cons_ne_nil w word) hrest

end Count

end CoKV
