import CoKV.SkipList.FileTheorems
import Mathlib.Data.Nat.Digits.Defs
import Mathlib.Order.Monotone.Basic

/-!
# What `load_file` makes of any file

`loadFile_padded`: lines without a `:` make no difference, although the key and the value of the line
before them are processed again. `loads_entries_iff`: every line with a number and a value is loaded
and every other one skipped, exactly if each line that has a key and a value, but no number, starts
with one that is a key already; at any other such line `stoi` throws, or loads what it should not.
-/

namespace CoKV.SkipList

/-! ## One line -/

/-- What the loop of `load_file` does with the key and the value it has behind a line. -/
def loadPair (odds : ℕ) (key value : CStr) (s : IntList) : Except LoadError IntList :=
  if key = [] ∨ value = [] then return s
  else do
    let k ← stoi key
    let (s, _) ← (s.insertElement k value odds).mapError .fault
    return s

/-- The key and the value behind some lines. -/
def pairBehind (lines : List CStr) (pair : CStr × CStr) : CStr × CStr :=
  lines.foldl (fun (key, value) line => getKeyValueFromString line key value) pair

section Lines

variable {odds : ℕ → ℕ} {i : ℕ} {line key value : CStr} {lines : List CStr} {s t : IntList}

theorem loadLines_cons : loadLines odds i (line :: lines) key value s
    = loadPair (odds i) (getKeyValueFromString line key value).1
        (getKeyValueFromString line key value).2 s >>=
      loadLines odds (i + 1) lines (getKeyValueFromString line key value).1
        (getKeyValueFromString line key value).2 := by
  rw [loadLines, loadPair]
  dsimp only
  split
  · rfl
  · cases stoi (getKeyValueFromString line key value).1 with
    | error e => rfl
    | ok k =>
      rw [ok_bind, ok_bind]
      cases (s.insertElement k (getKeyValueFromString line key value).2 (odds i)).mapError
        LoadError.fault with
      | error e => rfl
      | ok r => rfl

/-- The lines before, and the lines behind them. -/
theorem loadLines_append (lines' : List CStr) : loadLines odds i (lines ++ lines') key value s
    = loadLines odds i lines key value s >>=
      loadLines odds (i + lines.length) lines' (pairBehind lines (key, value)).1
        (pairBehind lines (key, value)).2 := by
  induction lines generalizing i key value s with
  | nil => rfl
  | cons line lines ih =>
    rw [List.cons_append, loadLines_cons, loadLines_cons]
    cases loadPair (odds i) (getKeyValueFromString line key value).1
        (getKeyValueFromString line key value).2 s with
    | error e => rw [error_bind, error_bind, error_bind]
    | ok t =>
      rw [ok_bind, ok_bind, ih, List.length_cons, Nat.add_assoc, Nat.add_comm 1]
      rfl

/-- The levels of the lines, counted from another number on. -/
theorem loadLines_shift : loadLines odds (i + 1) lines key value s
    = loadLines (fun j => odds (j + 1)) i lines key value s := by
  induction lines generalizing i key value s with
  | nil => rfl
  | cons line lines ih =>
    rw [loadLines_cons, loadLines_cons]
    congr 1
    funext t
    exact ih

/-! ## A line that is not valid -/

/-- A key and a value that have been processed: once more, they do nothing. -/
def Settled (key value : CStr) (s : IntList) : Prop := ∀ odds, loadPair odds key value s = .ok s

theorem settled_nil : Settled [] value s := fun _ => if_pos (Or.inl rfl)

/-- A key that is in the list. -/
theorem insertElement_of_mem {cells : List (Cell CInt CStr)} (hs : Shape s cells) {k : CInt}
    (hk : k ∈ toMap cells) (v : CStr) (odds : ℕ) : s.insertElement k v odds = .ok (s, 1) := by
  obtain ⟨e, he, rfl⟩ := List.mem_map.mp (mem_toMap.mp hk)
  obtain ⟨cells₁, cells₂, rfl⟩ := List.append_of_mem he
  exact insertElement_present hs

/-- A key that is a number is inserted, if it is not there. -/
theorem loadPair_ok {cells : List (Cell CInt CStr)} (hs : Shape s cells) (hkey : key ≠ [])
    (hvalue : value ≠ []) {k : CInt} (hk : stoi key = .ok k) (n : ℕ) :
    ∃ t cells', loadPair n key value s = .ok t ∧ Shape t cells' ∧
      toMap cells' = if k ∈ toMap cells then toMap cells else (toMap cells).insert k value := by
  obtain ⟨t, cells', hins, -, ht, -, hmap⟩ := hs.insertElement k value n
  refine ⟨t, cells', ?_, ht, hmap⟩
  unfold loadPair
  rw [if_neg (not_or.mpr ⟨hkey, hvalue⟩), hk, ok_bind, hins]
  rfl

/-- What has been processed is settled. -/
theorem loadPair_settled {cells : List (Cell CInt CStr)} (hs : Shape s cells) {n : ℕ}
    (h : loadPair n key value s = .ok t) : ∃ cells', Shape t cells' ∧ Settled key value t := by
  by_cases hskip : key = [] ∨ value = []
  · have hpair : ∀ n' (s' : IntList), loadPair n' key value s' = .ok s' := fun _ _ => if_pos hskip
    rw [hpair] at h
    cases h
    exact ⟨cells, hs, fun n' => hpair n' s⟩
  · obtain ⟨hkey, hvalue⟩ := not_or.mp hskip
    have hload := h
    unfold loadPair at hload
    rw [if_neg hskip] at hload
    obtain ⟨k, hk, -⟩ := ok_of_bind hload
    obtain ⟨t', cells', hpair, ht, hmap⟩ := loadPair_ok hs hkey hvalue hk n
    rw [h] at hpair
    cases hpair
    refine ⟨cells', ht, fun n' => ?_⟩
    have hmem : k ∈ toMap cells' := by
      rw [hmap]
      split
      case isTrue hk => exact hk
      case isFalse => simp
    unfold loadPair
    rw [if_neg hskip, hk, ok_bind, insertElement_of_mem ht hmem]
    rfl

/-- Any lines leave a list behind. -/
theorem loadLines_shape {cells : List (Cell CInt CStr)} (hs : Shape s cells)
    (h : loadLines odds i lines key value s = .ok t) : ∃ cells', Shape t cells' := by
  induction lines generalizing i key value s cells with
  | nil =>
    cases h
    exact ⟨cells, hs⟩
  | cons line lines ih =>
    rw [loadLines_cons] at h
    obtain ⟨s', hpair, hrest⟩ := ok_of_bind h
    obtain ⟨cells', hs', -⟩ := loadPair_settled hs hpair
    exact ih hs' hrest

end Lines

/-- The second list is the first one with lines without a `:` put in between. -/
inductive Padded : List CStr → List CStr → Prop
  | nil : Padded [] []
  | keep {lines lines' : List CStr} (line : CStr) (h : Padded lines lines') :
    Padded (line :: lines) (line :: lines')
  | insert {lines lines' : List CStr} {line : CStr} (hline : delimiter ∉ line)
    (h : Padded lines lines') : Padded lines (line :: lines')

/-- The key and the value are left in place. -/
theorem getKeyValue_of_notMem {line : CStr} (h : delimiter ∉ line) (key value : CStr) :
    getKeyValueFromString line key value = (key, value) := by
  unfold getKeyValueFromString isValidString
  by_cases hnil : line = [] <;> simp [hnil, h]

/-- Where lines have gone that have one more in front of them. -/
def behindOne (f : ℕ → ℕ) : ℕ → ℕ
  | 0 => 0
  | i + 1 => f i + 1

/-- **Lines without a `:`**, from any pair on that has been processed: `f` is where the lines have
gone. -/
theorem Padded.loadLines {lines lines' : List CStr} (h : Padded lines lines') :
    ∃ f : ℕ → ℕ, StrictMono f ∧ (∀ i line, lines[i]? = some line → lines'[f i]? = some line) ∧
      ∀ (odds : ℕ → ℕ) (key value : CStr) (s : IntList) (cells : List (Cell CInt CStr)),
        Shape s cells → Settled key value s →
        SkipList.loadLines odds 0 lines' key value s
          = SkipList.loadLines (odds ∘ f) 0 lines key value s := by
  induction h with
  | nil => exact ⟨id, strictMono_id, fun i line hi => hi, fun odds key value s cells _ _ => rfl⟩
  | @keep lines lines' line _ ih =>
    obtain ⟨f, hmono, hline, hload⟩ := ih
    refine ⟨behindOne f, ?_, ?_, ?_⟩
    · apply strictMono_nat_of_lt_succ
      intro i
      cases i with
      | zero => exact Nat.succ_pos _
      | succ i => exact Nat.succ_lt_succ (hmono (Nat.lt_succ_self i))
    · intro i line' hi
      cases i with
      | zero => exact hi
      | succ i => exact hline i line' hi
    · intro odds key value s cells hs _
      have hfirst : (odds ∘ behindOne f) 0 = odds 0 := rfl
      have hrest : (fun j => (odds ∘ behindOne f) (j + 1)) = (fun j => odds (j + 1)) ∘ f := rfl
      rw [loadLines_cons, loadLines_cons, hfirst]
      cases hpair : loadPair (odds 0) (getKeyValueFromString line key value).1
          (getKeyValueFromString line key value).2 s with
      | error e => rw [error_bind, error_bind]
      | ok t =>
        obtain ⟨cells', ht, hsettled⟩ := loadPair_settled hs hpair
        rw [ok_bind, ok_bind, loadLines_shift, loadLines_shift, hrest]
        exact hload (fun j => odds (j + 1)) _ _ t cells' ht hsettled
  | @insert lines lines' line hnot _ ih =>
    obtain ⟨f, hmono, hline, hload⟩ := ih
    refine ⟨fun i => f i + 1, fun i j hij => Nat.succ_lt_succ (hmono hij), hline, ?_⟩
    intro odds key value s cells hs hsettled
    -- the pair is processed again
    rw [loadLines_cons, getKeyValue_of_notMem hnot, hsettled, ok_bind, loadLines_shift]
    exact hload (fun j => odds (j + 1)) key value s cells hs hsettled

/-- **Padding a file**: for every list that can be reached and every file, lines without a `:` may be
put in anywhere. The outcome is the same list or the same exception, and only the levels that are
drawn for the other lines count. -/
theorem loadFile_padded (k : CInt) (v : CStr) (maxlevel : ℕ) (ops : List (Op CInt CStr)) :
    ∃ s as, runOps id [] (SkipList.new k v maxlevel) ops = .ok (s, as) ∧
      ∀ file file' : CStr, Padded (getlines file) (getlines file') →
        ∃ f : ℕ → ℕ, StrictMono f ∧
          (∀ i line, (getlines file)[i]? = some line → (getlines file')[f i]? = some line) ∧
          ∀ odds, s.loadFile file' odds = s.loadFile file (odds ∘ f) := by
  obtain ⟨s, as, cells, hrun, hs⟩ := (Shape.new k v maxlevel).runOps id [] ops
  refine ⟨s, as, hrun, fun file file' h => ?_⟩
  obtain ⟨f, hmono, hline, hload⟩ := h.loadLines
  exact ⟨f, hmono, hline, fun odds => hload odds [] [] s cells hs settled_nil⟩

/-- `1:a` and `2:b`, with a line before, an empty one in between and one behind. -/
theorem loadFile_padded_witness : ∃ f : ℕ → ℕ, StrictMono f ∧ ∀ odds,
    (SkipList.new CInt.zero [] 6).loadFile
        (str ['x', '\n', '1', ':', 'a', '\n', '\n', '2', ':', 'b', '\n', 'x']) odds
      = (SkipList.new CInt.zero [] 6).loadFile (str ['1', ':', 'a', '\n', '2', ':', 'b', '\n'])
        (odds ∘ f) := by
  obtain ⟨s, as, hrun, hall⟩ := loadFile_padded .zero [] 6 []
  cases hrun
  have hpadded : Padded (getlines (str ['1', ':', 'a', '\n', '2', ':', 'b', '\n']))
      (getlines (str ['x', '\n', '1', ':', 'a', '\n', '\n', '2', ':', 'b', '\n', 'x'])) := by
    have hlines : getlines (str ['1', ':', 'a', '\n', '2', ':', 'b', '\n'])
        = [str ['1', ':', 'a'], str ['2', ':', 'b']] := by decide
    have hlines' : getlines (str ['x', '\n', '1', ':', 'a', '\n', '\n', '2', ':', 'b', '\n', 'x'])
        = [str ['x'], str ['1', ':', 'a'], [], str ['2', ':', 'b'], str ['x']] := by decide
    rw [hlines, hlines']
    exact .insert (by decide) (.keep _ (.insert (by decide) (.keep _ (.insert (by decide) .nil))))
  obtain ⟨f, hmono, -, hload⟩ := hall _ _ hpadded
  exact ⟨f, hmono, hload⟩

/-! ## Lines that are to be loaded -/

/-- What stands before the first `:` of a line, and behind it. -/
def keyText (line : CStr) : CStr := line.takeWhile (· ≠ delimiter)

def valueText (line : CStr) : CStr := (line.dropWhile (· ≠ delimiter)).drop 1

/-- The number that digits stand for. -/
def ofDecimal (digits : CStr) : ℕ := Nat.ofDigits 10 (digits.reverse.map fun b => b.toNat - 48)

/-- A decimal number, with a sign or without. -/
def numeral (text : CStr) : Option ℤ :=
  let (minus, digits) := sign text
  if digits ≠ [] ∧ digits.all isdigit then
    some (if minus then -(ofDecimal digits : ℤ) else ofDecimal digits)
  else none

/-- A line that is to be loaded: an `int`, a `:` and a value. -/
def lineEntry (line : CStr) : Option (CInt × CStr) :=
  match numeral (keyText line) with
  | none => none
  | some z =>
    if h : -2 ^ 31 ≤ z ∧ z < 2 ^ 31 then
      if valueText line = [] then none else some (⟨z, h⟩, valueText line)
    else none

/-- The map with a line loaded: a key that is there keeps its value. -/
def addLine (m : KVMap CInt CStr) (line : CStr) : KVMap CInt CStr :=
  match lineEntry line with
  | none => m
  | some (key, value) => if key ∈ m then m else m.insert key value

/-- The map with all lines loaded. -/
def loadMap (m : KVMap CInt CStr) (lines : List CStr) : KVMap CInt CStr := lines.foldl addLine m

section Entries

variable {line text key value : CStr} {s t : IntList}

/-- A line with a `:` gives its key and its value, any other one leaves them in place. -/
theorem getKeyValue_of_mem (h : delimiter ∈ line) :
    getKeyValueFromString line key value = (keyText line, valueText line) := by
  have hne : line ≠ [] := List.ne_nil_of_mem h
  unfold getKeyValueFromString isValidString
  simp [hne, h, keyText, valueText]

theorem mem_of_valueText (h : valueText line ≠ []) : delimiter ∈ line := by
  by_contra hnot
  have hdrop : line.dropWhile (· ≠ delimiter) = [] := by
    rw [List.dropWhile_eq_nil_iff]
    intro b hb
    rw [decide_eq_true_eq]
    rintro rfl
    exact hnot hb
  apply h
  rw [valueText, hdrop]
  rfl

theorem foldl_digits (digits : CStr) :
    digits.foldl (fun v b => 10 * v + (b.toNat - 48)) 0 = ofDecimal digits := by
  unfold ofDecimal
  rw [Nat.ofDigits_eq_foldr, List.foldr_map, List.foldr_reverse]
  simp [Nat.add_comm]

theorem sign_of_numeral {z : ℤ} (h : numeral text = some z) :
    (sign text).2 ≠ [] ∧ (∀ b ∈ (sign text).2, isdigit b = true) ∧
      (if (sign text).1 then -(ofDecimal (sign text).2 : ℤ) else ofDecimal (sign text).2) = z := by
  unfold numeral at h
  dsimp only at h
  split at h
  case isTrue hdigits => exact ⟨hdigits.1, List.all_eq_true.mp hdigits.2, Option.some.inj h⟩
  case isFalse => cases h

theorem isspace_of_isdigit {b : UInt8} (h : isdigit b = true) : isspace b = false := by
  have hne : b = 32 → b.toNat = 32 := fun heq => by rw [heq]; rfl
  simp only [isdigit, isspace, UInt8.le_iff_toNat_le, decide_eq_true_eq, decide_eq_false_iff_not]
    at h ⊢
  have h48 : (48 : UInt8).toNat = 48 := rfl
  have h13 : (13 : UInt8).toNat = 13 := rfl
  rintro (heq | ⟨-, hle⟩)
  · have hval := hne heq
    omega
  · omega

/-- A number does not start with white space. -/
theorem dropWhile_of_numeral {z : ℤ} (h : numeral text = some z) :
    text.dropWhile isspace = text := by
  obtain ⟨hne, hdigits, -⟩ := sign_of_numeral h
  cases text with
  | nil => rfl
  | cons b text =>
    have hspace : isspace b = false := by
      by_cases hminus : b = 45
      · rw [hminus]
        rfl
      · by_cases hplus : b = 43
        · rw [hplus]
          rfl
        · rw [sign, if_neg hminus, if_neg hplus] at hdigits
          exact isspace_of_isdigit (hdigits b (List.mem_cons_self ..))
    rw [List.dropWhile_cons_of_neg (by simp [hspace])]

/-- `stoi` reads every number that is an `int`. -/
theorem stoi_numeral {z : ℤ} (h : numeral text = some z) (hz : -2 ^ 31 ≤ z ∧ z < 2 ^ 31) :
    stoi text = .ok ⟨z, hz⟩ := by
  obtain ⟨hne, hdigits, hvalue⟩ := sign_of_numeral h
  have htake : (sign text).2.takeWhile isdigit = (sign text).2 :=
    List.takeWhile_eq_self_iff.mpr hdigits
  unfold stoi
  rw [dropWhile_of_numeral h]
  simp only [htake, if_neg hne, foldl_digits, hvalue]
  rw [dif_pos hz]

theorem lineEntry_some {k : CInt} {v : CStr} (h : lineEntry line = some (k, v)) :
    stoi (keyText line) = .ok k ∧ keyText line ≠ [] ∧ valueText line ≠ [] ∧ v = valueText line := by
  unfold lineEntry at h
  cases hnumeral : numeral (keyText line) with
  | none =>
    rw [hnumeral] at h
    cases h
  | some z =>
    rw [hnumeral] at h
    dsimp only at h
    split at h
    case isTrue hz =>
      split at h
      case isTrue => cases h
      case isFalse hvalue =>
        cases h
        refine ⟨stoi_numeral hnumeral hz, fun hnil => ?_, hvalue, rfl⟩
        rw [hnil] at hnumeral
        cases hnumeral
    case isFalse => cases h

end Entries

/-! ## A line that is not to be loaded -/

/-- A line that is to be loaded, or that does no harm: if it has a key and a value, its key starts
with a number that is a key of `m`. -/
def Tolerated (m : KVMap CInt CStr) (line : CStr) : Prop :=
  lineEntry line = none → keyText line ≠ [] → valueText line ≠ [] →
    ∃ k, stoi (keyText line) = .ok k ∧ k ∈ m

/-- Every line, by the keys that were there and those of the lines to be loaded before it. -/
def AllTolerated (m : KVMap CInt CStr) (lines : List CStr) : Prop :=
  ∀ pre line post, lines = pre ++ line :: post → Tolerated (loadMap m pre) line

/-- The list holds the map. -/
def Agrees (s : IntList) (m : KVMap CInt CStr) : Prop :=
  ∀ key value, s.Stores key value ↔ m.lookup key = some value

/-- `load_file` comes to the end and closes the file, and whenever it has read some lines, then those
of them that are to be loaded have been, and nothing else. -/
structure LoadsEntries (s : IntList) (m : KVMap CInt CStr) (file : CStr) (odds : ℕ → ℕ) : Prop where
  closed : fileReaderIsOpen (s.loadFile file odds) = false
  lines : ∀ n, ∃ u, loadLines odds 0 ((getlines file).take n) [] [] s = .ok u ∧
    Agrees u (loadMap m ((getlines file).take n))

section Loading

variable {s u : IntList} {cells : List (Cell CInt CStr)} {line key value : CStr}
  {lines : List CStr} {odds : ℕ → ℕ} {i : ℕ} {m : KVMap CInt CStr}

theorem Shape.agrees_iff (hs : Shape s cells) : Agrees s m ↔ toMap cells = m := by
  constructor
  · intro h
    apply Finmap.ext_lookup
    intro k
    have hk : ∀ v, (toMap cells).lookup k = some v ↔ m.lookup k = some v :=
      fun v => hs.stores_iff.symm.trans (h k v)
    exact Option.ext hk
  · rintro rfl k v
    exact hs.stores_iff

/-- One line that is tolerated. -/
theorem Shape.loadPair_line (hs : Shape s cells) (hsettled : Settled key value s)
    (h : Tolerated (toMap cells) line) (n : ℕ) :
    ∃ t cells', loadPair n (getKeyValueFromString line key value).1
        (getKeyValueFromString line key value).2 s = .ok t ∧ Shape t cells' ∧
      toMap cells' = addLine (toMap cells) line := by
  unfold addLine
  cases hentry : lineEntry line with
  | some entry =>
    obtain ⟨k, v⟩ := entry
    obtain ⟨hk, hkey, hvalue, rfl⟩ := lineEntry_some hentry
    rw [getKeyValue_of_mem (mem_of_valueText hvalue)]
    exact loadPair_ok hs hkey hvalue hk n
  | none =>
    by_cases hmem : delimiter ∈ line
    · rw [getKeyValue_of_mem hmem]
      by_cases hskip : keyText line = [] ∨ valueText line = []
      · exact ⟨s, cells, if_pos hskip, hs, rfl⟩
      · obtain ⟨hkey, hvalue⟩ := not_or.mp hskip
        obtain ⟨k, hk, hmem⟩ := h hentry hkey hvalue
        obtain ⟨t, cells', hload, ht, hmap⟩ := loadPair_ok hs hkey hvalue hk n
        rw [if_pos hmem] at hmap
        exact ⟨t, cells', hload, ht, hmap⟩
    · rw [getKeyValue_of_notMem hmem]
      exact ⟨s, cells, hsettled n, hs, rfl⟩

/-- Lines that are all tolerated. -/
theorem Shape.loadLines_tolerated (hs : Shape s cells) (hsettled : Settled key value s)
    (h : AllTolerated (toMap cells) lines) :
    ∃ u cells', SkipList.loadLines odds i lines key value s = .ok u ∧ Shape u cells' ∧
      toMap cells' = loadMap (toMap cells) lines := by
  induction lines generalizing i key value s cells with
  | nil => exact ⟨s, cells, rfl, hs, rfl⟩
  | cons line lines ih =>
    obtain ⟨t, cells', hpair, ht, hmap⟩ := hs.loadPair_line hsettled (h [] line lines rfl) (odds i)
    obtain ⟨-, -, hsettled'⟩ := loadPair_settled hs hpair
    have hrest : AllTolerated (toMap cells') lines := by
      intro pre line' post heq
      have htolerated := h (line :: pre) line' post (by rw [heq]; rfl)
      rw [hmap]
      exact htolerated
    obtain ⟨u, cells'', hload, hu, hmap'⟩ := ih ht hsettled' hrest
    refine ⟨u, cells'', ?_, hu, ?_⟩
    · rw [loadLines_cons, hpair]
      exact hload
    · rw [hmap', hmap]
      rfl

theorem AllTolerated.take (h : AllTolerated m lines) (n : ℕ) : AllTolerated m (lines.take n) := by
  intro pre line post heq
  apply h pre line (post ++ lines.drop n)
  rw [← List.cons_append, ← List.append_assoc, ← heq, List.take_append_drop]

/-- A line behind which the list is still the right one. -/
theorem Shape.tolerated_of_line (hs : Shape s cells) {n : ℕ}
    (hload : loadPair n (getKeyValueFromString line key value).1
      (getKeyValueFromString line key value).2 s = .ok u)
    (hu : Agrees u (addLine (toMap cells) line)) : Tolerated (toMap cells) line := by
  intro hentry hkey hvalue
  rw [getKeyValue_of_mem (mem_of_valueText hvalue)] at hload
  have hpair := hload
  unfold loadPair at hpair
  rw [if_neg (not_or.mpr ⟨hkey, hvalue⟩)] at hpair
  obtain ⟨k, hk, -⟩ := ok_of_bind hpair
  refine ⟨k, hk, ?_⟩
  obtain ⟨u', cells', hload', hu', hmap⟩ := loadPair_ok hs hkey hvalue hk n
  rw [hload] at hload'
  cases hload'
  have hsame := hu'.agrees_iff.mp hu
  unfold addLine at hsame
  rw [hentry] at hsame
  by_contra hnot
  rw [hsame, if_neg hnot] at hmap
  have hlookup := congrArg (Finmap.lookup k) hmap
  dsimp only at hlookup
  rw [Finmap.lookup_insert, Finmap.lookup_eq_none.mpr hnot] at hlookup
  cases hlookup

theorem Shape.loadsEntries_iff (hs : Shape s cells) (file : CStr) (odds : ℕ → ℕ) :
    LoadsEntries s (toMap cells) file odds ↔ AllTolerated (toMap cells) (getlines file) := by
  constructor
  · intro h pre line post heq
    -- the list behind the lines before, and behind this one
    obtain ⟨u, hload, hu⟩ := h.lines pre.length
    obtain ⟨u', hload', hu'⟩ := h.lines (pre.length + 1)
    have htake : (getlines file).take pre.length = pre := by rw [heq, List.take_left]
    have htake' : (getlines file).take (pre.length + 1) = pre ++ [line] := by
      rw [heq, List.take_append]
      simp
    rw [htake] at hload hu
    rw [htake', loadLines_append, hload, ok_bind, loadLines_cons] at hload'
    obtain ⟨t, hpair, hlast⟩ := ok_of_bind hload'
    cases hlast
    obtain ⟨cells', hcells⟩ := loadLines_shape hs hload
    have hmap := hcells.agrees_iff.mp hu
    have hmap' : loadMap (toMap cells) (pre ++ [line]) = addLine (toMap cells') line := by
      rw [hmap, loadMap, List.foldl_append]
      rfl
    rw [htake', hmap'] at hu'
    rw [← hmap]
    exact hcells.tolerated_of_line hpair hu'
  · intro h
    have hlines : ∀ n, ∃ u, SkipList.loadLines odds 0 ((getlines file).take n) [] [] s = .ok u ∧
        Agrees u (loadMap (toMap cells) ((getlines file).take n)) := by
      intro n
      obtain ⟨u, cells', hload, hu, hmap⟩ := hs.loadLines_tolerated settled_nil (h.take n)
      exact ⟨u, hload, hu.agrees_iff.mpr hmap⟩
    refine ⟨?_, hlines⟩
    obtain ⟨u, hload, -⟩ := hlines (getlines file).length
    rw [List.take_length] at hload
    rw [loadFile, hload]
    rfl

end Loading

/-- **Loading a file**, into any list that can be reached: `load_file` loads what is to be loaded and
skips everything else, up to the end of the file, exactly if every other line that has a key and a
value starts with a number that is a key already. -/
theorem loads_entries_iff (k : CInt) (v : CStr) (maxlevel : ℕ) (ops : List (Op CInt CStr)) :
    ∃ s as m, runOps id [] (SkipList.new k v maxlevel) ops = .ok (s, as) ∧ Agrees s m ∧
      ∀ file odds, LoadsEntries s m file odds ↔ AllTolerated m (getlines file) := by
  obtain ⟨s, as, cells, hrun, hs⟩ := (Shape.new k v maxlevel).runOps id [] ops
  exact ⟨s, as, toMap cells, hrun, hs.agrees_iff.mpr rfl, hs.loadsEntries_iff⟩

/-- **A key that is no number**: `stoi` throws, and the file stays open. -/
theorem word_not_skipped : ¬ ∀ (ops : List (Op CInt CStr)) s as m,
    runOps id [] (SkipList.new CInt.zero [] 6) ops = .ok (s, as) → Agrees s m →
    ∀ file odds, LoadsEntries s m file odds := by
  intro h
  have hloads := h [] _ _ (toMap []) rfl ((Shape.new CInt.zero [] 6).agrees_iff.mpr rfl)
    (str ['x', ':', '1', '\n']) fun _ => 0
  exact absurd hloads.closed (by decide)

end CoKV.SkipList
