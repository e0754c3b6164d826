import CoKV.SkipList.File
import CoKV.SkipList.RunTheorems
import Mathlib.Data.List.TakeWhile

/-!
# What survives a dump

`load_dump_iff`: a list that is dumped and loaded again has the same keys with the same values if and
only if none of its values is empty or has a newline in it. `load_file` skips a line without a value,
and a line ends at the first newline; it never stores such a value.
-/

namespace CoKV.SkipList

/-! ## Lines -/

theorem getlines_append {line : CStr} (h : newline ∉ line) (file : CStr) :
    getlines (line ++ newline :: file) = line :: getlines file := by
  induction line with
  | nil => simp [getlines]
  | cons b line ih =>
    rw [List.mem_cons, not_or] at h
    rw [List.cons_append, getlines, if_neg (Ne.symm h.1), ih h.2]

theorem newline_notMem_getlines (file : CStr) : ∀ line ∈ getlines file, newline ∉ line := by
  induction file with
  | nil => simp [getlines]
  | cons b file ih =>
    rw [getlines]
    split
    · simpa using ih
    · next hb =>
      split
      · simpa using Ne.symm hb
      · next line lines hlines =>
        rw [hlines] at ih
        have hline := ih line (List.mem_cons_self ..)
        intro line' hmem
        rcases List.mem_cons.mp hmem with rfl | hmem
        · simp [Ne.symm hb, hline]
        · exact ih line' (List.mem_cons_of_mem _ hmem)

/-! ## Keys -/

/-- What a digit is, and what it is not. -/
structure Digit (b : UInt8) : Prop where
  digit : isdigit b = true
  space : isspace b = false
  minus : b ≠ 45
  plus : b ≠ 43
  delimiter : b ≠ delimiter
  newline : b ≠ newline

theorem Digit.of_mem {n : ℕ} {b : UInt8} (h : b ∈ str (Nat.toDigits 10 n)) : Digit b := by
  obtain ⟨hlo, hhi⟩ := mem_str_toDigits h
  have hne : ∀ c : UInt8, c.toNat < 48 ∨ 57 < c.toNat → b ≠ c := by
    rintro c hc rfl
    omega
  refine ⟨?_, ?_, hne 45 (by decide), hne 43 (by decide), hne _ (by decide), hne _ (by decide)⟩
  · simp [isdigit, UInt8.le_iff_toNat_le, hlo, hhi]
  · have hspace := hne 32 (by decide)
    simp [isspace, UInt8.le_iff_toNat_le, hspace]
    omega

theorem str_toDigits_ne_nil (n : ℕ) : str (Nat.toDigits 10 n) ≠ [] := by
  unfold str
  simp

theorem takeWhile_isdigit (n : ℕ) :
    (str (Nat.toDigits 10 n)).takeWhile isdigit = str (Nat.toDigits 10 n) := by
  rw [List.takeWhile_eq_self_iff]
  exact fun b hb => (Digit.of_mem hb).digit

/-- What `strtol` sees of a number: the sign, and the digits. -/
theorem sign_decimal (z : ℤ) : sign ((decimal z).dropWhile isspace) =
    (decide (z < 0), str (Nat.toDigits 10 z.natAbs)) := by
  unfold decimal
  split
  case isTrue hneg =>
    have hminus : str ('-' :: Nat.toDigits 10 z.natAbs) = 45 :: str (Nat.toDigits 10 z.natAbs) := rfl
    have hspace : ¬ isspace 45 = true := by decide
    rw [hminus, List.dropWhile_cons_of_neg hspace, sign, if_pos rfl, decide_eq_true hneg]
  case isFalse hpos =>
    obtain ⟨b, digits, hdigits⟩ := List.exists_cons_of_ne_nil (str_toDigits_ne_nil z.natAbs)
    have hb : Digit b := Digit.of_mem (hdigits ▸ List.mem_cons_self ..)
    have hspace : ¬ isspace b = true := by simp [hb.space]
    rw [hdigits, List.dropWhile_cons_of_neg hspace, sign, if_neg hb.minus, if_neg hb.plus,
      decide_eq_false hpos]

/-- A number is read back, with or without a sign. -/
theorem stoi_decimal (z : CInt) : stoi (decimal z.val) = .ok z := by
  obtain ⟨z, hz⟩ := z
  have hvalue : (if decide (z < 0) = true then -(z.natAbs : ℤ) else z.natAbs) = z := by
    by_cases hneg : z < 0
    · simp only [hneg, decide_true, if_true]
      omega
    · simp only [hneg, decide_false, Bool.false_eq_true, if_false]
      omega
  unfold stoi
  simp only [sign_decimal, takeWhile_isdigit, str_toDigits_ne_nil, foldl_str_toDigits, if_false,
    hvalue]
  rw [dif_pos hz]

theorem separator_notMem_decimal (z : ℤ) : delimiter ∉ decimal z ∧ newline ∉ decimal z := by
  have hdigits : ∀ b ∈ str (Nat.toDigits 10 z.natAbs), Digit b := fun b => Digit.of_mem
  have hdelimiter : delimiter ∉ str (Nat.toDigits 10 z.natAbs) :=
    fun h => (hdigits _ h).delimiter rfl
  have hnewline : newline ∉ str (Nat.toDigits 10 z.natAbs) := fun h => (hdigits _ h).newline rfl
  unfold decimal
  split
  · have hminus : str ('-' :: Nat.toDigits 10 z.natAbs) = 45 :: str (Nat.toDigits 10 z.natAbs) := rfl
    rw [hminus, List.mem_cons, List.mem_cons]
    have hne : delimiter ≠ 45 ∧ newline ≠ 45 := by decide
    simp [hdelimiter, hnewline, hne]
  · exact ⟨hdelimiter, hnewline⟩

theorem decimal_ne_nil (z : ℤ) : decimal z ≠ [] := by
  unfold decimal
  split
  · simp [str]
  · exact str_toDigits_ne_nil _

/-- A line gives back the key and the value it was written for. -/
theorem getKeyValue_entry (z : ℤ) (value key₀ value₀ : CStr) :
    getKeyValueFromString (decimal z ++ delimiter :: value) key₀ value₀ = (decimal z, value) := by
  have hvalid : isValidString (decimal z ++ delimiter :: value) = true := by
    simp [isValidString]
  have hnot : ∀ b ∈ decimal z, decide (b ≠ delimiter) = true := by
    intro b hb
    rw [decide_eq_true_eq]
    rintro rfl
    exact (separator_notMem_decimal z).1 hb
  unfold getKeyValueFromString
  rw [hvalid, List.takeWhile_append_of_pos hnot, List.dropWhile_append_of_pos hnot]
  simp

/-! ## `dump_file` -/

section Dump

variable {s : IntList} {cells : List (Cell CInt CStr)}

/-- The loop of `dump_file` writes the cells that are left. -/
theorem dumpFrom_ok {p : Addr} {fuel : ℕ} (hchain : Chain (s.next 0) p (cells.map Cell.addr))
    (hcell : ∀ e ∈ cells, s.Holds e.addr e.key e.value e.level) (hfuel : cells.length ≤ fuel) :
    s.dumpFrom fuel (cells.map Cell.addr).head? = .ok (cells.flatMap fun e => entry e.key e.value) := by
  induction cells generalizing p fuel with
  | nil =>
    rw [List.map_nil, List.head?_nil, dumpFrom]
    rfl
  | cons e cells ih =>
    rw [List.length_cons] at hfuel
    obtain ⟨n, rfl⟩ : ∃ n, fuel = n + 1 := ⟨fuel - 1, by omega⟩
    obtain ⟨fw, hderef⟩ := (hcell e (List.mem_cons_self ..)).deref
    have hnext := forwardAt_of_next hchain.2.next_eq
    have hrest := ih hchain.2 (fun f hf => hcell f (List.mem_cons_of_mem e hf))
      (Nat.le_of_succ_le_succ hfuel)
    rw [List.map_cons, List.head?_cons, dumpFrom]
    simp only [hderef, ok_bind, hnext, hrest, List.flatMap_cons]
    rfl

theorem Shape.dumpFile (h : Shape s cells) :
    s.dumpFile = .ok (cells.flatMap fun e => entry e.key e.value) := by
  have hchain := h.chain 0 (Nat.zero_le _)
  rw [reach_zero] at hchain
  have hlen := Nat.le_of_lt h.length_lt_brk
  rw [SkipList.dumpFile, forwardAt_of_next hchain.next_eq, ok_bind]
  exact dumpFrom_ok hchain h.cell hlen

end Dump

/-! ## `load_file` -/

/-- A value that a line can hold. -/
def Writable (value : CStr) : Prop := value ≠ [] ∧ newline ∉ value

/-- The lines that `dump_file` has written for writable values. -/
theorem getlines_dump {cells : List (Cell CInt CStr)} (h : ∀ e ∈ cells, Writable e.value) :
    getlines (cells.flatMap fun e => entry e.key e.value) =
      cells.map fun e => decimal e.key.val ++ delimiter :: e.value := by
  induction cells with
  | nil => rfl
  | cons e cells ih =>
    have hline : newline ∉ decimal e.key.val ++ delimiter :: e.value := by
      have hvalue := (h e (List.mem_cons_self ..)).2
      have hkey := (separator_notMem_decimal e.key.val).2
      have hne : newline ≠ delimiter := by decide
      simp [hkey, hvalue, hne]
    rw [List.flatMap_cons, entry, List.append_assoc, List.singleton_append,
      getlines_append hline, ih fun f hf => h f (List.mem_cons_of_mem e hf), List.map_cons]

/-- Where the first of two maps has nothing, the second one counts. -/
theorem lookup_insert_or {K V : Type} [LinearOrder K] {m m' : KVMap K V} {key k : K} {value : V} :
    ((if key ∈ m then m else m.insert key value).lookup k).or (m'.lookup k) =
      (m.lookup k).or ((m'.insert key value).lookup k) := by
  by_cases hk : k = key
  · rw [hk, Finmap.lookup_insert]
    by_cases hm : key ∈ m
    · obtain ⟨v, hv⟩ := Finmap.mem_iff.mp hm
      rw [if_pos hm, hv]
      rfl
    · rw [if_neg hm, Finmap.lookup_insert, Finmap.lookup_eq_none.mpr hm]
      rfl
  · rw [Finmap.lookup_insert_of_ne _ hk]
    split
    · rfl
    · rw [Finmap.lookup_insert_of_ne _ hk]

/-- Lines with writable values are loaded, but for keys that are there. -/
theorem Shape.loadLines {cells : List (Cell CInt CStr)} (h : ∀ e ∈ cells, Writable e.value)
    (odds : ℕ → ℕ) (i : ℕ) (key value : CStr) {t : IntList} {loaded : List (Cell CInt CStr)}
    (ht : Shape t loaded) :
    ∃ u loaded', SkipList.loadLines odds i (cells.map fun e => decimal e.key.val ++ delimiter :: e.value)
        key value t = .ok u ∧ Shape u loaded' ∧
      ∀ k, (toMap loaded').lookup k = ((toMap loaded).lookup k).or ((toMap cells).lookup k) := by
  induction cells generalizing i key value t loaded with
  | nil => exact ⟨t, loaded, rfl, ht, fun k => by simp [toMap]⟩
  | cons e cells ih =>
    obtain ⟨t', loaded', hins, -, ht', -, hmap⟩ := ht.insertElement e.key e.value (odds i)
    have hrest := fun f hf => h f (List.mem_cons_of_mem e hf)
    obtain ⟨u, loaded'', hload, hu, hlookup⟩ := ih hrest (i + 1) (decimal e.key.val) e.value ht'
    refine ⟨u, loaded'', ?_, hu, fun k => ?_⟩
    · have hne : ¬ (decimal e.key.val = [] ∨ e.value = []) := by
        simp [decimal_ne_nil, (h e (List.mem_cons_self ..)).1]
      rw [List.map_cons, SkipList.loadLines]
      simp only [getKeyValue_entry, if_neg hne, stoi_decimal, ok_bind, hins]
      exact hload
    · rw [hlookup, hmap, lookup_insert_or]
      rfl

theorem newline_notMem_value {line value : CStr} (hline : newline ∉ line) (key : CStr)
    (hvalue : newline ∉ value) : newline ∉ (getKeyValueFromString line key value).2 := by
  unfold getKeyValueFromString
  split
  · exact hvalue
  · intro hmem
    exact hline ((List.dropWhile_sublist _).subset ((List.drop_sublist ..).subset hmem))

/-- What has been loaded is writable: nothing that is read from a line is not. -/
theorem Shape.loadLines_writable {lines : List CStr} (hlines : ∀ line ∈ lines, newline ∉ line)
    {odds : ℕ → ℕ} {i : ℕ} {key value : CStr} (hvalue : newline ∉ value) {t u : IntList}
    {loaded : List (Cell CInt CStr)} (ht : Shape t loaded)
    (hloaded : ∀ k v, (toMap loaded).lookup k = some v → Writable v)
    (hu : SkipList.loadLines odds i lines key value t = .ok u) :
    ∃ loaded', Shape u loaded' ∧ ∀ k v, (toMap loaded').lookup k = some v → Writable v := by
  induction lines generalizing i key value t loaded with
  | nil =>
    obtain rfl := Except.ok.inj hu
    exact ⟨loaded, ht, hloaded⟩
  | cons line lines ih =>
    have hline := hlines line (List.mem_cons_self ..)
    have hrest := fun l hl => hlines l (List.mem_cons_of_mem line hl)
    have hvalue' := newline_notMem_value hline key hvalue
    rw [SkipList.loadLines] at hu
    dsimp only at hu
    split at hu
    case isTrue => exact ih hrest hvalue' ht hloaded hu
    case isFalse hne =>
      cases hk : stoi (getKeyValueFromString line key value).1 with
      | error e =>
        rw [hk] at hu
        cases hu
      | ok k =>
        obtain ⟨t', loaded', hins, -, ht', -, hmap⟩ :=
          ht.insertElement k (getKeyValueFromString line key value).2 (odds i)
        rw [hk, ok_bind, hins] at hu
        refine ih hrest hvalue' ht' (fun k' v hv => ?_) hu
        rw [hmap] at hv
        split at hv
        · exact hloaded k' v hv
        · by_cases hk' : k' = k
          · rw [hk', Finmap.lookup_insert] at hv
            obtain rfl := Option.some.inj hv
            exact ⟨fun hnil => hne (Or.inr hnil), hvalue'⟩
          · rw [Finmap.lookup_insert_of_ne _ hk'] at hv
            exact hloaded k' v hv

/-! ## The round trip -/

/-- `key` is in the list, with `value`. -/
def Stores (s : IntList) (key : CInt) (value : CStr) : Prop :=
  s.searchElement key = .ok true ∧ s.getElement id [] key = .ok value

theorem Shape.stores_iff {s : IntList} {cells : List (Cell CInt CStr)} (h : Shape s cells)
    {key : CInt} {value : CStr} : s.Stores key value ↔ (toMap cells).lookup key = some value := by
  unfold Stores
  rw [h.searchElement, h.getElement]
  cases hlookup : (toMap cells).lookup key with
  | none =>
    have hm := Finmap.lookup_eq_none.mp hlookup
    simp [hm]
  | some v =>
    have hm := Finmap.mem_of_lookup_eq_some hlookup
    simp [hm]

/-- The same keys with the same values. -/
def SameMap (s t : IntList) : Prop := ∀ key value, s.Stores key value ↔ t.Stores key value

/-- A cell is found by its key. -/
theorem Shape.lookup_of_mem {s : IntList} {cells : List (Cell CInt CStr)} (h : Shape s cells)
    {e : Cell CInt CStr} (he : e ∈ cells) : (toMap cells).lookup e.key = some e.value := by
  obtain ⟨cells₁, cells₂, rfl⟩ := List.append_of_mem he
  apply lookup_toMap
  intro hmem
  obtain ⟨f, hf, hkey⟩ := List.mem_map.mp hmem
  have hlt := (List.pairwise_append.mp h.sorted).2.2 f hf e (List.mem_cons_self ..)
  exact absurd hlt (by simp [hkey])

theorem Shape.load_dump {s t : IntList} {cells : List (Cell CInt CStr)} (hs : Shape s cells)
    (ht : Shape t []) (odds : ℕ → ℕ) :
    (∃ u, t.loadFile (cells.flatMap fun e => entry e.key e.value) odds = .ok u ∧ SameMap s u) ↔
      ∀ key value, s.Stores key value → Writable value := by
  constructor
  · rintro ⟨u, hload, hsame⟩ key value hstores
    obtain ⟨loaded, hu, hwritable⟩ := Shape.loadLines_writable (newline_notMem_getlines _)
      List.not_mem_nil ht (by simp [toMap]) hload
    exact hwritable key value (hu.stores_iff.mp ((hsame key value).mp hstores))
  · intro hall
    have hcells : ∀ e ∈ cells, Writable e.value :=
      fun e he => hall e.key e.value (hs.stores_iff.mpr (hs.lookup_of_mem he))
    obtain ⟨u, loaded, hload, hu, hlookup⟩ := Shape.loadLines hcells odds 0 [] [] ht
    refine ⟨u, ?_, fun key value => ?_⟩
    · rw [loadFile, getlines_dump hcells]
      exact hload
    · rw [hs.stores_iff, hu.stores_iff, hlookup]
      simp [toMap]

/-- **The round trip**, from any list that can be reached, into any empty list. -/
theorem load_dump_iff (k k' : CInt) (v v' : CStr) (maxlevel maxlevel' : ℕ)
    (ops : List (Op CInt CStr)) (odds : ℕ → ℕ) :
    ∃ s as file, runOps id [] (SkipList.new k v maxlevel) ops = .ok (s, as) ∧
      s.dumpFile = .ok file ∧
      ((∃ u, (SkipList.new k' v' maxlevel').loadFile file odds = .ok u ∧ SameMap s u) ↔
        ∀ key value, s.Stores key value → value ≠ [] ∧ newline ∉ value) := by
  obtain ⟨s, as, cells, hrun, hs⟩ := (Shape.new k v maxlevel).runOps id [] ops
  exact ⟨s, as, _, hrun, hs.dumpFile, hs.load_dump (Shape.new k' v' maxlevel') odds⟩

def CInt.zero : CInt := ⟨0, by decide⟩

def CInt.one : CInt := ⟨1, by decide⟩

/-- The key 1 with an empty value: its line is `1:`, which is skipped. -/
theorem empty_value_lost : ¬ ∀ (ops : List (Op CInt CStr)) (odds : ℕ → ℕ), ∃ s as file u,
    runOps id [] (SkipList.new CInt.zero [] 6) ops = .ok (s, as) ∧ s.dumpFile = .ok file ∧
      (SkipList.new CInt.zero [] 6).loadFile file odds = .ok u ∧ SameMap s u := by
  intro hall
  obtain ⟨s, as, file, u, hrun, hdump, hload, hsame⟩ := hall [.insertElement .one [] 0] fun _ => 0
  obtain ⟨t, cells, hins, -, ht, -, hmap⟩ := (Shape.new CInt.zero ([] : CStr) 6).insertElement .one [] 0
  have hrun' : runOps id [] (SkipList.new CInt.zero [] 6) [.insertElement .one [] 0]
      = .ok (t, [.code (if CInt.one ∈ toMap ([] : List (Cell CInt CStr)) then 1 else 0)]) := by
    rw [runOps, applyOp, hins]
    rfl
  obtain rfl : t = s := congrArg Prod.fst (Except.ok.inj (hrun'.symm.trans hrun))
  obtain rfl := Except.ok.inj (ht.dumpFile.symm.trans hdump)
  have hstores : t.Stores .one [] := by
    rw [ht.stores_iff, hmap]
    simp [toMap, Finmap.notMem_empty]
  have hwritable := (ht.load_dump (Shape.new CInt.zero [] 6) _).mp ⟨u, hload, hsame⟩
  exact (hwritable .one [] hstores).1 rfl

end CoKV.SkipList
