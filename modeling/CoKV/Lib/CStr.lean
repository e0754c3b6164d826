import Mathlib.Algebra.Order.Ring.Nat
import Mathlib.Data.Int.Notation
import Mathlib.Data.List.Lex
import Mathlib.Data.List.TakeWhile
import Mathlib.Data.Nat.Notation

/-!
# Byte strings

`std::string` and the C strings it is built from, as lists of bytes, with `std::string`'s order
(bytes compared as unsigned, a proper prefix before the longer string) and the two calls that
fill a reply buffer: `memset` to zero and `snprintf`.
-/

namespace CoKV

/-- The characters of a `std::string`, or of a C string without its terminator. -/
abbrev CStr := List UInt8

/-- `unsigned char` comparison, which `char_traits<char>` uses. -/
instance byteLinearOrder : LinearOrder UInt8 where
  le_refl := UInt8.le_refl
  le_trans _ _ _ := UInt8.le_trans
  le_antisymm _ _ := UInt8.le_antisymm
  le_total := UInt8.le_total
  lt_iff_le_not_ge _ _ := by
    rw [UInt8.lt_iff_toNat_lt, UInt8.le_iff_toNat_le, UInt8.le_iff_toNat_le]
    omega
  toDecidableLE := inferInstance

/-- `std::string`'s order, with the equality test of lists. -/
instance cstrLinearOrder : LinearOrder CStr :=
  { (inferInstance : LinearOrder (List UInt8)) with
    toDecidableEq := inferInstanceAs (DecidableEq (List UInt8))
    compare_eq_compareOfLessAndEq := fun a b => by
      rw [(inferInstance : LinearOrder (List UInt8)).compare_eq_compareOfLessAndEq]
      congr }

/-- A string literal of ASCII characters. -/
def str (chars : List Char) : CStr := chars.map fun c => UInt8.ofNat c.toNat

/-- `std::to_string` -/
def decimal (n : ℤ) : CStr :=
  if n < 0 then str ('-' :: Nat.toDigits 10 n.natAbs) else str (Nat.toDigits 10 n.natAbs)

/-- The C string at the start of a buffer: the bytes before the first NUL. -/
def cString (buf : List UInt8) : CStr := buf.takeWhile (· ≠ 0)

/-- `memset(buf, 0, n)` -/
def memset (buf : List UInt8) (n : ℕ) : List UInt8 := List.replicate n 0 ++ buf.drop n

/-- `snprintf(buf, n, "%s", text)`: at most `n - 1` characters and a NUL. -/
def snprintf (buf : List UInt8) (n : ℕ) (text : CStr) : List UInt8 :=
  (text.take (n - 1) ++ [0]) ++ buf.drop ((text.take (n - 1)).length + 1)

/-- A text and the zeros that fill it up to `n` bytes. -/
def padded (n : ℕ) (text : CStr) : List UInt8 := text ++ List.replicate (n - text.length) 0

theorem memset_eq_padded {buf : List UInt8} {n : ℕ} (hbuf : buf.length = n) :
    memset buf n = padded n [] := by
  unfold memset padded
  rw [List.drop_eq_nil_of_le hbuf.le, List.append_nil]
  rfl

/-- A text that fits is printed in full into a zeroed buffer. -/
theorem snprintf_padded {n : ℕ} {text : CStr} (h : text.length < n) :
    snprintf (padded n []) n text = padded n text := by
  have htake : text.take (n - 1) = text := List.take_of_length_le (by omega)
  unfold snprintf padded
  rw [htake, List.nil_append, List.drop_replicate, List.append_assoc, List.singleton_append,
    ← List.replicate_succ]
  congr 2
  rw [List.length_nil]
  omega

theorem length_padded {n : ℕ} {text : CStr} (h : text.length ≤ n) :
    (padded n text).length = n := by
  unfold padded
  rw [List.length_append, List.length_replicate]
  omega

/-- A string ends at its NUL. -/
theorem cString_append {text : CStr} (h : 0 ∉ text) (rest : List UInt8) :
    cString (text ++ 0 :: rest) = text := by
  unfold cString
  rw [List.takeWhile_append_of_pos (fun a ha => by simpa using fun h0 : a = 0 => h (h0 ▸ ha))]
  simp

theorem cString_eq_self {text : CStr} (h : 0 ∉ text) : cString text = text := by
  unfold cString
  rw [List.takeWhile_eq_self_iff]
  intro a ha
  simpa using fun h0 : a = 0 => h (h0 ▸ ha)

theorem zero_notMem_cString (buf : List UInt8) : 0 ∉ cString buf := by
  intro h
  simpa using List.mem_takeWhile_imp h

/-- The string in a buffer with a NUL, and what is behind the NUL. -/
theorem eq_cString_append {buf : List UInt8} (h : 0 ∈ buf) : ∃ rest, buf = cString buf ++ 0 :: rest := by
  obtain ⟨text, rest, rfl, hnot⟩ := List.eq_append_cons_of_mem h
  exact ⟨rest, by rw [cString_append hnot]⟩

/-- What the receiver reads back from a padded reply. -/
theorem cString_padded {n : ℕ} {text : CStr} (h : 0 ∉ text) : cString (padded n text) = text := by
  unfold padded
  cases n - text.length with
  | zero => rw [List.replicate_zero, List.append_nil, cString_eq_self h]
  | succ k => rw [List.replicate_succ, cString_append h]

/-! ## Decimal numbers -/

/-- The digits are ASCII digits. -/
theorem mem_str_toDigits {n : ℕ} {b : UInt8} (h : b ∈ str (Nat.toDigits 10 n)) :
    48 ≤ b.toNat ∧ b.toNat ≤ 57 := by
  obtain ⟨c, hc, rfl⟩ := List.mem_map.mp h
  have hd := Nat.isDigit_of_mem_toDigits (by decide) le_rfl hc
  rw [Char.isDigit_iff_toNat] at hd
  have h0 : '0'.toNat = 48 := rfl
  have h9 : '9'.toNat = 57 := rfl
  rw [UInt8.toNat_ofNat']
  omega

theorem zero_notMem_decimal (n : ℤ) : 0 ∉ decimal n := by
  have hdigits : (0 : UInt8) ∉ str (Nat.toDigits 10 n.natAbs) := fun h => by
    have := (mem_str_toDigits h).1
    simp at this
  unfold decimal
  split
  · unfold str at hdigits ⊢
    rw [List.map_cons, List.mem_cons, not_or]
    exact ⟨by decide, hdigits⟩
  · exact hdigits

/-- A number of fewer than `k` digits prints in at most `k` characters. -/
theorem length_decimal_le {n : ℤ} {k : ℕ} (hk : 0 < k) (h : n.natAbs < 10 ^ k) :
    (decimal n).length ≤ k + 1 := by
  have hlen : (Nat.toDigits 10 n.natAbs).length ≤ k :=
    (Nat.length_toDigits_le_iff (by decide) hk).mpr h
  unfold decimal str
  split
  · rw [List.length_map, List.length_cons]
    omega
  · rw [List.length_map]
    omega

/-- Reading the digits back. -/
theorem foldl_str_toDigits (n : ℕ) :
    (str (Nat.toDigits 10 n)).foldl (fun v b => 10 * v + (b.toNat - 48)) 0 = n := by
  unfold str
  rw [List.foldl_map]
  calc (Nat.toDigits 10 n).foldl (fun v c => 10 * v + ((UInt8.ofNat c.toNat).toNat - 48)) 0
      = (Nat.toDigits 10 n).foldl (fun v c => 10 * v + (c.toNat - '0'.toNat)) 0 := by
        apply List.foldl_ext
        intro v c hc
        have hd := Nat.isDigit_of_mem_toDigits (by decide) le_rfl hc
        rw [Char.isDigit_iff_toNat] at hd
        have h0 : '0'.toNat = 48 := rfl
        have h9 : '9'.toNat = 57 := rfl
        rw [UInt8.toNat_ofNat', Nat.mod_eq_of_lt (by omega), h0]
    _ = n := by rw [← Nat.ofDigitChars_eq_foldl, Nat.ofDigitChars_ten_toDigits]

theorem decimal_natCast (n : ℕ) : decimal n = str (Nat.toDigits 10 n) := if_neg (by omega)

/-- Different numbers print differently, and so do numbers of different sign. -/
theorem decimal_eq_natCast {m : ℤ} {n : ℕ} (h : decimal m = decimal n) : m = n := by
  rw [decimal_natCast] at h
  by_cases hm : m < 0
  · -- a minus sign is no digit
    have hneg : decimal m = str ('-' :: Nat.toDigits 10 m.natAbs) := if_pos hm
    have hminus : (45 : UInt8) ∈ str (Nat.toDigits 10 n) := by
      rw [← h, hneg]
      exact List.mem_cons_self ..
    have := (mem_str_toDigits hminus).1
    simp at this
  · obtain ⟨k, rfl⟩ := Int.eq_ofNat_of_zero_le (a := m) (by omega)
    rw [decimal_natCast] at h
    have hk := foldl_str_toDigits k
    rw [h, foldl_str_toDigits] at hk
    rw [hk]

end CoKV
