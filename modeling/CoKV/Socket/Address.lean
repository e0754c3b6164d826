import CoKV.Lib.Except
import Mathlib.Data.Nat.Notation
import Mathlib.Tactic.ByContra

/-!
# Addresses and subnets

`Address` for IPv4, and what it computes from the length of a prefix. `subnets_iff`: the subnet mask
and the broadcast address are right from a length of 2 on, but `networkAddress` writes the host part
of the mask over the address, so that all addresses have the same network. For the lengths 0 and 1
the mask is a shift by 32 and an `int` below the least one.
-/

namespace CoKV.Socket

/-! ## The code -/

/-- `m_Addr`; port and address are in network order. -/
structure Address where
  sinFamily : UInt16
  sinPort : UInt16
  sAddr : BitVec 32

/-- What has no meaning: a shift by the width or more, a signed result that does not fit. -/
inductive Undefined
  | shift
  | overflow

/-- The bytes in the opposite order, which is the network's on a little-endian machine. -/
def htonl (x : BitVec 32) : BitVec 32 :=
  x.extractLsb' 0 8 ++ x.extractLsb' 8 8 ++ x.extractLsb' 16 8 ++ x.extractLsb' 24 8

def ntohl (x : BitVec 32) : BitVec 32 := htonl x

namespace Address

/-- `~((1<<(32-prefix))-1)`; `1` is an `int`. -/
def createSubNetMask (prefixLen : UInt32) : Except Undefined (BitVec 32) :=
  let shift := (32 - prefixLen).toNat
  if 32 ≤ shift then .error .shift
  else if (1#32 <<< shift).ssubOverflow 1#32 then .error .overflow
  else .ok (~~~((1#32 <<< shift) - 1#32))

section Functions

variable (a : Address) (prefixLen : UInt32)

/-- A null pointer is `none`. -/
def broadcastAddress : Except Undefined (Option Address) := do
  if prefixLen > 32 then return none
  let mask ← createSubNetMask prefixLen
  return some { a with sAddr := a.sAddr ||| htonl (~~~mask) }

def networkAddress : Except Undefined (Option Address) := do
  if prefixLen > 32 then return none
  let mask ← createSubNetMask prefixLen
  return some { a with sAddr := htonl (~~~mask) }

def subnetAddress : Except Undefined (Option Address) := do
  if prefixLen > 32 then return none
  let mask ← createSubNetMask prefixLen
  return some { a with sAddr := htonl mask }

end Functions

/-- The address as a number -/
def host (a : Address) : BitVec 32 := ntohl a.sAddr

end Address

/-! ## The byte order -/

theorem getLsbD_htonl (x : BitVec 32) {i : ℕ} (h : i < 32) :
    (htonl x).getLsbD i = x.getLsbD ((3 - i / 8) * 8 + i % 8) := by
  unfold htonl
  simp only [BitVec.getLsbD_append, BitVec.getLsbD_extractLsb']
  by_cases h₁ : i < 8
  · rw [if_pos h₁, show (3 - i / 8) * 8 + i % 8 = 24 + i by omega]
    simp [h₁]
  · rw [if_neg h₁]
    by_cases h₂ : i - 8 < 8
    · rw [if_pos h₂, show (3 - i / 8) * 8 + i % 8 = 16 + (i - 8) by omega]
      simp [h₂]
    · rw [if_neg h₂]
      by_cases h₃ : i - 8 - 8 < 8
      · rw [if_pos h₃, show (3 - i / 8) * 8 + i % 8 = 8 + (i - 8 - 8) by omega]
        simp [h₃]
      · have h₄ : i - 8 - 8 - 8 < 8 := by omega
        rw [if_neg h₃, show (3 - i / 8) * 8 + i % 8 = 0 + (i - 8 - 8 - 8) by omega]
        simp [h₄]

theorem ntohl_htonl (x : BitVec 32) : ntohl (htonl x) = x := by
  apply BitVec.eq_of_getLsbD_eq
  intro i hi
  unfold ntohl
  rw [getLsbD_htonl _ hi, getLsbD_htonl _ (by omega)]
  congr 1
  omega

theorem ntohl_or (x y : BitVec 32) : ntohl (x ||| y) = ntohl x ||| ntohl y := by
  apply BitVec.eq_of_getLsbD_eq
  intro i hi
  unfold ntohl
  rw [BitVec.getLsbD_or, getLsbD_htonl _ hi, getLsbD_htonl _ hi, getLsbD_htonl _ hi,
    BitVec.getLsbD_or]

/-! ## The mask -/

/-- The first `p` bits are one, and the rest zero. -/
def prefixMask (p : ℕ) : BitVec 32 := BitVec.allOnes 32 <<< (32 - p)

theorem getMsbD_prefixMask {p i : ℕ} (h : p ≤ 32) :
    (prefixMask p).getMsbD i = decide (i < p) := by
  unfold prefixMask
  rw [BitVec.getMsbD_shiftLeft, BitVec.getMsbD_allOnes]
  simp
  omega

/-- A power of two less one has the bits below it. -/
theorem not_pred_shiftLeft {w : ℕ} (k : ℕ) :
    ~~~((1#w <<< k) - 1#w) = BitVec.allOnes w <<< k := by
  rw [BitVec.not_sub_one_eq_not_add_one, ← BitVec.neg_eq_not_add, ← BitVec.twoPow_eq,
    BitVec.shiftLeft_eq_mul_twoPow, ← BitVec.neg_one_eq_allOnes, BitVec.neg_mul, BitVec.one_mul]

/-- Up to `1 << 30`, one can be taken away. -/
theorem not_ssubOverflow (k : Fin 31) : (1#32 <<< (k : ℕ)).ssubOverflow 1#32 = false := by
  decide +revert

theorem le_or_left {w : ℕ} (x y : BitVec w) : x ≤ x ||| y := by
  rw [BitVec.le_def, BitVec.toNat_or]
  exact Nat.left_le_or

namespace Address

variable {a : Address} {p : UInt32}

theorem createSubNetMask_eq (h : 2 ≤ p) (hle : p ≤ 32) :
    createSubNetMask p = .ok (prefixMask p.toNat) := by
  have hsub : (32 - p).toNat = 32 - p.toNat := UInt32.toNat_sub_of_le 32 p hle
  have htwo : 2 ≤ p.toNat := UInt32.le_iff_toNat_le.mp h
  have hmax : p.toNat ≤ 32 := UInt32.le_iff_toNat_le.mp hle
  unfold createSubNetMask
  dsimp only
  rw [hsub, if_neg (by omega), not_ssubOverflow ⟨32 - p.toNat, by omega⟩]
  rw [if_neg (by decide), not_pred_shiftLeft]
  rfl

/-! ## The subnets -/

/-- The mask of the subnet -/
def SubnetRight (a : Address) (p : UInt32) : Prop :=
  ∃ s, a.subnetAddress p = .ok (some s) ∧ s.host = prefixMask p.toNat

/-- The last address of the network -/
def BroadcastRight (a : Address) (p : UInt32) : Prop :=
  ∃ b, a.broadcastAddress p = .ok (some b) ∧ b.host = a.host ||| ~~~prefixMask p.toNat ∧
    a.host ≤ b.host ∧ b.broadcastAddress p = .ok (some b)

/-- The first address of the network, which the addresses have in common that begin with the same
bits -/
def NetworkRight (a : Address) (p : UInt32) : Prop :=
  ∃ n, a.networkAddress p = .ok (some n) ∧ n.host = a.host &&& prefixMask p.toNat ∧
    n.host ≤ a.host ∧ n.networkAddress p = .ok (some n) ∧
    ∀ a' n' : Address, a'.networkAddress p = .ok (some n') →
      (n'.host = n.host ↔ ∀ i < p.toNat, a'.host.getMsbD i = a.host.getMsbD i)

def Rejected (a : Address) (p : UInt32) : Prop :=
  a.subnetAddress p = .ok none ∧ a.networkAddress p = .ok none ∧ a.broadcastAddress p = .ok none

/-- A prefix has its three addresses, or it is too long. -/
def Served (a : Address) (p : UInt32) : Prop :=
  (p ≤ 32 → SubnetRight a p ∧ NetworkRight a p ∧ BroadcastRight a p) ∧ (32 < p → Rejected a p)

theorem rejected (h : 32 < p) : Rejected a p := ⟨if_pos h, if_pos h, if_pos h⟩

theorem subnetAddress_eq (h : 2 ≤ p) (hle : p ≤ 32) :
    a.subnetAddress p = .ok (some { a with sAddr := htonl (prefixMask p.toNat) }) := by
  unfold subnetAddress
  rw [if_neg (UInt32.not_lt.mpr hle), createSubNetMask_eq h hle]
  rfl

theorem networkAddress_eq (h : 2 ≤ p) (hle : p ≤ 32) :
    a.networkAddress p = .ok (some { a with sAddr := htonl (~~~prefixMask p.toNat) }) := by
  unfold networkAddress
  rw [if_neg (UInt32.not_lt.mpr hle), createSubNetMask_eq h hle]
  rfl

theorem broadcastAddress_eq (h : 2 ≤ p) (hle : p ≤ 32) :
    a.broadcastAddress p =
      .ok (some { a with sAddr := a.sAddr ||| htonl (~~~prefixMask p.toNat) }) := by
  unfold broadcastAddress
  rw [if_neg (UInt32.not_lt.mpr hle), createSubNetMask_eq h hle]
  rfl

theorem subnetRight (h : 2 ≤ p) (hle : p ≤ 32) : SubnetRight a p :=
  ⟨_, subnetAddress_eq h hle, ntohl_htonl _⟩

theorem broadcastRight (h : 2 ≤ p) (hle : p ≤ 32) : BroadcastRight a p := by
  have hhost : ntohl (a.sAddr ||| htonl (~~~prefixMask p.toNat)) =
      a.host ||| ~~~prefixMask p.toNat := by
    rw [ntohl_or, ntohl_htonl]
    rfl
  refine ⟨_, broadcastAddress_eq h hle, hhost, ?_, ?_⟩
  · show a.host ≤ ntohl _
    rw [hhost]
    exact le_or_left _ _
  · rw [broadcastAddress_eq h hle]
    dsimp only
    rw [BitVec.or_assoc, BitVec.or_self]

/-- What is written is the network of no address but 0.0.0.0, and of that as one host. -/
theorem not_prefixMask_eq_iff {x : BitVec 32} {p : ℕ} (h : p ≤ 32) :
    ~~~prefixMask p = x &&& prefixMask p ↔ p = 32 ∧ x = 0 := by
  constructor
  · intro heq
    have hp : p = 32 := by
      by_contra hne
      have hbit := congrArg (BitVec.getMsbD · p) heq
      simp only [BitVec.getMsbD_not, BitVec.getMsbD_and, getMsbD_prefixMask h] at hbit
      simp at hbit
      omega
    refine ⟨hp, ?_⟩
    have hones : prefixMask 32 = BitVec.allOnes 32 := by decide
    rw [hp, hones, BitVec.and_allOnes, BitVec.not_allOnes] at heq
    exact heq.symm
  · rintro ⟨rfl, rfl⟩
    decide

/-- Two addresses that differ in the first bit have the same network. -/
theorem not_networkRight (h : 2 ≤ p) (hle : p ≤ 32) : ¬ NetworkRight a p := by
  rintro ⟨n, hn, -, -, -, hsame⟩
  rw [networkAddress_eq h hle] at hn
  cases hn
  have htwo : 2 ≤ p.toNat := UInt32.le_iff_toNat_le.mp h
  have hiff := hsame { a with sAddr := htonl (~~~a.host) } _ (networkAddress_eq h hle)
  have hbits := hiff.mp rfl 0 (by omega)
  change (ntohl (htonl (~~~a.host))).getMsbD 0 = _ at hbits
  rw [ntohl_htonl] at hbits
  simp at hbits

theorem not_served (hle : p ≤ 32) : ¬ Served a p := by
  intro hserved
  obtain ⟨⟨s, hs, -⟩, hnetwork, -⟩ := hserved.1 hle
  by_cases h : 2 ≤ p
  · exact not_networkRight h hle hnetwork
  · have hlt : p.toNat < 2 := UInt32.lt_iff_toNat_lt.mp (UInt32.not_le.mp h)
    have hp : p = 0 ∨ p = 1 := by
      rw [← UInt32.toNat_inj, ← UInt32.toNat_inj]
      show p.toNat = 0 ∨ p.toNat = 1
      omega
    rcases hp with rfl | rfl <;> cases hs

/-- The functions do what they are for exactly when they refuse. Of the prefixes that they accept,
those from 2 on have their mask and their broadcast address; the network address is the part of the
mask that belongs to the host. -/
theorem subnets_iff (a : Address) (p : UInt32) :
    (Served a p ↔ 32 < p) ∧
    (2 ≤ p → p ≤ 32 → SubnetRight a p ∧ BroadcastRight a p ∧
      ∃ n, a.networkAddress p = .ok (some n) ∧ n.host = ~~~prefixMask p.toNat ∧
        (n.host = a.host &&& prefixMask p.toNat ↔ p = 32 ∧ a.host = 0)) ∧
    (p = 0 → a.subnetAddress p = .error .shift ∧ a.networkAddress p = .error .shift ∧
      a.broadcastAddress p = .error .shift) ∧
    (p = 1 → a.subnetAddress p = .error .overflow ∧ a.networkAddress p = .error .overflow ∧
      a.broadcastAddress p = .error .overflow) := by
  refine ⟨?_, ?_, ?_, ?_⟩
  · constructor
    · intro hserved
      by_contra hle
      exact not_served (UInt32.not_lt.mp hle) hserved
    · intro hlt
      exact ⟨fun hle => absurd hlt (UInt32.not_lt.mpr hle), fun _ => rejected hlt⟩
  · intro h hle
    refine ⟨subnetRight h hle, broadcastRight h hle, _, networkAddress_eq h hle, ?_, ?_⟩
    · exact ntohl_htonl _
    · have hmax : p.toNat ≤ 32 := UInt32.le_iff_toNat_le.mp hle
      show ntohl (htonl _) = _ ↔ _
      rw [ntohl_htonl, not_prefixMask_eq_iff hmax, ← UInt32.toNat_inj]
      rfl
  · -- the shift is by 32
    rintro rfl
    exact ⟨rfl, rfl, rfl⟩
  · -- `1 << 31` is the least `int`
    rintro rfl
    exact ⟨rfl, rfl, rfl⟩

/-- The network of 192.168.1.5/24 is 0.0.0.255. -/
theorem networkAddress_of_host : ¬ Served ⟨2, 0, htonl 0xC0A80105#32⟩ 24 ∧
    ∃ n, networkAddress ⟨2, 0, htonl 0xC0A80105#32⟩ 24 = .ok (some n) ∧ n.host = 0x000000FF#32 :=
  ⟨not_served (by decide), _, rfl, by decide⟩

end Address

end CoKV.Socket
