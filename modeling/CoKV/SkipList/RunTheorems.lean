import CoKV.SkipList.MapTheorems
import CoKV.SkipList.WellLinked
import Mathlib.Tactic.NormNum

/-!
# Runs of a skip list

Sequences of calls on one list, from the constructor on. `runOps_answers` is the map law over
any such sequence, `runOps_wellLinked` the pointer structure of every state it reaches. Both
count with `element_count`, an `int`: from `2^31` keys on it has wrapped round.
-/

namespace CoKV.SkipList

/-! ## Calls and answers -/

/-- A call; `odds` is how often `rand()` is odd before it is even. -/
inductive Op (K V : Type)
  | insertElement (key : K) (value : V) (odds : ℕ)
  | deleteElement (key : K)
  | searchElement (key : K)
  | getElement (key : K)
  | size

/-- A call on a map, which draws no level. -/
inductive MapOp (K V : Type)
  | insert (key : K) (value : V)
  | erase (key : K)
  | mem (key : K)
  | lookup (key : K)
  | card

/-- The call without the level. -/
def Op.forget {K V : Type} : Op K V → MapOp K V
  | insertElement key value _ => .insert key value
  | deleteElement key => .erase key
  | searchElement key => .mem key
  | getElement key => .lookup key
  | size => .card

/-- What a call returns. -/
inductive Answer (S : Type)
  | code (n : ℕ)
  | done
  | found (b : Bool)
  | text (str : S)
  | count (n : ℤ)
  deriving DecidableEq

/-- A number of keys as the `int` that `size` returns. -/
def Answer.asInt {S : Type} : Answer S → Answer S
  | count n => count (n.bmod (2 ^ 32))
  | a => a

variable {K V S : Type} [LinearOrder K] (toString : V → S) (empty : S)

/-- One call. -/
def applyOp (s : SkipList K V) : Op K V → Except Fault (SkipList K V × Answer S)
  | .insertElement key value odds => do
    let (s, n) ← s.insertElement key value odds
    return (s, .code n)
  | .deleteElement key => do return (← s.deleteElement key, .done)
  | .searchElement key => do return (s, .found (← s.searchElement key))
  | .getElement key => do return (s, .text (← s.getElement toString empty key))
  | .size => return (s, .count s.size.toInt)

/-- A sequence of calls. -/
def runOps (s : SkipList K V) : List (Op K V) → Except Fault (SkipList K V × List (Answer S))
  | [] => return (s, [])
  | op :: ops => do
    let (s, a) ← applyOp toString empty s op
    let (s, as) ← runOps s ops
    return (s, a :: as)

/-- One call on the map the list stands for. -/
def applyMap (m : KVMap K V) : MapOp K V → KVMap K V × Answer S
  | .insert key value => if key ∈ m then (m, .code 1) else (m.insert key value, .code 0)
  | .erase key => (m.erase key, .done)
  | .mem key => (m, .found (decide (key ∈ m)))
  | .lookup key => (m, .text (((m.lookup key).map toString).getD empty))
  | .card => (m, .count m.keys.card)

/-- A sequence of calls on the map. -/
def runMap (m : KVMap K V) : List (MapOp K V) → KVMap K V × List (Answer S)
  | [] => (m, [])
  | op :: ops =>
    let r := applyMap toString empty m op
    let r' := runMap r.1 ops
    (r'.1, r.2 :: r'.2)

section Laws

variable {maxlevel : ℕ} {s : SkipList K V} {m : KVMap K V}

theorem runMap_append (ops ops' : List (MapOp K V)) :
    runMap toString empty m (ops ++ ops') =
      ((runMap toString empty (runMap toString empty m ops).1 ops').1,
        (runMap toString empty m ops).2 ++
          (runMap toString empty (runMap toString empty m ops).1 ops').2) := by
  induction ops generalizing m with
  | nil => rfl
  | cons op ops ih => simp only [List.cons_append, runMap, ih]

/-- One call follows the map. -/
theorem applyOp_refines (h : Represents maxlevel s m) (op : Op K V) :
    ∃ s', applyOp toString empty s op = .ok (s', (applyMap toString empty m op.forget).2.asInt) ∧
      Represents maxlevel s' (applyMap toString empty m op.forget).1 := by
  cases op with
  | insertElement key value odds =>
    obtain ⟨s', hins, hs'⟩ := insertElement_law h key value odds
    refine ⟨s', ?_, ?_⟩
    · rw [applyOp, hins]
      by_cases hm : key ∈ m <;> simp [applyMap, Op.forget, hm, Answer.asInt]
    · by_cases hm : key ∈ m <;> simpa [applyMap, Op.forget, hm] using hs'
  | deleteElement key =>
    obtain ⟨s', hdel, hs'⟩ := deleteElement_law h key
    exact ⟨s', by rw [applyOp, hdel]; rfl, hs'⟩
  | searchElement key => exact ⟨s, by rw [applyOp, searchElement_law h]; rfl, h⟩
  | getElement key => exact ⟨s, by rw [applyOp, getElement_law h]; rfl, h⟩
  | size =>
    refine ⟨s, ?_, h⟩
    rw [applyOp, size_law h, Int32.toInt_ofNat']
    rfl

/-- One call on any list. -/
theorem Shape.applyOp {cells : List (Cell K V)} (h : Shape s cells) (op : Op K V) :
    ∃ t a cells', SkipList.applyOp toString empty s op = .ok (t, a) ∧ Shape t cells' ∧
      Allocates s t := by
  cases op with
  | insertElement key value odds =>
    obtain ⟨t, cells', hins, -, ht, hall, -⟩ := h.insertElement key value odds
    exact ⟨t, _, cells', by rw [SkipList.applyOp, hins]; rfl, ht, hall⟩
  | deleteElement key =>
    obtain ⟨t, cells', hdel, -, ht, hall, -⟩ := h.deleteElement key
    exact ⟨t, _, cells', by rw [SkipList.applyOp, hdel]; rfl, ht, hall⟩
  | searchElement key =>
    exact ⟨s, _, cells, by rw [SkipList.applyOp, h.searchElement]; rfl, h, Allocates.refl h⟩
  | getElement key =>
    exact ⟨s, _, cells, by rw [SkipList.applyOp, h.getElement]; rfl, h, Allocates.refl h⟩
  | size => exact ⟨s, _, cells, rfl, h, Allocates.refl h⟩

theorem runOps_cons {s₁ s₂ : SkipList K V} {op : Op K V} {ops : List (Op K V)} {a : Answer S}
    {as : List (Answer S)} (happ : applyOp toString empty s op = .ok (s₁, a))
    (hrun : runOps toString empty s₁ ops = .ok (s₂, as)) :
    runOps toString empty s (op :: ops) = .ok (s₂, a :: as) := by
  simp only [runOps, happ, ok_bind, hrun]
  rfl

/-- A sequence of calls on any list. -/
theorem Shape.runOps {cells : List (Cell K V)} (h : Shape s cells) (ops : List (Op K V)) :
    ∃ t as cells', SkipList.runOps toString empty s ops = .ok (t, as) ∧ Shape t cells' := by
  induction ops generalizing s cells with
  | nil => exact ⟨s, [], cells, rfl, h⟩
  | cons op ops ih =>
    obtain ⟨t, a, cells', happ, ht, -⟩ := h.applyOp toString empty op
    obtain ⟨u, as, cells'', hrun, hu⟩ := ih ht
    exact ⟨u, a :: as, cells'', runOps_cons toString empty happ hrun, hu⟩

/-- A sequence of calls follows the map, and its answers are the map's. -/
theorem runOps_refines (h : Represents maxlevel s m) (ops : List (Op K V)) :
    ∃ s', runOps toString empty s ops
        = .ok (s', (runMap toString empty m (ops.map Op.forget)).2.map Answer.asInt) ∧
      Represents maxlevel s' (runMap toString empty m (ops.map Op.forget)).1 := by
  induction ops generalizing s m with
  | nil => exact ⟨s, rfl, h⟩
  | cons op ops ih =>
    obtain ⟨s₁, happ, hs₁⟩ := applyOp_refines toString empty h op
    obtain ⟨s₂, hrun, hs₂⟩ := ih hs₁
    exact ⟨s₂, runOps_cons toString empty happ hrun, hs₂⟩

end Laws

/-! ## The map law -/

/-- **Every sequence of calls answers as the finite map does**, from the constructor on and
whatever levels are drawn: the map's answers do not depend on them. Only `size` is reduced to an
`int`, which changes nothing below `2^31` keys. -/
theorem runOps_answers (k : K) (v : V) {maxlevel : ℕ} (h : 1 ≤ maxlevel) (ops : List (Op K V)) :
    (∃ s, runOps toString empty (SkipList.new k v maxlevel) ops
      = .ok (s, (runMap toString empty ∅ (ops.map Op.forget)).2.map Answer.asInt)) ∧
    ∀ n : ℕ, n < 2 ^ 31 → (Answer.count n : Answer S).asInt = .count n := by
  refine ⟨?_, fun n hn => ?_⟩
  · obtain ⟨s, hrun, -⟩ := runOps_refines toString empty
      (represents_new k v h) ops
    exact ⟨s, hrun⟩
  · rw [Answer.asInt, Int.bmod_eq_of_le] <;> omega

theorem runOps_answers_witness : (∃ s, runOps id 0 (SkipList.new 0 0 1)
    [.insertElement 3 30 0, .insertElement 3 31 2, .getElement 3, .size]
      = .ok (s, (runMap id 0 (∅ : KVMap ℕ ℕ)
        [.insert 3 30, .insert 3 31, .lookup 3, .card]).2.map Answer.asInt)) ∧
    ∀ n : ℕ, n < 2 ^ 31 → (Answer.count n : Answer ℕ).asInt = .count n :=
  runOps_answers id 0 0 0 le_rfl
    [.insertElement 3 30 0, .insertElement 3 31 2, .getElement 3, .size]

/-! ## The pointer structure -/

/-- **Every sequence of calls runs to its end and leaves a well-linked list**, whatever levels
are drawn. -/
theorem runOps_wellLinked (k : K) (v : V) {maxlevel : ℕ} (h : 1 ≤ maxlevel)
    (ops : List (Op K V)) :
    ∃ s as, runOps toString empty (SkipList.new k v maxlevel) ops = .ok (s, as) ∧
      WellLinked s maxlevel := by
  obtain ⟨s, hrun, hs⟩ := runOps_refines toString empty
    (represents_new k v h) ops
  obtain ⟨cells, hshape, -⟩ := hs.cells
  exact ⟨s, _, hrun, hs.maxLevel ▸ hshape.wellLinked⟩

theorem runOps_wellLinked_witness : ∃ s as, runOps id 0 (SkipList.new 0 0 3)
    [.insertElement 5 50 1, .insertElement 3 30 4, .deleteElement 5] = .ok (s, as) ∧
      WellLinked s 3 :=
  runOps_wellLinked id 0 0 0 (by decide)
    [.insertElement 5 50 1, .insertElement 3 30 4, .deleteElement 5]

/-! ## The counter past the range of `int` -/

/-- The keys `0, …, n - 1`, inserted in order. -/
def ascending (n : ℕ) : List (Op ℕ ℕ) :=
  (List.range n).map fun key => .insertElement key 0 0

theorem ascending_keys (n : ℕ) :
    (runMap id 0 ∅ ((ascending n).map Op.forget)).1.keys = Finset.range n := by
  induction n with
  | zero => rfl
  | succ n ih =>
    have hn : n ∉ (runMap id 0 ∅ ((ascending n).map Op.forget)).1 := by
      rw [← Finmap.mem_keys, ih, Finset.mem_range]
      exact lt_irrefl n
    rw [ascending, List.range_succ, List.map_append, List.map_append, runMap_append]
    simp only [List.map_cons, List.map_nil, Op.forget, runMap, applyMap]
    rw [← ascending, if_neg hn]
    ext key
    rw [Finmap.mem_keys, Finmap.mem_insert, ← Finmap.mem_keys, ih, Finset.mem_range,
      Finset.mem_range]
    omega

/-- The map's last answer to `ascending n` and `size` is `n`. -/
theorem ascending_size (n : ℕ) :
    (runMap id 0 ∅ ((ascending n ++ [Op.size]).map Op.forget)).2.getLast? = some (.count n) := by
  rw [List.map_append, runMap_append]
  simp only [List.map_cons, List.map_nil, Op.forget, runMap, applyMap, ascending_keys,
    Finset.card_range, List.getLast?_append, List.getLast?_singleton, Option.some_or]

/-- If the list answered as the map does, unreduced, `size` would be right for any number. -/
theorem bmod_of_answers {n : ℕ} {s : SkipList ℕ ℕ}
    (h : runOps id 0 (SkipList.new 0 0 1) (ascending n ++ [Op.size])
      = .ok (s, (runMap id 0 ∅ ((ascending n ++ [Op.size]).map Op.forget)).2)) :
    (n : ℤ).bmod (2 ^ 32) = n := by
  obtain ⟨s', hrun, -⟩ := runOps_refines id 0
    (represents_new 0 0 le_rfl) (ascending n ++ [Op.size])
  have hanswers := (Prod.mk.inj (Except.ok.inj (hrun.symm.trans h))).2
  have hlast := congrArg List.getLast? hanswers
  rw [List.getLast?_map, ascending_size, Option.map_some] at hlast
  exact Answer.count.inj (Option.some.inj hlast)

/-- If the counter were the length of level `0`, unreduced, `size` would be right for any
number. -/
theorem bmod_of_count {n : ℕ} {s : SkipList ℕ ℕ} {as : List (Answer ℕ)} {l : List Addr}
    (hrun : runOps id 0 (SkipList.new 0 0 1) (ascending n) = .ok (s, as))
    (hl : Chain (s.next 0) s.header l) (hcount : s.elementCount.toInt = l.length) :
    (n : ℤ).bmod (2 ^ 32) = n := by
  obtain ⟨s', hrun', hs⟩ := runOps_refines id 0
    (represents_new 0 0 le_rfl) (ascending n)
  obtain rfl := (Prod.mk.inj (Except.ok.inj (hrun.symm.trans hrun'))).1
  obtain ⟨cells, hshape, hm⟩ := hs.cells
  have hlen : l.length = n := by
    rw [hl.unique (hshape.chain 0 (Nat.zero_le _)), reach_zero, List.length_map,
      ← card_keys_toMap hshape.sorted, ← hm, ascending_keys, Finset.card_range]
  have hint := congrArg Int32.toInt (hshape.wellLinked.count l hl)
  rwa [hcount, hlen, Int32.toInt_ofNat', eq_comm] at hint

/-- After `2^31` insertions of distinct keys `size` is not their number. -/
theorem runOps_size_wraps : ¬ ∃ s, runOps id 0 (SkipList.new 0 0 1)
    (ascending (2 ^ 31) ++ [Op.size])
      = .ok (s, (runMap id 0 ∅ ((ascending (2 ^ 31) ++ [Op.size]).map Op.forget)).2) := by
  rintro ⟨s, hs⟩
  exact absurd (bmod_of_answers hs) (by norm_num [Int.bmod])

/-- After `2^31` insertions the counter is not the length of the chain of level `0`. -/
theorem runOps_count_wraps : ¬ ∀ s as l, runOps id 0 (SkipList.new 0 0 1) (ascending (2 ^ 31))
    = .ok (s, as) → Chain (s.next 0) s.header l → s.elementCount.toInt = l.length := by
  intro hall
  obtain ⟨s, hrun, hs⟩ := runOps_refines id 0
    (represents_new 0 0 le_rfl) (ascending (2 ^ 31))
  obtain ⟨cells, hshape, -⟩ := hs.cells
  have hl := hshape.chain 0 (Nat.zero_le _)
  exact absurd (bmod_of_count hrun hl (hall s _ _ hrun hl)) (by norm_num [Int.bmod])

end CoKV.SkipList
