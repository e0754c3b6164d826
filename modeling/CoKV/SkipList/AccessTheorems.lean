import CoKV.SkipList.RunTheorems
import Mathlib.Logic.Relation

/-!
# Accesses

`calls_inBounds`: no call on a list that can be reached touches an array out of bounds or follows a
null pointer, and each loop comes to its end. The accessors of the model fail on such an access,
because every node's array is as long as its level says; that holds between two calls and inside of
them, so it is followed over the single writes (`Touches`) that a call is made of.
-/

namespace CoKV.SkipList

variable {K V : Type}

/-- `p->forward[i]` is there: `p` is a node, and `i` is not above its `node_level`. -/
def InBounds (s : SkipList K V) (p : Option Addr) (i : ℕ) : Prop :=
  ∃ a n, p = some a ∧ s.heap a = some n ∧ i ≤ n.nodeLevel

/-- One write of a call, to the heap or to a field of the list. -/
inductive Touches (s : SkipList K V) : SkipList K V → Prop
  | setForward {t : SkipList K V} (p : Option Addr) (i : ℕ) (q : Option Addr)
      (h : s.setForward p i q = .ok t) : Touches s t
  | createNode (key : K) (value : V) (level : ℕ) : Touches s (s.createNode key value level).1
  | free {t : SkipList K V} (p : Option Addr) (h : s.free p = .ok t) : Touches s t
  | setLevel (level : ℕ) : Touches s { s with skipListLevel := level }
  | setCount (n : Int32) : Touches s { s with elementCount := n }

/-- The array `update` of a call: it has `max_level + 1` entries, all of them null until they are
set. -/
inductive Updates (s : SkipList K V) : List (Option Addr) → Prop
  | zero : Updates s (List.replicate (s.maxLevel + 1) none)
  | set {update update' : List (Option Addr)} {i : ℕ} {p : Option Addr}
    (h : Updates s update) (hset : setUpdate update i p = .ok update') : Updates s update'

/-- The accesses that `s` lets through: `forward[i]` of a node is read and written exactly up to the
`node_level` of the node, which is `max_level` for the header, and what an entry of `update` points
at is followed only where the entry is there and has been set. -/
structure Guarded (s : SkipList K V) : Prop where
  reads : ∀ p i, (∃ q, s.forwardAt p i = .ok q) ↔ s.InBounds p i
  writes : ∀ p i q, (∃ t, s.setForward p i q = .ok t) ↔ s.InBounds p i
  header : ∀ i, s.InBounds (some s.header) i → i ≤ s.maxLevel
  update : ∀ update, Updates s update → ∀ i u, updateAt update i = .ok u →
    (∃ q, s.forwardAt u i = .ok q) → i ≤ s.maxLevel ∧ ∃ a, update[i]? = some (some a)

/-! ## The lengths of the arrays -/

/-- Every array is as long as the level of its node says. -/
structure Sized (s : SkipList K V) : Prop where
  length : ∀ a n, s.heap a = some n → n.forward.length = n.nodeLevel + 1
  header_lt : s.header < s.brk
  header_level : ∀ n, s.heap s.header = some n → n.nodeLevel = s.maxLevel

section Accesses

variable {s t : SkipList K V} {p q : Option Addr} {a : Addr} {i : ℕ}

/-- Only a node that is there can be read. -/
theorem deref_ok {n : Node K V} (h : s.deref p = .ok n) : ∃ a, p = some a ∧ s.heap a = some n := by
  cases p with
  | none => simp [deref] at h
  | some a =>
    cases hn : s.heap a with
    | none => simp [deref, hn] at h
    | some m => exact ⟨a, rfl, by simpa [deref, hn] using h⟩

theorem deref_of_heap {n : Node K V} (h : s.heap a = some n) : s.deref (some a) = .ok n := by
  simp [deref, h]

/-- Only a forward pointer that the node has can be written. -/
theorem setForward_ok (h : s.setForward p i q = .ok t) :
    ∃ a n, p = some a ∧ s.heap a = some n ∧ i < n.forward.length ∧ t = s.writeForward a i q := by
  obtain ⟨n, hn, ht⟩ := ok_of_bind h
  obtain ⟨a, rfl, ha⟩ := deref_ok hn
  by_cases hlt : i < n.forward.length
  · refine ⟨a, n, rfl, ha, hlt, ?_⟩
    simpa [hlt, eq_comm] using ht
  · simp [hlt] at ht

/-- Reading succeeds exactly within the bounds. -/
theorem Sized.forwardAt_iff (h : Sized s) : (∃ q, s.forwardAt p i = .ok q) ↔ s.InBounds p i := by
  constructor
  · intro ⟨q, hq⟩
    obtain ⟨n, hn, hget⟩ := ok_of_bind hq
    obtain ⟨a, rfl, ha⟩ := deref_ok hn
    have hlen := h.length a n ha
    refine ⟨a, n, rfl, ha, ?_⟩
    by_contra hle
    have hnone : n.forward[i]? = none := by
      apply List.getElem?_eq_none
      omega
    simp [hnone] at hget
  · intro ⟨a, n, hp, ha, hle⟩
    have hlen := h.length a n ha
    have hlt : i < n.forward.length := by omega
    exact ⟨n.forward[i], by simp [forwardAt, hp, deref_of_heap ha, hlt]⟩

/-- And so does writing. -/
theorem Sized.setForward_iff (h : Sized s) :
    (∃ t, s.setForward p i q = .ok t) ↔ s.InBounds p i := by
  constructor
  · intro ⟨t, ht⟩
    obtain ⟨a, n, hp, ha, hlt, -⟩ := setForward_ok ht
    have hlen := h.length a n ha
    exact ⟨a, n, hp, ha, by omega⟩
  · intro ⟨a, n, hp, ha, hle⟩
    have hlen := h.length a n ha
    have hlt : i < n.forward.length := by omega
    exact ⟨s.writeForward a i q, by simp [setForward, hp, deref_of_heap ha, hlt]⟩

/-- `update[]` has a slot for each level. -/
theorem Updates.length {update : List (Option Addr)} (h : Updates s update) :
    update.length = s.maxLevel + 1 := by
  induction h with
  | zero => exact List.length_replicate
  | @set update update' i p _ hset ih =>
    by_cases hlt : i < update.length
    · simp only [setUpdate, if_pos hlt] at hset
      cases hset
      rw [List.length_set, ih]
    · simp only [setUpdate, if_neg hlt] at hset
      cases hset

/-- An entry of `update` that is followed is there, and has been set. -/
theorem Updates.set_of_forwardAt {update : List (Option Addr)} {u : Option Addr}
    (h : Updates s update) (hu : updateAt update i = .ok u) (hq : s.forwardAt u i = .ok q) :
    i ≤ s.maxLevel ∧ ∃ a, update[i]? = some (some a) := by
  obtain ⟨n, hn, -⟩ := ok_of_bind hq
  obtain ⟨a, rfl, -⟩ := deref_ok hn
  cases hget : update[i]? with
  | none => simp [updateAt, hget] at hu
  | some p =>
    have hp : p = some a := by simpa [updateAt, hget] using hu
    have hlt := (List.getElem?_eq_some_iff.mp hget).choose
    have hlen := h.length
    exact ⟨by omega, a, by rw [hp]⟩

/-- The sizes are what guards the accesses. -/
theorem Sized.guarded (h : Sized s) : Guarded s where
  reads _ _ := h.forwardAt_iff
  writes _ _ _ := h.setForward_iff
  header i := by
    intro ⟨a, n, ha, hn, hle⟩
    have hlevel := h.header_level n (by rw [Option.some.inj ha, hn])
    omega
  update _ hupdate _ _ hu := by
    intro ⟨q, hq⟩
    exact hupdate.set_of_forwardAt hu hq

/-! ## What is written -/

/-- A new list has a header of its full height. -/
theorem Sized.new (k : K) (v : V) (maxlevel : ℕ) : Sized (SkipList.new k v maxlevel) := by
  have hheap : ∀ a n, (SkipList.new k v maxlevel).heap a = some n →
      Node.new k v maxlevel = n := by
    intro a n ha
    change (if a = 0 then some (Node.new k v maxlevel) else none) = some n at ha
    split at ha
    · exact Option.some.inj ha
    · simp at ha
  constructor
  · intro a n ha
    rw [← hheap a n ha]
    exact List.length_replicate
  · exact Nat.zero_lt_one
  · intro n hn
    rw [← hheap _ n hn]
    rfl

/-- A forward pointer that is written changes no size. -/
theorem heap_writeForward {b : Addr} {n : Node K V} (h : (s.writeForward a i q).heap b = some n) :
    ∃ m, s.heap b = some m ∧ n.nodeLevel = m.nodeLevel ∧
      n.forward.length = m.forward.length := by
  by_cases hba : b = a
  · obtain ⟨m, hm, rfl⟩ : ∃ m, s.heap b = some m ∧
        { m with forward := m.forward.set i q } = n := by
      simpa [SkipList.writeForward, hba] using h
    exact ⟨m, hm, rfl, List.length_set⟩
  · exact ⟨n, by simpa [SkipList.writeForward, hba] using h, rfl, rfl⟩

/-- What is left after `delete` was there before. -/
theorem heap_free (h : s.free p = .ok t) {b : Addr} {n : Node K V} (hb : t.heap b = some n) :
    s.heap b = some n := by
  obtain ⟨-, -, ht⟩ := ok_of_bind h
  cases ht
  change (if some b = p then none else s.heap b) = some n at hb
  split at hb
  · simp at hb
  · exact hb

/-- One write keeps the lengths. -/
theorem Sized.touches (h : Sized s) (ht : Touches s t) : Sized t := by
  cases ht with
  | setForward p i q hset =>
    obtain ⟨a, -, -, -, -, rfl⟩ := setForward_ok hset
    constructor
    · intro b n hb
      obtain ⟨m, hm, hlevel, hlen⟩ := heap_writeForward hb
      rw [hlen, hlevel]
      exact h.length b m hm
    · exact h.header_lt
    · intro n hn
      obtain ⟨m, hm, hlevel, -⟩ := heap_writeForward hn
      rw [hlevel]
      exact h.header_level m hm
  | createNode key value level =>
    constructor
    · intro b n hb
      change (if b = s.brk then some (Node.new key value level) else s.heap b) = some n at hb
      split at hb
      · cases hb
        exact List.length_replicate
      · exact h.length b n hb
    · exact Nat.lt_succ_of_lt h.header_lt
    · intro n hn
      change (if s.header = s.brk then some (Node.new key value level) else s.heap s.header)
        = some n at hn
      rw [if_neg (Nat.ne_of_lt h.header_lt)] at hn
      exact h.header_level n hn
  | free p hfree =>
    have hheap := @heap_free _ _ _ _ _ hfree
    obtain ⟨-, -, ht⟩ := ok_of_bind hfree
    cases ht
    constructor
    · intro b n hb
      exact h.length b n (hheap hb)
    · exact h.header_lt
    · intro n hn
      exact h.header_level n (hheap hn)
  | setLevel level => exact ⟨h.length, h.header_lt, h.header_level⟩
  | setCount n => exact ⟨h.length, h.header_lt, h.header_level⟩

/-- And so does any number of writes. -/
theorem Sized.writes (h : Sized s) (ht : Relation.ReflTransGen Touches s t) : Sized t := by
  induction ht with
  | refl => exact h
  | tail _ hlast ih => exact ih.touches hlast

end Accesses

/-! ## The writes of a call -/

section Calls

variable {s t : SkipList K V} {update : List (Option Addr)} {i n : ℕ}

/-- Each turn of the splicing loop makes two writes. -/
theorem link_writes {node : Addr} (h : link update node i n s = .ok t) :
    Relation.ReflTransGen Touches s t := by
  induction n generalizing i s with
  | zero =>
    cases h
    exact .refl
  | succ n ih =>
    obtain ⟨u, -, h₁⟩ := ok_of_bind h
    obtain ⟨q, -, h₂⟩ := ok_of_bind h₁
    obtain ⟨s₁, hs₁, h₃⟩ := ok_of_bind h₂
    obtain ⟨s₂, hs₂, h₄⟩ := ok_of_bind h₃
    exact ((ih h₄).head (.setForward _ _ _ hs₂)).head (.setForward _ _ _ hs₁)

/-- Each turn of the unlinking loop makes one, or is the last. -/
theorem unlink_writes {current : Option Addr} (h : unlink update current i n s = .ok t) :
    Relation.ReflTransGen Touches s t := by
  induction n generalizing i s with
  | zero =>
    cases h
    exact .refl
  | succ n ih =>
    obtain ⟨u, -, h₁⟩ := ok_of_bind h
    obtain ⟨q, -, h₂⟩ := ok_of_bind h₁
    split at h₂
    · cases h₂
      exact .refl
    · obtain ⟨q', -, h₃⟩ := ok_of_bind h₂
      obtain ⟨s₁, hs₁, h₄⟩ := ok_of_bind h₃
      exact (ih h₄).head (.setForward _ _ _ hs₁)

variable [LinearOrder K]

/-- `insertElement` goes from state to state by the writes of the program. -/
theorem insertElement_writes {key : K} {value : V} {odds r : ℕ}
    (h : s.insertElement key value odds = .ok (t, r)) : Relation.ReflTransGen Touches s t := by
  obtain ⟨⟨c, update⟩, -, h₁⟩ := ok_of_bind h
  obtain ⟨current, -, h₂⟩ := ok_of_bind h₁
  obtain ⟨b, -, h₃⟩ := ok_of_bind h₂
  split at h₃
  · cases h₃
    exact .refl
  · obtain ⟨update', -, h₄⟩ := ok_of_bind h₃
    obtain ⟨s₁, hs₁, h₅⟩ := ok_of_bind h₄
    cases h₅
    have hlink := (link_writes hs₁).head (.createNode key value _)
    exact (hlink.head (.setLevel _)).tail (.setCount _)

/-- `deleteElement` goes from state to state by the writes of the program. -/
theorem deleteElement_writes {key : K} (h : s.deleteElement key = .ok t) :
    Relation.ReflTransGen Touches s t := by
  obtain ⟨⟨c, update⟩, -, h₁⟩ := ok_of_bind h
  obtain ⟨current, -, h₂⟩ := ok_of_bind h₁
  obtain ⟨b, -, h₃⟩ := ok_of_bind h₂
  split at h₃
  · obtain ⟨s₁, hs₁, h₄⟩ := ok_of_bind h₃
    obtain ⟨level, -, h₅⟩ := ok_of_bind h₄
    obtain ⟨s₂, hs₂, h₆⟩ := ok_of_bind h₅
    cases h₆
    exact (((unlink_writes hs₁).tail (.setLevel level)).tail (.free _ hs₂)).tail (.setCount _)
  · cases h₃
    exact .refl

variable {S : Type} (toString : V → S) (empty : S)

/-- So does each call. -/
theorem applyOp_writes {op : Op K V} {a : Answer S}
    (h : applyOp toString empty s op = .ok (t, a)) : Relation.ReflTransGen Touches s t := by
  cases op with
  | insertElement key value odds =>
    obtain ⟨⟨s₁, r⟩, hins, h₁⟩ := ok_of_bind h
    cases h₁
    exact insertElement_writes hins
  | deleteElement key =>
    obtain ⟨s₁, hdel, h₁⟩ := ok_of_bind h
    cases h₁
    exact deleteElement_writes hdel
  | searchElement key =>
    obtain ⟨b, -, h₁⟩ := ok_of_bind h
    cases h₁
    exact .refl
  | getElement key =>
    obtain ⟨str, -, h₁⟩ := ok_of_bind h
    cases h₁
    exact .refl
  | size =>
    cases h
    exact .refl

/-- So does a list of calls. -/
theorem runOps_writes {ops : List (Op K V)} {as : List (Answer S)}
    (h : runOps toString empty s ops = .ok (t, as)) : Relation.ReflTransGen Touches s t := by
  induction ops generalizing s as with
  | nil =>
    cases h
    exact .refl
  | cons op ops ih =>
    obtain ⟨⟨s₁, a⟩, happ, h₁⟩ := ok_of_bind h
    obtain ⟨⟨s₂, as'⟩, hrun, h₂⟩ := ok_of_bind h₁
    cases h₂
    exact (applyOp_writes toString empty happ).trans (ih hrun)

/-- **Every access of every call is in bounds.** After any calls, whatever levels are drawn, each
further call returns: it meets no access that the accessors refuse, and no loop of it goes on for
ever. What they refuse is, in every state that the calls and the writes inside of them lead to,
`forward[i]` above the `node_level` of its node, or of something that is no node, and an entry of
`update` above `max_level`, or one that was not set. -/
theorem calls_inBounds (k : K) (v : V) (maxlevel : ℕ) (ops : List (Op K V)) :
    (∃ s as, runOps toString empty (SkipList.new k v maxlevel) ops = .ok (s, as) ∧
      Relation.ReflTransGen Touches (SkipList.new k v maxlevel) s ∧
      ∀ op, ∃ t a, applyOp toString empty s op = .ok (t, a) ∧
        Relation.ReflTransGen Touches s t) ∧
    ∀ s, Relation.ReflTransGen Touches (SkipList.new k v maxlevel) s → Guarded s := by
  constructor
  · obtain ⟨s, as, cells, hrun, hs⟩ := (Shape.new k v maxlevel).runOps toString empty ops
    refine ⟨s, as, hrun, runOps_writes toString empty hrun, fun op => ?_⟩
    obtain ⟨t, a, -, happ, -⟩ := hs.applyOp toString empty op
    exact ⟨t, a, happ, applyOp_writes toString empty happ⟩
  · intro s hs
    exact ((Sized.new k v maxlevel).writes hs).guarded

end Calls

end CoKV.SkipList
