import CoKV.SkipList.RunTheorems

/-!
# The destructor

`clear` and `~SkipList`, and what a list gives to `delete` from its constructor on. `freed_once`:
each node that has been allocated is freed once, and no call and no destructor reads a node that has
been. `free` faults on what is not allocated, and addresses do not come back, so that a call without
a fault frees nothing twice and reads nothing freed.
-/

namespace CoKV.SkipList

variable {K V S : Type}

/-! ## Definitions -/

/-- `clear(cur)`, with the nodes in the order in which they are deleted. -/
def clear (s : SkipList K V) : ℕ → Addr → Except Fault (SkipList K V × List Addr)
  | 0, _ => .error .diverges
  | fuel + 1, cur => do
    let (s, freed) ← match ← s.forwardAt (some cur) 0 with
      | none => pure (s, [])
      | some q => clear s fuel q
    return (← s.free (some cur), freed ++ [cur])

/-- `~SkipList` -/
def destroy (s : SkipList K V) : Except Fault (SkipList K V × List Addr) := do
  let (t, freed) ← match ← s.forwardAt (some s.header) 0 with
    | none => pure (s, [])
    | some q => s.clear s.brk q
  return (← t.free (some s.header), freed ++ [s.header])

/-- What a call has freed: the nodes that were allocated before it and are not after it. -/
def freedBy (s t : SkipList K V) : List Addr :=
  (List.range s.brk).filter fun a => (s.heap a).isSome && (t.heap a).isNone

/-- A sequence of calls, with the nodes that they free. -/
def runFreed [LinearOrder K] (toString : V → S) (empty : S) (s : SkipList K V) :
    List (Op K V) → Except Fault (SkipList K V × List Addr)
  | [] => return (s, [])
  | op :: ops => do
    let (t, _) ← applyOp toString empty s op
    let (u, freed) ← runFreed toString empty t ops
    return (u, s.freedBy t ++ freed)

/-- A sequence of calls and then the destructor. -/
def lifetime [LinearOrder K] (toString : V → S) (empty : S) (s : SkipList K V) (ops : List (Op K V)) :
    Except Fault (SkipList K V × List Addr) := do
  let (s, freed) ← runFreed toString empty s ops
  let (s, freed') ← s.destroy
  return (s, freed ++ freed')

/-! ## `clear` -/

/-- The list without the nodes at `l`. -/
def without (s : SkipList K V) (l : List Addr) : SkipList K V :=
  { s with heap := fun a => if a ∈ l then none else s.heap a }

theorem free_without {s : SkipList K V} {a : Addr} {l : List Addr} (hlive : (s.heap a).isSome)
    (ha : a ∉ l) : (s.without l).free (some a) = .ok (s.without (a :: l)) := by
  obtain ⟨n, hn⟩ := Option.isSome_iff_exists.mp hlive
  have hderef : (s.without l).deref (some a) = .ok n := by simp [deref, without, ha, hn]
  have hheap : (fun b => if some b = some a then none else (s.without l).heap b) =
      (s.without (a :: l)).heap := by
    funext b
    by_cases hb : b = a
    · simp [without, hb]
    · simp [without, hb]
  simp only [free, hderef, ok_bind, hheap]
  rfl

/-- `clear` frees a chain from its end on. -/
theorem clear_ok {s : SkipList K V} {cur : Addr} {rest : List Addr} {fuel : ℕ}
    (hchain : Chain (s.next 0) cur rest) (hlive : ∀ a ∈ cur :: rest, (s.heap a).isSome)
    (hnodup : (cur :: rest).Nodup) (hfuel : rest.length < fuel) :
    s.clear fuel cur = .ok (s.without (cur :: rest), (cur :: rest).reverse) := by
  induction rest generalizing cur fuel with
  | nil =>
    obtain ⟨n, rfl⟩ : ∃ n, fuel = n + 1 := ⟨fuel - 1, by omega⟩
    have hfree := free_without (l := []) (hlive cur (List.mem_cons_self ..)) List.not_mem_nil
    have hsame : s.without [] = s := by simp [without]
    rw [hsame] at hfree
    rw [clear, forwardAt_of_next hchain.next_eq]
    simp only [ok_bind, List.head?_nil, pure_eq_ok, hfree]
    rfl
  | cons q rest ih =>
    rw [List.length_cons] at hfuel
    obtain ⟨n, rfl⟩ : ∃ n, fuel = n + 1 := ⟨fuel - 1, by omega⟩
    obtain ⟨hcur, hrest⟩ := List.nodup_cons.mp hnodup
    have hclear := ih hchain.2 (fun a ha => hlive a (List.mem_cons_of_mem _ ha)) hrest
      (Nat.lt_of_succ_lt_succ hfuel)
    -- the nodes behind `cur` are gone when it is deleted
    have hfree := free_without (hlive cur (List.mem_cons_self ..)) hcur
    rw [clear, forwardAt_of_next hchain.next_eq]
    simp only [ok_bind, List.head?_cons, hclear, hfree, List.reverse_cons]
    rfl

/-- The destructor frees all that is left. -/
theorem Shape.destroy [LinearOrder K] {s : SkipList K V} {cells : List (Cell K V)}
    (h : Shape s cells) :
    s.destroy = .ok (s.without (s.header :: cells.map Cell.addr),
      (s.header :: cells.map Cell.addr).reverse) := by
  have hchain := h.chain 0 (Nat.zero_le _)
  rw [reach_zero] at hchain
  have hlive : ∀ a ∈ s.header :: cells.map Cell.addr, (s.heap a).isSome := fun a => (h.live a).mpr
  obtain ⟨hheader, hnodup⟩ := List.nodup_cons.mp h.nodup
  have hfree := free_without (hlive s.header (List.mem_cons_self ..)) hheader
  rw [SkipList.destroy, forwardAt_of_next hchain.next_eq]
  cases hcells : cells.map Cell.addr with
  | nil =>
    rw [hcells] at hfree
    have hsame : s.without [] = s := by simp [without]
    rw [hsame] at hfree
    simp only [ok_bind, List.head?_nil, pure_eq_ok, hfree]
    rfl
  | cons q rest =>
    rw [hcells] at hchain hlive hnodup hfree
    have hlen : rest.length < s.brk := by
      have hcount := congrArg List.length hcells
      have hbrk := h.length_lt_brk
      rw [List.length_map, List.length_cons] at hcount
      omega
    have hclear := clear_ok hchain.2 (fun a ha => hlive a (List.mem_cons_of_mem _ ha)) hnodup hlen
    simp only [ok_bind, List.head?_cons, hclear, hfree, List.reverse_cons]
    rfl

/-! ## The account of the nodes -/

/-- Every node that has been allocated is live or has been freed, once. -/
def Accounted (s : SkipList K V) (freed : List Addr) : Prop :=
  ∀ a, freed.count a + (if (s.heap a).isSome then 1 else 0) = if a < s.brk then 1 else 0

theorem count_freedBy (s t : SkipList K V) (a : Addr) :
    (s.freedBy t).count a =
      if a < s.brk ∧ (s.heap a).isSome = true ∧ ¬ (t.heap a).isSome = true then 1 else 0 := by
  have hnodup : (s.freedBy t).Nodup := List.nodup_range.filter _
  rw [List.Nodup.count hnodup]
  simp [freedBy]

theorem Accounted.allocates {s t : SkipList K V} {freed : List Addr} (h : Accounted s freed)
    (hst : Allocates s t) : Accounted t (freed ++ s.freedBy t) := by
  intro a
  have ha := h a
  rw [List.count_append, count_freedBy]
  by_cases hbrk : a < s.brk
  · have hbrk' : a < t.brk := Nat.lt_of_lt_of_le hbrk hst.brk
    have hold := hst.old a hbrk
    -- a node that was live is still, or it is freed now
    by_cases hs : (s.heap a).isSome = true
    · by_cases ht : (t.heap a).isSome = true
      · simp only [hs, hbrk, if_true] at ha
        simp only [hs, ht, hbrk']
        simp; omega
      · simp only [hs, hbrk, if_true] at ha
        simp only [hs, ht, hbrk, hbrk']
        simp; omega
    · simp only [hs, hbrk, if_true] at ha
      simp only [hs, mt hold hs, hbrk']
      simp at ha ⊢; omega
  · have hnew := hst.new a (Nat.not_lt.mp hbrk)
    rw [if_neg hbrk] at ha
    have hcount : freed.count a = 0 := by omega
    simp [hbrk, hcount, hnew]

variable [LinearOrder K] (toString : V → S) (empty : S)

/-- A sequence of calls. -/
theorem Shape.runFreed {s : SkipList K V} {cells : List (Cell K V)} {before : List Addr}
    (h : Shape s cells) (hbefore : Accounted s before) (ops : List (Op K V)) :
    ∃ t freed cells', SkipList.runFreed toString empty s ops = .ok (t, freed) ∧ Shape t cells' ∧
      Accounted t (before ++ freed) := by
  induction ops generalizing s cells before with
  | nil => exact ⟨s, [], cells, rfl, h, by rwa [List.append_nil]⟩
  | cons op ops ih =>
    obtain ⟨t, a, cells', happ, ht, hst⟩ := h.applyOp toString empty op
    obtain ⟨u, freed, cells'', hrun, hu, hall⟩ := ih ht (hbefore.allocates hst)
    refine ⟨u, s.freedBy t ++ freed, cells'', ?_, hu, by rwa [← List.append_assoc]⟩
    rw [SkipList.runFreed, happ, ok_bind]
    simp only [hrun, ok_bind]
    rfl

/-- **Freed exactly once**: whatever is called and whatever levels are drawn, from the constructor to
the end of the destructor nothing faults, and the addresses that have been handed out have been
given to `delete` once each. -/
theorem freed_once (k : K) (v : V) (maxlevel : ℕ) (ops : List (Op K V)) :
    ∃ s freed, lifetime toString empty (SkipList.new k v maxlevel) ops = .ok (s, freed) ∧
      (∀ a, s.heap a = none) ∧ ∀ a, freed.count a = if a < s.brk then 1 else 0 := by
  have hnew := Shape.new k v maxlevel
  have hnone : Accounted (SkipList.new k v maxlevel) [] := by
    intro a
    by_cases ha : a = 0
    · simp [SkipList.new, ha]
    · simp [SkipList.new, ha]
  obtain ⟨t, freed, cells, hrun, ht, hall⟩ := hnew.runFreed toString empty hnone ops
  set l := t.header :: cells.map Cell.addr with hl
  refine ⟨t.without l, freed ++ l.reverse, ?_, fun a => ?_, fun a => ?_⟩
  · simp only [lifetime, hrun, ok_bind, ht.destroy]
    rfl
  · by_cases ha : a ∈ l
    · exact if_pos ha
    · have hdead : t.heap a = none := by simpa [ha] using mt (ht.live a).mp ha
      exact (if_neg ha).trans hdead
  · have hcount := hall a
    rw [List.nil_append] at hcount
    rw [List.count_append, List.count_reverse, List.Nodup.count ht.nodup]
    simp only [← ht.live]
    exact hcount

end CoKV.SkipList
