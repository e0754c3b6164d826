import CoKV.FdManager.GetTheorems
import Mathlib.Data.Finmap
import Mathlib.Data.List.Basic

/-!
# The table as a map

Calls of `get` and `del` one after the other, compared with a finite map from descriptors to
contexts. `calls_follow_iff`: they agree as long as no number is negative, which `(int)size <= fd`
does not keep from the table, and as long as the table does not grow beyond what an `int` can count.
-/

namespace CoKV.FdManager

/-! ## The code and the map -/

/-- `get`, with what `fstat` tells a new `FdCtx`; nothing happens between its two sections. -/
def get (m : FdManager) (fd : ℤ) (autoCreate : Bool) (stat : Option Bool) :
    Option (Option ℕ × FdManager) :=
  if fd = 1 then some (none, m)
  else
    match m.lookup fd autoCreate with
    | none => none
    | some (some ctx) => some (ctx, m)
    | some none => (m.create fd stat).map fun r => (some r.1, r.2)

inductive Call
  | get (fd : ℤ) (autoCreate : Bool) (stat : Option Bool)
  | del (fd : ℤ)

namespace Call

def fd : Call → ℤ
  | .get fd _ _ => fd
  | .del fd => fd

/-- `fd` is an `int`, and not the one that `get` does not look up. -/
def Proper (c : Call) : Prop := -2 ^ 31 ≤ c.fd ∧ c.fd < 2 ^ 31 ∧ c.fd ≠ 1

end Call

/-- What a call returns, and the manager after it; `del` returns nothing. -/
def apply (m : FdManager) : Call → Option (Option ℕ × FdManager)
  | .get fd autoCreate stat => m.get fd autoCreate stat
  | .del fd => (m.del fd).map fun m => (none, m)

/-- What the manager is for: the context of each descriptor that has one, and all the objects. -/
structure CtxMap where
  map : Finmap fun _ : ℤ => ℕ
  objects : List FdCtx

namespace CtxMap

def empty : CtxMap := ⟨∅, []⟩

def apply (t : CtxMap) : Call → Option ℕ × CtxMap
  | .get fd autoCreate stat =>
    match t.map.lookup fd with
    | some ctx => (some ctx, t)
    | none =>
      if autoCreate then
        (some t.objects.length,
          ⟨t.map.insert fd t.objects.length, t.objects ++ [FdCtx.new fd stat]⟩)
      else (none, t)
  | .del fd => (none, { t with map := t.map.erase fd })

end CtxMap

/-- `get(fd, false)` returns for every descriptor what the map has, and changes nothing. -/
structure Agrees (m : FdManager) (t : CtxMap) : Prop where
  finds : ∀ fd stat, 0 ≤ fd → fd < 2 ^ 31 → fd ≠ 1 →
    m.get fd false stat = some (t.map.lookup fd, m)
  objects : m.objects = t.objects

/-- Each call in turn comes to its end and returns what the map says, and before it and after it
the manager agrees with the map. -/
def FollowsMap (m : FdManager) (t : CtxMap) : List Call → Prop
  | [] => Agrees m t
  | c :: calls => Agrees m t ∧
    ∃ m', m.apply c = some ((t.apply c).1, m') ∧ FollowsMap m' (t.apply c).2 calls

/-- A number that can be a descriptor, and for which the table does not have to grow beyond what
`(int)m_datas.size()` can be. -/
def Fits (m : FdManager) (c : Call) : Prop :=
  0 ≤ c.fd ∧ ∀ fd stat, c = .get fd true stat → m.datas.length ≤ fd → 3 * fd / 2 < 2 ^ 31

/-- Each call in turn fits the table that it finds. -/
def AllFit (m : FdManager) : List Call → Prop
  | [] => True
  | c :: calls => Fits m c ∧ ∀ ctx m', m.apply c = some (ctx, m') → AllFit m' calls

/-! ## One call -/

section Step

variable {m m' : FdManager} {t : CtxMap} {fd : ℤ} {ctx p : ℕ} {stat : Option Bool} {c : Call}

/-- An entry within the table can be read. -/
theorem entry_of_lt (h : 0 ≤ fd) (hlt : fd < m.datas.length) :
    m.entry fd = some (m.datas.get ⟨fd.toNat, by omega⟩) := by
  unfold entry
  rw [if_pos h]
  exact List.getElem?_eq_getElem _

/-- A negative index reads no entry. -/
theorem entry_neg (h : fd < 0) : m.entry fd = none := if_neg (by omega)

/-- An entry that holds an object is below the length. -/
theorem Holds.lt (h : Holds m fd p) : fd < m.datas.length := by
  obtain ⟨hfd, hget⟩ := h.inRange
  obtain ⟨hlt, -⟩ := List.getElem?_eq_some_iff.mp hget
  omega

/-- An index below zero passes the test of the size. -/
theorem lookup_neg (hm : Sized m) (h : fd < 0) (autoCreate : Bool) :
    m.lookup fd autoCreate = none := by
  unfold lookup
  rw [hm.intSize, if_neg (by omega), entry_neg h]
  rfl

/-- An object that is there is found, whatever `auto_create` says. -/
theorem lookup_found (hm : Sized m) (h : Holds m fd p) (autoCreate : Bool) :
    m.lookup fd autoCreate = some (some (some p)) := by
  have hlt := h.lt
  unfold lookup
  rw [hm.intSize, if_neg (by omega), h]
  simp

/-- Where no object is, `auto_create` decides. -/
theorem lookup_missing (hm : Sized m) (hfd : 0 ≤ fd) (h : ∀ p, ¬ Holds m fd p)
    (autoCreate : Bool) :
    m.lookup fd autoCreate = if autoCreate then some none else some (some none) := by
  unfold lookup
  rw [hm.intSize]
  by_cases hlt : fd < m.datas.length
  · have hentry := entry_of_lt hfd hlt
    have hnone : m.datas.get ⟨fd.toNat, by omega⟩ = none := by
      apply Option.eq_none_iff_forall_not_mem.mpr
      intro p hp
      apply h p
      unfold Holds
      rw [hentry, hp]
    rw [if_neg (by omega), hentry, hnone]
    cases autoCreate <;> simp
  · rw [if_pos (by omega)]
    cases autoCreate <;> simp

/-- With room in the table, or the room that `resize` makes, the object gets its entry. -/
theorem create_succeeds (hm : Sized m) (hfd : 0 ≤ fd) (stat : Option Bool) :
    ∃ m', m.create fd stat = some (m.objects.length, m') ∧
      m'.objects = m.objects ++ [FdCtx.new fd stat] ∧
      m'.datas.length =
        if m.datas.length ≤ fd then (3 * fd / 2).toNat else m.datas.length := by
  have hge := hm.ge
  unfold create
  dsimp only
  rw [show intSize ⟨m.datas, m.objects ++ [FdCtx.new fd stat]⟩ = m.intSize from rfl, hm.intSize]
  by_cases hgrow : m.datas.length ≤ fd
  · rw [if_pos hgrow, if_pos hgrow]
    unfold setEntry
    rw [entry_of_lt hfd (by simp [resize]; omega)]
    refine ⟨_, rfl, rfl, ?_⟩
    simp [resize]
    omega
  · rw [if_neg hgrow, if_neg hgrow]
    unfold setEntry
    rw [entry_of_lt hfd (by dsimp only; omega)]
    exact ⟨_, rfl, rfl, List.length_set⟩

/-- `del` of a non-negative number never fails. -/
theorem del_succeeds (hm : Sized m) (hfd : 0 ≤ fd) :
    ∃ m', m.del fd = some m' ∧ ∀ p, ¬ Holds m' fd p := by
  unfold del
  rw [hm.intSize]
  by_cases hlt : fd < m.datas.length
  · rw [if_neg (by omega)]
    unfold setEntry
    rw [entry_of_lt hfd hlt]
    refine ⟨_, rfl, ?_⟩
    intro p hp
    obtain ⟨-, hget⟩ := hp.inRange
    rw [List.getElem?_set_self (by omega)] at hget
    simp at hget
  · rw [if_pos (by omega)]
    refine ⟨m, rfl, ?_⟩
    intro p hp
    exact hlt hp.lt

/-- The map has what the table holds. -/
structure Tracks (m : FdManager) (t : CtxMap) : Prop where
  holds : ∀ fd p, t.map.lookup fd = some p ↔ Holds m fd p
  objects : m.objects = t.objects

/-- At first the table is the empty map. -/
theorem tracks_new : Tracks new CtxMap.empty where
  holds fd p := by
    have hnone : ¬ Holds new fd p := by
      intro h
      obtain ⟨-, hget⟩ := h.inRange
      unfold new at hget
      rw [List.getElem?_replicate] at hget
      simp at hget
    simp [CtxMap.empty, hnone]
  objects := rfl

/-- What the map does not have, the table does not hold. -/
theorem Tracks.missing (h : Tracks m t) (hnone : t.map.lookup fd = none) (p : ℕ) :
    ¬ Holds m fd p := by
  intro hp
  rw [(h.holds fd p).mpr hp] at hnone
  cases hnone

/-- `get` without `auto_create` answers as the map does. -/
theorem Tracks.agrees (hm : Sized m) (h : Tracks m t) : Agrees m t where
  finds fd stat hfd hlt hne := by
    unfold get
    rw [if_neg hne]
    cases hlookup : t.map.lookup fd with
    | none =>
      rw [lookup_missing hm hfd (h.missing hlookup)]
      simp
    | some p => rw [lookup_found hm ((h.holds fd p).mp hlookup)]
  objects := h.objects

/-- The entry of one descriptor has changed in both, and that of no other. -/
theorem Tracks.changed {t' : CtxMap} (h : Tracks m t) (hobjects : m'.objects = t'.objects)
    (hfd : ∀ p, t'.map.lookup fd = some p ↔ Holds m' fd p)
    (hmap : ∀ fd', fd' ≠ fd → t'.map.lookup fd' = t.map.lookup fd')
    (hothers : ∀ fd' p, fd' ≠ fd → (Holds m' fd' p ↔ Holds m fd' p)) : Tracks m' t' where
  holds fd' p := by
    by_cases heq : fd' = fd
    · rw [heq]
      exact hfd p
    · rw [hmap fd' heq, hothers fd' p heq]
      exact h.holds fd' p
  objects := hobjects

/-- `get(fd, true)` for a descriptor without a context gives it a new one, in both. -/
theorem Tracks.create (hm : Sized m) (h : Tracks m t) (hfd : 0 ≤ fd)
    (hfits : m.datas.length ≤ fd → 3 * fd / 2 < 2 ^ 31) :
    ∃ m', m.create fd stat = some (t.objects.length, m') ∧ Sized m' ∧
      Tracks m' ⟨t.map.insert fd t.objects.length, t.objects ++ [FdCtx.new fd stat]⟩ := by
  obtain ⟨m', hcreate, hobjects, -⟩ := create_succeeds hm hfd stat
  rw [h.objects] at hcreate hobjects
  have hc := create_created hm (by rw [hm.intSize]; exact hfits) hcreate
  refine ⟨m', hcreate, hc.sized, h.changed hobjects ?_ ?_ hc.others⟩
  · intro p
    rw [Finmap.lookup_insert]
    constructor
    · intro hp
      rw [← Option.some.inj hp]
      exact hc.holds
    · intro hp
      rw [hc.holds.unique hp]
  · intro fd' hne
    exact Finmap.lookup_insert_of_ne _ hne

/-- `del` erases the number from the map. -/
theorem Tracks.del (hm : Sized m) (h : Tracks m t) (hfd : 0 ≤ fd) :
    ∃ m', m.del fd = some m' ∧ Sized m' ∧ Tracks m' { t with map := t.map.erase fd } := by
  obtain ⟨m', hdel, hnone⟩ := del_succeeds hm hfd
  have hr := del_removed hdel
  refine ⟨m', hdel, ⟨by rw [hr.length]; exact hm.ge, by rw [hr.length]; exact hm.lt⟩, ?_⟩
  refine h.changed (hr.objects.trans h.objects) ?_ ?_ hr.others
  · intro p
    simp [Finmap.lookup_erase, hnone]
  · intro fd' hne
    exact Finmap.lookup_erase_ne hne

/-- `get` answers as the map does, and stores what the map stores. -/
theorem Tracks.get (hm : Sized m) (h : Tracks m t) (hfd : 0 ≤ fd) (hne : fd ≠ 1)
    (autoCreate : Bool)
    (hfits : autoCreate = true → m.datas.length ≤ fd → 3 * fd / 2 < 2 ^ 31) :
    ∃ m', m.get fd autoCreate stat = some ((t.apply (.get fd autoCreate stat)).1, m') ∧
      Sized m' ∧ Tracks m' (t.apply (.get fd autoCreate stat)).2 := by
  unfold FdManager.get CtxMap.apply
  dsimp only
  rw [if_neg hne]
  cases hlookup : t.map.lookup fd with
  | some p =>
    rw [lookup_found hm ((h.holds fd p).mp hlookup)]
    exact ⟨m, rfl, hm, h⟩
  | none =>
    rw [lookup_missing hm hfd (h.missing hlookup)]
    cases autoCreate with
    | false => exact ⟨m, rfl, hm, h⟩
    | true =>
      obtain ⟨m', hcreate, hm', ht⟩ := h.create hm hfd (hfits rfl)
      refine ⟨m', ?_, hm', ht⟩
      simp [hcreate]

/-- A call that fits is answered as the map says. -/
theorem Tracks.apply (hm : Sized m) (h : Tracks m t) (hc : c.Proper) (hfits : Fits m c) :
    ∃ m', m.apply c = some ((t.apply c).1, m') ∧ Sized m' ∧ Tracks m' (t.apply c).2 := by
  obtain ⟨hfd, hgrow⟩ := hfits
  cases c with
  | get fd autoCreate stat =>
    apply h.get hm hfd hc.2.2 autoCreate
    intro hcreate
    exact hgrow fd stat (by rw [hcreate])
  | del fd =>
    obtain ⟨m', hdel, hm', ht⟩ := h.del hm hfd
    refine ⟨m', ?_, hm', ht⟩
    show (m.del fd).map _ = _
    rw [show m.del fd = some m' from hdel]
    rfl

/-- A call with a negative number never comes to its end. -/
theorem apply_neg (hm : Sized m) (h : c.fd < 0) : m.apply c = none := by
  have hge := hm.ge
  cases c with
  | get fd autoCreate stat =>
    change fd < 0 at h
    show m.get fd autoCreate stat = none
    unfold FdManager.get
    rw [if_neg (by omega), lookup_neg hm h]
  | del fd =>
    change fd < 0 at h
    show (m.del fd).map _ = none
    unfold FdManager.del setEntry
    rw [hm.intSize, if_neg (by omega), entry_neg h]
    rfl

/-- A table that is too large for an `int` is taken for an empty one. -/
theorem get_tooLarge (h : 2 ^ 31 ≤ m.datas.length) (hlt : m.datas.length < 2 ^ 32) (hfd : 0 ≤ fd)
    (hne : fd ≠ 1) : m.get fd false stat = some (none, m) := by
  have hneg : m.intSize < 0 := by
    unfold FdManager.intSize
    rw [BitVec.toInt_eq_toNat_cond, BitVec.toNat_ofNat]
    split <;> omega
  unfold get lookup
  rw [if_neg hne, if_pos (by omega)]
  rfl

end Step

/-! ## All calls -/

section Run

variable {m m' : FdManager} {t : CtxMap} {c : Call} {calls : List Call}

/-- A manager that follows the map agrees with it at first. -/
theorem FollowsMap.agrees (h : FollowsMap m t calls) : Agrees m t := by
  cases calls with
  | nil => exact h
  | cons c calls => exact h.1

/-- A call that does not fit has no end, or it leaves a table in which nothing is found. -/
theorem FollowsMap.fits (hm : Sized m) (ht : Tracks m t) (hc : c.Proper)
    (h : FollowsMap m t (c :: calls)) : Fits m c := by
  obtain ⟨-, m', happly, hrest⟩ := h
  have hfd : 0 ≤ c.fd := by
    by_contra hneg
    rw [apply_neg hm (by omega)] at happly
    cases happly
  refine ⟨hfd, ?_⟩
  rintro fd stat rfl hgrow
  by_contra hlarge
  obtain ⟨-, hint, hne⟩ := hc
  dsimp only [Call.fd] at hfd hint hne
  have hge := hm.ge
  have hmissing : t.map.lookup fd = none := by
    cases hlookup : t.map.lookup fd with
    | none => rfl
    | some p =>
      have hlt := ((ht.holds fd p).mp hlookup).lt
      omega
  obtain ⟨m₂, hcreate, -, hlength⟩ := create_succeeds hm hfd stat
  rw [if_pos hgrow] at hlength
  unfold FdManager.apply get at happly
  dsimp only at happly
  rw [if_neg hne, lookup_missing hm hfd (ht.missing hmissing)] at happly
  simp only [if_pos, hcreate, Option.map_some, Option.some.injEq, Prod.mk.injEq] at happly
  obtain ⟨-, rfl⟩ := happly
  -- the map has the new context, but the table is taken for an empty one
  have hfound := hrest.agrees.finds fd none hfd hint hne
  rw [get_tooLarge (by omega) (by omega) hfd hne] at hfound
  simp [CtxMap.apply, hmissing, Finmap.lookup_insert] at hfound

/-- The condition is exact from every manager that tracks a map. -/
theorem followsMap_iff (hm : Sized m) (ht : Tracks m t) (h : ∀ c ∈ calls, c.Proper) :
    FollowsMap m t calls ↔ AllFit m calls := by
  induction calls generalizing m t with
  | nil => exact iff_of_true (ht.agrees hm) trivial
  | cons c calls ih =>
    obtain ⟨hc, hcalls⟩ := List.forall_mem_cons.mp h
    by_cases hfits : Fits m c
    · obtain ⟨m', happly, hm', ht'⟩ := ht.apply hm hc hfits
      have hrest := ih hm' ht' hcalls
      -- both go on from `m'`
      constructor
      · rintro ⟨-, m₂, happly₂, hfollows⟩
        rw [happly] at happly₂
        cases happly₂
        refine ⟨hfits, ?_⟩
        intro ctx m₃ happly₃
        rw [happly] at happly₃
        cases happly₃
        exact hrest.mp hfollows
      · rintro ⟨-, hall⟩
        exact ⟨ht.agrees hm, m', happly, hrest.mpr (hall _ m' happly)⟩
    · apply iff_of_false
      · intro hfollows
        exact hfits (hfollows.fits hm ht hc)
      · intro hall
        exact hfits hall.1

/-- Up to two thirds of what an `int` can be, every descriptor fits. -/
theorem allFit_of_small (h : ∀ c ∈ calls, 0 ≤ c.fd ∧ c.fd < 1431655766) : AllFit m calls := by
  induction calls generalizing m with
  | nil => trivial
  | cons c calls ih =>
    obtain ⟨⟨hfd, hlt⟩, hcalls⟩ := List.forall_mem_cons.mp h
    refine ⟨⟨hfd, ?_⟩, ?_⟩
    · intro fd stat hc hgrow
      rw [hc] at hlt
      change fd < 1431655766 at hlt
      omega
    · intro ctx m' happly
      exact ih hcalls

end Run

/-! ## One of the threads -/

section Thread

variable {T : Type} [DecidableEq T] {s : Threads T} {u : T} {t : CtxMap} {calls : List Call}

/-- The section under the read lock, taken by a thread that is not creating. -/
theorem step_lookup (hidle : s.creating u = none) {fd : ℤ} (hne : fd ≠ 1) (autoCreate : Bool)
    {found : Option (Option ℕ)} (h : s.manager.lookup fd autoCreate = some found) :
    Threads.step s (.lookup u fd autoCreate) =
      some (found.elim { s with creating := Function.update s.creating u (some fd) }
        fun ctx => { s with log := s.returned fd autoCreate ctx }) := by
  unfold Threads.step
  dsimp only
  rw [hidle]
  dsimp only
  rw [if_neg hne, h]
  cases found <;> rfl

/-- A call that comes to its end is one section or two of a thread. -/
theorem apply_run {c : Call} {ctx : Option ℕ} {m' : FdManager} (hidle : s.creating u = none)
    (h : s.manager.apply c = some (ctx, m')) :
    ∃ s', Run Threads.step anyStep s s' ∧ s'.manager = m' ∧ s'.creating = s.creating := by
  cases c with
  | get fd autoCreate stat =>
    change s.manager.get fd autoCreate stat = some (ctx, m') at h
    unfold get at h
    by_cases hone : fd = 1
    · rw [if_pos hone] at h
      cases h
      exact ⟨s, .refl, rfl, rfl⟩
    · rw [if_neg hone] at h
      cases hlookup : s.manager.lookup fd autoCreate with
      | none =>
        rw [hlookup] at h
        cases h
      | some found =>
        rw [hlookup] at h
        have hlooked := step_lookup hidle hone autoCreate hlookup
        cases found with
        | some found =>
          cases h
          exact ⟨_, Run.single trivial hlooked, rfl, rfl⟩
        | none =>
          obtain ⟨r, hcreate, h⟩ := Option.map_eq_some_iff.mp h
          cases h
          have hcreated : Threads.step { s with creating := Function.update s.creating u (some fd) }
              (.create u stat) = some
                { manager := r.2
                  creating := Function.update (Function.update s.creating u (some fd)) u none
                  log := s.returned fd true (some r.1) } := by
            unfold Threads.step
            simp [hcreate, Threads.returned]
          refine ⟨_, (Run.single trivial hlooked).tail trivial hcreated, rfl, ?_⟩
          show Function.update (Function.update s.creating u (some fd)) u none = s.creating
          rw [Function.update_idem, ← hidle, Function.update_eq_self]
  | del fd =>
    obtain ⟨m₂, hdel, h⟩ := Option.map_eq_some_iff.mp h
    cases h
    have hdeleted : Threads.step s (.del u fd) = some
        { s with
          manager := m'
          log := if s.manager.entry fd = m'.entry fd then s.log else .deleted fd :: s.log } := by
      unfold Threads.step
      dsimp only
      rw [hidle, hdel]
      rfl
    exact ⟨_, Run.single trivial hdeleted, rfl, rfl⟩

/-- Calls that follow the map are a run of one thread, with the map in the table at its end. -/
theorem FollowsMap.run (hidle : s.creating u = none) (h : FollowsMap s.manager t calls) :
    ∃ s', Run Threads.step anyStep s s' ∧ s'.creating = s.creating ∧
      Agrees s'.manager (calls.foldl (fun t c => (t.apply c).2) t) := by
  induction calls generalizing s t with
  | nil => exact ⟨s, .refl, rfl, h⟩
  | cons c calls ih =>
    obtain ⟨-, m', happly, hrest⟩ := h
    obtain ⟨s₁, hrun₁, rfl, hcreating₁⟩ := apply_run hidle happly
    obtain ⟨s₂, hrun₂, hcreating₂, hagrees⟩ := ih (by rw [hcreating₁, hidle]) hrest
    exact ⟨s₂, hrun₁.trans hrun₂, hcreating₂.trans hcreating₁, hagrees⟩

end Thread

/-- The calls are answered as those of a map exactly when each of them fits the table. -/
theorem calls_follow_iff (calls : List Call) (h : ∀ c ∈ calls, c.Proper) :
    FollowsMap new CtxMap.empty calls ↔ AllFit new calls :=
  followsMap_iff sized_new tracks_new h

/-- Two connections; the first is closed, and its descriptor is used again. -/
def reused : List Call :=
  [.get 5 true (some true), .get 100 true (some true), .get 5 false none, .del 5,
    .get 5 false none, .get 5 true (some true)]

theorem calls_follow_reused : FollowsMap new CtxMap.empty reused :=
  (calls_follow_iff reused (by simp [reused, Call.Proper, Call.fd])).mpr
    (allFit_of_small (by simp [reused, Call.fd]))

/-- What `recv(-1, …)` does with the result of a `socket` that has failed. -/
theorem get_failed_socket : (Call.get (-1) false none).Proper ∧
    new.apply (.get (-1) false none) = none ∧
    ¬ FollowsMap new CtxMap.empty [.get (-1) false none] := by
  have hnone : new.apply (.get (-1) false none) = none := apply_neg sized_new (by decide)
  refine ⟨by simp [Call.Proper, Call.fd], hnone, ?_⟩
  rintro ⟨-, m', happly, -⟩
  rw [hnone] at happly
  cases happly

end CoKV.FdManager
