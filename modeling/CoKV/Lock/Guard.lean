import Mathlib.Data.List.Induction
import Mathlib.Tactic.ByContra

/-!
# The scoped locks

`ScopedLockImpl`, `ReadScopedLockImpl` and `WriteScopedLockImpl`: objects that lock a mutex when
they are built and unlock it when they are destroyed. `guards_mirror_iff`: they keep `m_locked` in
step with the mutex, except that `ScopedLockImpl` does not initialise it. Where the memory already
reads as `true`, the constructor does not lock.
-/

namespace CoKV.Lock

/-- A call of the mutex, on a `Mutex` or an `RWMutex` -/
inductive MutexCall
  | lock
  | rdlock
  | wrlock
  | unlock
  deriving DecidableEq

/-- A guard: `m_locked`, and what it has called on its mutex. The last call comes first. -/
structure Guard where
  locked : Bool
  trace : List MutexCall
  deriving DecidableEq

namespace Guard

def call (c : MutexCall) (g : Guard) : Guard := { g with trace := c :: g.trace }

/-- `lock()`, where `acquire` is what it calls. -/
def lock (acquire : MutexCall) (g : Guard) : Guard :=
  if !g.locked then { g.call acquire with locked := true } else g

/-- `unlock()`, which clears the flag first. -/
def unlock (g : Guard) : Guard :=
  if g.locked then ({ g with locked := false }).call .unlock else g

end Guard

/-- A class of guards; `initial` is the default initialiser of `m_locked`. -/
structure GuardClass where
  initial : Option Bool
  lock : Guard → Guard
  unlock : Guard → Guard

def scopedLockImpl : GuardClass where
  initial := none
  lock := Guard.lock .lock
  unlock g := if g.locked then { g.call .unlock with locked := false } else g

def readScopedLockImpl : GuardClass where
  initial := some false
  lock := Guard.lock .rdlock
  unlock := Guard.unlock

def writeScopedLockImpl : GuardClass where
  initial := some false
  lock := Guard.lock .wrlock
  unlock := Guard.unlock

inductive Kind
  | scoped
  | readScoped
  | writeScoped
  deriving DecidableEq

def Kind.guardClass : Kind → GuardClass
  | .scoped => scopedLockImpl
  | .readScoped => readScopedLockImpl
  | .writeScoped => writeScopedLockImpl

/-- A call of the guard -/
inductive Call
  | lock
  | unlock
  deriving DecidableEq

namespace GuardClass

variable (k : GuardClass)

def apply (g : Guard) : Call → Guard
  | .lock => k.lock g
  | .unlock => k.unlock g

/-- The constructor, in memory where `m_locked` reads as `memory`. -/
def construct (memory : Bool) : Guard := k.lock ⟨k.initial.getD memory, []⟩

/-- The guard after these calls -/
def after (memory : Bool) (calls : List Call) : Guard := calls.foldl k.apply (k.construct memory)

/-- The destructor, after these calls -/
def destroy (memory : Bool) (calls : List Call) : Guard := k.unlock (k.after memory calls)

end GuardClass

/-! ## What a guard is for -/

/-- The mutex is held after these calls. -/
def held : List MutexCall → Bool
  | [] => false
  | c :: _ => c ≠ .unlock

/-- No call locks a mutex that is held, or unlocks one that is not. -/
def WellUsed : List MutexCall → Prop
  | [] => True
  | .unlock :: trace => held trace = true ∧ WellUsed trace
  | _ :: trace => held trace = false ∧ WellUsed trace

/-- The last call was a lock; the constructor is one. -/
def lastLocks (calls : List Call) : Bool := calls.getLast? ≠ some .unlock

/-- The guard holds the mutex from its first instruction on, and whenever it was locked last; it
uses it well until its end, when it does not hold it any more. -/
structure Mirrors (k : GuardClass) (memory : Bool) (calls : List Call) : Prop where
  constructed : held (k.construct memory).trace = true
  mirrored : ∀ earlier, earlier <+: calls → held (k.after memory earlier).trace = lastLocks earlier
  wellUsed : WellUsed (k.destroy memory calls).trace
  destroyed : held (k.destroy memory calls).trace = false

/-! ## The flag -/

/-- The flag says whether the mutex is held. -/
structure Sound (g : Guard) : Prop where
  locked : held g.trace = g.locked
  wellUsed : WellUsed g.trace

section Sound

variable {g : Guard} {k : Kind} {memory : Bool}

theorem wellUsed_cons {c : MutexCall} {trace : List MutexCall} (h : c ≠ .unlock) :
    WellUsed (c :: trace) ↔ held trace = false ∧ WellUsed trace := by
  cases c with
  | unlock => exact absurd rfl h
  | _ => exact Iff.rfl

/-- `lock()` leaves the mutex held, whether it has to call it or not. -/
theorem Sound.lock (h : Sound g) {acquire : MutexCall} (hacquire : acquire ≠ .unlock) :
    Sound (g.lock acquire) ∧ held (g.lock acquire).trace = true := by
  unfold Guard.lock
  by_cases hlocked : g.locked = true
  · rw [if_neg (by simp [hlocked])]
    exact ⟨h, h.locked.trans hlocked⟩
  · rw [if_pos (by simp [hlocked])]
    have hheld : held (acquire :: g.trace) = true := decide_eq_true hacquire
    refine ⟨⟨hheld, ?_⟩, hheld⟩
    exact (wellUsed_cons hacquire).mpr ⟨h.locked.trans (by simpa using hlocked), h.wellUsed⟩

theorem Sound.unlock (h : Sound g) : Sound g.unlock ∧ held g.unlock.trace = false := by
  unfold Guard.unlock
  by_cases hlocked : g.locked = true
  · rw [if_pos hlocked]
    exact ⟨⟨rfl, h.locked.trans hlocked, h.wellUsed⟩, rfl⟩
  · rw [if_neg hlocked]
    exact ⟨h, h.locked.trans (by simpa using hlocked)⟩

/-- The order in which `unlock()` clears the flag and calls the mutex makes no difference. -/
theorem unlock_eq (k : Kind) (g : Guard) : k.guardClass.unlock g = g.unlock := by
  cases k <;> rfl

theorem Sound.classLock (h : Sound g) (k : Kind) :
    Sound (k.guardClass.lock g) ∧ held (k.guardClass.lock g).trace = true := by
  cases k <;> exact h.lock (by decide)

theorem Sound.classUnlock (h : Sound g) (k : Kind) :
    Sound (k.guardClass.unlock g) ∧ held (k.guardClass.unlock g).trace = false := by
  rw [unlock_eq]
  exact h.unlock

/-- A flag that starts as `false` is right, and stays so. -/
theorem sound_construct (h : k.guardClass.initial.getD memory = false) :
    Sound (k.guardClass.construct memory) ∧ held (k.guardClass.construct memory).trace = true := by
  unfold GuardClass.construct
  rw [h]
  have hnew : Sound ⟨false, []⟩ := ⟨rfl, trivial⟩
  exact hnew.classLock k

theorem after_concat (k : GuardClass) (calls : List Call) (c : Call) :
    k.after memory (calls ++ [c]) = k.apply (k.after memory calls) c := by
  simp [GuardClass.after]

theorem sound_after (h : k.guardClass.initial.getD memory = false) (calls : List Call) :
    Sound (k.guardClass.after memory calls) ∧
      held (k.guardClass.after memory calls).trace = lastLocks calls := by
  induction calls using List.reverseRecOn with
  | nil => exact sound_construct h
  | append_singleton calls c ih =>
    rw [after_concat]
    have hlast : lastLocks (calls ++ [c]) = decide (c ≠ .unlock) := by
      simp [lastLocks]
    rw [hlast]
    cases c with
    | lock => exact ih.1.classLock k
    | unlock => exact ih.1.classUnlock k

/-- Memory that reads as `true` is taken for a lock. -/
theorem construct_of_true (h : k.guardClass.initial.getD memory = true) :
    k.guardClass.construct memory = ⟨true, []⟩ := by
  unfold GuardClass.construct
  rw [h]
  cases k <;> rfl

theorem mirrors_iff (calls : List Call) :
    Mirrors k.guardClass memory calls ↔ k.guardClass.initial.getD memory = false := by
  constructor
  · intro h
    by_contra hmemory
    have hheld := h.constructed
    rw [construct_of_true (by simpa using hmemory)] at hheld
    cases hheld
  · intro h
    have hend := (sound_after h calls).1.classUnlock k
    exact
      { constructed := (sound_construct h).2
        mirrored := fun earlier _ => (sound_after h earlier).2
        wellUsed := hend.1.wellUsed
        destroyed := hend.2 }

end Sound

/-- A guard mirrors its mutex exactly when it is for reading or writing, or the memory in which it
is built reads as `false`. -/
theorem guards_mirror_iff (k : Kind) (memory : Bool) (calls : List Call) :
    Mirrors k.guardClass memory calls ↔ k ≠ .scoped ∨ memory = false := by
  rw [mirrors_iff]
  cases k <;> simp [Kind.guardClass, scopedLockImpl, readScopedLockImpl, writeScopedLockImpl]

/-- A guard of a section, in memory that reads as `true`: it does not lock the mutex, and unlocks
it at the end. -/
theorem scoped_in_true_memory :
    (scopedLockImpl.construct true).trace = [] ∧
    (scopedLockImpl.destroy true []).trace = [.unlock] ∧
    ¬ Mirrors scopedLockImpl true [] := by
  refine ⟨rfl, rfl, ?_⟩
  intro h
  have hheld := h.constructed
  cases hheld

end CoKV.Lock
