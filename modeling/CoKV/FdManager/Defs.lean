import CoKV.FdManager.Context
import Mathlib.Logic.Function.Basic

/-!
# The descriptor manager

`FdManager`: a table of pointers to `FdCtx`, with `get` and `del` as the sections that hold its lock,
and threads that call them. `get` looks a descriptor up under the read lock and creates its `FdCtx`
under the write lock; between the two it holds no lock. A result of `none` is an index out of range.
-/

namespace CoKV

/-- `m_datas`, and the objects that have been created: a pointer is the place of its object. -/
structure FdManager where
  datas : List (Option ℕ)
  objects : List FdCtx

namespace FdManager

/-- The constructor -/
def new : FdManager := ⟨List.replicate 64 none, []⟩

section Sections

variable (m : FdManager)

/-- `(int)m_datas.size()` -/
def intSize : ℤ := (BitVec.ofNat 32 m.datas.length).toInt

/-- `m_datas[fd]` -/
def entry (fd : ℤ) : Option (Option ℕ) := if 0 ≤ fd then m.datas[fd.toNat]? else none

/-- `m_datas.resize(size)` -/
def resize (size : ℕ) : FdManager :=
  { m with datas := m.datas.take size ++ List.replicate (size - m.datas.length) none }

/-- `m_datas[fd] = ctx` -/
def setEntry (fd : ℤ) (ctx : Option ℕ) : Option FdManager :=
  (m.entry fd).map fun _ => { m with datas := m.datas.set fd.toNat ctx }

/-- `get` under the read lock: what it returns, if it does not go on. -/
def lookup (fd : ℤ) (autoCreate : Bool) : Option (Option (Option ℕ)) :=
  if m.intSize ≤ fd then
    if autoCreate = false then some (some none) else some none
  else
    (m.entry fd).map fun ctx => if ctx.isSome ∨ autoCreate = false then some ctx else none

/-- `get` under the write lock, with what `fstat` tells the new `FdCtx`. -/
def create (fd : ℤ) (stat : Option Bool) : Option (ℕ × FdManager) :=
  let ctx := m.objects.length
  let m := { m with objects := m.objects ++ [FdCtx.new fd stat] }
  let m := if m.intSize ≤ fd then m.resize (3 * fd / 2).toNat else m
  (m.setEntry fd (some ctx)).map fun m => (ctx, m)

def del (fd : ℤ) : Option FdManager :=
  if m.intSize ≤ fd then some m else m.setEntry fd none

end Sections

/-! ## Threads -/

/-- What is remembered: the objects that `get(fd, true)` has returned, and the deletions that have
found an object. -/
inductive Event
  | got (fd : ℤ) (ctx : ℕ)
  | deleted (fd : ℤ)
  deriving DecidableEq

/-- `creating` has the threads that are between the two sections of `get`. The last event comes
first. -/
structure Threads (T : Type) where
  manager : FdManager
  creating : T → Option ℤ
  log : List Event

inductive Label (T : Type)
  | lookup (t : T) (fd : ℤ) (autoCreate : Bool)
  | create (t : T) (stat : Option Bool)
  | del (t : T) (fd : ℤ)

namespace Threads

variable {T : Type} [DecidableEq T]

def start : Threads T := ⟨.new, fun _ => none, []⟩

/-- The log after `get(fd, autoCreate)` has returned. -/
def returned (s : Threads T) (fd : ℤ) (autoCreate : Bool) (ctx : Option ℕ) : List Event :=
  match autoCreate, ctx with
  | true, some ctx => .got fd ctx :: s.log
  | _, _ => s.log

/-- A section of one thread; for descriptor 1 `get` takes no lock. -/
def step (s : Threads T) : Label T → Option (Threads T)
  | .lookup t fd autoCreate =>
    match s.creating t with
    | some _ => none
    | none =>
      if fd = 1 then some s
      else (s.manager.lookup fd autoCreate).map fun
        | some ctx => { s with log := s.returned fd autoCreate ctx }
        | none => { s with creating := Function.update s.creating t (some fd) }
  | .create t stat =>
    match s.creating t with
    | none => none
    | some fd => (s.manager.create fd stat).map fun (ctx, m) =>
      { manager := m
        creating := Function.update s.creating t none
        log := s.returned fd true (some ctx) }
  | .del t fd =>
    match s.creating t with
    | some _ => none
    | none => (s.manager.del fd).map fun m =>
      { s with
        manager := m
        log := if s.manager.entry fd = m.entry fd then s.log else .deleted fd :: s.log }

end Threads

end FdManager

end CoKV
