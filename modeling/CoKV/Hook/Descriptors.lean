import CoKV.FdManager.GetTheorems

/-!
# Descriptors and their contexts

The hooked `socket`, `accept` and `close` on any number of threads, beside the kernel's table of open
descriptors. What `socket` and `accept` return gets an `FdCtx` by `get(fd, true)`, whose two sections
are steps of their own; `close` looks for it, deletes it and closes the descriptor. The kernel may
return any number that is not open; descriptors are also opened by calls that are not hooked.
`cancelAll`, which `close` calls before `del`, does not touch the `FdCtx`.
-/

namespace CoKV.Hook

/-- An open descriptor: whether it is a socket, whether a hooked call has opened it, and the calls of
`setTimeout` since then. -/
structure Opening where
  isSocket : Bool
  hooked : Bool
  timeouts : List (ℤ × UInt64)

/-- What the calls of `setTimeout` have made of a new `FdCtx`. -/
def Opening.ctx (o : Opening) (fd : ℤ) : FdCtx :=
  o.timeouts.foldl (fun c x => c.setTimeout x.1 x.2) (FdCtx.new fd (some true))

/-- Where a thread stands: behind `socket_f` or `accept_f`, between the two sections of `get`, in
`close` behind a `get` that has found something, and before `close_f`. -/
inductive FdCall
  | opened (fd : ℤ)
  | missing (fd : ℤ)
  | found (fd : ℤ)
  | deleted (fd : ℤ)
  deriving DecidableEq

def FdCall.fd : FdCall → ℤ
  | opened fd | missing fd | found fd | deleted fd => fd

structure Descriptors (T : Type) where
  manager : FdManager
  kernel : ℤ → Option Opening
  call : T → Option FdCall

/-- A hooked `socket` or `accept` whose kernel call returns `fd`; a call that is not hooked; `get(fd)`
and `setTimeout`; `close`; or the next access of a thread. -/
inductive FdLabel (T : Type)
  | opens (t : T) (fd : ℤ)
  | opensDirect (fd : ℤ) (isSocket : Bool)
  | setTimeout (fd type : ℤ) (v : UInt64)
  | close (t : T) (fd : ℤ)
  | next (t : T)

namespace Descriptors

variable {T : Type}

/-- Before `main`, with the descriptors that the process has been given. -/
def init (inherited : ℤ → Option Bool) : Descriptors T where
  manager := .new
  kernel := fun fd => (inherited fd).map fun isSocket => ⟨isSocket, false, []⟩
  call := fun _ => none

def setKernel (s : Descriptors T) (fd : ℤ) (o : Option Opening) : Descriptors T :=
  { s with kernel := Function.update s.kernel fd o }

theorem setKernel_self (s : Descriptors T) (fd : ℤ) (o : Option Opening) : (s.setKernel fd o).kernel fd = o :=
  Function.update_self ..

variable [DecidableEq T] (s : Descriptors T)

def setCall (t : T) (c : Option FdCall) : Descriptors T :=
  { s with call := Function.update s.call t c }

@[simp] theorem setCall_self (t : T) (c : Option FdCall) : (s.setCall t c).call t = c :=
  Function.update_self ..

theorem setCall_of_ne {t u : T} (hu : u ≠ t) (c : Option FdCall) : (s.setCall t c).call u = s.call u :=
  Function.update_of_ne hu ..

/-- `get(fd)`: nothing where it reads behind the table. -/
def get (fd : ℤ) : Option (Option ℕ) :=
  if fd = 1 then some none else (s.manager.lookup fd false).join

/-- `get(fd)->setTimeout(type, v)` -/
def setTimeout (fd type : ℤ) (v : UInt64) : Option (Descriptors T) :=
  match s.get fd with
  | some (some p) =>
    some { s with
      manager.objects := s.manager.objects.modify p fun c => c.setTimeout type v
      kernel := Function.update s.kernel fd
        ((s.kernel fd).map fun o => { o with timeouts := o.timeouts ++ [(type, v)] }) }
  | _ => none

/-- The next access in `get(fd, true)`, or in `close`. -/
def next (t : T) : FdCall → Option (Descriptors T)
  | .opened fd =>
    if fd = 1 then some (s.setCall t none)
    else (s.manager.lookup fd true).map fun ctx =>
      s.setCall t (if ctx.isSome then none else some (.missing fd))
  | .missing fd =>
    (s.manager.create fd ((s.kernel fd).map Opening.isSocket)).map fun r =>
      { s with manager := r.2 }.setCall t none
  | .found fd =>
    (s.manager.del fd).map fun m => { s with manager := m }.setCall t (some (.deleted fd))
  | .deleted fd => some ((s.setKernel fd none).setCall t none)

def step : FdLabel T → Option (Descriptors T)
  | .opens t fd =>
    if s.call t = none ∧ s.kernel fd = none ∧ 0 ≤ fd then
      some ((s.setKernel fd (some ⟨true, true, []⟩)).setCall t (some (.opened fd)))
    else none
  | .opensDirect fd isSocket =>
    if s.kernel fd = none ∧ 0 ≤ fd then some (s.setKernel fd (some ⟨isSocket, false, []⟩)) else none
  | .setTimeout fd type v => s.setTimeout fd type v
  | .close t fd =>
    match s.call t, s.get fd with
    | none, some ctx => some (s.setCall t (some (if ctx.isSome then .found fd else .deleted fd)))
    | _, _ => none
  | .next t =>
    match s.call t with
    | some c => s.next t c
    | none => none

end Descriptors

end CoKV.Hook
