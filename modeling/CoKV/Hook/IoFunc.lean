import CoKV.FdManager.Context

/-!
# A hooked call

`io_func` around one call of `accept`, `read`, `recv`, `write` or `send`. What it meets is a list of
events, in the order in which they happen: what the original function returns, whether `addEvent`
refuses, and whether the callback of the timer has written `cancel` by the time the coroutine is
resumed. `EWOULDBLOCK` is `EAGAIN`. Which timers there are and who resumes the coroutine does not
matter here.
-/

namespace CoKV.Hook

inductive Errno
  | eintr
  | eagain
  | ebadf
  | etimedout
  | other
  deriving DecidableEq

/-- What a call returns, with `errno` if that is -1. -/
abbrev Ret := Except Errno ℕ

inductive Event
  | returned (r : Ret)
  | refused (errno : Errno)
  | resumed (cancel : Bool)

/-- `RECV` and `SEND` -/
def recv : ℤ := 0
def send : ℤ := 1

/-- From `Retry` on: what is returned and the events that are left, if the call comes to its end. A
callback writes `cancel` only if there is a timer. -/
def ioLoop (timeout : Int32) : List Event → Option (Ret × List Event)
  | .returned (.ok n) :: events => some (.ok n, events)
  | .returned (.error .eintr) :: events => ioLoop timeout events
  | .returned (.error .eagain) :: .refused errno :: events => some (.error errno, events)
  | .returned (.error .eagain) :: .resumed cancel :: events =>
    if cancel then
      if timeout = -1 then none else some (.error .etimedout, events)
    else ioLoop timeout events
  | .returned (.error .eagain) :: _ => none
  | .returned (.error errno) :: events => some (.error errno, events)
  | _ => none

/-- `io_func`, with what `FdManager` has for the descriptor; the timeout is an `int`. -/
def ioFunc (hookEnable : Bool) (ctx : Option FdCtx) (type : ℤ) (events : List Event) :
    Option (Ret × List Event) :=
  let direct : Option (Ret × List Event) :=
    match events with
    | .returned r :: events => some (r, events)
    | _ => none
  if !hookEnable then direct
  else
    match ctx with
    | none => direct
    | some ctx =>
      if ctx.isClosed then some (.error .ebadf, events)
      else if !ctx.isSocket then direct
      else ioLoop (ctx.getTimeout type).toUInt32.toInt32 events

/-- The descriptor of a connection waits without a timer. -/
theorem ioFunc_new (fd type : ℤ) (events : List Event) :
    ioFunc true (some (FdCtx.new fd (some true))) type events = ioLoop (-1) events := by
  have htimeout : (FdCtx.new fd (some true)).getTimeout type = -1 := by
    unfold FdCtx.getTimeout
    split <;> rfl
  unfold ioFunc
  dsimp only
  rw [htimeout]
  rfl

end CoKV.Hook
