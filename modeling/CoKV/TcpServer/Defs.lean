import Mathlib.Data.Nat.Notation
import Mathlib.Logic.Function.Basic

/-!
# Connections and their descriptors

The handlers of accepted connections, `KVS::handleClient` and `TcpServer::handleClient`, on any
number of threads. A handler keeps the number of its descriptor, which `Socket::close` does not
forget; the kernel may give a number that has been closed to the next `accept`. The hooked `close`
looks the number up in `FdManager`, and if it is there cancels its events and deletes the entry
before it calls the kernel: each of these is a step of its own.

What `recv` and `send` return is up to the environment. Requests and replies do not matter here.
-/

namespace CoKV.TcpServer

/-- Whose `handleClient` it is. -/
inductive Handler
  | kvs
  | tcpServer

/-- What `recv` returns: `EAGAIN`, bytes, 0 or -1. -/
inductive RecvResult
  | again
  | bytes
  | zero
  | error

/-- What `send` returns: `EAGAIN`, all that was to be sent, or anything else. -/
inductive SendResult
  | again
  | all
  | other

/-- The sections of the hooked `close`: `FdManager::get`, `IOManager::cancelAll`,
`FdManager::del` and `close_f`. -/
inductive CloseSection
  | get
  | cancelAll
  | del
  | close

/-- Where the handler of a connection stands; `again` tells that another `close` follows. -/
inductive HandlerPc
  | outside
  | accepted (fd : ℕ)
  | recv (fd : ℕ)
  | send (fd : ℕ)
  | waiting (fd : ℕ) (sending : Bool)
  | close (fd : ℕ) (again : Bool) (next : CloseSection)
  | finished

/-- What a section of `close` has been done to: descriptor `fd`, which was the one of connection
`owner`, if it was open. -/
structure Done (C : Type) where
  conn : C
  fd : ℕ
  owner : Option C

/-- The connections `C` of a process. `owner` are the open descriptors, with the connections that
have been accepted as them, and `entry` tells where `FdManager` has an `FdCtx`. `done` records
what the sections of `close` have touched, and `closes` how often a handler has closed. -/
structure Server (C : Type) where
  owner : ℕ → Option C
  entry : ℕ → Bool
  pc : C → HandlerPc
  done : List (Done C)
  closes : C → ℕ

/-- The kernel accepts a connection as `fd`, `accept` puts it into `FdManager`, or its handler
goes on; `ready` is an event somebody waits for. -/
inductive Label (C : Type)
  | accept (c : C) (fd : ℕ)
  | get (c : C)
  | recv (c : C) (r : RecvResult)
  | send (c : C) (r : SendResult)
  | ready (c : C)
  | close (c : C)

namespace Server

variable {C : Type}

def start : Server C := ⟨fun _ => none, fun _ => false, fun _ => .outside, [], fun _ => 0⟩

/-- Who waits for `fd` tries again. -/
def woken (fd : ℕ) : HandlerPc → HandlerPc
  | .waiting fd' sending =>
    if fd' = fd then (if sending then .send fd' else .recv fd') else .waiting fd' sending
  | pc => pc

variable [DecidableEq C]

def setPc (s : Server C) (c : C) (pc : HandlerPc) : Server C :=
  { s with pc := Function.update s.pc c pc }

def touch (s : Server C) (c : C) (fd : ℕ) : Server C :=
  { s with done := s.done ++ [⟨c, fd, s.owner fd⟩] }

/-- The next section of the `close` of `c`. -/
def closeSection (s : Server C) (c : C) (fd : ℕ) (again : Bool) : CloseSection → Server C
  | .get => s.setPc c (.close fd again (if s.entry fd then .cancelAll else .close))
  | .cancelAll =>
    { s.touch c fd with pc := fun d => woken fd (s.pc d) }.setPc c (.close fd again .del)
  | .del =>
    { s.touch c fd with entry := Function.update s.entry fd false }.setPc c
      (.close fd again .close)
  | .close =>
    { s.touch c fd with
      owner := Function.update s.owner fd none
      closes := Function.update s.closes c (s.closes c + 1) }.setPc c
      (if again then .close fd false .get else .finished)

/-- A step, with the handler of each connection. -/
def step (handler : C → Handler) (s : Server C) : Label C → Option (Server C)
  | .accept c fd =>
    match s.pc c, s.owner fd with
    | .outside, none =>
      some ({ s with owner := Function.update s.owner fd (some c) }.setPc c (.accepted fd))
    | _, _ => none
  | .get c =>
    match s.pc c with
    | .accepted fd =>
      some ({ s with entry := if fd = 1 then s.entry else Function.update s.entry fd true }.setPc c
        (.recv fd))
    | _ => none
  | .recv c r =>
    match s.pc c with
    | .recv fd => some (s.setPc c (match r with
      | .again => .waiting fd false
      | .bytes => .send fd
      | .zero => .close fd true .get
      | .error => .close fd false .get))
    | _ => none
  | .send c r =>
    match s.pc c with
    | .send fd => some (s.setPc c (match r, handler c with
      | .again, _ => .waiting fd true
      | .other, .tcpServer => .finished
      | _, _ => .recv fd))
    | _ => none
  | .ready c =>
    match s.pc c with
    | .waiting fd _ => some (s.setPc c (woken fd (s.pc c)))
    | _ => none
  | .close c =>
    match s.pc c with
    | .close fd again next => some (s.closeSection c fd again next)
    | _ => none

end Server

end CoKV.TcpServer
