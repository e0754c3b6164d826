import Mathlib.Data.Nat.Notation
import Mathlib.Logic.Function.Basic

/-!
# The accept loops of a server

`TcpServer::start`, `stop` and `handleAccept`, called by any number of threads. `start` looks at
`mIsStop` and writes it in two steps, and each call that finds it true adds a task with one more
accept loop. What `accept` returns is up to the kernel, but that a connection is accepted once. A loop
that ends closes the socket, and `Socket::close` keeps the number in `m_sockfd`: a later `accept` fails,
unless another listening socket has got the number by then. The descriptors of the connections, and
their handlers, do not matter here.
-/

namespace CoKV.TcpServer

/-- Where a call of `start` stands: before it writes `mIsStop`, and before `addTask`. -/
inductive StartPc
  | outside
  | setIsStop
  | addTask

/-- Where an accept loop stands: not added yet, in the tasks of `mAcceptor`, at the test of
`mIsStop`, in `accept`, with a new client before `addTask`, before `mLisSock->close()`, and at its
end. -/
inductive AcceptPc (C : Type)
  | none
  | task
  | check
  | accept
  | addTask (c : C)
  | close
  | ended

/-- What a loop has accepted and not yet handed over. -/
def AcceptPc.inHand {C : Type} : AcceptPc C → List C
  | addTask c => [c]
  | _ => []

/-- `listening` is whether no loop has closed the socket, `accepted` are the connections in the order in
which the kernel gave them, and `clients` the tasks with `handleClient` in the order in which they were
added, with the loop it was. -/
structure Acceptor (T C : Type) where
  isStop : Bool
  listening : Bool
  start : T → StartPc
  loop : ℕ → AcceptPc C
  nextLoop : ℕ
  accepted : List (ℕ × C)
  clients : List (ℕ × C)

/-- A thread goes on in `start`, or calls `stop`; a loop goes on, where `r` is what `accept` returns,
if it is there. -/
inductive AcceptLabel (T C : Type)
  | start (t : T)
  | stop
  | loop (i : ℕ) (r : Option C)

namespace Acceptor

variable {T C : Type}

/-- `TcpServer(accept, worker)`, after `bind` -/
def new : Acceptor T C := ⟨true, true, fun _ => .outside, fun _ => .none, 0, [], []⟩

variable [DecidableEq T] [DecidableEq C] (s : Acceptor T C)

def setStart (t : T) (p : StartPc) : Acceptor T C :=
  { s with start := Function.update s.start t p }

def setLoop (i : ℕ) (p : AcceptPc C) : Acceptor T C :=
  { s with loop := Function.update s.loop i p }

/-- `TcpServer::start` -/
def startStep (t : T) : StartPc → Acceptor T C
  | .outside => if !s.isStop then s else s.setStart t .setIsStop
  | .setIsStop => { s with isStop := false }.setStart t .addTask
  | .addTask =>
    { s.setLoop s.nextLoop .task with nextLoop := s.nextLoop + 1 }.setStart t .outside

/-- `TcpServer::handleAccept` and, within it, `Socket::accept`. -/
def loopStep (i : ℕ) (r : Option C) : AcceptPc C → Option (Acceptor T C)
  | .task => some (s.setLoop i .check)
  | .check => some (s.setLoop i (if s.isStop then .close else .accept))
  | .accept =>
    match r with
    | some c =>
      if ∀ e ∈ s.accepted, e.2 ≠ c then
        some ({ s with accepted := s.accepted ++ [(i, c)] }.setLoop i (.addTask c))
      else none
    | none => some (s.setLoop i .check)
  | .addTask c => some ({ s with clients := s.clients ++ [(i, c)] }.setLoop i .check)
  | .close => some ({ s with listening := false }.setLoop i .ended)
  | _ => none

def step (s : Acceptor T C) : AcceptLabel T C → Option (Acceptor T C)
  | .start t => some (s.startStep t (s.start t))
  | .stop => some { s with isStop := true }
  | .loop i r => s.loopStep i r (s.loop i)

/-- What loop `i` has put into a log. -/
def byLoop (i : ℕ) (log : List (ℕ × C)) : List C := (log.filter (·.1 = i)).map (·.2)

end Acceptor

end CoKV.TcpServer
