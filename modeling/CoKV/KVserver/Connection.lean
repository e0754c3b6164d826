import CoKV.KVserver.Tokens

/-!
# A connection

The loop in `KVS::handleClient` with what it keeps from one request to the next: the store, `rbuf`,
the pointers in `kvlist` and `wbuf`. None of the buffers is initialised, and none is cleared between
two requests. What `wbuf` holds at first is only sent; a slot of `kvlist` that has not been written
cannot be followed. A slot that has been written points to where a token was once found, and to
whatever stands there by now.
-/

namespace CoKV.KVserver

/-- `kvlist` has 1024 bytes, for pointers of 8. -/
def kvlistRoom : ℕ := bufSize / 8

/-- What a `recv` that succeeds writes to `rbuf`. -/
structure Message where
  data : List UInt8
  pos : 0 < data.length
  le : data.length ≤ bufSize

/-- What else a reply might depend on: the memory behind `rbuf`, and how often `rand()` is odd before
it is even. -/
structure Chance where
  behind : List UInt8
  odds : ℕ

/-- A slot of `kvlist` followed into the memory; the string has to end there. -/
def follow (mem : List UInt8) (kvlist : List ℕ) (i : ℕ) : Except Fault CStr :=
  match kvlist[i]? with
  | none => .error .dangling
  | some p => if 0 ∈ mem.drop p then .ok (cStringAt mem p) else .error .outOfBounds

/-- `kvlist` has the slots that have been written, as positions in the memory. -/
structure Conn where
  store : Store
  rbuf : List UInt8
  kvlist : List ℕ
  wbuf : List UInt8

namespace Conn

/-- A connection before its first request. -/
def new (rbuf wbuf : List UInt8) : Conn := ⟨newStore, rbuf, [], wbuf⟩

/-- One turn of the loop, from `recv` to the `wbuf` that is sent, whatever
`kvstore_parser_protocol` has returned. -/
def handle (c : Conn) (r : Message) (e : Chance) : Except Fault Conn :=
  match kvstoreSkiplistToken (received c.rbuf ⟨r.data, e.behind⟩) with
  | none => .error .outOfBounds
  | some (found, mem) =>
    if kvlistRoom < found.length then .error .outOfBounds
    else do
      let kvlist := found ++ c.kvlist.drop found.length
      let (_, store, wbuf) ←
        kvstoreParserProtocol e.odds c.store (follow mem kvlist) c.wbuf found.length
      return ⟨store, mem.take bufSize, kvlist, wbuf⟩

/-- A connection after some requests, whatever they were. -/
inductive Reached : Conn → Prop
  | new {rbuf wbuf : List UInt8} (hr : rbuf.length = bufSize) (hw : wbuf.length = bufSize) :
    Reached (new rbuf wbuf)
  | handle {c c' : Conn} {r : Message} {e : Chance} :
    Reached c → c.handle r e = .ok c' → Reached c'

end Conn

end CoKV.KVserver
