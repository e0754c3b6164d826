import CoKV.Lib.CStr
import CoKV.SkipList.Defs

/-!
# The request protocol

`KVS::kvstore_parser_protocol`: one request, already cut into tokens, is run against the skip
list of its connection and the reply is printed into the connection's 1024-byte write buffer.
The slots of `kvlist` past the tokens of the request hold whatever earlier requests or the
allocator left there, so reading one may fail or give any string.

`kvlist` and `buf` are the arrays `handleClient` allocates, so the tests for null are left out,
as is the line written to `std::cout`.
-/

namespace CoKV.KVserver

/-- The enumeration `KVS_CMD_SKSET`, …, `KVS_CMD_SIZE`. -/
inductive Cmd
  | skset
  | skget
  | skdel
  | skmod
  | skcount
  | size
  deriving DecidableEq

/-- `commands`, each word with its place in the enumeration. -/
def commands : List (CStr × Cmd) :=
  [(str ['S', 'K', 'S', 'E', 'T'], .skset),
   (str ['S', 'K', 'G', 'E', 'T'], .skget),
   (str ['S', 'K', 'D', 'E', 'L'], .skdel),
   (str ['S', 'K', 'M', 'O', 'D'], .skmod),
   (str ['S', 'K', 'C', 'O', 'U', 'N', 'T'], .skcount)]

/-- The loop over `commands`; it ends at `KVS_CMD_SIZE` when no word is equal. -/
def findCommand (word : CStr) : Cmd :=
  match commands.find? (·.1 = word) with
  | none => .size
  | some entry => entry.2

/-! ## The replies -/

def exist : CStr := str ['E', 'X', 'I', 'S', 'T']
def success : CStr := str ['S', 'U', 'C', 'C', 'E', 'S', 'S']
def failed : CStr := str ['F', 'A', 'I', 'L', 'E', 'D']
def notFound : CStr := str ['N', 'o', 't', ' ', 'F', 'o', 'u', 'n', 'd']
def wrongOperation : CStr :=
  str ['W', 'r', 'o', 'n', 'g', ' ', 'O', 'p', 'e', 'r', 'a', 't', 'i', 'o', 'n']

/-- The size of `rbuf` and of `wbuf`. -/
def bufSize : ℕ := 1024

/-- The store of a connection. -/
abbrev Store := SkipList CStr CStr

/-- The store `handleClient` creates. -/
def newStore : Store := SkipList.new [] [] 6

/-! ## The commands

One definition for each case of the switch, from the zeroed write buffer on. `kvlist[1]` and
`kvlist[2]` are followed only where the case uses them. -/

section Commands

variable (odds : ℕ) (store : Store) (kvlist : ℕ → Except Fault CStr) (wbuf : List UInt8)

/-- `case KVS_CMD_SKSET` -/
def skset : Except Fault (Store × List UInt8) := do
  let key ← kvlist 1
  if ← store.searchElement key then
    return (store, snprintf wbuf bufSize exist)
  else
    let (store, ret) ← store.insertElement key (← kvlist 2) odds
    if ret = 0 then
      return (store, snprintf wbuf bufSize success)
    else
      return (store, snprintf wbuf bufSize failed)

/-- `case KVS_CMD_SKGET` -/
def skget : Except Fault (Store × List UInt8) := do
  let key ← kvlist 1
  if ← store.searchElement key then
    let text ← store.getElement id [] key
    return (store, snprintf wbuf bufSize (cString text))
  else
    return (store, snprintf wbuf bufSize notFound)

/-- `case KVS_CMD_SKDEL` -/
def skdel : Except Fault (Store × List UInt8) := do
  let key ← kvlist 1
  if ← store.searchElement key then
    return (← store.deleteElement key, wbuf)
  else
    return (store, snprintf wbuf bufSize notFound)

/-- `case KVS_CMD_SKMOD`: what `insert_element` returns is not looked at. -/
def skmod : Except Fault (Store × List UInt8) := do
  let key ← kvlist 1
  if ← store.searchElement key then
    let store ← store.deleteElement key
    let (store, _) ← store.insertElement key (← kvlist 2) odds
    return (store, wbuf)
  else
    return (store, snprintf wbuf bufSize notFound)

/-- `case KVS_CMD_SKCOUNT` -/
def skcount : Except Fault (Store × List UInt8) :=
  return (store, snprintf wbuf bufSize (cString (decimal store.size.toInt)))

/-- The switch. -/
def runCommand : Cmd → Except Fault (Store × List UInt8)
  | .skset => skset odds store kvlist wbuf
  | .skget => skget store kvlist wbuf
  | .skdel => skdel store kvlist wbuf
  | .skmod => skmod odds store kvlist wbuf
  | .skcount => skcount store wbuf
  | .size => return (store, snprintf wbuf bufSize wrongOperation)

/-- `kvstore_parser_protocol`, with the level `insert_element` draws given by `odds`: the value
returned, the store and the write buffer. -/
def kvstoreParserProtocol (buf : List UInt8) (count : ℤ) :
    Except Fault (ℤ × Store × List UInt8) := do
  if count = 0 ∨ count = -1 then
    return (-1, store, buf)
  else
    let cmd := findCommand (← kvlist 0)
    let wbuf := memset buf bufSize
    let (store, wbuf) ← runCommand odds store kvlist wbuf cmd
    return (0, store, wbuf)

end Commands

/-! ## Requests -/

/-- One request: its tokens, what the other slots of `kvlist` hold, and how often `rand()` is
odd before it is even. -/
structure Request where
  tokens : List CStr
  stale : ℕ → Except Fault CStr
  odds : ℕ

namespace Request

/-- The slots of `kvlist`. -/
def kvlist (r : Request) (i : ℕ) : Except Fault CStr :=
  match r.tokens[i]? with
  | none => r.stale i
  | some token => .ok token

/-- The number of tokens a command reads, its own word among them. -/
def needed : Cmd → ℕ
  | .skset | .skmod => 3
  | .skget | .skdel => 2
  | .skcount | .size => 1

/-- The tokens are non-empty strings without a space, cut from one receive buffer, in which at
least one space stands between two of them; and there are as many as the command reads. -/
structure WellFormed (r : Request) : Prop where
  enough : ∀ word args, r.tokens = word :: args →
    needed (findCommand word) ≤ r.tokens.length
  ne_nil : r.tokens ≠ []
  token : ∀ t ∈ r.tokens, t ≠ [] ∧ 0 ∉ t ∧ 32 ∉ t
  fits : (r.tokens.map (·.length + 1)).sum ≤ bufSize + 1

end Request

/-- The requests of one connection, each reply printed into the same buffer and then sent. -/
def serve (store : Store) (wbuf : List UInt8) :
    List Request → Except Fault (Store × List (List UInt8))
  | [] => return (store, [])
  | r :: rs => do
    let (_, store, wbuf) ← kvstoreParserProtocol r.odds store r.kvlist wbuf r.tokens.length
    let (store, replies) ← serve store wbuf rs
    return (store, wbuf :: replies)

end CoKV.KVserver
