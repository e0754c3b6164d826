import CoKV.Lib.Chain
import CoKV.Lib.Except
import Mathlib.Order.Lattice
import Mathlib.Data.Nat.Notation

/-!
# The skip list

`SkipList<K,V>` as the code has it: nodes in a heap, each with its own array of forward
pointers, a header node, the current height and an `int` counter. Every access goes through the
heap and can fail, so that a null pointer, a freed node or an index past the end of an array is
a `Fault` of the operation and not a silent default. The two loops that follow pointers take as
fuel the number of nodes ever allocated; a walk that has not stopped by then goes round in
circles, which is the fault `diverges`.

`new` hands out addresses that were never used before. The mutex and the lines written to
`std::cout` are left out.
-/

namespace CoKV

/-- Ways an operation ends other than by returning. -/
inductive Fault
  | nullDeref
  | dangling
  | outOfBounds
  | diverges
  deriving DecidableEq, Repr

namespace SkipList

/-- A heap address; a pointer is an `Option Addr`, null being `none`. -/
abbrev Addr := ℕ

/-- `Node<K,V>`: `forward` has `nodeLevel + 1` entries. -/
structure Node (K V : Type) where
  key : K
  value : V
  nodeLevel : ℕ
  forward : List (Option Addr)

/-- `Node::Node`: the forward array is allocated for `level + 1` pointers and zeroed. -/
def Node.new {K V : Type} (k : K) (v : V) (level : ℕ) : Node K V :=
  ⟨k, v, level, List.replicate (level + 1) none⟩

end SkipList

open SkipList (Addr Node)

/-- `SkipList<K,V>`: `heap a` is the node at address `a` while it is allocated, and `brk` is
the next address `new` returns. -/
structure SkipList (K V : Type) where
  maxLevel : ℕ
  skipListLevel : ℕ
  header : Addr
  elementCount : Int32
  heap : Addr → Option (Node K V)
  brk : Addr

namespace SkipList

variable {K V : Type}

/-- `SkipList::SkipList`: the header's key and value are default-initialised, so for some `K`
and `V` they are indeterminate. -/
def new (k : K) (v : V) (maxlevel : ℕ) : SkipList K V where
  maxLevel := maxlevel
  skipListLevel := 0
  header := 0
  elementCount := 0
  heap a := if a = 0 then some (Node.new k v maxlevel) else none
  brk := 1

/-! ## Accesses to the heap -/

/-- `*p` -/
def deref (s : SkipList K V) (p : Option Addr) : Except Fault (Node K V) :=
  match p with
  | none => .error .nullDeref
  | some a =>
    match s.heap a with
    | none => .error .dangling
    | some n => .ok n

/-- `p->forward[i]` -/
def forwardAt (s : SkipList K V) (p : Option Addr) (i : ℕ) : Except Fault (Option Addr) := do
  let n ← s.deref p
  match n.forward[i]? with
  | none => .error .outOfBounds
  | some q => return q

/-- The heap with entry `i` of the forward array of `a` overwritten. -/
def writeForward (s : SkipList K V) (a : Addr) (i : ℕ) (q : Option Addr) : SkipList K V :=
  { s with heap := fun b =>
      if b = a then (s.heap a).map fun n => { n with forward := n.forward.set i q }
      else s.heap b }

/-- `p->forward[i] = q` -/
def setForward (s : SkipList K V) (p : Option Addr) (i : ℕ) (q : Option Addr) :
    Except Fault (SkipList K V) := do
  let n ← s.deref p
  match p with
  | none => .error .nullDeref
  | some a => if i < n.forward.length then return s.writeForward a i q else .error .outOfBounds

/-- `create_node` -/
def createNode (s : SkipList K V) (k : K) (v : V) (level : ℕ) : SkipList K V × Addr :=
  ({ s with
      heap := fun b => if b = s.brk then some (Node.new k v level) else s.heap b
      brk := s.brk + 1 }, s.brk)

/-- `delete p`: freeing what is not allocated is a fault. -/
def free (s : SkipList K V) (p : Option Addr) : Except Fault (SkipList K V) := do
  let _ ← s.deref p
  return { s with heap := fun b => if some b = p then none else s.heap b }

/-- `update[i] = p`, for the array of `max_level + 1` pointers on the stack -/
def setUpdate (update : List (Option Addr)) (i : ℕ) (p : Option Addr) :
    Except Fault (List (Option Addr)) :=
  if i < update.length then return update.set i p else .error .outOfBounds

/-- `update[i]` -/
def updateAt (update : List (Option Addr)) (i : ℕ) : Except Fault (Option Addr) :=
  match update[i]? with
  | none => .error .outOfBounds
  | some p => return p

section Operations

variable [LinearOrder K]

/-! ## The descent -/

/-- `while(current->forward[i] && current->forward[i]->get_key() < key)
current = current->forward[i];` -/
def walk (s : SkipList K V) (key : K) (i : ℕ) : ℕ → Addr → Except Fault Addr
  | 0, _ => .error .diverges
  | fuel + 1, current => do
    match ← s.forwardAt (some current) i with
    | none => return current
    | some q =>
      let n ← s.deref (some q)
      if n.key < key then walk s key i fuel q else return current

/-- The loop `for(i = skip_list_level; i >= 0; i--)` of `insert_element` and `delete_element`,
with `levels = i + 1`: walk along level `i`, then record where the walk stopped. -/
def descend (s : SkipList K V) (key : K) :
    (levels : ℕ) → Addr → List (Option Addr) → Except Fault (Addr × List (Option Addr))
  | 0, current, update => return (current, update)
  | i + 1, current, update => do
    let current ← s.walk key i s.brk current
    let update ← setUpdate update i (some current)
    descend s key i current update

/-- The same loop in `search_element` and `get_element`, which record nothing. -/
def locate (s : SkipList K V) (key : K) : (levels : ℕ) → Addr → Except Fault Addr
  | 0, current => return current
  | i + 1, current => do
    let current ← s.walk key i s.brk current
    locate s key i current

/-- `current != nullptr && current->get_key() == key` -/
def hasKey (s : SkipList K V) (current : Option Addr) (key : K) : Except Fault Bool :=
  match current with
  | none => return false
  | some _ => do return decide ((← s.deref current).key = key)

/-! ## `insert_element` -/

/-- What `get_random_level` returns when `rand()` is odd `odds` times and then even. -/
def getRandomLevel (s : SkipList K V) (odds : ℕ) : ℕ :=
  let k := 1 + odds
  if k < s.maxLevel then k else s.maxLevel

/-- `for(i = skip_list_level + 1; i < random_level + 1; i++) update[i] = header;`, `n` more
times from `i` on -/
def raiseUpdate (s : SkipList K V) : (i n : ℕ) → List (Option Addr) →
    Except Fault (List (Option Addr))
  | _, 0, update => return update
  | i, n + 1, update => do
    let update ← setUpdate update i (some s.header)
    raiseUpdate s (i + 1) n update

/-- The splicing loop of `insert_element`, `n` more levels from `i` on. -/
def link (update : List (Option Addr)) (insertedNode : Addr) :
    (i n : ℕ) → SkipList K V → Except Fault (SkipList K V)
  | _, 0, s => return s
  | i, n + 1, s => do
    let u ← updateAt update i
    let s ← s.setForward (some insertedNode) i (← s.forwardAt u i)
    let s ← s.setForward u i (some insertedNode)
    link update insertedNode (i + 1) n s

/-- `insert_element`, the level it draws being given by `odds` -/
def insertElement (s : SkipList K V) (key : K) (value : V) (odds : ℕ) :
    Except Fault (SkipList K V × ℕ) := do
  let update := List.replicate (s.maxLevel + 1) none
  let (current, update) ← s.descend key (s.skipListLevel + 1) s.header update
  let current ← s.forwardAt (some current) 0
  if ← s.hasKey current key then
    return (s, 1)
  else
    let randomLevel := s.getRandomLevel odds
    let update ← s.raiseUpdate (s.skipListLevel + 1) (randomLevel - s.skipListLevel) update
    let s := { s with skipListLevel := max s.skipListLevel randomLevel }
    let (s, insertedNode) := s.createNode key value randomLevel
    let s ← link update insertedNode 0 (randomLevel + 1) s
    return ({ s with elementCount := s.elementCount + 1 }, 0)

/-! ## `delete_element` -/

/-- The unlinking loop of `delete_element`, `n` more levels from `i` on; it breaks at the first
level whose recorded node does not point at `current`. -/
def unlink (update : List (Option Addr)) (current : Option Addr) :
    (i n : ℕ) → SkipList K V → Except Fault (SkipList K V)
  | _, 0, s => return s
  | i, n + 1, s => do
    let u ← updateAt update i
    if (← s.forwardAt u i) ≠ current then
      return s
    else
      let s ← s.setForward u i (← s.forwardAt current i)
      unlink update current (i + 1) n s

/-- `while(skip_list_level > 0 && header->forward[skip_list_level] == 0) --skip_list_level;` -/
def trim (s : SkipList K V) : ℕ → Except Fault ℕ
  | 0 => return 0
  | l + 1 => do
    match ← s.forwardAt (some s.header) (l + 1) with
    | none => trim s l
    | some _ => return l + 1

/-- `delete_element` -/
def deleteElement (s : SkipList K V) (key : K) : Except Fault (SkipList K V) := do
  let update := List.replicate (s.maxLevel + 1) none
  let (current, update) ← s.descend key (s.skipListLevel + 1) s.header update
  let current ← s.forwardAt (some current) 0
  if ← s.hasKey current key then
    let s ← unlink update current 0 (s.skipListLevel + 1) s
    let s := { s with skipListLevel := ← s.trim s.skipListLevel }
    let s ← s.free current
    return { s with elementCount := s.elementCount - 1 }
  else
    return s

/-! ## `search_element`, `get_element` and `size` -/

/-- `search_element` -/
def searchElement (s : SkipList K V) (key : K) : Except Fault Bool := do
  let current ← s.locate key (s.skipListLevel + 1) s.header
  s.hasKey (← s.forwardAt (some current) 0) key

/-- `get_element`: it returns a `std::string`, so the stored value goes through the conversion
`toString` from `V`, and the empty string `empty` stands for an absent key. -/
def getElement {S : Type} (toString : V → S) (empty : S) (s : SkipList K V) (key : K) :
    Except Fault S := do
  let current ← s.locate key (s.skipListLevel + 1) s.header
  let current ← s.forwardAt (some current) 0
  if ← s.hasKey current key then return toString (← s.deref current).value else return empty

/-- `size` -/
def size (s : SkipList K V) : Int32 := s.elementCount

end Operations

end SkipList
end CoKV
