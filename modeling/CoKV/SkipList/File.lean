import CoKV.Lib.CStr
import CoKV.SkipList.Defs
import Mathlib.Order.Lattice

/-!
# The dump file

`dump_file` and `load_file` of a `SkipList<int,std::string>`: a line `key:value` for each node. The
file is its bytes; it opens, and reads and writes succeed. `stoi` throws, and nothing catches it.
-/

namespace CoKV.SkipList

/-- An `int`, as a key. -/
structure CInt where
  val : ℤ
  range : -2 ^ 31 ≤ val ∧ val < 2 ^ 31

theorem CInt.val_injective : Function.Injective CInt.val := by
  intro a b h
  cases a
  cases b
  simpa using h

instance : LinearOrder CInt := LinearOrder.lift' CInt.val CInt.val_injective

/-- `SkipList<int,std::string>` -/
abbrev IntList := SkipList CInt CStr

/-- `delimiter` -/
def delimiter : UInt8 := 58

def newline : UInt8 := 10

/-! ## `dump_file` -/

/-- The line that is written for a node. -/
def entry (key : CInt) (value : CStr) : CStr := decimal key.val ++ delimiter :: value ++ [newline]

/-- The loop of `dump_file`, from `node` on. -/
def dumpFrom (s : IntList) : ℕ → Option Addr → Except Fault CStr
  | _, none => return []
  | 0, some _ => .error .diverges
  | fuel + 1, some a => do
    let node ← s.deref (some a)
    let file ← dumpFrom s fuel (← s.forwardAt (some a) 0)
    return entry node.key node.value ++ file

/-- `dump_file`: what the file holds afterwards. -/
def dumpFile (s : IntList) : Except Fault CStr := do
  dumpFrom s s.brk (← s.forwardAt (some s.header) 0)

/-! ## `load_file` -/

/-- The lines that `getline` reads one after another: a line ends at a newline or at the end of the
file. -/
def getlines : CStr → List CStr
  | [] => []
  | b :: file =>
    if b = newline then [] :: getlines file
    else
      match getlines file with
      | [] => [[b]]
      | line :: lines => (b :: line) :: lines

/-- `is_valid_string` -/
def isValidString (str : CStr) : Bool :=
  if str = [] then false else if delimiter ∉ str then false else true

/-- `get_key_value_from_string`: what `key` and `value` are afterwards. -/
def getKeyValueFromString (str key value : CStr) : CStr × CStr :=
  if !isValidString str then (key, value)
  else (str.takeWhile (· ≠ delimiter), (str.dropWhile (· ≠ delimiter)).drop 1)

/-- Ways in which `load_file` does not return. -/
inductive LoadError
  | fault (f : Fault)
  | invalidArgument
  | outOfRange
  deriving DecidableEq

def isspace (b : UInt8) : Bool := b = 32 ∨ 9 ≤ b ∧ b ≤ 13

def isdigit (b : UInt8) : Bool := 48 ≤ b ∧ b ≤ 57

/-- The sign that `strtol` reads: whether it is a minus. -/
def sign : CStr → Bool × CStr
  | [] => (false, [])
  | b :: str => if b = 45 then (true, str) else if b = 43 then (false, str) else (false, b :: str)

/-- `stoi`: white space, a sign and as many digits as there are. -/
def stoi (str : CStr) : Except LoadError CInt :=
  let (minus, str) := sign (str.dropWhile isspace)
  let digits := str.takeWhile isdigit
  if digits = [] then .error .invalidArgument
  else
    let n : ℕ := digits.foldl (fun v b => 10 * v + (b.toNat - 48)) 0
    let z : ℤ := if minus then -n else n
    if h : -2 ^ 31 ≤ z ∧ z < 2 ^ 31 then .ok ⟨z, h⟩ else .error .outOfRange

/-- The loop of `load_file`; `key` and `value` keep what they are when a line is not valid. `odds`
gives the level for the node of each line. -/
def loadLines (odds : ℕ → ℕ) : ℕ → List CStr → CStr → CStr → IntList → Except LoadError IntList
  | _, [], _, _, s => return s
  | i, line :: lines, key, value, s =>
    let (key, value) := getKeyValueFromString line key value
    if key = [] ∨ value = [] then loadLines odds (i + 1) lines key value s
    else do
      let k ← stoi key
      let (s, _) ← (s.insertElement k value (odds i)).mapError .fault
      loadLines odds (i + 1) lines key value s

/-- `load_file` -/
def loadFile (s : IntList) (file : CStr) (odds : ℕ → ℕ) : Except LoadError IntList :=
  loadLines odds 0 (getlines file) [] [] s

/-- Whether `file_reader` is still open behind `load_file`: an exception passes over its `close`. -/
def fileReaderIsOpen : Except LoadError IntList → Bool
  | .ok _ => false
  | .error _ => true

end CoKV.SkipList
