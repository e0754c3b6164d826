import CoKV.KVserver.TurnTheorems

/-!
# Slots that a request has not filled

`kvstore_parser_protocol` loads `key` and `value` from `kvlist[1]` and `kvlist[2]` before it looks
at the command, whatever `count` is, and `kvlist` is not cleared between two requests.
`short_never_harmless`: with too few tokens it always loads a slot that the request has not filled,
and all the same it follows none only in two cases.
-/

namespace CoKV.KVserver

open SkipList (KVMap Represents)
open Request (needed)

/-- `kvlist[i]`, which has to have been written. -/
def slot (kvlist : List ℕ) (i : ℕ) : Except Fault ℕ :=
  match kvlist[i]? with
  | none => .error .dangling
  | some p => .ok p

/-- The string at a pointer; it has to end in the memory. -/
def stringAt (mem : List UInt8) (p : ℕ) : Except Fault CStr :=
  if 0 ∈ mem.drop p then .ok (cStringAt mem p) else .error .outOfBounds

/-- `key` and `value`, which a command follows where it uses them. -/
def arguments (mem : List UInt8) (key value : ℕ) : ℕ → Except Fault CStr
  | 1 => stringAt mem key
  | _ => stringAt mem value

/-- `kvstore_parser_protocol` with its three loads from `kvlist`. -/
def parserLoads (odds : ℕ) (store : Store) (mem : List UInt8) (kvlist : List ℕ)
    (buf : List UInt8) (count : ℤ) : Except Fault (ℤ × Store × List UInt8) := do
  if count = 0 ∨ count = -1 then
    return (-1, store, buf)
  else
    let cmd := findCommand (← stringAt mem (← slot kvlist 0))
    let key ← slot kvlist 1
    let value ← slot kvlist 2
    let wbuf := memset buf bufSize
    let (store, wbuf) ← runCommand odds store (arguments mem key value) wbuf cmd
    return (0, store, wbuf)

section Loads

variable {odds : ℕ} {store : Store} {mem : List UInt8} {kvlist kvlist' : ℕ → Except Fault CStr}

theorem slot_of_lt {kvlist : List ℕ} {i : ℕ} (h : i < kvlist.length) :
    slot kvlist i = .ok kvlist[i] := by
  simp [slot, h]

theorem slot_of_ge {kvlist : List ℕ} {i : ℕ} (h : kvlist.length ≤ i) :
    slot kvlist i = .error .dangling := by
  simp [slot, h]

theorem follow_of_lt {kvlist : List ℕ} {i : ℕ} (h : i < kvlist.length) :
    follow mem kvlist i = stringAt mem kvlist[i] := by
  simp [follow, stringAt, h]

/-- Slots that are there already do not depend on what is left behind them. -/
theorem follow_append {found : List ℕ} {i : ℕ} (h : i < found.length) (old : List ℕ) :
    follow mem (found ++ old) i = follow mem found i := by
  unfold follow
  rw [List.getElem?_append_left h]

/-- A command follows two slots at most. -/
theorem runCommand_congr (hkey : kvlist 1 = kvlist' 1) (hvalue : kvlist 2 = kvlist' 2)
    (wbuf : List UInt8) (cmd : Cmd) :
    runCommand odds store kvlist wbuf cmd = runCommand odds store kvlist' wbuf cmd := by
  cases cmd with
  | skset => simp only [runCommand, skset, hkey, hvalue]
  | skget => simp only [runCommand, skget, hkey]
  | skdel => simp only [runCommand, skdel, hkey]
  | skmod => simp only [runCommand, skmod, hkey, hvalue]
  | skcount | size => rfl

/-- Where all slots have been written, the loads make no difference. -/
theorem parserLoads_eq {kvlist : List ℕ} (h : 3 ≤ kvlist.length) (buf : List UInt8) (count : ℤ) :
    parserLoads odds store mem kvlist buf count
      = kvstoreParserProtocol odds store (follow mem kvlist) buf count := by
  have hword : follow mem kvlist 0 = stringAt mem kvlist[0] := follow_of_lt (by omega)
  have hkey : follow mem kvlist 1 = stringAt mem kvlist[1] := follow_of_lt (by omega)
  have hvalue : follow mem kvlist 2 = stringAt mem kvlist[2] := follow_of_lt (by omega)
  have hrun : ∀ wbuf cmd, runCommand odds store (arguments mem kvlist[1] kvlist[2]) wbuf cmd
      = runCommand odds store (follow mem kvlist) wbuf cmd :=
    runCommand_congr hkey.symm hvalue.symm
  unfold parserLoads kvstoreParserProtocol
  rw [slot_of_lt (by omega), slot_of_lt (by omega), slot_of_lt (by omega)]
  simp only [ok_bind, hrun, hword]

end Loads

section Short

variable {c c' : Conn} {r : Message} {e : Chance} {found : List ℕ} {mem : List UInt8} {word : CStr}

/-- A turn that leaves the store as it is, and gets by with the slots that its own tokens have been
stored in. -/
structure Harmless (c : Conn) (r : Message) (e : Chance) (found : List ℕ) (mem : List UInt8) :
    Prop where
  store : ∃ c', c.handle r e = .ok c' ∧ c'.store = c.store
  slots : ∃ result, parserLoads e.odds c.store mem found c.wbuf found.length = .ok result

/-- The store is left as it is whatever the slots hold that the request has not filled. -/
def Unread (c : Conn) (r : Message) (e : Chance) : Prop :=
  ∀ kvlist, ∃ c', { c with kvlist := kvlist }.handle r e = .ok c' ∧ c'.store = c.store

/-- The value alone is missing, and the command does not come to it: the key of `SKSET` is there,
or that of `SKMOD` is not. -/
def ValueUnused (c : Conn) (found : List ℕ) (mem : List UInt8) (cmd : Cmd) : Prop :=
  found.length = 2 ∧ ∃ key, follow mem found 1 = .ok key ∧
    (cmd = .skset ∧ c.store.searchElement key = .ok true ∨
      cmd = .skmod ∧ c.store.searchElement key = .ok false)

theorem needed_le (cmd : Cmd) : needed cmd ≤ 3 := by
  cases cmd <;> decide

/-- `kvlist[2]` is loaded. -/
theorem parserLoads_short (hpos : 0 < found.length) (hshort : found.length < 3) (buf : List UInt8)
    (result : ℤ × Store × List UInt8) :
    parserLoads e.odds c.store mem found buf found.length ≠ .ok result := by
  intro h
  unfold parserLoads at h
  rw [if_neg (by omega)] at h
  obtain ⟨p, -, h₁⟩ := ok_of_bind h
  obtain ⟨word, -, h₂⟩ := ok_of_bind h₁
  obtain ⟨key, -, h₃⟩ := ok_of_bind h₂
  rw [slot_of_ge (by omega)] at h₃
  cases h₃

/-- A command that does not come to its value leaves the store as it is. -/
theorem runCommand_unused {cmd : Cmd} (h : ValueUnused c found mem cmd) (odds : ℕ) (old : List ℕ)
    (wbuf : List UInt8) :
    ∃ wbuf', runCommand odds c.store (follow mem (found ++ old)) wbuf cmd = .ok (c.store, wbuf') := by
  obtain ⟨hlen, key, hkey, hcmd⟩ := h
  rw [← follow_append (by omega) old] at hkey
  rcases hcmd with ⟨rfl, hsearch⟩ | ⟨rfl, hsearch⟩
  · exact ⟨_, by rw [runCommand, skset, hkey, ok_bind, hsearch, ok_bind]; rfl⟩
  · exact ⟨_, by rw [runCommand, skmod, hkey, ok_bind, hsearch, ok_bind]; rfl⟩

theorem unread_of_unused
    (htoken : kvstoreSkiplistToken (received c.rbuf ⟨r.data, e.behind⟩) = some (found, mem))
    (hword : follow mem found 0 = .ok word) (h : ValueUnused c found mem (findCommand word)) :
    Unread c r e := by
  intro kvlist
  have hlen := h.1
  obtain ⟨wbuf, hrun⟩ := runCommand_unused h e.odds (kvlist.drop found.length)
    (memset c.wbuf bufSize)
  have hroom : found.length ≤ kvlistRoom := by
    rw [hlen]
    decide
  have hpos : 0 < found.length := by omega
  rw [← follow_append hpos (kvlist.drop found.length)] at hword
  have hhandle := handle_of_run (c := { c with kvlist := kvlist }) htoken hroom hpos hword hrun
  exact ⟨_, hhandle, rfl⟩

/-- With a key and no value there are two tokens. -/
theorem length_of_key {key : CStr} (hkey : follow mem found 1 = .ok key)
    (hshort : found.length < 3) : found.length = 2 := by
  have htwo := follow_lt hkey
  omega

theorem follow_value (hlen : found.length = 2) (value : CStr) : follow mem found 2 ≠ .ok value := by
  intro hvalue
  have hthree := follow_lt hvalue
  omega

/-- With nothing in the other slots, a command that runs to its end has not come to them. -/
theorem unused_of_unread {m : KVMap CStr CStr} (hs : Represents 6 c.store m)
    (htoken : kvstoreSkiplistToken (received c.rbuf ⟨r.data, e.behind⟩) = some (found, mem))
    (hword : follow mem found 0 = .ok word) (hshort : found.length < needed (findCommand word))
    (h : Unread c r e) : ValueUnused c found mem (findCommand word) := by
  obtain ⟨c', hhandle, -⟩ := h []
  obtain ⟨found', mem', hh⟩ := handle_handled hhandle
  have hsame := hh.token
  dsimp only at hsame
  rw [htoken] at hsame
  cases hsame
  have hkvlist : c'.kvlist = found := by
    rw [hh.kvlist, List.drop_nil, List.append_nil]
  have hpos := follow_lt hword
  rcases hh.run with ⟨hzero, -⟩ | ⟨-, word', hword', hrun⟩
  · omega
  · rw [hkvlist] at hword' hrun
    rw [hword] at hword'
    cases hword'
    obtain ⟨key, hread⟩ := runCommand_readable hs hrun
    unfold ValueUnused
    cases hcmd : findCommand word with
    | skset =>
      rw [hcmd] at hread hshort
      have hlen := length_of_key hread.1 hshort
      refine ⟨hlen, key, hread.1, Or.inl ⟨rfl, ?_⟩⟩
      by_cases hm : key ∈ m
      · rw [SkipList.searchElement_law hs, decide_eq_true hm]
      · obtain ⟨value, hvalue⟩ := hread.2 hm
        exact absurd hvalue (follow_value hlen value)
    | skmod =>
      rw [hcmd] at hread hshort
      have hlen := length_of_key hread.1 hshort
      refine ⟨hlen, key, hread.1, Or.inr ⟨rfl, ?_⟩⟩
      by_cases hm : key ∈ m
      · obtain ⟨value, hvalue⟩ := hread.2 hm
        exact absurd hvalue (follow_value hlen value)
      · rw [SkipList.searchElement_law hs, decide_eq_false hm]
    | skget | skdel =>
      rw [hcmd] at hread hshort
      have htwo := follow_lt hread
      change found.length < 2 at hshort
      omega
    | skcount | size =>
      rw [hcmd] at hshort
      change found.length < 1 at hshort
      omega

end Short

/-- **A request with too few tokens** is never harmless, after any requests before: it loads a slot
that it has not filled. If only the slots that are followed count, it is harmless exactly if the
value alone is missing and its command does not come to it. -/
theorem short_never_harmless {c : Conn} (h : c.Reached) {r : Message} {e : Chance} {found : List ℕ}
    {mem : List UInt8} {word : CStr}
    (htoken : kvstoreSkiplistToken (received c.rbuf ⟨r.data, e.behind⟩) = some (found, mem))
    (hword : follow mem found 0 = .ok word) (hshort : found.length < needed (findCommand word)) :
    ¬ Harmless c r e found mem ∧
    (Unread c r e ↔ ValueUnused c found mem (findCommand word)) := by
  constructor
  · intro hharmless
    obtain ⟨result, hresult⟩ := hharmless.slots
    have hle := needed_le (findCommand word)
    exact parserLoads_short (follow_lt hword) (by omega) c.wbuf result hresult
  · obtain ⟨m, hkept⟩ := reached_kept h
    constructor
    · exact unused_of_unread hkept.represents htoken hword hshort
    · exact unread_of_unused htoken hword

/-- `SKSET a b` and `SKDEL`, as they are sent. -/
def setMessage : Message where
  data := str ['S', 'K', 'S', 'E', 'T', ' ', 'a', ' ', 'b']
  pos := by decide
  le := by decide

def delMessage : Message where
  data := str ['S', 'K', 'D', 'E', 'L']
  pos := by decide
  le := by decide

/-- A connection whose buffers were zero. -/
def zeroConn : Conn := Conn.new (List.replicate bufSize 0) (List.replicate bufSize 0)

theorem reached_zeroConn : zeroConn.Reached :=
  Conn.Reached.new List.length_replicate List.length_replicate

/-- `SKDEL` without a key, on a connection that has just been accepted. -/
theorem short_never_harmless_witness :
    ¬ Harmless zeroConn delMessage ⟨[], 0⟩ [0] (received zeroConn.rbuf ⟨delMessage.data, []⟩) := by
  have hword : follow (received zeroConn.rbuf ⟨delMessage.data, []⟩) [0] 0
      = .ok (str ['S', 'K', 'D', 'E', 'L']) := by decide +kernel
  exact (short_never_harmless reached_zeroConn (e := ⟨[], 0⟩) (by decide +kernel) hword
    (by decide)).1

/-- **A key that was not sent** is deleted: after `SKSET a b`, the slot that `SKDEL` takes its key
from still points to `a`. -/
theorem short_deletes : ¬ ∀ (c : Conn) (r : Message) (e : Chance) (found : List ℕ)
    (mem : List UInt8) (word : CStr), c.Reached →
    kvstoreSkiplistToken (received c.rbuf ⟨r.data, e.behind⟩) = some (found, mem) →
    follow mem found 0 = .ok word → found.length < needed (findCommand word) →
    Harmless c r e found mem := by
  intro h
  have heval : (do
      let c₁ ← zeroConn.handle setMessage ⟨[], 0⟩
      let c₂ ← c₁.handle delMessage ⟨[], 0⟩
      let before ← c₁.store.searchElement (str ['a'])
      let after ← c₂.store.searchElement (str ['a'])
      let token := (kvstoreSkiplistToken (received c₁.rbuf ⟨delMessage.data, []⟩)).map
        fun result => (result.1, (follow result.2 result.1 0).toOption)
      return before && !after && token = some ([0], some (str ['S', 'K', 'D', 'E', 'L'])) :
        Except Fault Bool).toOption = some true := by
    decide +kernel
  obtain ⟨c₁, h₁, hrun⟩ := ok_of_bind (ok_of_toOption heval)
  obtain ⟨c₂, h₂, hrun⟩ := ok_of_bind hrun
  obtain ⟨before, hbefore, hrun⟩ := ok_of_bind hrun
  obtain ⟨after, hafter, hrun⟩ := ok_of_bind hrun
  have hresult := Except.ok.inj hrun
  simp only [Bool.and_eq_true, Bool.not_eq_true', decide_eq_true_eq, Option.map_eq_some_iff,
    Prod.mk.injEq] at hresult
  obtain ⟨⟨rfl, rfl⟩, ⟨found, mem⟩, htoken, rfl, hword⟩ := hresult
  have hreached : c₁.Reached := reached_zeroConn.handle h₁
  obtain ⟨c', hhandle, hstore⟩ :=
    (h c₁ delMessage ⟨[], 0⟩ [0] mem _ hreached htoken (ok_of_toOption hword) (by decide)).store
  -- the store is another one
  rw [h₂] at hhandle
  cases hhandle
  rw [hstore, hbefore] at hafter
  cases hafter

end CoKV.KVserver
