import CoKV.KVserver.Connection
import CoKV.KVserver.ProtocolTheorems

/-!
# What a request does to a connection

`runCommand_ok` and `runCommand_readable`: a command runs to its end exactly if the slots it follows
can be followed, and then its reply is that of the map. `handle_handled` takes a turn of the loop
apart, and `reached_kept` says what stays between two turns.
-/

namespace CoKV.KVserver

open SkipList (KVMap Represents)

/-! ## One command -/

/-- The reply to a command with this key. -/
def replyBytes (m : KVMap CStr CStr) (key : CStr) : Cmd → List UInt8
  | .skset => padded bufSize (if key ∈ m then exist else success)
  | .skget => snprintf (padded bufSize []) bufSize (((m.lookup key).map cString).getD notFound)
  | .skdel | .skmod => padded bufSize (if key ∈ m then [] else notFound)
  | .skcount => padded bufSize (printInt m.keys.card)
  | .size => padded bufSize wrongOperation

/-- The slots that a command follows can be followed. -/
def Readable (m : KVMap CStr CStr) (kvlist : ℕ → Except Fault CStr) (key : CStr) : Cmd → Prop
  | .skset => kvlist 1 = .ok key ∧ (key ∉ m → ∃ value, kvlist 2 = .ok value)
  | .skget | .skdel => kvlist 1 = .ok key
  | .skmod => kvlist 1 = .ok key ∧ (key ∈ m → ∃ value, kvlist 2 = .ok value)
  | .skcount | .size => True

section Command

variable {store : Store} {m : KVMap CStr CStr} {kvlist : ℕ → Except Fault CStr} {key : CStr}

theorem length_snprintf {text : CStr} :
    (snprintf (padded bufSize []) bufSize text).length = bufSize := by
  have hbuf : (padded bufSize []).length = bufSize := length_padded (Nat.zero_le _)
  have htake : (text.take (bufSize - 1)).length ≤ bufSize - 1 := List.length_take_le ..
  unfold snprintf
  rw [List.length_append, List.length_append, List.length_drop, List.length_singleton, hbuf]
  unfold bufSize at *
  omega

theorem length_replyBytes (m : KVMap CStr CStr) (key : CStr) (cmd : Cmd) :
    (replyBytes m key cmd).length = bufSize := by
  have hlen {text : CStr} (h : Printable text) : (padded bufSize text).length = bufSize :=
    length_padded h.short.le
  cases cmd with
  | skset =>
    dsimp only [replyBytes]
    split
    · exact hlen printable_exist
    · exact hlen printable_success
  | skget => exact length_snprintf
  | skdel | skmod =>
    dsimp only [replyBytes]
    split
    · exact hlen printable_nil
    · exact hlen printable_notFound
  | skcount => exact hlen (printable_printInt _)
  | size => exact hlen printable_wrongOperation

/-- A command whose slots can be followed runs to its end. -/
theorem runCommand_ok (hs : Represents 6 store m) (odds : ℕ) {cmd : Cmd}
    (h : Readable m kvlist key cmd) :
    ∃ store', runCommand odds store kvlist (padded bufSize []) cmd
      = .ok (store', replyBytes m key cmd) ∧ ∃ m', Represents 6 store' m' := by
  cases cmd with
  | skset =>
    obtain ⟨hkey, hvalue⟩ := h
    obtain ⟨value, hvalue⟩ : ∃ value, key ∉ m → kvlist 2 = .ok value := by
      by_cases hm : key ∈ m
      · exact ⟨[], fun hnot => absurd hm hnot⟩
      · obtain ⟨value, hvalue⟩ := hvalue hm
        exact ⟨value, fun _ => hvalue⟩
    obtain ⟨store', hrun, hs'⟩ := skset_law odds hs hkey hvalue
    exact ⟨store', hrun, _, hs'⟩
  | skget =>
    refine ⟨store, ?_, m, hs⟩
    rw [runCommand, skget, h, ok_bind, SkipList.searchElement_law hs, ok_bind,
      SkipList.getElement_law hs, ok_bind, replyBytes]
    by_cases hm : key ∈ m
    · obtain ⟨value, hl⟩ := Finmap.mem_iff.mp hm
      rw [decide_eq_true hm, hl]
      rfl
    · rw [decide_eq_false hm, Finmap.lookup_eq_none.mpr hm]
      rfl
  | skdel =>
    obtain ⟨store', hrun, hs'⟩ := skdel_law hs h
    exact ⟨store', hrun, _, hs'⟩
  | skmod =>
    obtain ⟨hkey, hvalue⟩ := h
    obtain ⟨value, hvalue⟩ : ∃ value, key ∈ m → kvlist 2 = .ok value := by
      by_cases hm : key ∈ m
      · obtain ⟨value, hvalue⟩ := hvalue hm
        exact ⟨value, fun _ => hvalue⟩
      · exact ⟨[], fun hmem => absurd hmem hm⟩
    obtain ⟨store', hrun, hs'⟩ := skmod_law odds hs hkey hvalue
    exact ⟨store', hrun, _, hs'⟩
  | skcount => exact ⟨store, skcount_law hs, m, hs⟩
  | size =>
    refine ⟨store, ?_, m, hs⟩
    rw [runCommand, snprintf_reply printable_wrongOperation]
    rfl

/-- A command that runs to its end has followed slots that can be followed. -/
theorem runCommand_readable (hs : Represents 6 store m) {odds : ℕ} {cmd : Cmd}
    {wbuf : List UInt8} {result : Store × List UInt8}
    (h : runCommand odds store kvlist wbuf cmd = .ok result) : ∃ key, Readable m kvlist key cmd := by
  cases cmd with
  | skset =>
    rw [runCommand, skset] at h
    obtain ⟨key, hkey, h⟩ := ok_of_bind h
    refine ⟨key, hkey, fun hm => ?_⟩
    rw [SkipList.searchElement_law hs, ok_bind, decide_eq_false hm] at h
    obtain ⟨value, hvalue, -⟩ := ok_of_bind h
    exact ⟨value, hvalue⟩
  | skmod =>
    rw [runCommand, skmod] at h
    obtain ⟨key, hkey, h⟩ := ok_of_bind h
    refine ⟨key, hkey, fun hm => ?_⟩
    rw [SkipList.searchElement_law hs, ok_bind, decide_eq_true hm] at h
    obtain ⟨store₁, -, h⟩ := ok_of_bind h
    obtain ⟨value, hvalue, -⟩ := ok_of_bind h
    exact ⟨value, hvalue⟩
  | skget | skdel =>
    obtain ⟨key, hkey, -⟩ := ok_of_bind h
    exact ⟨key, hkey⟩
  | skcount | size => exact ⟨[], trivial⟩

/-- What `kvstore_parser_protocol` has done: without a token nothing at all. -/
theorem kvstoreParserProtocol_ran {odds count : ℕ} {buf : List UInt8}
    {result : ℤ × Store × List UInt8}
    (h : kvstoreParserProtocol odds store kvlist buf count = .ok result) :
    count = 0 ∧ result.2 = (store, buf) ∨
      0 < count ∧ ∃ word, kvlist 0 = .ok word ∧
        runCommand odds store kvlist (memset buf bufSize) (findCommand word) = .ok result.2 := by
  unfold kvstoreParserProtocol at h
  by_cases hzero : count = 0
  · rw [if_pos (Or.inl (by omega))] at h
    cases h
    exact Or.inl ⟨hzero, rfl⟩
  · rw [if_neg (by omega)] at h
    obtain ⟨word, hword, h⟩ := ok_of_bind h
    obtain ⟨⟨store', wbuf⟩, hrun, h⟩ := ok_of_bind h
    cases h
    exact Or.inr ⟨Nat.pos_of_ne_zero hzero, word, hword, hrun⟩

end Command

/-! ## One request -/

section Handle

variable {c c' : Conn} {r : Message} {e : Chance} {m : KVMap CStr CStr}

/-- What a turn of the loop has done. -/
structure Handled (c c' : Conn) (r : Message) (e : Chance) (found : List ℕ) (mem : List UInt8) :
    Prop where
  token : kvstoreSkiplistToken (received c.rbuf ⟨r.data, e.behind⟩) = some (found, mem)
  room : found.length ≤ kvlistRoom
  rbuf : c'.rbuf = mem.take bufSize
  kvlist : c'.kvlist = found ++ c.kvlist.drop found.length
  run : found.length = 0 ∧ (c'.store, c'.wbuf) = (c.store, c.wbuf) ∨
    0 < found.length ∧ ∃ word, follow mem c'.kvlist 0 = .ok word ∧
      runCommand e.odds c.store (follow mem c'.kvlist) (memset c.wbuf bufSize) (findCommand word)
        = .ok (c'.store, c'.wbuf)

theorem handle_handled (h : c.handle r e = .ok c') : ∃ found mem, Handled c c' r e found mem := by
  unfold Conn.handle at h
  cases htoken : kvstoreSkiplistToken (received c.rbuf ⟨r.data, e.behind⟩) with
  | none =>
    rw [htoken] at h
    cases h
  | some result =>
    obtain ⟨found, mem⟩ := result
    rw [htoken] at h
    dsimp only at h
    by_cases hroom : kvlistRoom < found.length
    · rw [if_pos hroom] at h
      cases h
    · rw [if_neg hroom] at h
      obtain ⟨⟨ret, store, wbuf⟩, hparse, h⟩ := ok_of_bind h
      cases h
      exact ⟨found, mem, htoken, Nat.le_of_not_lt hroom, rfl, rfl, kvstoreParserProtocol_ran hparse⟩

/-- Between two requests. -/
structure Kept (c : Conn) (m : KVMap CStr CStr) : Prop where
  represents : Represents 6 c.store m
  length : c.wbuf.length = bufSize

theorem Kept.handle (hc : Kept c m) (h : c.handle r e = .ok c') : ∃ m', Kept c' m' := by
  obtain ⟨found, mem, hh⟩ := handle_handled h
  rcases hh.run with ⟨-, heq⟩ | ⟨-, word, -, hrun⟩
  · obtain ⟨hstore, hwbuf⟩ := Prod.mk.inj heq
    exact ⟨m, by rw [hstore]; exact hc.represents, by rw [hwbuf]; exact hc.length⟩
  · obtain ⟨key, hread⟩ := runCommand_readable hc.represents hrun
    obtain ⟨store', hok, m', hs'⟩ := runCommand_ok hc.represents e.odds hread
    rw [memset_eq_padded hc.length, hok] at hrun
    obtain ⟨hstore, hwbuf⟩ := Prod.mk.inj (Except.ok.inj hrun)
    exact ⟨m', by rw [← hstore]; exact hs', by rw [← hwbuf]; exact length_replyBytes m key _⟩

theorem reached_kept (h : c.Reached) : ∃ m, Kept c m := by
  induction h with
  | new hr hw => exact ⟨∅, follows_newStore.represents, hw⟩
  | handle _ hstep ih =>
    obtain ⟨m, hc⟩ := ih
    exact hc.handle hstep

/-- A turn of the loop that runs a command. -/
theorem handle_of_run {found : List ℕ} {mem : List UInt8} {word : CStr} {store : Store}
    {wbuf : List UInt8}
    (htoken : kvstoreSkiplistToken (received c.rbuf ⟨r.data, e.behind⟩) = some (found, mem))
    (hroom : found.length ≤ kvlistRoom) (hpos : 0 < found.length)
    (hword : follow mem (found ++ c.kvlist.drop found.length) 0 = .ok word)
    (hrun : runCommand e.odds c.store (follow mem (found ++ c.kvlist.drop found.length))
      (memset c.wbuf bufSize) (findCommand word) = .ok (store, wbuf)) :
    c.handle r e = .ok ⟨store, mem.take bufSize, found ++ c.kvlist.drop found.length, wbuf⟩ := by
  unfold Conn.handle
  rw [htoken]
  dsimp only
  rw [if_neg (Nat.not_lt.mpr hroom), kvstoreParserProtocol, if_neg (by omega), hword, ok_bind]
  dsimp only
  rw [hrun]
  rfl

/-! ## The words of a request -/

/-- A slot that the request has filled. -/
theorem follow_word {text rest : List UInt8} {found : List ℕ} {mem : List UInt8}
    (hcut : Cut space text [] rest (found, mem)) (old : List ℕ) {i : ℕ}
    (h : i < (words space text).length) :
    follow mem (found ++ old) i = .ok ((words space text).getD i []) := by
  rw [← hcut.words, List.length_map] at h
  obtain ⟨s', hlen, hmem⟩ := hcut.mem
  have hinside := hcut.inside found[i] (List.getElem_mem h)
  have hstring : 0 ∈ mem.drop found[i] := by
    dsimp only at hmem hinside
    rw [hmem, List.nil_append, List.drop_append_of_le_length (by simp at hinside; omega)]
    exact List.mem_append_right _ (List.mem_cons_self ..)
  unfold follow
  rw [List.getElem?_append_left h, List.getElem?_eq_getElem h]
  dsimp only
  rw [if_pos hstring, ← hcut.words, List.getD_eq_getElem?_getD, List.getElem?_map,
    List.getElem?_eq_getElem h]
  rfl

theorem follow_lt {mem : List UInt8} {kvlist : List ℕ} {i : ℕ} {t : CStr}
    (h : follow mem kvlist i = .ok t) : i < kvlist.length := by
  by_contra hnot
  unfold follow at h
  rw [List.getElem?_eq_none (Nat.le_of_not_lt hnot)] at h
  cases h

/-- A message with a NUL is cut into its own words. -/
theorem token_of_ended (h : 0 ∈ r.data) (rbuf behind : List UInt8) :
    ∃ result rest, kvstoreSkiplistToken (received rbuf ⟨r.data, behind⟩) = some result ∧
      received rbuf ⟨r.data, behind⟩ = cString r.data ++ 0 :: rest ∧
      Cut space (cString r.data) [] rest result := by
  obtain ⟨rest, hdata⟩ := eq_cString_append h
  have hreceived : received rbuf ⟨r.data, behind⟩
      = cString r.data ++ 0 :: (rest ++ unreceived rbuf ⟨r.data, behind⟩) := by
    rw [received_eq r.pos, ← List.cons_append, ← List.append_assoc, ← hdata]
  obtain ⟨result, htoken, hcut⟩ := kvstoreSkiplistToken_terminated (zero_notMem_cString r.data)
    (rest ++ unreceived rbuf ⟨r.data, behind⟩)
  exact ⟨result, _, by rw [hreceived]; exact htoken, hreceived, hcut⟩

end Handle

end CoKV.KVserver
