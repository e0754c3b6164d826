import CoKV.KVserver.TurnTheorems

/-!
# What a reply depends on

`sameReply_iff`: the reply to a request is the same after any two histories that leave the same map
in the store if and only if the request brings its own NUL, and before it at least one word, as many
as its command needs and no more than `kvlist` has room for. Without a NUL the words depend on what
`rbuf` held before; without a word `wbuf` is sent as it is, with the reply to an earlier request or
with what it was allocated with; and where a word is missing, what an earlier request has left in
`kvlist` is followed.
-/

namespace CoKV.KVserver

open SkipList (KVMap Represents)

/-! ## A complete request -/

/-- The words that a message brings, up to its first NUL. -/
def Message.words (r : Message) : List CStr := CoKV.words space (cString r.data)

/-- What a request needs to be answered from what it brings. -/
structure Complete (r : Message) : Prop where
  ended : 0 ∈ r.data
  room : r.words.length ≤ kvlistRoom
  enough : ∃ word args, r.words = word :: args ∧
    Request.needed (findCommand word) ≤ r.words.length

section Complete

variable {c : Conn} {r : Message} {m : KVMap CStr CStr}

/-- A complete request is answered from what it brings and from the map. -/
theorem Complete.handle (h : Complete r) (hc : Kept c m) (e : Chance) :
    ∃ c', c.handle r e = .ok c' ∧
      c'.wbuf = replyBytes m (r.words.getD 1 []) (findCommand (r.words.getD 0 [])) := by
  obtain ⟨⟨found, mem⟩, rest, htoken, -, hcut⟩ := token_of_ended h.ended c.rbuf e.behind
  have hlen : found.length = r.words.length := by
    rw [Message.words, ← hcut.words, List.length_map]
  have hslot {i : ℕ} (hi : i < r.words.length) :
      follow mem (found ++ c.kvlist.drop found.length) i = .ok (r.words.getD i []) :=
    follow_word hcut _ hi
  obtain ⟨word, args, hwords, henough⟩ := h.enough
  have hword : r.words.getD 0 [] = word := by rw [hwords]; rfl
  have hpos : 0 < r.words.length := by rw [hwords]; exact Nat.succ_pos _
  have hread : Readable m (follow mem (found ++ c.kvlist.drop found.length))
      (r.words.getD 1 []) (findCommand word) := by
    cases hcmd : findCommand word with
    | skset | skmod =>
      have hthree : 3 ≤ r.words.length := by rw [hcmd] at henough; exact henough
      exact ⟨hslot (by omega), fun _ => ⟨_, hslot hthree⟩⟩
    | skget | skdel =>
      have htwo : 2 ≤ r.words.length := by rw [hcmd] at henough; exact henough
      exact hslot htwo
    | skcount | size => trivial
  obtain ⟨store', hrun, -⟩ := runCommand_ok hc.represents e.odds hread
  rw [← memset_eq_padded hc.length] at hrun
  have hfirst := hslot hpos
  rw [hword] at hfirst ⊢
  exact ⟨_, handle_of_run htoken (by rw [hlen]; exact h.room) (by rw [hlen]; exact hpos) hfirst hrun,
    rfl⟩

end Complete

/-! ## A slot that an earlier request has left

Two words are enough for `SKMOD` while its key is not there. When it is there, `insert_element` is
given the third slot, which may point behind `rbuf`, where `strtok` has once found a value.
-/

/-- `SKSET`, a key, and spaces up to the end of `rbuf`. -/
def spacedSet (key : CStr) : List UInt8 :=
  str ['S', 'K', 'S', 'E', 'T'] ++ 32 :: (key ++ 32 :: List.replicate (1017 - key.length) 32)

theorem length_spacedSet {key : CStr} (hlen : key.length ≤ 1017) :
    (spacedSet key).length = bufSize := by
  unfold spacedSet bufSize
  simp only [List.length_append, List.length_cons, List.length_replicate, str, List.length_map,
    List.length_nil]
  omega

/-- Its value is found behind `rbuf`. -/
theorem spacedSet_token {key : CStr} (hne : key ≠ []) (hkey : ∀ b ∈ key, b ∉ space ∧ b ≠ 0)
    (hlen : key.length ≤ 1017) :
    ∃ mem, kvstoreSkiplistToken (spacedSet key ++ [118, 0]) = some ([0, 6, bufSize], mem) := by
  have h32 : (32 : UInt8) ∈ space := by decide
  have hset : ∀ b ∈ str ['S', 'K', 'S', 'E', 'T'], b ∉ space ∧ b ≠ 0 := by simp [str, space]
  have hvalue : ∀ b ∈ [(118 : UInt8)], b ∉ space ∧ b ≠ 0 := by simp [str, space]
  have hnil : ∀ b ∈ ([] : List UInt8), b ∈ space := by simp
  have hgap : ∀ b ∈ List.replicate (1017 - key.length) (32 : UInt8), b ∈ space := by
    intro b hb
    rw [List.eq_of_mem_replicate hb]
    exact h32
  have hmem : spacedSet key ++ [118, 0] = [] ++ ([] ++ (str ['S', 'K', 'S', 'E', 'T'] ++ 32 ::
      ([] ++ (key ++ 32 :: (List.replicate (1017 - key.length) 32 ++ ([118] ++ [0])))))) := by
    simp [spacedSet]
  obtain ⟨fuel, hfuel⟩ : ∃ fuel, (spacedSet key ++ [118, 0]).length + 1 = fuel + 1 + 1 + 1 + 1 :=
    ⟨bufSize - 1, by rw [List.length_append, length_spacedSet hlen]; rfl⟩
  -- a turn for each word, and one that finds no more
  have hfirst := strtokLoop_delim zero_notMem_space hnil (by decide) hset h32 (fuel + 1 + 1 + 1) []
    ([] ++ (key ++ 32 :: (List.replicate (1017 - key.length) 32 ++ ([118] ++ [0]))))
  rw [List.length_nil] at hfirst
  have hlast (pre : List UInt8) := strtokLoop_null zero_notMem_space hnil fuel pre []
  simp only [List.nil_append] at hlast
  have hthird : 6 + (key.length + 1) + (1017 - key.length) = bufSize := by
    unfold bufSize
    omega
  unfold kvstoreSkiplistToken
  rw [hfuel, hmem, hfirst, strtokLoop_delim zero_notMem_space hnil hne hkey h32,
    strtokLoop_last hgap (by decide) hvalue, hlast]
  simp only [Option.map_some, List.length_append, List.length_replicate, List.length_nil,
    List.nil_append, str, List.length_map, List.length_cons, Nat.zero_add, Nat.add_zero, hthird]
  exact ⟨_, rfl⟩

theorem spacedSet_words {key : CStr} (hne : key ≠ []) (hkey : ∀ b ∈ key, b ∉ space ∧ b ≠ 0) :
    0 ∉ spacedSet key ++ [118] ∧
      words space (spacedSet key ++ [118]) = [str ['S', 'K', 'S', 'E', 'T'], key, [118]] := by
  have h32 : (32 : UInt8) ∈ space := by decide
  have hset : words space (str ['S', 'K', 'S', 'E', 'T']) = [str ['S', 'K', 'S', 'E', 'T']] :=
    words_word (by decide) (by simp [str, space])
  have hvalue : words space [118] = [[118]] := words_word (by decide) (by simp [str, space])
  have hgap : ∀ b ∈ List.replicate (1017 - key.length) (32 : UInt8), b ∈ space := by
    intro b hb
    rw [List.eq_of_mem_replicate hb]
    exact h32
  constructor
  · intro hmem
    simp [spacedSet, str] at hmem
    exact (hkey 0 hmem).2 rfl
  · rw [spacedSet, List.append_assoc, List.cons_append, List.append_assoc, List.cons_append,
      words_append_cons h32, words_append_cons h32, words_gap_append hgap, hset, hvalue,
      words_word hne fun b hb => (hkey b hb).1]
    rfl

/-- After it the key is there, and the third slot points behind `rbuf`. -/
theorem exists_stale {key : CStr} (hne : key ≠ []) (hkey : ∀ b ∈ key, b ∉ space ∧ b ≠ 0)
    (hlen : key.length ≤ 1017) :
    ∃ c m, Conn.Reached c ∧ Represents 6 c.store m ∧ key ∈ m ∧ c.rbuf.length ≤ bufSize ∧
      c.kvlist[2]? = some bufSize := by
  have hlength := length_spacedSet hlen
  have hbuf : (padded bufSize []).length = bufSize := length_padded (Nat.zero_le _)
  have hreceived (r : Message) (hr : r.data = spacedSet key) :
      received (padded bufSize []) ⟨r.data, [118, 0]⟩ = spacedSet key ++ [118, 0] := by
    rw [received_eq r.pos, unreceived]
    dsimp only
    rw [hr, List.drop_eq_nil_of_le (by rw [hbuf, hlength]), List.nil_append]
  obtain ⟨mem, htoken⟩ := spacedSet_token hne hkey hlen
  obtain ⟨hnot, hwords⟩ := spacedSet_words hne hkey
  -- what the slots hold
  obtain ⟨result, htoken', hcut⟩ := kvstoreSkiplistToken_terminated hnot []
  rw [List.append_assoc, List.singleton_append, htoken] at htoken'
  cases htoken'
  have hslot {i : ℕ} (hi : i < 3) : follow mem ([0, 6, bufSize] ++ []) i
      = .ok ([str ['S', 'K', 'S', 'E', 'T'], key, [118]].getD i []) := by
    rw [← hwords]
    exact follow_word hcut [] (by rw [hwords]; exact hi)
  have hkey₁ : follow mem ([0, 6, bufSize] ++ []) 1 = .ok key := hslot (by decide)
  have hvalue : follow mem ([0, 6, bufSize] ++ []) 2 = .ok [118] := hslot (by decide)
  obtain ⟨store', hrun, hs'⟩ := skset_law 0 follows_newStore.represents hkey₁ fun _ => hvalue
  rw [← memset_eq_padded hbuf] at hrun
  rw [if_neg Finmap.notMem_empty] at hs'
  let r : Message := ⟨spacedSet key, by rw [hlength]; decide, hlength.le⟩
  have hcut' : kvstoreSkiplistToken (received (padded bufSize []) ⟨r.data, [118, 0]⟩)
      = some ([0, 6, bufSize], mem) := by
    rw [hreceived r rfl]
    exact htoken
  have hhandle := handle_of_run (c := Conn.new (padded bufSize []) (padded bufSize []))
    (e := ⟨[118, 0], 0⟩) hcut' (by decide) (by decide) (hslot (by decide)) hrun
  refine ⟨_, _, Conn.Reached.handle (Conn.Reached.new hbuf hbuf) hhandle, hs', ?_, ?_, rfl⟩
  · exact Finmap.mem_insert.mpr (Or.inl rfl)
  · exact List.length_take_le ..

/-! ## Two histories -/

/-- The stores hold the same map, as far as one can ask them. -/
def SameMap (c₁ c₂ : Conn) : Prop :=
  ∀ key, c₁.store.searchElement key = c₂.store.searchElement key ∧
    c₁.store.getElement id [] key = c₂.store.getElement id [] key

/-- After any two histories that leave the same map, the same 1024 bytes are sent. -/
def SameReply (r : Message) : Prop :=
  ∀ c₁ c₂ : Conn, c₁.Reached → c₂.Reached → SameMap c₁ c₂ → ∀ e₁ e₂ : Chance,
    ∃ c₁' c₂', c₁.handle r e₁ = .ok c₁' ∧ c₂.handle r e₂ = .ok c₂' ∧
      c₁'.wbuf = c₂'.wbuf ∧ c₁'.wbuf.length = bufSize

theorem SameMap.eq {c₁ c₂ : Conn} {m₁ m₂ : KVMap CStr CStr} (h : SameMap c₁ c₂)
    (h₁ : Kept c₁ m₁) (h₂ : Kept c₂ m₂) : m₁ = m₂ := by
  apply Finmap.ext_lookup
  intro key
  obtain ⟨hsearch, hget⟩ := h key
  rw [SkipList.searchElement_law h₁.represents, SkipList.searchElement_law h₂.represents] at hsearch
  rw [SkipList.getElement_law h₁.represents, SkipList.getElement_law h₂.represents] at hget
  have hmem : key ∈ m₁ ↔ key ∈ m₂ := by simpa using hsearch
  have hvalue : (m₁.lookup key).getD [] = (m₂.lookup key).getD [] := by simpa using hget
  by_cases hm : key ∈ m₁
  · obtain ⟨v₁, hv₁⟩ := Finmap.mem_iff.mp hm
    obtain ⟨v₂, hv₂⟩ := Finmap.mem_iff.mp (hmem.mp hm)
    rw [hv₁, hv₂] at hvalue ⊢
    exact congrArg some hvalue
  · rw [Finmap.lookup_eq_none.mpr hm, Finmap.lookup_eq_none.mpr fun h => hm (hmem.mpr h)]

theorem findCommand_skmod {word : CStr} (h : findCommand word = .skmod) :
    word = str ['S', 'K', 'M', 'O', 'D'] := by
  unfold findCommand at h
  cases hfind : commands.find? (·.1 = word) with
  | none =>
    rw [hfind] at h
    cases h
  | some entry =>
    rw [hfind] at h
    have hword : entry.1 = word := by simpa using List.find?_some hfind
    have hentry : ∀ entry ∈ commands, entry.2 = .skmod → entry.1 = str ['S', 'K', 'M', 'O', 'D'] := by
      decide
    rw [← hword]
    exact hentry entry (List.mem_of_find?_eq_some hfind) h

section Necessary

variable {r : Message}

/-- A connection that has just been accepted. -/
theorem reached_new (rbuf wbuf : UInt8) :
    (Conn.new (List.replicate bufSize rbuf) (List.replicate bufSize wbuf)).Reached :=
  Conn.Reached.new List.length_replicate List.length_replicate

/-- Whatever has been received before, the request is answered. -/
theorem SameReply.handled (h : SameReply r) {c : Conn} (hc : c.Reached) (e : Chance) :
    ∃ c' found mem, Handled c c' r e found mem := by
  obtain ⟨c', -, hhandle, -⟩ := h c c hc hc (fun _ => ⟨rfl, rfl⟩) e e
  obtain ⟨found, mem, hh⟩ := handle_handled hhandle
  exact ⟨c', found, mem, hh⟩

/-- Without a NUL in the message, `strtok` reads behind a memory that has none. -/
theorem SameReply.ended (h : SameReply r) : 0 ∈ r.data := by
  by_contra hnot
  obtain ⟨c', found, mem, hh⟩ := h.handled (reached_new 1 0) ⟨[], 0⟩
  have hmem : 0 ∉ received (List.replicate bufSize 1) ⟨r.data, []⟩ := by
    rw [received_eq r.pos, unreceived, List.append_nil, List.mem_append, not_or]
    refine ⟨hnot, fun hdrop => ?_⟩
    have hone := List.eq_of_mem_replicate (List.mem_of_mem_drop hdrop)
    exact absurd hone (by decide)
  have htoken := hh.token
  rw [Conn.new, kvstoreSkiplistToken_unterminated hmem] at htoken
  cases htoken

/-- The slots it has filled hold its own words. -/
structure Filled (r : Message) (found : List ℕ) (mem : List UInt8) : Prop where
  length : found.length = r.words.length
  slot : ∀ old, ∀ i < r.words.length, follow mem (found ++ old) i = .ok (r.words.getD i [])

theorem SameReply.filled (h : SameReply r) {c c' : Conn} {e : Chance} {found : List ℕ}
    {mem : List UInt8} (hh : Handled c c' r e found mem) :
    Filled r found mem ∧ mem.length = (received c.rbuf ⟨r.data, e.behind⟩).length := by
  obtain ⟨result, rest, htoken, hreceived, hcut⟩ := token_of_ended h.ended c.rbuf e.behind
  rw [hh.token] at htoken
  cases htoken
  refine ⟨⟨?_, fun old i hi => follow_word hcut old hi⟩, ?_⟩
  · rw [Message.words, ← hcut.words, List.length_map]
  · obtain ⟨s', hlen, hmem⟩ := hcut.mem
    dsimp only at hmem
    rw [hreceived, hmem]
    simp [hlen]

theorem SameReply.room (h : SameReply r) : r.words.length ≤ kvlistRoom := by
  obtain ⟨c', found, mem, hh⟩ := h.handled (reached_new 0 0) ⟨[], 0⟩
  rw [← (h.filled hh).1.length]
  exact hh.room

/-- Without a word `wbuf` is sent as it is. -/
theorem SameReply.words_pos (h : SameReply r) : 0 < r.words.length := by
  by_contra hnot
  have hsame {wbuf : UInt8} {c' : Conn}
      (hhandle : (Conn.new (List.replicate bufSize 0) (List.replicate bufSize wbuf)).handle r ⟨[], 0⟩
        = .ok c') : c'.wbuf = List.replicate bufSize wbuf := by
    obtain ⟨found, mem, hh⟩ := handle_handled hhandle
    rcases hh.run with ⟨-, heq⟩ | ⟨hpos, -⟩
    · exact (Prod.mk.inj heq).2
    · rw [(h.filled hh).1.length] at hpos
      exact absurd hpos hnot
  obtain ⟨c₁', c₂', hhandle₁, hhandle₂, hwbuf, -⟩ :=
    h _ _ (reached_new 0 0) (reached_new 0 1) (fun _ => ⟨rfl, rfl⟩) ⟨[], 0⟩ ⟨[], 0⟩
  rw [hsame hhandle₁, hsame hhandle₂, List.replicate_right_inj (by decide)] at hwbuf
  exact absurd hwbuf (by decide)

/-- The slots that its command has followed. -/
theorem SameReply.readable (h : SameReply r) {c : Conn} {m : KVMap CStr CStr} (hc : c.Reached)
    (hs : Represents 6 c.store m) (e : Chance) :
    ∃ c' found mem key, Handled c c' r e found mem ∧ Filled r found mem ∧
      Readable m (follow mem (found ++ c.kvlist.drop found.length)) key
        (findCommand (r.words.getD 0 [])) := by
  obtain ⟨c', found, mem, hh⟩ := h.handled hc e
  have hfilled := (h.filled hh).1
  rcases hh.run with ⟨hzero, -⟩ | ⟨-, word, hword, hrun⟩
  · have hpos := h.words_pos
    rw [← hfilled.length] at hpos
    omega
  · rw [hh.kvlist] at hword hrun
    rw [hfilled.slot _ 0 h.words_pos] at hword
    cases hword
    obtain ⟨key, hread⟩ := runCommand_readable hs hrun
    exact ⟨c', found, mem, key, hh, hfilled, hread⟩

/-- A key and 1017 bytes more do not fit behind `SKMOD`. -/
theorem length_modKey {key : CStr} (r : Message) (hended : 0 ∈ r.data)
    (hwords : r.words = [str ['S', 'K', 'M', 'O', 'D'], key]) : key.length ≤ 1017 := by
  obtain ⟨rest, hdata⟩ := eq_cString_append hended
  have hle := r.le
  rw [hdata, List.length_append, List.length_cons] at hle
  unfold Message.words at hwords
  -- there is a space between the words
  have hspace : ∃ b ∈ cString r.data, ¬(b ∉ space) := by
    by_contra hnone
    push Not at hnone
    have hone := length_words_le_one hnone
    rw [hwords] at hone
    exact absurd hone (by simp)
  have hlt : ((cString r.data).filter (· ∉ space)).length < (cString r.data).length := by
    rw [List.length_filter_lt_length_iff_exists]
    simpa using hspace
  rw [← words_flatten, hwords] at hlt
  simp [str] at hlt
  unfold bufSize at hle
  omega

/-- The value of `SKMOD` is followed behind `rbuf`, if the key is there and the third slot has
once been filled so. -/
theorem SameReply.modValue (h : SameReply r) (hcmd : findCommand (r.words.getD 0 []) = .skmod)
    (htwo : 2 ≤ r.words.length) : 3 ≤ r.words.length := by
  by_contra hthree
  obtain ⟨word, key, hwords⟩ := List.length_eq_two.mp (show r.words.length = 2 by omega)
  rw [hwords] at hcmd
  have hword : word = str ['S', 'K', 'M', 'O', 'D'] := findCommand_skmod hcmd
  rw [hword] at hwords
  obtain ⟨hne, hkey⟩ := of_mem_words (t := key) (show key ∈ r.words by rw [hwords]; simp)
  have hnul : ∀ b ∈ key, b ∉ space ∧ b ≠ 0 := by
    intro b hb
    refine ⟨(hkey b hb).1, ?_⟩
    rintro rfl
    exact zero_notMem_cString r.data (hkey 0 hb).2
  obtain ⟨c, m, hc, hs, hmem, hlen, hstale⟩ :=
    exists_stale hne hnul (length_modKey r h.ended hwords)
  obtain ⟨c', found, mem, key', hh, hfilled, hread⟩ := h.readable hc hs ⟨[], 0⟩
  have hfound : found.length = 2 := by rw [hfilled.length, hwords]; rfl
  rw [hwords] at hread
  obtain ⟨hkey', hvalue⟩ : Readable m (follow mem (found ++ c.kvlist.drop found.length)) key' .skmod :=
    hread
  rw [hfilled.slot _ 1 htwo, hwords] at hkey'
  cases hkey'
  obtain ⟨value, hvalue⟩ := hvalue hmem
  -- the third slot is the one that has been left
  have hslot : (found ++ c.kvlist.drop found.length)[2]? = some bufSize := by
    rw [List.getElem?_append_right (by rw [hfound]), hfound, List.getElem?_drop]
    exact hstale
  have hend : mem.length ≤ bufSize := by
    rw [(h.filled hh).2, received_eq r.pos, unreceived, List.append_nil, List.length_append,
      List.length_drop]
    have hle := r.le
    dsimp only
    omega
  unfold follow at hvalue
  rw [hslot] at hvalue
  dsimp only at hvalue
  rw [List.drop_eq_nil_of_le hend] at hvalue
  cases hvalue

/-- A missing word is read from a slot that has not been written, or that points anywhere. -/
theorem SameReply.enough (h : SameReply r) :
    Request.needed (findCommand (r.words.getD 0 [])) ≤ r.words.length := by
  have hpos := h.words_pos
  obtain ⟨c', found, mem, key, hh, hfilled, hread⟩ :=
    h.readable (reached_new 0 0) follows_newStore.represents ⟨[], 0⟩
  have hslot {i : ℕ} {t : CStr} (hi : follow mem
      (found ++ (Conn.new (List.replicate bufSize 0) (List.replicate bufSize 0)).kvlist.drop
        found.length) i = .ok t) : i < r.words.length := by
    have hlt := follow_lt hi
    rw [Conn.new, List.drop_nil, List.append_nil, hfilled.length] at hlt
    exact hlt
  cases hcmd : findCommand (r.words.getD 0 []) with
  | skset =>
    rw [hcmd] at hread
    obtain ⟨value, hvalue⟩ := hread.2 Finmap.notMem_empty
    exact hslot hvalue
  | skget | skdel =>
    rw [hcmd] at hread
    exact hslot hread
  | skcount | size => exact hpos
  | skmod =>
    rw [hcmd] at hread
    exact h.modValue hcmd (hslot hread.1)

end Necessary

/-- **The same reply**: a request is answered with the same 1024 bytes after any two histories that
leave the same map if and only if it is complete. -/
theorem sameReply_iff (r : Message) : SameReply r ↔ Complete r := by
  constructor
  · intro h
    refine ⟨h.ended, h.room, ?_⟩
    have henough := h.enough
    obtain ⟨word, args, hwords⟩ := List.exists_cons_of_length_pos h.words_pos
    rw [hwords] at henough ⊢
    exact ⟨word, args, rfl, henough⟩
  · intro h c₁ c₂ hc₁ hc₂ hsame e₁ e₂
    obtain ⟨m, hm⟩ := reached_kept hc₁
    obtain ⟨m', hm'⟩ := reached_kept hc₂
    obtain rfl := hsame.eq hm hm'
    obtain ⟨c₁', hhandle₁, hwbuf₁⟩ := h.handle hm e₁
    obtain ⟨c₂', hhandle₂, hwbuf₂⟩ := h.handle hm' e₂
    refine ⟨c₁', c₂', hhandle₁, hhandle₂, hwbuf₁.trans hwbuf₂.symm, ?_⟩
    rw [hwbuf₁]
    exact length_replyBytes m _ _

/-- **Only spaces**: `wbuf` is sent as it is. -/
theorem spaces_leak : ¬ ∀ r : Message, SameReply r := by
  intro h
  have hpos := (h ⟨[32, 32, 0], by decide, by decide⟩).words_pos
  exact absurd hpos (by decide)

end CoKV.KVserver
