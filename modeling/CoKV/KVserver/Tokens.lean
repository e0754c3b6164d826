import CoKV.Lib.Strtok
import CoKV.KVserver.Protocol

/-!
# From `recv` to tokens

The part of the loop in `KVS::handleClient` that reads: `rbuf` is cleared by `memset`, filled by
`recv` and cut up by `kvstore_skiplist_token`. `rbuf` is not initialised, stays what it is from one
request to the next, and `strtok` writes into it. The memory is a list of bytes from the start of
`rbuf` to the end of what may be read; how many pointers `kvlist` has room for does not matter here.
-/

namespace CoKV.KVserver

/-- `" "` -/
def space : CStr := str [' ']

/-- `kvstore_skiplist_token`: the positions it stores in `kvlist`, and the memory; each call of
`strtok` but the last one moves on, so the memory's length is enough fuel. -/
def kvstoreSkiplistToken (mem : List UInt8) : Option (List ℕ × List UInt8) :=
  strtokLoop space (mem.length + 1) mem 0

/-- A `recv` that returns `data.length`: what it writes, and what is in the memory behind `rbuf`. -/
structure Recv where
  data : List UInt8
  behind : List UInt8

/-- `recv` fills 1024 bytes at most, and nobody sends a NUL. -/
structure Recv.WellFormed (r : Recv) : Prop where
  pos : 0 < r.data.length
  le : r.data.length ≤ bufSize
  nul : 0 ∉ r.data

/-- `sizeof(*rbuf)` -/
def sizeofRbuf : ℕ := 1

/-- The memory behind `memset` and `recv`. -/
def received (rbuf : List UInt8) (r : Recv) : List UInt8 :=
  let rbuf := memset rbuf sizeofRbuf
  (r.data ++ rbuf.drop r.data.length) ++ r.behind

/-- One request: the strings `kvlist` points to, and `rbuf`. -/
def readRequest (rbuf : List UInt8) (r : Recv) : Option (List CStr × List UInt8) :=
  (kvstoreSkiplistToken (received rbuf r)).map fun (kvlist, mem) =>
    (kvlist.map (cStringAt mem), mem.take bufSize)

/-- The requests of one connection, until one of them reads behind the memory. -/
def readRequests : List UInt8 → List Recv → List (Option (List CStr))
  | _, [] => []
  | rbuf, r :: rs =>
    match readRequest rbuf r with
    | none => [none]
    | some (tokens, rbuf) => some tokens :: readRequests rbuf rs

/-! ## What a request is cut into -/

section Requests

variable {rbuf : List UInt8} {r : Recv}

/-- The memory behind the received bytes. -/
def unreceived (rbuf : List UInt8) (r : Recv) : List UInt8 := rbuf.drop r.data.length ++ r.behind

/-- A byte is received, so what `memset` does is lost. -/
theorem received_eq (hpos : 0 < r.data.length) : received rbuf r = r.data ++ unreceived rbuf r := by
  obtain ⟨n, hn⟩ := Nat.exists_eq_succ_of_ne_zero (Nat.ne_of_gt hpos)
  unfold received memset unreceived
  rw [hn]
  simp [sizeofRbuf, List.append_assoc]

theorem zero_notMem_space : 0 ∉ space := by decide

/-- What stands before the first NUL is cut up. -/
theorem kvstoreSkiplistToken_terminated {text : CStr} (h : 0 ∉ text) (rest : List UInt8) :
    ∃ result, kvstoreSkiplistToken (text ++ 0 :: rest) = some result ∧
      Cut space text [] rest result :=
  strtokLoop_words zero_notMem_space h [] rest _
    (by rw [List.length_append, List.length_cons]; omega)

theorem kvstoreSkiplistToken_unterminated {mem : List UInt8} (h : 0 ∉ mem) :
    kvstoreSkiplistToken mem = none :=
  strtokLoop_unterminated zero_notMem_space h [] (mem.length + 1)

/-- The bytes up to the first NUL are cut up. -/
theorem readRequest_terminated (hr : r.WellFormed) {s rest : List UInt8} (hs : 0 ∉ s)
    (h : unreceived rbuf r = s ++ 0 :: rest) :
    ∃ rbuf', readRequest rbuf r = some (words space (r.data ++ s), rbuf') := by
  have hnot : 0 ∉ r.data ++ s := by
    rw [List.mem_append, not_or]
    exact ⟨hr.nul, hs⟩
  obtain ⟨⟨kvlist, mem⟩, htoken, hcut⟩ := kvstoreSkiplistToken_terminated hnot rest
  refine ⟨mem.take bufSize, ?_⟩
  unfold readRequest
  rw [received_eq hr.pos, h, ← List.append_assoc, htoken, ← hcut.words]
  rfl

theorem readRequest_unterminated (hr : r.WellFormed) (h : 0 ∉ unreceived rbuf r) :
    readRequest rbuf r = none := by
  have hnot : 0 ∉ r.data ++ unreceived rbuf r := by
    rw [List.mem_append, not_or]
    exact ⟨hr.nul, h⟩
  unfold readRequest
  rw [received_eq hr.pos, kvstoreSkiplistToken_unterminated hnot]
  rfl

/-- Behind the received bytes there is a NUL, and nothing but spaces before it. -/
def Ended (rbuf : List UInt8) (r : Recv) : Prop :=
  ∃ gap rest, unreceived rbuf r = gap ++ 0 :: rest ∧ ∀ b ∈ gap, b ∈ space

/-- The tokens are the words that have been received. -/
theorem readRequest_words_iff (hr : r.WellFormed) :
    (∃ rbuf', readRequest rbuf r = some (words space r.data, rbuf')) ↔ Ended rbuf r := by
  constructor
  · rintro ⟨rbuf', heq⟩
    by_cases hzero : 0 ∈ unreceived rbuf r
    · -- the memory up to the first NUL has been cut up
      obtain ⟨s, rest, h, hs⟩ := List.eq_append_cons_of_mem hzero
      obtain ⟨rbuf'', hread⟩ := readRequest_terminated hr hs h
      rw [hread] at heq
      have hwords : words space (r.data ++ s) = words space r.data :=
        congrArg Prod.fst (Option.some.inj heq)
      exact ⟨s, rest, h, words_append_iff.mp hwords⟩
    · rw [readRequest_unterminated hr hzero] at heq
      cases heq
  · rintro ⟨gap, rest, h, hgap⟩
    have hgap0 : 0 ∉ gap := fun hzero => zero_notMem_space (hgap 0 hzero)
    obtain ⟨rbuf', hread⟩ := readRequest_terminated hr hgap0 h
    rw [words_append_gap hgap] at hread
    exact ⟨rbuf', hread⟩

end Requests

/-- Each request in turn finds the memory behind it ended. -/
def AllEnded : List UInt8 → List Recv → Prop
  | _, [] => True
  | rbuf, r :: rs =>
    Ended rbuf r ∧ ∀ tokens rbuf', readRequest rbuf r = some (tokens, rbuf') → AllEnded rbuf' rs

/-- **The tokens of a connection**: each request is cut into the words that have been received
with it, exactly if each finds behind them a NUL, with nothing but spaces before it. -/
theorem tokens_received_iff (rbuf : List UInt8) (rs : List Recv) (h : ∀ r ∈ rs, r.WellFormed) :
    readRequests rbuf rs = rs.map (fun r => some (words space r.data)) ↔ AllEnded rbuf rs := by
  induction rs generalizing rbuf with
  | nil => exact ⟨fun _ => trivial, fun _ => rfl⟩
  | cons r rs ih =>
    obtain ⟨hr, hrs⟩ := List.forall_mem_cons.mp h
    unfold readRequests AllEnded
    rw [List.map_cons]
    cases hread : readRequest rbuf r with
    | none =>
      constructor
      · intro heq
        cases List.head_eq_of_cons_eq heq
      · rintro ⟨hended, -⟩
        obtain ⟨rbuf', hwords⟩ := (readRequest_words_iff hr).mpr hended
        rw [hread] at hwords
        cases hwords
    | some result =>
      obtain ⟨tokens, rbuf'⟩ := result
      dsimp only
      rw [List.cons.injEq, ih rbuf' hrs, ← readRequest_words_iff hr, hread]
      constructor
      · rintro ⟨htokens, hended⟩
        refine ⟨⟨rbuf', by rw [Option.some.inj htokens]⟩, ?_⟩
        rintro tokens' rbuf'' ⟨⟩
        exact hended
      · rintro ⟨⟨rbuf'', heq⟩, hended⟩
        cases heq
        exact ⟨rfl, hended _ _ rfl⟩

/-- Two requests in a buffer that was zero; the second is longer, and finds the NUL behind the first. -/
theorem tokens_received_iff_witness :
    readRequests (List.replicate bufSize 0) [⟨str ['S', 'K', 'G', 'E', 'T', ' ', 'c'], []⟩,
        ⟨str ['S', 'K', 'S', 'E', 'T', ' ', 'a', ' ', 'b'], []⟩]
      = [some [str ['S', 'K', 'G', 'E', 'T'], str ['c']],
        some [str ['S', 'K', 'S', 'E', 'T'], str ['a'], str ['b']]] := by
  refine (tokens_received_iff _ _ fun r hr => ?_).mpr
    ⟨⟨[], _, rfl, nofun⟩, fun tokens rbuf hread => ⟨?_, fun _ _ _ => trivial⟩⟩
  · rcases List.mem_pair.mp hr with rfl | rfl <;> exact ⟨by decide, by decide, by decide⟩
  · have hnul : (readRequest (List.replicate bufSize 0) ⟨str ['S', 'K', 'G', 'E', 'T', ' ', 'c'], []⟩).map
        (fun result => (result.2.drop 9).head?) = some (some 0) := by decide +kernel
    rw [hread] at hnul
    obtain ⟨rest, hrest⟩ := List.head?_eq_some_iff.mp (Option.some.inj hnul)
    exact ⟨[], rest, (List.append_nil _).trans hrest, nofun⟩

/-- A longer request is followed by a shorter one. -/
def shorterRequests : List Recv :=
  [⟨str ['S', 'K', 'S', 'E', 'T', ' ', 'a', 'a', ' ', 'b'], []⟩,
    ⟨str ['S', 'K', 'G', 'E', 'T', ' ', 'c'], []⟩]

theorem shorter_tokens : readRequests (List.replicate bufSize 0) shorterRequests
    = [some [str ['S', 'K', 'S', 'E', 'T'], str ['a', 'a'], str ['b']],
      some [str ['S', 'K', 'G', 'E', 'T'], str ['c', 'a']]] := by
  decide +kernel

/-- **A longer request before**: the key `c` is continued by what the request before has left. -/
theorem shorter_not_received : ¬ ∀ rbuf rs, rbuf.length = bufSize → (∀ r ∈ rs, r.WellFormed) →
    readRequests rbuf rs = rs.map fun r => some (words space r.data) := by
  intro h
  have htokens := h (List.replicate bufSize 0) shorterRequests (List.length_replicate ..) (by
    intro r hr
    rcases List.mem_pair.mp hr with rfl | rfl <;> exact ⟨by decide, by decide, by decide⟩)
  rw [shorter_tokens] at htokens
  exact absurd htokens (by decide)

end CoKV.KVserver
