import CoKV.Hook.IoFunc
import CoKV.KVserver.ReplyTheorems
import CoKV.Lib.Run

/-!
# What the client receives

`handleClient` sends each reply with one call of `send` and does not look at what that returns.
`replies_delivered_iff`: what a client receives is its replies, one behind the other, if and only if
the socket never accepts a part of a reply: the retry loop in `io_func` goes on after `EINTR` and
`EAGAIN`, but not after a short count.
-/

namespace CoKV.KVserver

open Hook
open SkipList (KVMap)

/-- A request, and what its reply meets in `io_func`. -/
structure Turn where
  message : Message
  chance : Chance
  events : List Event

/-- What has been written to the socket, and what was to be. -/
structure Session where
  conn : Conn
  stream : List UInt8
  replies : List (List UInt8)

namespace Session

def new (rbuf wbuf : List UInt8) : Session := ⟨Conn.new rbuf wbuf, [], []⟩

/-- What a `send` of `wbuf` has written to the socket. -/
def accepted (wbuf : List UInt8) : Ret → List UInt8
  | .ok n => wbuf.take n
  | .error _ => []

/-- A turn of the loop that comes to its end, on a thread that hooks its calls; the `FdCtx` is the
one that `accept` has created. -/
def step (fd : ℤ) (s : Session) (t : Turn) : Option Session :=
  match s.conn.handle t.message t.chance with
  | .error _ => none
  | .ok c =>
    match ioFunc true (some (FdCtx.new fd (some true))) Hook.send t.events with
    | some (r, []) => some ⟨c, s.stream ++ accepted c.wbuf r, s.replies ++ [c.wbuf]⟩
    | _ => none

end Session

/-- What the socket may do to a `send` of a whole `wbuf`: accept some of it, or fail with `EINTR` or
`EAGAIN`; and `addEvent` does not refuse. -/
def Behaves : Event → Prop
  | .returned (.ok n) => 0 < n ∧ n ≤ bufSize
  | .returned (.error errno) => errno = .eintr ∨ errno = .eagain
  | .refused _ => False
  | .resumed _ => True

/-- One complete reply for each request, in order, and nothing else. -/
structure Delivered (s : Session) (turns : List Turn) : Prop where
  count : s.replies.length = turns.length
  complete : ∀ reply ∈ s.replies, reply.length = bufSize
  stream : s.stream = s.replies.flatten

/-- The socket takes a reply as a whole, if it takes any of it. -/
def Whole (turns : List Turn) : Prop :=
  ∀ t ∈ turns, ∀ n, Event.returned (.ok n) ∈ t.events → n = bufSize

/-! ## One turn -/

/-- `io_func` returns the only count that there is. -/
theorem ioLoop_accepted {timeout : Int32} {events : List Event} {r : Ret} (hto : timeout = -1)
    (hb : ∀ event ∈ events, Behaves event) (h : ioLoop timeout events = some (r, [])) :
    ∃ n, r = .ok n ∧ n ≤ bufSize ∧ ∀ n', Event.returned (.ok n') ∈ events ↔ n' = n := by
  fun_induction ioLoop timeout events with
  | case1 n events =>
    obtain ⟨rfl, rfl⟩ : r = .ok n ∧ events = [] := by simpa [eq_comm] using h
    refine ⟨n, rfl, (hb _ (List.mem_singleton_self _)).2, fun n' => ?_⟩
    simp
  | case2 events ih =>
    obtain ⟨n, hr, hn, hmem⟩ := ih (fun event hevent => hb event (List.mem_cons_of_mem _ hevent)) h
    exact ⟨n, hr, hn, fun n' => by simpa using hmem n'⟩
  | case3 errno events => exact absurd (hb (.refused errno) (by simp)) (by simp [Behaves])
  | case4 events htimeout => cases h
  | case5 events htimeout => exact absurd hto htimeout
  | case6 cancel events hcancel ih =>
    obtain ⟨n, hr, hn, hmem⟩ := ih (fun event hevent => hb event (by simp [hevent])) h
    exact ⟨n, hr, hn, fun n' => by simpa using hmem n'⟩
  | case7 events hrefused hresumed => cases h
  | case8 errno events heintr hrefused hresumed heagain =>
    rcases hb (.returned (.error errno)) (List.mem_cons_self ..) with rfl | rfl
    · exact absurd rfl heintr
    · exact absurd rfl heagain
  | case9 => cases h

/-- A turn sends a reply of 1024 bytes, and the client receives as many of them as the socket has
accepted. -/
theorem step_accepted {fd : ℤ} {s s' : Session} {t : Turn} {m : KVMap CStr CStr}
    (hc : Kept s.conn m) (hb : ∀ event ∈ t.events, Behaves event) (h : s.step fd t = some s') :
    ∃ reply n, s'.replies = s.replies ++ [reply] ∧ s'.stream = s.stream ++ reply.take n ∧
      reply.length = bufSize ∧ n ≤ bufSize ∧ (∀ n', Event.returned (.ok n') ∈ t.events ↔ n' = n) ∧
      ∃ m', Kept s'.conn m' := by
  unfold Session.step at h
  cases hhandle : s.conn.handle t.message t.chance with
  | error fault =>
    rw [hhandle] at h
    cases h
  | ok c =>
    rw [hhandle] at h
    dsimp only at h
    obtain ⟨m', hc'⟩ := hc.handle hhandle
    cases hio : ioFunc true (some (FdCtx.new fd (some true))) Hook.send t.events with
    | none =>
      rw [hio] at h
      cases h
    | some result =>
      obtain ⟨r, rest⟩ := result
      rw [hio] at h
      cases rest with
      | cons event rest => cases h
      | nil =>
        rw [ioFunc_new] at hio
        obtain ⟨n, rfl, hn, hmem⟩ := ioLoop_accepted rfl hb hio
        cases h
        exact ⟨c.wbuf, n, rfl, rfl, hc'.length, hn, hmem, m', hc'⟩

/-- A turn that is answered and sent. -/
theorem step_of_handle {fd : ℤ} {s : Session} {t : Turn} {c : Conn} {r : Ret}
    (hhandle : s.conn.handle t.message t.chance = .ok c) (hio : ioLoop (-1) t.events = some (r, [])) :
    s.step fd t = some ⟨c, s.stream ++ Session.accepted c.wbuf r, s.replies ++ [c.wbuf]⟩ := by
  unfold Session.step
  rw [hhandle]
  dsimp only
  rw [ioFunc_new, hio]

/-! ## All turns -/

/-- What the turns add to the stream is not longer than their replies, and the same if all of it has
been accepted. -/
theorem run_accepted {fd : ℤ} {turns : List Turn} {s s' : Session} {m : KVMap CStr CStr}
    (hc : Kept s.conn m) (hb : ∀ t ∈ turns, ∀ event ∈ t.events, Behaves event)
    (h : runLabels (Session.step fd) s turns = some s') :
    ∃ replies stream, s'.replies = s.replies ++ replies ∧ s'.stream = s.stream ++ stream ∧
      replies.length = turns.length ∧ (∀ reply ∈ replies, reply.length = bufSize) ∧
      stream.length ≤ replies.flatten.length ∧ (stream = replies.flatten ↔ Whole turns) := by
  induction turns generalizing s m with
  | nil =>
    cases h
    exact ⟨[], [], by simp, by simp, rfl, by simp, le_rfl, by simp [Whole]⟩
  | cons t turns ih =>
    obtain ⟨ht, hturns⟩ := List.forall_mem_cons.mp hb
    obtain ⟨s₁, hstep, hrun⟩ := Option.bind_eq_some_iff.mp h
    obtain ⟨reply, n, hreplies₁, hstream₁, hlen, hn, hmem, m₁, hc₁⟩ := step_accepted hc ht hstep
    obtain ⟨replies, stream, hreplies, hstream, hcount, hcomplete, hle, hiff⟩ := ih hc₁ hturns hrun
    have htake : (reply.take n).length = n := List.length_take_of_le (by omega)
    refine ⟨reply :: replies, reply.take n ++ stream, ?_, ?_, ?_, ?_, ?_, ?_⟩
    · rw [hreplies, hreplies₁, List.append_assoc, List.singleton_append]
    · rw [hstream, hstream₁, List.append_assoc]
    · rw [List.length_cons, List.length_cons, hcount]
    · exact List.forall_mem_cons.mpr ⟨hlen, hcomplete⟩
    · rw [List.length_append, List.flatten_cons, List.length_append]
      omega
    · constructor
      · -- the lengths leave no room for a part of a reply
        intro heq
        have hlength := congrArg List.length heq
        rw [List.length_append, List.flatten_cons, List.length_append, htake] at hlength
        have hwhole : n = bufSize := by omega
        rw [List.flatten_cons, List.take_of_length_le (by omega), List.append_cancel_left_eq] at heq
        refine List.forall_mem_cons.mpr ⟨fun n' hn' => ?_, hiff.mp heq⟩
        rw [(hmem n').mp hn', hwhole]
      · intro hwhole
        obtain ⟨hfirst, hrest⟩ := List.forall_mem_cons.mp hwhole
        have hall : n = bufSize := hfirst n ((hmem n).mpr rfl)
        rw [List.flatten_cons, List.take_of_length_le (by omega), hiff.mpr hrest]

/-- **The replies of a connection**: for every sequence of requests and whatever the socket does,
each reply reaches the client whole and in order if and only if the socket never accepts a part. -/
theorem replies_delivered_iff {rbuf wbuf : List UInt8} (hr : rbuf.length = bufSize)
    (hw : wbuf.length = bufSize) {fd : ℤ} {turns : List Turn} {s : Session}
    (hb : ∀ t ∈ turns, ∀ event ∈ t.events, Behaves event)
    (h : runLabels (Session.step fd) (Session.new rbuf wbuf) turns = some s) :
    Delivered s turns ↔ Whole turns := by
  obtain ⟨m, hc⟩ := reached_kept (Conn.Reached.new hr hw)
  obtain ⟨replies, stream, hreplies, hstream, hcount, hcomplete, -, hiff⟩ := run_accepted hc hb h
  have hreplies : s.replies = replies := hreplies
  have hstream : s.stream = stream := hstream
  rw [← hiff, ← hreplies, ← hstream]
  rw [← hreplies] at hcount hcomplete
  exact ⟨fun hdelivered => hdelivered.stream, fun heq => ⟨hcount, hcomplete, heq⟩⟩

/-- `SKCOUNT` -/
def countMessage : Message :=
  ⟨str ['S', 'K', 'C', 'O', 'U', 'N', 'T', '\x00'], by decide, by decide⟩

/-- Its reply waits once, and then `n` bytes are accepted. -/
def countTurn (n : ℕ) : Turn where
  message := countMessage
  chance := ⟨[], 0⟩
  events := [.returned (.error .eagain), .resumed false, .returned (.ok n)]

/-- The turn comes to its end. -/
theorem countTurn_run (n : ℕ) : ∃ s, runLabels (Session.step 4)
    (Session.new (padded bufSize []) (padded bufSize [])) [countTurn n] = some s := by
  have hbuf : (padded bufSize []).length = bufSize := length_padded (Nat.zero_le _)
  obtain ⟨m, hc⟩ := reached_kept (Conn.Reached.new hbuf hbuf)
  have hcomplete : Complete countMessage :=
    ⟨by decide, by decide, str ['S', 'K', 'C', 'O', 'U', 'N', 'T'], [], by decide, by decide⟩
  obtain ⟨c', hhandle, -⟩ := hcomplete.handle hc (countTurn n).chance
  have hstep : Session.step 4 (Session.new (padded bufSize []) (padded bufSize [])) (countTurn n)
      = some _ := step_of_handle hhandle rfl
  exact ⟨_, by rw [runLabels, hstep]; rfl⟩

theorem replies_delivered_iff_witness : ∃ s, runLabels (Session.step 4)
    (Session.new (padded bufSize []) (padded bufSize [])) [countTurn bufSize] = some s ∧
      (Delivered s [countTurn bufSize] ↔ Whole [countTurn bufSize]) := by
  have hbuf : (padded bufSize []).length = bufSize := length_padded (Nat.zero_le _)
  obtain ⟨s, hrun⟩ := countTurn_run bufSize
  refine ⟨s, hrun, replies_delivered_iff hbuf hbuf ?_ hrun⟩
  simp [countTurn, Behaves, bufSize]

/-- **A short count**: of the reply to `SKCOUNT` 512 bytes are sent. -/
theorem short_count : ¬ ∀ (rbuf wbuf : List UInt8) (fd : ℤ) (turns : List Turn) (s : Session),
    rbuf.length = bufSize → wbuf.length = bufSize →
    (∀ t ∈ turns, ∀ event ∈ t.events, Behaves event) →
    runLabels (Session.step fd) (Session.new rbuf wbuf) turns = some s → Delivered s turns := by
  intro h
  have hbuf : (padded bufSize []).length = bufSize := length_padded (Nat.zero_le _)
  obtain ⟨s, hrun⟩ := countTurn_run 512
  have hb : ∀ t ∈ [countTurn 512], ∀ event ∈ t.events, Behaves event := by
    simp [countTurn, Behaves, bufSize]
  have hdelivered := h _ _ _ _ s hbuf hbuf hb hrun
  obtain ⟨m, hc⟩ := reached_kept (Conn.Reached.new hbuf hbuf)
  obtain ⟨replies, stream, hreplies, hstream, -, -, -, hiff⟩ := run_accepted hc hb hrun
  have hreplies : s.replies = replies := hreplies
  have hstream : s.stream = stream := hstream
  rw [← hreplies, ← hstream] at hiff
  have hwhole := hiff.mp hdelivered.stream (countTurn 512) (List.mem_singleton_self _) 512
    (by simp [countTurn])
  exact absurd hwhole (by decide)

end CoKV.KVserver
