import CoKV.KVserver.Tokens
import CoKV.Lib.Run
import Mathlib.Logic.Function.Basic

/-!
# Tokenizing on several threads

`strtok` keeps its saved position in one place for the whole process, and connections are handled
on several threads. `tokens_separate`: each connection gets its own tokens, as long as each
`strtok(NULL, " ")` finds the position that a call of the same connection has saved. Nothing keeps
another connection from starting in between, and then it is the other's request that is cut up.

Each `rbuf` is a memory of its own; a call that would read behind it is not taken.
-/

namespace CoKV.KVserver

variable {C : Type}

/-- Where a connection stands in `kvstore_skiplist_token`, with what `kvlist` has got so far. -/
inductive TokenPc (C : Type)
  | outside
  | received
  | loop (kvlist : List (C × ℕ))
  | done (kvlist : List (C × ℕ))

/-- `kvlist`: a pointer goes into the buffer of some connection. -/
def TokenPc.kvlist : TokenPc C → List (C × ℕ)
  | outside | received => []
  | loop kvlist | done kvlist => kvlist

/-- The connections `C` of a process; `request` is what `recv` has left in `rbuf`. -/
structure Tokenizers (C : Type) where
  rbuf : C → List UInt8
  request : C → List UInt8
  pc : C → TokenPc C
  saved : Option (C × ℕ)

/-- A connection receives a request, or makes its next call of `strtok`. -/
inductive TokenLabel (C : Type)
  | recv (c : C) (rbuf : List UInt8)
  | strtok (c : C)

namespace Tokenizers

def start : Tokenizers C := ⟨fun _ => [], fun _ => [], fun _ => .outside, none⟩

variable [DecidableEq C]

/-- A call of `strtok` by `c` that goes on at `p` in the buffer of `d`. -/
def call (s : Tokenizers C) (c d : C) (p : ℕ) (kvlist : List (C × ℕ)) : Option (Tokenizers C) :=
  (strtok space (s.rbuf d) p).map fun r =>
    { s with
      rbuf := Function.update s.rbuf d r.mem
      saved := some (d, r.saved)
      pc := Function.update s.pc c (match r.token with
        | none => .done kvlist
        | some t => .loop (kvlist ++ [(d, t)])) }

def step (s : Tokenizers C) : TokenLabel C → Option (Tokenizers C)
  | .recv c rbuf =>
    match s.pc c with
    | .outside | .done _ =>
      if rbuf.length = bufSize then
        some { s with
          rbuf := Function.update s.rbuf c rbuf
          request := Function.update s.request c rbuf
          pc := Function.update s.pc c .received }
      else none
    | _ => none
  | .strtok c =>
    match s.pc c, s.saved with
    | .received, _ => s.call c c 0 []
    | .loop kvlist, some (d, p) => s.call c d p kvlist
    | _, _ => none

end Tokenizers

/-- A connection that calls `strtok(NULL, " ")` finds a position of its own. -/
def OwnSaved (s : Tokenizers C) : TokenLabel C → Prop
  | .strtok c => ∀ kvlist q, s.pc c = .loop kvlist → s.saved = some q → q.1 = c
  | _ => True

/-! ## The invariant -/

/-- `ts` are the tokens of `c` so far, and from position `p` on the loop gives the others. -/
def Continues (s : Tokenizers C) (c : C) (ts : List ℕ) (p : ℕ) : Prop :=
  kvstoreSkiplistToken (s.request c)
    = (strtokLoop space ((s.rbuf c).length + 1) (s.rbuf c) p).map fun (us, mem) => (ts ++ us, mem)

/-- What a connection has in its buffer and in `kvlist`. -/
structure Tokenizing (s : Tokenizers C) (c : C) : Prop where
  length : s.pc c ≠ .outside → (s.rbuf c).length = bufSize
  received : s.pc c = .received → s.rbuf c = s.request c
  loop : ∀ kvlist, s.pc c = .loop kvlist → ∃ ts, kvlist = ts.map (c, ·) ∧
    (∀ t ∈ ts, t < bufSize) ∧ ∀ p, s.saved = some (c, p) → Continues s c ts p
  done : ∀ kvlist, s.pc c = .done kvlist → ∃ ts, kvlist = ts.map (c, ·) ∧
    (∀ t ∈ ts, t < bufSize) ∧ kvstoreSkiplistToken (s.request c) = some (ts, s.rbuf c)

theorem Tokenizing.start (c : C) : Tokenizing (Tokenizers.start : Tokenizers C) c where
  length h := absurd rfl h
  received h := by cases h
  loop kvlist h := by cases h
  done kvlist h := by cases h

section Steps

variable {s s' : Tokenizers C} {c : C}

/-- What another connection does to a connection: the saved position is taken from it. -/
theorem Tokenizing.other (hi : Tokenizing s c) (hrbuf : s'.rbuf c = s.rbuf c)
    (hrequest : s'.request c = s.request c) (hpc : s'.pc c = s.pc c)
    (hsaved : ∀ p, s'.saved = some (c, p) → s.saved = some (c, p)) : Tokenizing s' c := by
  refine ⟨?_, ?_, ?_, ?_⟩
  · rw [hrbuf, hpc]
    exact hi.length
  · rw [hrbuf, hrequest, hpc]
    exact hi.received
  · intro kvlist h
    rw [hpc] at h
    obtain ⟨ts, hkvlist, hts, hcont⟩ := hi.loop kvlist h
    refine ⟨ts, hkvlist, hts, fun p hp => ?_⟩
    unfold Continues
    rw [hrbuf, hrequest]
    exact hcont p (hsaved p hp)
  · rw [hrbuf, hrequest, hpc]
    exact hi.done

variable [DecidableEq C]

/-- What a call does to the connection that makes it, on its own buffer. -/
theorem call_self {p : ℕ} {kvlist : List (C × ℕ)} (h : s.call c c p kvlist = some s') :
    ∃ r, strtok space (s.rbuf c) p = some r ∧ s'.rbuf c = r.mem ∧ s'.request c = s.request c ∧
      s'.saved = some (c, r.saved) ∧ s'.pc c = match r.token with
        | none => .done kvlist
        | some t => .loop (kvlist ++ [(c, t)]) := by
  obtain ⟨r, hr, rfl⟩ := Option.map_eq_some_iff.mp h
  exact ⟨r, hr, Function.update_self .., rfl, rfl, Function.update_self ..⟩

theorem call_other {d e : C} {p : ℕ} {kvlist : List (C × ℕ)} (h : s.call d d p kvlist = some s')
    (hne : e ≠ d) : s'.rbuf e = s.rbuf e ∧ s'.request e = s.request e ∧ s'.pc e = s.pc e ∧
      ∀ p, s'.saved ≠ some (e, p) := by
  obtain ⟨r, -, rfl⟩ := Option.map_eq_some_iff.mp h
  refine ⟨Function.update_of_ne hne .., rfl, Function.update_of_ne hne .., ?_⟩
  rintro p ⟨⟩
  exact hne rfl

theorem Tokenizing.call (hlen : (s.rbuf c).length = bufSize) {ts : List ℕ}
    {p : ℕ} (hts : ∀ t ∈ ts, t < bufSize) (hcont : Continues s c ts p)
    (h : s.call c c p (ts.map (c, ·)) = some s') : Tokenizing s' c := by
  obtain ⟨⟨token, saved, mem⟩, hr, hrbuf, hrequest, hsaved, hpc⟩ := call_self h
  obtain ⟨hmem, htoken⟩ := strtok_saved hr
  dsimp only at hrbuf hsaved hpc hmem htoken
  have hlen' : (s'.rbuf c).length = bufSize := by rw [hrbuf, hmem, hlen]
  unfold Continues at hcont
  cases token with
  | none =>
    -- no token: the loop is done
    dsimp only at hpc
    refine ⟨fun _ => hlen', ?_, ?_, ?_⟩
    · rw [hpc]
      intro hreceived
      cases hreceived
    · rw [hpc]
      intro kvlist hloop
      cases hloop
    · rw [hpc, hrbuf, hrequest, hcont, strtokLoop, hr]
      rintro kvlist ⟨⟩
      refine ⟨ts, rfl, hts, ?_⟩
      show some (ts ++ [], mem) = _
      rw [List.append_nil]
  | some t =>
    have ht := htoken t rfl
    dsimp only at hpc
    refine ⟨fun _ => hlen', ?_, ?_, ?_⟩
    · rw [hpc]
      intro hreceived
      cases hreceived
    · rw [hpc, hsaved]
      rintro kvlist ⟨⟩
      refine ⟨ts ++ [t], by rw [List.map_append]; rfl, ?_, ?_⟩
      · intro t' ht'
        rcases List.mem_append.mp ht' with ht' | ht'
        · exact hts t' ht'
        · rw [List.mem_singleton.mp ht', ← hlen]
          exact ht.2.2
      · -- the loop from the position that has just been saved
        rintro p' ⟨⟩
        unfold Continues
        rw [hrbuf, hrequest, hcont, strtokLoop_step hr, Option.map_map]
        congr 1
        funext r
        obtain ⟨us, m⟩ := r
        show (ts ++ t :: us, m) = (ts ++ [t] ++ us, m)
        rw [List.append_assoc]
        rfl
    · rw [hpc]
      intro kvlist hdone
      cases hdone

/-- A call by some connection on its own buffer, seen by any. -/
theorem Tokenizing.called {d : C} (hi : ∀ c, Tokenizing s c) (hlen : (s.rbuf d).length = bufSize)
    {ts : List ℕ} {p : ℕ} (hts : ∀ t ∈ ts, t < bufSize) (hcont : Continues s d ts p)
    (h : s.call d d p (ts.map (d, ·)) = some s') (c : C) : Tokenizing s' c := by
  by_cases hc : c = d
  · rw [hc]
    exact Tokenizing.call hlen hts hcont h
  · obtain ⟨hrbuf, hrequest, hpc, hsaved⟩ := call_other h hc
    exact (hi c).other hrbuf hrequest hpc fun p hp => absurd hp (hsaved p)

theorem Tokenizing.recv {d : C} {rbuf : List UInt8} (hi : ∀ c, Tokenizing s c)
    (hlen : rbuf.length = bufSize) (c : C) :
    Tokenizing { s with
      rbuf := Function.update s.rbuf d rbuf
      request := Function.update s.request d rbuf
      pc := Function.update s.pc d .received } c := by
  by_cases hc : c = d
  · rw [hc]
    refine ⟨fun _ => ?_, fun _ => ?_, ?_, ?_⟩ <;> dsimp only <;> rw [Function.update_self]
    · exact hlen
    · rw [Function.update_self]
    · nofun
    · nofun
  · exact (hi c).other (Function.update_of_ne hc ..) (Function.update_of_ne hc ..)
      (Function.update_of_ne hc ..) fun p hp => hp

theorem Tokenizing.step {l : TokenLabel C} (hi : ∀ c, Tokenizing s c) (hok : OwnSaved s l)
    (h : s.step l = some s') : ∀ c, Tokenizing s' c := by
  cases l with
  | recv d rbuf =>
    unfold Tokenizers.step at h
    dsimp only at h
    split at h <;> try cases h
    all_goals
      split at h <;> cases h
      rename_i hlen
      exact Tokenizing.recv hi hlen
  | strtok d =>
    unfold Tokenizers.step at h
    dsimp only at h
    split at h
    case h_1 _ hpc =>
      have hlen := (hi d).length (by rw [hpc]; nofun)
      -- the first call is the first of the loop
      have hcont : Continues s d [] 0 := by
        unfold Continues kvstoreSkiplistToken
        rw [← (hi d).received hpc]
        cases strtokLoop space ((s.rbuf d).length + 1) (s.rbuf d) 0 <;> rfl
      exact Tokenizing.called hi hlen (by nofun) hcont h
    case h_2 kvlist e p hpc hsaved =>
      obtain rfl : e = d := hok kvlist (e, p) hpc hsaved
      have hlen := (hi e).length (by rw [hpc]; nofun)
      obtain ⟨ts, rfl, hts, hcont⟩ := (hi e).loop kvlist hpc
      exact Tokenizing.called hi hlen hts (hcont p hsaved) h
    case h_3 => cases h

end Steps

end CoKV.KVserver
