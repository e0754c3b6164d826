import CoKV.KVserver.Protocol
import CoKV.SkipList.MapTheorems
import Mathlib.Algebra.Order.BigOperators.Group.List
import Mathlib.Tactic.FinCases
import Mathlib.Tactic.NormNum

/-!
# The request protocol against a map

`mapReply` is what a request means on a finite map: the map afterwards and the text of the reply.
`serve_follows_map` says that a connection answers every sequence of requests this way, each reply
whole in its buffer. Only the number `SKCOUNT` prints is bounded: it goes through an `int`.
-/

namespace CoKV.KVserver

open SkipList (KVMap Represents)

/-! ## Requests on a map -/

/-- The map after a command with its arguments, and the text of the reply; `printCount` prints a
number of keys. -/
def mapCommand (printCount : ℕ → CStr) (m : KVMap CStr CStr) :
    Cmd → List CStr → KVMap CStr CStr × CStr
  | .skset, key :: value :: _ => if key ∈ m then (m, exist) else (m.insert key value, success)
  | .skget, key :: _ => (m, (m.lookup key).getD notFound)
  | .skdel, key :: _ => if key ∈ m then (m.erase key, []) else (m, notFound)
  | .skmod, key :: value :: _ => if key ∈ m then (m.insert key value, []) else (m, notFound)
  | .skcount, _ => (m, printCount m.keys.card)
  | _, _ => (m, wrongOperation)

/-- The map after a request and the text of the reply. -/
def mapReply (printCount : ℕ → CStr) (m : KVMap CStr CStr) (tokens : List CStr) :
    KVMap CStr CStr × CStr :=
  match tokens with
  | [] => (m, [])
  | word :: args => mapCommand printCount m (findCommand word) args

/-- A sequence of requests on a map. -/
def mapServe (printCount : ℕ → CStr) (m : KVMap CStr CStr) :
    List (List CStr) → KVMap CStr CStr × List CStr
  | [] => (m, [])
  | tokens :: requests =>
    let r := mapReply printCount m tokens
    let r' := mapServe printCount r.1 requests
    (r'.1, r.2 :: r'.2)

/-- A number of keys as `std::to_string` prints the `int` that `size` returns. -/
def printInt (n : ℕ) : CStr := decimal ((n : ℤ).bmod (2 ^ 32))

/-- Below `2 ^ 31` the `int` is the number. -/
theorem printInt_of_lt {n : ℕ} (h : n < 2 ^ 31) : printInt n = decimal n := by
  rw [printInt, Int.bmod_eq_of_le] <;> omega

/-! ## What the store may hold -/

/-- A text that `snprintf` prints in full into a buffer. -/
structure Printable (text : CStr) : Prop where
  noNul : 0 ∉ text
  short : text.length < bufSize

/-- Every value of the map is printed in full, and read back it is not taken for the reply to an
absent key. -/
def Storable (m : KVMap CStr CStr) : Prop :=
  ∀ key value, m.lookup key = some value → Printable value ∧ value ≠ notFound

/-- At first there is no value that could not be answered. -/
theorem Storable.empty : Storable ∅ := by
  intro key value h
  rw [Finmap.lookup_empty] at h
  cases h

/-- A value that is printable and not the error text can be stored. -/
theorem Storable.insert {m : KVMap CStr CStr} (h : Storable m) {key value : CStr}
    (hv : Printable value ∧ value ≠ notFound) : Storable (m.insert key value) := by
  intro key' value' hl
  by_cases hk : key' = key
  · rw [hk, Finmap.lookup_insert] at hl
    rw [← Option.some.inj hl]
    exact hv
  · rw [Finmap.lookup_insert_of_ne _ hk] at hl
    exact h key' value' hl

/-- Taking a key out stores nothing new. -/
theorem Storable.erase {m : KVMap CStr CStr} (h : Storable m) (key : CStr) :
    Storable (m.erase key) := by
  intro key' value' hl
  by_cases hk : key' = key
  · rw [hk, Finmap.lookup_erase] at hl
    cases hl
  · rw [Finmap.lookup_erase_ne hk] at hl
    exact h key' value' hl

/-! ## Well-formed requests -/

section Request

variable {r : Request} {word key value : CStr} {rest : List CStr}

/-- A token has no space, and `Not Found` has one. -/
theorem Request.WellFormed.ne_notFound (h : r.WellFormed) (hv : value ∈ r.tokens) :
    value ≠ notFound := by
  intro heq
  have hspace : (32 : UInt8) ∈ notFound := by decide
  rw [← heq] at hspace
  exact (h.token value hv).2.2 hspace

/-- Every token after the command's word is short enough to be printed in full: the word, the
spaces and the token share one receive buffer. -/
theorem Request.WellFormed.printable (h : r.WellFormed) (htok : r.tokens = word :: rest)
    (hv : value ∈ rest) : Printable value := by
  have hfits := h.fits
  have hword : 0 < word.length :=
    List.length_pos_of_ne_nil (h.token word (by rw [htok]; exact List.mem_cons_self ..)).1
  have hle : value.length + 1 ≤ (rest.map (·.length + 1)).sum :=
    List.le_sum_of_mem (List.mem_map_of_mem hv)
  rw [htok, List.map_cons, List.sum_cons] at hfits
  unfold bufSize at hfits
  constructor
  · exact (h.token value (by rw [htok]; exact List.mem_cons_of_mem _ hv)).2.1
  · unfold bufSize
    omega

/-- The tokens a command reads are there. -/
theorem Request.WellFormed.args_two (h : r.WellFormed) (htok : r.tokens = word :: rest)
    (hneed : Request.needed (findCommand word) = 2) :
    ∃ key rest', r.tokens = word :: key :: rest' := by
  have henough := h.enough word rest htok
  rw [htok, List.length_cons] at henough
  obtain ⟨key, rest', rfl⟩ := List.exists_cons_of_length_pos (l := rest) (by omega)
  exact ⟨key, rest', htok⟩

/-- A command of three words has key and value. -/
theorem Request.WellFormed.args_three (h : r.WellFormed) (htok : r.tokens = word :: rest)
    (hneed : Request.needed (findCommand word) = 3) :
    ∃ key value rest', r.tokens = word :: key :: value :: rest' := by
  have henough := h.enough word rest htok
  rw [htok, List.length_cons] at henough
  obtain ⟨key, rest₁, rfl⟩ := List.exists_cons_of_length_pos (l := rest) (by omega)
  rw [List.length_cons] at henough
  obtain ⟨value, rest₂, rfl⟩ := List.exists_cons_of_length_pos (l := rest₁) (by omega)
  exact ⟨key, value, rest₂, htok⟩

/-- The slot of a word that is there holds the word. -/
theorem Request.kvlist_of_getElem? {i : ℕ} {t : CStr} (h : r.tokens[i]? = some t) :
    r.kvlist i = .ok t := by
  rw [Request.kvlist, h]

end Request

/-! ## One request -/

section Step

variable {r : Request} {word key value : CStr} {rest : List CStr} {store : Store}
  {m : KVMap CStr CStr} {wbuf : List UInt8}

theorem printable_exist : Printable exist := ⟨by decide, by decide⟩
theorem printable_success : Printable success := ⟨by decide, by decide⟩
theorem printable_notFound : Printable notFound := ⟨by decide, by decide⟩
theorem printable_wrongOperation : Printable wrongOperation := ⟨by decide, by decide⟩
theorem printable_nil : Printable [] := ⟨by decide, by decide⟩

/-- A printed `int` fits into the buffer. -/
theorem printable_printInt (n : ℕ) : Printable (printInt n) := by
  refine ⟨zero_notMem_decimal _, ?_⟩
  have hle : -(2 ^ 32 / 2 : ℤ) ≤ (n : ℤ).bmod (2 ^ 32) := Int.le_bmod (by decide)
  have hlt : (n : ℤ).bmod (2 ^ 32) < (2 ^ 32 + 1) / 2 := Int.bmod_lt (by decide)
  have hlen : (decimal ((n : ℤ).bmod (2 ^ 32))).length ≤ 10 + 1 :=
    length_decimal_le (by decide) (by omega)
  unfold printInt bufSize
  omega

/-- The number printed for `SKCOUNT`. -/
theorem decimal_size (h : Represents 6 store m) :
    decimal store.size.toInt = printInt m.keys.card := by
  rw [SkipList.size_law h, Int32.toInt_ofNat']
  rfl

/-- The map stays storable: the only values that enter it are arguments of the command. -/
theorem mapCommand_storable (hm : Storable m) {args : List CStr}
    (hargs : ∀ value ∈ args, Printable value ∧ value ≠ notFound) (printCount : ℕ → CStr)
    (cmd : Cmd) : Storable (mapCommand printCount m cmd args).1 := by
  unfold mapCommand
  split
  case h_1 key value rest =>
    split
    · exact hm
    · exact hm.insert (hargs value (by simp))
  case h_3 key rest =>
    split
    · exact hm.erase key
    · exact hm
  case h_4 key value rest =>
    split
    · exact hm.insert (hargs value (by simp))
    · exact hm
  all_goals exact hm

/-- The map holds storable values after every well-formed request. -/
theorem mapReply_storable (hm : Storable m) (hr : r.WellFormed) (printCount : ℕ → CStr) :
    Storable (mapReply printCount m r.tokens).1 := by
  obtain ⟨word, args, htok⟩ := List.exists_cons_of_ne_nil hr.ne_nil
  rw [htok]
  apply mapCommand_storable hm
  intro value hv
  exact ⟨hr.printable htok hv, hr.ne_notFound (by rw [htok]; exact List.mem_cons_of_mem _ hv)⟩

/-- Every reply is printed in full. -/
theorem mapCommand_printable (hm : Storable m) (cmd : Cmd) (args : List CStr) :
    Printable (mapCommand printInt m cmd args).2 := by
  unfold mapCommand
  split
  case h_1 key value rest =>
    split
    · exact printable_exist
    · exact printable_success
  case h_2 key rest =>
    cases hl : m.lookup key with
    | none => exact printable_notFound
    | some value => exact (hm key value hl).1
  case h_3 key rest =>
    split
    · exact printable_nil
    · exact printable_notFound
  case h_4 key value rest =>
    split
    · exact printable_nil
    · exact printable_notFound
  case h_5 =>
    dsimp only
    exact printable_printInt m.keys.card
  case h_6 => exact printable_wrongOperation

/-- The unused branch of `SKSET`: an absent key is always inserted. -/
theorem mapCommand_skset_ne_failed (printCount : ℕ → CStr) (args : List CStr) :
    (mapCommand printCount m .skset args).2 ≠ failed := by
  have hexist : exist ≠ failed := by decide
  have hsuccess : success ≠ failed := by decide
  have hwrong : wrongOperation ≠ failed := by decide
  match args with
  | [] | [_] => exact hwrong
  | key :: value :: _ =>
    show (if key ∈ m then (m, exist) else (m.insert key value, success)).2 ≠ failed
    split
    · exact hexist
    · exact hsuccess

/-- What the map answers fits into the buffer. -/
theorem mapReply_printable (hm : Storable m) (tokens : List CStr) :
    Printable (mapReply printInt m tokens).2 := by
  cases tokens with
  | nil => exact printable_nil
  | cons word args => exact mapCommand_printable hm (findCommand word) args

/-- Deleting a key before inserting it again makes no difference. -/
theorem insert_erase : (m.erase key).insert key value = m.insert key value := by
  apply Finmap.ext_lookup
  intro k
  by_cases hk : k = key
  · rw [hk, Finmap.lookup_insert, Finmap.lookup_insert]
  · rw [Finmap.lookup_insert_of_ne _ hk, Finmap.lookup_insert_of_ne _ hk,
      Finmap.lookup_erase_ne hk]

/-- What is printed into the zeroed buffer. -/
theorem snprintf_reply {text : CStr} (h : Printable text) :
    snprintf (padded bufSize []) bufSize text = padded bufSize text :=
  snprintf_padded h.short

section Commands

variable {kvlist : ℕ → Except Fault CStr}

/-- The value is not looked at when the key is there. -/
theorem skset_law (odds : ℕ) (hs : Represents 6 store m) (hkey : kvlist 1 = .ok key)
    (hvalue : key ∉ m → kvlist 2 = .ok value) :
    ∃ store', skset odds store kvlist (padded bufSize [])
        = .ok (store', padded bufSize (if key ∈ m then exist else success)) ∧
      Represents 6 store' (if key ∈ m then m else m.insert key value) := by
  unfold skset
  rw [hkey, ok_bind, SkipList.searchElement_law hs, ok_bind]
  by_cases hmem : key ∈ m
  · rw [if_pos hmem, if_pos hmem, snprintf_reply printable_exist, decide_eq_true hmem]
    exact ⟨store, rfl, hs⟩
  · obtain ⟨store', hins, hs'⟩ := SkipList.insertElement_law hs key value odds
    rw [if_neg hmem] at hins hs'
    rw [if_neg hmem, if_neg hmem, snprintf_reply printable_success, decide_eq_false hmem,
      hvalue hmem, ok_bind, hins]
    exact ⟨store', rfl, hs'⟩

/-- `SKGET` answers the value, or the error text. -/
theorem skget_law (hs : Represents 6 store m) (hm : Storable m) (hkey : kvlist 1 = .ok key) :
    skget store kvlist (padded bufSize [])
      = .ok (store, padded bufSize ((m.lookup key).getD notFound)) := by
  unfold skget
  rw [hkey, ok_bind, SkipList.searchElement_law hs, ok_bind, SkipList.getElement_law hs, ok_bind]
  by_cases hmem : key ∈ m
  · obtain ⟨value, hl⟩ := Finmap.mem_iff.mp hmem
    have hv : Printable value := (hm key value hl).1
    rw [decide_eq_true hmem, hl]
    show Except.ok (store, snprintf _ bufSize (cString value)) = _
    rw [cString_eq_self hv.noNul, snprintf_reply hv]
    rfl
  · rw [decide_eq_false hmem, Finmap.lookup_eq_none.mpr hmem, snprintf_reply printable_notFound]
    rfl

/-- `SKDEL` takes the key out and answers nothing, or answers the error text. -/
theorem skdel_law (hs : Represents 6 store m) (hkey : kvlist 1 = .ok key) :
    ∃ store', skdel store kvlist (padded bufSize [])
        = .ok (store', padded bufSize (if key ∈ m then [] else notFound)) ∧
      Represents 6 store' (if key ∈ m then m.erase key else m) := by
  obtain ⟨store', hdel, hs'⟩ := SkipList.deleteElement_law hs key
  unfold skdel
  rw [hkey, ok_bind, SkipList.searchElement_law hs, ok_bind, hdel, ok_bind]
  by_cases hmem : key ∈ m
  · rw [if_pos hmem, if_pos hmem, decide_eq_true hmem]
    exact ⟨store', rfl, hs'⟩
  · rw [if_neg hmem, if_neg hmem, decide_eq_false hmem, snprintf_reply printable_notFound]
    exact ⟨store, rfl, hs⟩

/-- The deleted key is absent when it is inserted again, so the insertion takes place. -/
theorem skmod_law (odds : ℕ) (hs : Represents 6 store m) (hkey : kvlist 1 = .ok key)
    (hvalue : key ∈ m → kvlist 2 = .ok value) :
    ∃ store', skmod odds store kvlist (padded bufSize [])
        = .ok (store', padded bufSize (if key ∈ m then [] else notFound)) ∧
      Represents 6 store' (if key ∈ m then m.insert key value else m) := by
  obtain ⟨store₁, hdel, hs₁⟩ := SkipList.deleteElement_law hs key
  obtain ⟨store₂, hins, hs₂⟩ := SkipList.insertElement_law hs₁ key value odds
  rw [if_neg Finmap.notMem_erase_self, insert_erase] at hs₂
  unfold skmod
  rw [hkey, ok_bind, SkipList.searchElement_law hs, ok_bind]
  by_cases hmem : key ∈ m
  · rw [if_pos hmem, if_pos hmem, decide_eq_true hmem, hdel, ok_bind, hvalue hmem, ok_bind, hins]
    exact ⟨store₂, rfl, hs₂⟩
  · rw [if_neg hmem, if_neg hmem, decide_eq_false hmem, snprintf_reply printable_notFound]
    exact ⟨store, rfl, hs⟩

/-- `SKCOUNT` answers the number of keys. -/
theorem skcount_law (hs : Represents 6 store m) :
    skcount store (padded bufSize []) = .ok (store, padded bufSize (printInt m.keys.card)) := by
  have hp := printable_printInt m.keys.card
  unfold skcount
  rw [decimal_size hs, cString_eq_self hp.noNul, snprintf_reply hp]
  rfl

end Commands

/-- One request on the connection's store: it runs to its end, leaves the map's store and prints
the map's reply, whole. -/
theorem kvstoreParserProtocol_law (hs : Represents 6 store m) (hm : Storable m)
    (hr : r.WellFormed) (hbuf : wbuf.length = bufSize) :
    ∃ store', kvstoreParserProtocol r.odds store r.kvlist wbuf r.tokens.length
        = .ok (0, store', padded bufSize (mapReply printInt m r.tokens).2) ∧
      Represents 6 store' (mapReply printInt m r.tokens).1 := by
  obtain ⟨word, args, htok⟩ := List.exists_cons_of_ne_nil hr.ne_nil
  have hcount : ¬((r.tokens.length : ℤ) = 0 ∨ (r.tokens.length : ℤ) = -1) := by
    rw [htok, List.length_cons]
    omega
  have hword : r.kvlist 0 = .ok word := Request.kvlist_of_getElem? (by rw [htok]; rfl)
  -- it is enough to run the command
  suffices hrun : ∃ store', runCommand r.odds store r.kvlist (padded bufSize []) (findCommand word)
      = .ok (store', padded bufSize (mapReply printInt m r.tokens).2) ∧
      Represents 6 store' (mapReply printInt m r.tokens).1 by
    obtain ⟨store', hrun, hs'⟩ := hrun
    refine ⟨store', ?_, hs'⟩
    unfold kvstoreParserProtocol
    rw [if_neg hcount, hword, ok_bind, memset_eq_padded hbuf]
    show (runCommand r.odds store r.kvlist (padded bufSize []) (findCommand word) >>= _) = _
    rw [hrun]
    rfl
  cases hcmd : findCommand word with
  | skset =>
    obtain ⟨key, value, rest, htok'⟩ := hr.args_three htok (by rw [hcmd]; rfl)
    have hkey : r.kvlist 1 = .ok key := Request.kvlist_of_getElem? (by rw [htok']; rfl)
    have hvalue : r.kvlist 2 = .ok value := Request.kvlist_of_getElem? (by rw [htok']; rfl)
    obtain ⟨store', hrun, hs'⟩ := skset_law r.odds hs hkey fun _ => hvalue
    rw [htok', mapReply, hcmd, mapCommand, apply_ite Prod.fst, apply_ite Prod.snd]
    exact ⟨store', hrun, hs'⟩
  | skget =>
    obtain ⟨key, rest, htok'⟩ := hr.args_two htok (by rw [hcmd]; rfl)
    have hkey : r.kvlist 1 = .ok key := Request.kvlist_of_getElem? (by rw [htok']; rfl)
    rw [htok', mapReply, hcmd, mapCommand]
    exact ⟨store, skget_law hs hm hkey, hs⟩
  | skdel =>
    obtain ⟨key, rest, htok'⟩ := hr.args_two htok (by rw [hcmd]; rfl)
    have hkey : r.kvlist 1 = .ok key := Request.kvlist_of_getElem? (by rw [htok']; rfl)
    obtain ⟨store', hrun, hs'⟩ := skdel_law hs hkey
    rw [htok', mapReply, hcmd, mapCommand, apply_ite Prod.fst, apply_ite Prod.snd]
    exact ⟨store', hrun, hs'⟩
  | skmod =>
    obtain ⟨key, value, rest, htok'⟩ := hr.args_three htok (by rw [hcmd]; rfl)
    have hkey : r.kvlist 1 = .ok key := Request.kvlist_of_getElem? (by rw [htok']; rfl)
    have hvalue : r.kvlist 2 = .ok value := Request.kvlist_of_getElem? (by rw [htok']; rfl)
    obtain ⟨store', hrun, hs'⟩ := skmod_law r.odds hs hkey fun _ => hvalue
    rw [htok', mapReply, hcmd, mapCommand, apply_ite Prod.fst, apply_ite Prod.snd]
    exact ⟨store', hrun, hs'⟩
  | skcount =>
    rw [htok, mapReply, hcmd, mapCommand]
    refine ⟨store, ?_, hs⟩
    rw [runCommand, skcount_law hs]
  | size =>
    simp only [htok, mapReply, hcmd, mapCommand]
    refine ⟨store, ?_, hs⟩
    rw [runCommand, snprintf_reply printable_wrongOperation]
    rfl

end Step

/-! ## The requests of a connection -/

/-- What a connection may hold between two requests. -/
structure Follows (store : Store) (m : KVMap CStr CStr) : Prop where
  represents : Represents 6 store m
  storable : Storable m

/-- A new store is the empty map. -/
theorem follows_newStore : Follows newStore ∅ :=
  ⟨SkipList.represents_new [] [] (by decide), Storable.empty⟩

/-- A sequence of requests runs to its end, follows the map and prints the map's replies. -/
theorem serve_refines {store : Store} {m : KVMap CStr CStr} (hs : Follows store m)
    {requests : List Request} (hr : ∀ r ∈ requests, r.WellFormed) {wbuf : List UInt8}
    (hbuf : wbuf.length = bufSize) :
    ∃ store', serve store wbuf requests = .ok (store',
        (mapServe printInt m (requests.map Request.tokens)).2.map (padded bufSize)) ∧
      Follows store' (mapServe printInt m (requests.map Request.tokens)).1 := by
  induction requests generalizing store m wbuf with
  | nil => exact ⟨store, rfl, hs⟩
  | cons r requests ih =>
    -- the reply to one request is what `wbuf` holds when the next one comes
    have hwf := hr r (List.mem_cons_self ..)
    obtain ⟨store₁, hrun, hs₁⟩ := kvstoreParserProtocol_law hs.represents hs.storable hwf hbuf
    have hm₁ := mapReply_storable hs.storable hwf printInt
    have hlen := length_padded (mapReply_printable hs.storable r.tokens).short.le
    obtain ⟨store₂, hserve, hs₂⟩ :=
      ih ⟨hs₁, hm₁⟩ (fun r' hr' => hr r' (List.mem_cons_of_mem _ hr')) hlen
    refine ⟨store₂, ?_, hs₂⟩
    rw [serve, hrun, ok_bind]
    show (serve store₁ _ requests >>= _) = _
    rw [hserve]
    rfl

/-- The replies of the map are printed in full. -/
theorem mapServe_printable {m : KVMap CStr CStr} (hm : Storable m) {requests : List Request}
    (hr : ∀ r ∈ requests, r.WellFormed) :
    ∀ text ∈ (mapServe printInt m (requests.map Request.tokens)).2, Printable text := by
  induction requests generalizing m with
  | nil =>
    intro text htext
    cases htext
  | cons r requests ih =>
    intro text htext
    rcases List.mem_cons.mp htext with rfl | htext
    · exact mapReply_printable hm r.tokens
    · exact ih (mapReply_storable hm (hr r (List.mem_cons_self ..)) printInt)
        (fun r' hr' => hr r' (List.mem_cons_of_mem _ hr')) text htext

/-- A `SKSET` is never answered `FAILED`. -/
theorem mapServe_skset_ne_failed (printCount : ℕ → CStr) (m : KVMap CStr CStr)
    (requests : List (List CStr)) : ∀ p ∈ requests.zip (mapServe printCount m requests).2,
      p.1.head?.map findCommand = some .skset → p.2 ≠ failed := by
  induction requests generalizing m with
  | nil =>
    intro p hp
    cases hp
  | cons tokens requests ih =>
    intro p hp hcmd
    rcases List.mem_cons.mp hp with rfl | hp
    · cases tokens with
      | nil => cases hcmd
      | cons word args =>
        have hword : findCommand word = .skset := Option.some.inj hcmd
        show (mapReply printCount m (word :: args)).2 ≠ failed
        rw [mapReply, hword]
        exact mapCommand_skset_ne_failed printCount args
    · exact ih _ p hp hcmd

/-- What a client reads back from the buffers are the replies. -/
theorem map_cString_padded {texts : List CStr} (h : ∀ text ∈ texts, Printable text) :
    (texts.map (padded bufSize)).map cString = texts := by
  rw [List.map_map]
  conv_rhs => rw [← List.map_id texts]
  apply List.map_congr_left
  intro text htext
  exact cString_padded (h text htext).noNul

/-- **A connection answers as a finite map does**, whatever its requests, the levels drawn, the
stale slots of `kvlist` and the first content of the write buffer: every reply fills its buffer up
with zeros and is whole when read back; `FAILED` is not among the answers to `SKSET`; and no stored
value is the reply to an absent key. `SKCOUNT` prints an `int`, which is the number of keys below
`2^31`. -/
theorem serve_follows_map {requests : List Request} (hr : ∀ r ∈ requests, r.WellFormed)
    {wbuf : List UInt8} (hbuf : wbuf.length = bufSize) :
    let tokens := requests.map Request.tokens
    let final := mapServe printInt ∅ tokens
    (∃ store replies, serve newStore wbuf requests = .ok (store, replies) ∧
      Represents 6 store final.1 ∧
      replies = final.2.map (padded bufSize) ∧ replies.map cString = final.2) ∧
    (∀ text ∈ final.2, Printable text) ∧
    (∀ p ∈ tokens.zip final.2, p.1.head?.map findCommand = some .skset → p.2 ≠ failed) ∧
    (∀ key value, final.1.lookup key = some value → value ≠ notFound) ∧
    ∀ n : ℕ, n < 2 ^ 31 → printInt n = decimal n := by
  intro tokens final
  obtain ⟨store, hserve, hs⟩ := serve_refines follows_newStore hr hbuf
  have hprintable := mapServe_printable Storable.empty hr
  refine ⟨⟨store, _, hserve, hs.represents, rfl, map_cString_padded hprintable⟩, hprintable,
    mapServe_skset_ne_failed printInt ∅ tokens, ?_, fun n => printInt_of_lt⟩
  intro key value hl
  exact (hs.storable key value hl).2

/-- Two requests on one key. -/
def setThenGet : List Request :=
  [⟨[str ['S', 'K', 'S', 'E', 'T'], str ['k'], str ['v']], fun _ => .error .dangling, 3⟩,
   ⟨[str ['S', 'K', 'G', 'E', 'T'], str ['k']], fun _ => .ok (str ['x']), 0⟩]

theorem setThenGet_wellFormed : ∀ r ∈ setThenGet, r.WellFormed := by
  intro r hr
  fin_cases hr
  · exact ⟨fun word args h => by cases h; decide, by decide, by decide, by decide⟩
  · exact ⟨fun word args h => by cases h; decide, by decide, by decide, by decide⟩

theorem serve_follows_map_witness :
    let tokens := setThenGet.map Request.tokens
    let final := mapServe printInt ∅ tokens
    (∃ store replies, serve newStore (List.replicate bufSize 7) setThenGet = .ok (store, replies) ∧
      Represents 6 store final.1 ∧
      replies = final.2.map (padded bufSize) ∧ replies.map cString = final.2) ∧
    (∀ text ∈ final.2, Printable text) ∧
    (∀ p ∈ tokens.zip final.2, p.1.head?.map findCommand = some .skset → p.2 ≠ failed) ∧
    (∀ key value, final.1.lookup key = some value → value ≠ notFound) ∧
    ∀ n : ℕ, n < 2 ^ 31 → printInt n = decimal n :=
  serve_follows_map setThenGet_wellFormed List.length_replicate

/-- The reply to the `SKGET` is the value the `SKSET` stored. -/
example : (mapServe printInt ∅ (setThenGet.map Request.tokens)).2 = [success, str ['v']] := by
  rfl

/-! ## The count past the range of `int` -/

/-- `SKSET` of the key `i`, in decimal. -/
def setNumber (i : ℕ) : Request :=
  ⟨[str ['S', 'K', 'S', 'E', 'T'], decimal i, str ['v']], fun _ => .error .dangling, 0⟩

def countRequest : Request :=
  ⟨[str ['S', 'K', 'C', 'O', 'U', 'N', 'T']], fun _ => .error .dangling, 0⟩

/-- The keys `0, …, n - 1` are stored and then counted. -/
def setAndCount (n : ℕ) : List Request := (List.range n).map setNumber ++ [countRequest]

/-- A printed number is one word. -/
theorem decimal_token (n : ℕ) : decimal n ≠ [] ∧ 0 ∉ decimal n ∧ 32 ∉ decimal n := by
  refine ⟨?_, zero_notMem_decimal n, ?_⟩
  · rw [decimal_natCast]
    exact fun h => Nat.toDigits_ne_nil (List.map_eq_nil_iff.mp h)
  · intro h
    rw [decimal_natCast] at h
    have hdigit := (mem_str_toDigits h).1
    simp at hdigit

/-- The requests that set `n` keys and count them are well formed. -/
theorem setAndCount_wellFormed {n : ℕ} (hn : n ≤ 10 ^ 10) : ∀ r ∈ setAndCount n, r.WellFormed := by
  intro r hr
  rcases List.mem_append.mp hr with hr | hr
  · obtain ⟨i, hi, rfl⟩ := List.mem_map.mp hr
    have hlt : i < 10 ^ 10 := by
      have := List.mem_range.mp hi
      omega
    have hlen : (decimal i).length ≤ 10 + 1 := length_decimal_le (by decide) hlt
    refine ⟨?_, by simp [setNumber], ?_, ?_⟩
    · intro word args h
      cases h
      exact le_rfl
    · intro t ht
      simp only [setNumber, List.mem_cons, List.not_mem_nil, or_false] at ht
      rcases ht with rfl | rfl | rfl
      · decide
      · exact decimal_token i
      · decide
    · simp [setNumber, str, bufSize]
      omega
  · rw [List.mem_singleton.mp hr]
    exact ⟨fun word args h => by cases h; decide, by decide, by decide, by decide⟩

/-- The map serves the second part of a history from where the first one ends. -/
theorem mapServe_append (printCount : ℕ → CStr) (m : KVMap CStr CStr)
    (requests requests' : List (List CStr)) :
    mapServe printCount m (requests ++ requests') =
      ((mapServe printCount (mapServe printCount m requests).1 requests').1,
        (mapServe printCount m requests).2 ++
          (mapServe printCount (mapServe printCount m requests).1 requests').2) := by
  induction requests generalizing m with
  | nil => rfl
  | cons tokens requests ih => simp only [List.cons_append, mapServe, ih]

/-- The keys after the `SKSET`s. -/
theorem setNumbers_keys (printCount : ℕ → CStr) (n : ℕ) :
    (mapServe printCount ∅ (((List.range n).map setNumber).map Request.tokens)).1.keys
      = (Finset.range n).image fun i : ℕ => decimal i := by
  induction n with
  | zero => rfl
  | succ n ih =>
    rw [List.range_succ, List.map_append, List.map_append, mapServe_append]
    generalize (mapServe printCount ∅ (((List.range n).map setNumber).map Request.tokens)).1 = m
      at ih ⊢
    -- different numbers have different digits
    have hn : decimal n ∉ m := by
      rw [← Finmap.mem_keys, ih, Finset.mem_image]
      rintro ⟨i, hi, heq⟩
      have hin : (i : ℤ) = n := decimal_eq_natCast heq
      have := Finset.mem_range.mp hi
      omega
    show (if decimal n ∈ m then (m, exist) else (m.insert (decimal n) _, success)).1.keys = _
    rw [if_neg hn]
    ext key
    rw [Finmap.mem_keys, Finmap.mem_insert, ← Finmap.mem_keys, ih, Finset.range_add_one,
      Finset.image_insert, Finset.mem_insert]

/-- Different numbers are different keys. -/
theorem setNumbers_card (printCount : ℕ → CStr) (n : ℕ) :
    (mapServe printCount ∅ (((List.range n).map setNumber).map Request.tokens)).1.keys.card = n := by
  rw [setNumbers_keys, Finset.card_image_of_injective, Finset.card_range]
  intro i j heq
  have hij : (i : ℤ) = j := decimal_eq_natCast heq
  omega

/-- The last reply to `setAndCount n` is the number of keys, as `printCount` prints it. -/
theorem setAndCount_reply (printCount : ℕ → CStr) (n : ℕ) :
    (mapServe printCount ∅ ((setAndCount n).map Request.tokens)).2.getLast? = some (printCount n) := by
  rw [setAndCount, List.map_append, mapServe_append]
  show List.getLast? (_ ++ [printCount (Finmap.keys _).card]) = _
  rw [setNumbers_card, List.getLast?_append, List.getLast?_singleton, Option.some_or]

/-- If the count were printed as the number of keys, every number would fit an `int`. -/
theorem bmod_of_replies {n : ℕ} (hn : n ≤ 10 ^ 10) {store : Store}
    (h : serve newStore (List.replicate bufSize 0) (setAndCount n) = .ok (store,
      (mapServe (fun n => decimal n) ∅ ((setAndCount n).map Request.tokens)).2.map
        (padded bufSize))) : (n : ℤ).bmod (2 ^ 32) = n := by
  obtain ⟨store', hserve, -⟩ :=
    serve_refines follows_newStore (setAndCount_wellFormed hn) List.length_replicate
  rw [hserve] at h
  have hlast := congrArg List.getLast? (Prod.mk.inj (Except.ok.inj h)).2
  rw [List.getLast?_map, List.getLast?_map, setAndCount_reply, setAndCount_reply,
    Option.map_some, Option.map_some, Option.some.injEq] at hlast
  have htext := congrArg cString hlast
  rw [cString_padded (printable_printInt n).noNul, cString_padded (zero_notMem_decimal n)] at htext
  exact decimal_eq_natCast htext

/-- After `2^31` `SKSET`s of distinct keys, `SKCOUNT` does not print their number. -/
theorem serve_count_wraps : (∀ r ∈ setAndCount (2 ^ 31), r.WellFormed) ∧
    ¬ ∃ store, serve newStore (List.replicate bufSize 0) (setAndCount (2 ^ 31)) = .ok (store,
      (mapServe (fun n => decimal n) ∅ ((setAndCount (2 ^ 31)).map Request.tokens)).2.map
        (padded bufSize)) := by
  refine ⟨setAndCount_wellFormed (by norm_num), ?_⟩
  rintro ⟨store, h⟩
  exact absurd (bmod_of_replies (by norm_num) h) (by norm_num [Int.bmod])

end CoKV.KVserver
