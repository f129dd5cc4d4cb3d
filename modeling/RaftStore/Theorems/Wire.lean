import RaftStore.Lemmas.Step
import RaftStore.Wire
import RaftStore.Theorems.Compaction
import RaftStore.Theorems.Sessions
import Mathlib.Data.Nat.Log

/-!
# Which messages fit the receiver

The length of an AppendEntries message is a sum over its entries, and nothing in either sender keeps it below what the receiver reads. The
messages that fit are those in which the sum is small enough.
-/

namespace RaftStore

/-! ## Lengths of texts -/

/-- The length of a number in base ten. -/
def width : ℤ → ℕ
  | .ofNat n => Nat.log 10 n + 1
  | .negSucc n => Nat.log 10 (n + 1) + 2

/-- How many bytes a byte takes in the text of `dump`. -/
def weight (c : UInt8) : ℕ :=
  if c ∈ ([8, 9, 10, 12, 13, 34, 92] : List UInt8) then 2 else if c ≤ 31 then 6 else 1

theorem digits_length {fuel n : ℕ} (h : n < fuel) : (digits fuel n).length = Nat.log 10 n + 1 := by
  induction fuel generalizing n with
  | zero => omega
  | succ fuel ih =>
    unfold digits
    rw [List.length_cons]
    split
    · next hlt => rw [Nat.log_of_lt hlt, List.length_nil]
    · next hge =>
      have hlog : Nat.log 10 n = Nat.log 10 (n / 10) + 1 := Nat.log_of_one_lt_of_le (by omega) (by omega)
      rw [ih (by omega), hlog]

@[simp] theorem toString_length (i : ℤ) : (toString i).length = width i := by
  cases i with
  | ofNat n =>
    show (digits (n + 1) n).reverse.length = Nat.log 10 n + 1
    rw [List.length_reverse, digits_length (Nat.lt_succ_self n)]
  | negSucc n =>
    show (45 :: (digits (n + 2) (n + 1)).reverse).length = Nat.log 10 (n + 1) + 2
    rw [List.length_cons, List.length_reverse, digits_length (Nat.lt_succ_self (n + 1))]

theorem escapeByte_length (c : UInt8) : (escapeByte c).length = weight c := by
  unfold escapeByte weight
  simp only [List.mem_cons, List.not_mem_nil, or_false]
  split_ifs <;> first | rfl | grind

@[simp] theorem quote_length (s : Str) : (quote s).length = (s.map weight).sum + 2 := by
  unfold quote
  rw [List.length_append, List.length_cons, List.length_flatMap]
  simp only [escapeByte_length, List.length_singleton]

theorem commaSeparated_length (ss : List Str) : (commaSeparated ss).length = (ss.map List.length).sum + (ss.length - 1) := by
  induction ss with
  | nil => rfl
  | cons s ss ih =>
    cases ss with
    | nil => simp [commaSeparated]
    | cons t ss =>
      rw [show commaSeparated (s :: t :: ss) = s ++ 44 :: commaSeparated (t :: ss) from rfl, List.length_append, List.length_cons, ih]
      simp only [List.map_cons, List.sum_cons, List.length_cons]
      omega

namespace Json

theorem textAll_eq (xs : List Json) : textAll xs = xs.map text := by
  induction xs with
  | nil => rfl
  | cons x xs ih =>
    rw [show textAll (x :: xs) = x.text :: textAll xs from rfl, ih]
    rfl

theorem textMembers_eq (members : List (String × Json)) : textMembers members = members.map fun m => (m.1, m.2.text) := by
  induction members with
  | nil => rfl
  | cons m members ih =>
    rw [show textMembers (m :: members) = (m.1, m.2.text) :: textMembers members from rfl, ih]
    rfl

theorem arr_length (xs : List Json) : (arr xs).text.length = (xs.map fun x => x.text.length).sum + (xs.length - 1) + 2 := by
  rw [show (arr xs).text = 91 :: commaSeparated (textAll xs) ++ [93] from rfl, List.length_append, List.length_cons, commaSeparated_length, textAll_eq]
  simp only [List.map_map, List.length_map, List.length_singleton]
  rfl

theorem obj_text (members : List (String × Json)) : (obj members).text =
    123 :: commaSeparated (((textMembers members).insertionSort byName).map fun m => quote (ascii m.1) ++ 58 :: m.2) ++ [125] := rfl

/-- The order of the members does not count. -/
theorem obj_length (members : List (String × Json)) : (obj members).text.length =
    (members.map fun m => (quote (ascii m.1)).length + 1 + m.2.text.length).sum + (members.length - 1) + 2 := by
  have hperm : ((textMembers members).insertionSort byName).Perm (members.map fun m => (m.1, m.2.text)) := by
    rw [← textMembers_eq]
    exact List.perm_insertionSort byName _
  rw [obj_text]
  have hmember (m : String × Json) : (quote (ascii m.1) ++ 58 :: m.2.text).length = (quote (ascii m.1)).length + 1 + m.2.text.length := by
    rw [List.length_append, List.length_cons]
    omega
  rw [List.length_append, List.length_cons, commaSeparated_length, List.map_map, List.length_map, hperm.length_eq, List.length_map,
    (hperm.map _).sum_nat, List.map_map, List.length_singleton]
  rw [← List.map_congr_left fun m _ => hmember m]
  rfl

end Json

/-! ## No zero bytes -/

theorem escapeByte_ne_zero (c : UInt8) : ∀ b ∈ escapeByte c, b ≠ 0 := by
  have hhex : ∀ n < 16, hexDigit n ≠ 0 := by decide
  unfold escapeByte
  split_ifs with h1 h2 h3 h4 h5 h6 h7 hlow
  · exact List.all_iff_forall_prop.mp rfl
  · exact List.all_iff_forall_prop.mp rfl
  · exact List.all_iff_forall_prop.mp rfl
  · exact List.all_iff_forall_prop.mp rfl
  · exact List.all_iff_forall_prop.mp rfl
  · exact List.all_iff_forall_prop.mp rfl
  · exact List.all_iff_forall_prop.mp rfl
  · have hc : c.toNat ≤ 31 := UInt8.le_iff_toNat_le.mp hlow
    intro b hb
    rcases List.mem_append.mp hb with hb | hb
    · exact (show ∀ b ∈ ascii "\\u00", b ≠ 0 from List.all_iff_forall_prop.mp rfl) b hb
    · rcases List.mem_cons.mp hb with rfl | hb
      · exact hhex _ (by omega)
      · obtain rfl := List.mem_singleton.mp hb
        exact hhex _ (by omega)
  · intro b hb
    obtain rfl := List.mem_singleton.mp hb
    rintro rfl
    exact hlow (by decide)

theorem quote_ne_zero (s : Str) : ∀ b ∈ quote s, b ≠ 0 := by
  intro b hb
  unfold quote at hb
  rcases List.mem_append.mp hb with hb | hb
  · rcases List.mem_cons.mp hb with rfl | hb
    · decide
    · obtain ⟨c, _, hc⟩ := List.mem_flatMap.mp hb
      exact escapeByte_ne_zero c b hc
  · obtain rfl := List.mem_singleton.mp hb
    decide

theorem toString_ne_zero (i : ℤ) : ∀ b ∈ toString i, b ≠ 0 := by
  have hdigits (fuel n : ℕ) : ∀ b ∈ digits fuel n, b ≠ 0 := by
    induction fuel generalizing n with
    | zero => exact fun _ hb => absurd hb List.not_mem_nil
    | succ fuel ih =>
      unfold digits
      refine List.forall_mem_cons.mpr ⟨fun hz => ?_, ?_⟩
      · have hnat := congrArg UInt8.toNat hz
        rw [Nat.toUInt8_eq, UInt8.toNat_ofNat'] at hnat
        have hpos : (48 + n % 10) % 256 = 0 := hnat
        omega
      · split
        · exact fun _ hb => absurd hb List.not_mem_nil
        · exact ih _
  intro b hb
  cases i with
  | ofNat n => exact hdigits _ _ b (List.mem_reverse.mp hb)
  | negSucc n =>
    rcases List.mem_cons.mp hb with rfl | hb
    · decide
    · exact hdigits _ _ b (List.mem_reverse.mp hb)

theorem commaSeparated_ne_zero {ss : List Str} (h : ∀ s ∈ ss, ∀ b ∈ s, b ≠ 0) : ∀ b ∈ commaSeparated ss, b ≠ 0 := by
  induction ss with
  | nil => exact fun _ hb => absurd hb List.not_mem_nil
  | cons s ss ih =>
    obtain ⟨hs, hss⟩ := List.forall_mem_cons.mp h
    cases ss with
    | nil => exact hs
    | cons t ss =>
      intro b hb
      rcases List.mem_append.mp (show b ∈ s ++ 44 :: commaSeparated (t :: ss) from hb) with hb | hb
      · exact hs b hb
      · rcases List.mem_cons.mp hb with rfl | hb
        · decide
        · exact ih hss b hb

namespace Json

theorem obj_ne_zero {members : List (String × Json)} (h : ∀ m ∈ members, ∀ b ∈ m.2.text, b ≠ 0) : ∀ b ∈ (obj members).text, b ≠ 0 := by
  intro b hb
  rw [obj_text] at hb
  rcases List.mem_append.mp hb with hb | hb
  · rcases List.mem_cons.mp hb with rfl | hb
    · decide
    · refine commaSeparated_ne_zero (fun s hs => ?_) b hb
      obtain ⟨⟨name, t⟩, ht, rfl⟩ := List.mem_map.mp hs
      rw [List.mem_insertionSort, textMembers_eq] at ht
      obtain ⟨m, hm, hmt⟩ := List.mem_map.mp ht
      obtain ⟨rfl, rfl⟩ := Prod.mk.inj hmt
      intro b hb
      rcases List.mem_append.mp hb with hb | hb
      · exact quote_ne_zero _ b hb
      · rcases List.mem_cons.mp hb with rfl | hb
        · decide
        · exact h m hm b hb
  · obtain rfl := List.mem_singleton.mp hb
    decide

theorem arr_ne_zero {xs : List Json} (h : ∀ x ∈ xs, ∀ b ∈ x.text, b ≠ 0) : ∀ b ∈ (arr xs).text, b ≠ 0 := by
  intro b hb
  rw [show (arr xs).text = 91 :: commaSeparated (textAll xs) ++ [93] from rfl, textAll_eq] at hb
  rcases List.mem_append.mp hb with hb | hb
  · rcases List.mem_cons.mp hb with rfl | hb
    · decide
    · refine commaSeparated_ne_zero (fun s hs => ?_) b hb
      obtain ⟨x, hx, rfl⟩ := List.mem_map.mp hs
      exact h x hx
  · obtain rfl := List.mem_singleton.mp hb
    decide

end Json

/-! ## Messages -/

namespace LogEntry

/-- The length of an entry in a message. -/
def size (e : LogEntry) : ℕ := 31 + (e.command.map weight).sum + width e.index + width e.term

theorem toJson_length (e : LogEntry) : e.toJson.text.length = e.size := by
  have hterm : (quote (ascii "term")).length = 6 := by decide
  have hindex : (quote (ascii "index")).length = 7 := by decide
  have hcommand : (quote (ascii "command")).length = 9 := by decide
  have hint (i : ℤ) : (Json.int i).text.length = width i := toString_length i
  have hstr : (Json.str e.command).text.length = (e.command.map weight).sum + 2 := quote_length e.command
  unfold toJson size
  rw [Json.obj_length]
  simp only [List.map_cons, List.map_nil, List.sum_cons, List.sum_nil, List.length_cons, List.length_nil, hterm, hindex, hcommand, hint, hstr]
  omega

theorem toJson_ne_zero (e : LogEntry) : ∀ b ∈ e.toJson.text, b ≠ 0 := by
  refine Json.obj_ne_zero fun m hm => ?_
  simp only [List.mem_cons, List.not_mem_nil, or_false] at hm
  rcases hm with rfl | rfl | rfl
  · exact toString_ne_zero e.term
  · exact toString_ne_zero e.index
  · exact quote_ne_zero e.command

end LogEntry

namespace AppendEntriesRPC

variable (m : AppendEntriesRPC)

/-- The length of a message. -/
def size : ℕ :=
  103 + width m.term + width m.leaderId + width m.prevLogIndex + width m.prevLogTerm + width m.leaderCommit +
    (m.entries.map LogEntry.size).sum + (m.entries.length - 1)

theorem toJson_length : m.toJson.text.length = m.size := by
  have h1 : (quote (ascii "rpc")).length = 5 := by decide
  have h2 : (quote (ascii "term")).length = 6 := by decide
  have h3 : (quote (ascii "leaderId")).length = 10 := by decide
  have h4 : (quote (ascii "prevLogIndex")).length = 14 := by decide
  have h5 : (quote (ascii "prevLogTerm")).length = 13 := by decide
  have h6 : (quote (ascii "entries")).length = 9 := by decide
  have h7 : (quote (ascii "leaderCommit")).length = 14 := by decide
  have h8 : (quote (ascii "AppendEntries")).length = 15 := by decide
  have hentries : (Json.arr (m.entries.map LogEntry.toJson)).text.length = (m.entries.map LogEntry.size).sum + (m.entries.length - 1) + 2 := by
    rw [Json.arr_length, List.map_map, List.length_map]
    congr 3
    exact List.map_congr_left fun e _ => e.toJson_length
  have hlit : (Json.lit "AppendEntries").text = quote (ascii "AppendEntries") := rfl
  have hint (i : ℤ) : (Json.int i).text.length = width i := toString_length i
  unfold toJson size
  rw [Json.obj_length]
  simp only [List.map_cons, List.map_nil, List.sum_cons, List.sum_nil, List.length_cons, List.length_nil, h1, h2, h3, h4, h5, h6, h7, h8, hlit,
    hint, hentries]
  omega

theorem toJson_ne_zero : ∀ b ∈ m.toJson.text, b ≠ 0 := by
  refine Json.obj_ne_zero fun x hx => ?_
  simp only [List.mem_cons, List.not_mem_nil, or_false] at hx
  rcases hx with rfl | rfl | rfl | rfl | rfl | rfl | rfl
  · exact quote_ne_zero _
  · exact toString_ne_zero m.term
  · exact toString_ne_zero m.leaderId
  · exact toString_ne_zero m.prevLogIndex
  · exact toString_ne_zero m.prevLogTerm
  · refine Json.arr_ne_zero fun y hy => ?_
    obtain ⟨e, _, rfl⟩ := List.mem_map.mp hy
    exact e.toJson_ne_zero
  · exact toString_ne_zero m.leaderCommit

theorem toJson_dumps : m.toJson.dumps = true ↔ ∀ e ∈ m.entries, isUtf8 e.command = true := by
  have hlit : isUtf8 (ascii "AppendEntries") = true := isUtf8_of_all rfl
  have hentry (e : LogEntry) : e.toJson.dumps = isUtf8 e.command := by
    simp only [LogEntry.toJson, Json.dumps, Json.dumpsMembers, Bool.true_and, Bool.and_true]
  have hall (es : List LogEntry) : Json.dumpsAll (es.map LogEntry.toJson) = true ↔ ∀ e ∈ es, isUtf8 e.command = true := by
    induction es with
    | nil => exact ⟨fun _ _ h => absurd h List.not_mem_nil, fun _ => by simp only [List.map_nil, Json.dumpsAll]⟩
    | cons e es ih =>
      rw [List.map_cons, Json.dumpsAll, hentry, Bool.and_eq_true, ih, List.forall_mem_cons]
  rw [← hall]
  simp only [toJson, Json.lit, Json.dumps, Json.dumpsMembers, hlit, Bool.true_and, Bool.and_true]

/-- A message fits where its commands are valid UTF-8 and the sum is small enough. -/
theorem fits_iff : m.Fits ↔ (∀ e ∈ m.entries, isUtf8 e.command = true) ∧ m.size ≤ recvSize := by
  rw [← toJson_dumps, ← toJson_length]
  unfold Fits Json.dump
  constructor
  · rintro ⟨payload, hdump, hlen, _⟩
    split at hdump
    · next hd =>
      cases hdump
      exact ⟨hd, hlen⟩
    · cases hdump
  · rintro ⟨hd, hlen⟩
    refine ⟨m.toJson.text, if_pos hd, hlen, ?_⟩
    unfold received
    rw [List.take_of_length_le hlen, List.takeWhile_eq_self_iff]
    exact fun b hb => bne_iff_ne.mpr (m.toJson_ne_zero b hb)

end AppendEntriesRPC

/-! ## Senders -/

/-- The messages with entries that a node sends are those of the two senders. -/
theorem Site.Step.sends_batch {size next : ℕ} {s : Site} {store : KVStore} {i : Input} {o : Outcome} (hs : Site.Step size next s store i o)
    {port : ℤ} {m : AppendEntriesRPC} (ho : o.send = some { port := port, req := .appendEntries m }) :
    (∃ nextIdx, m = s.node.heartbeatMessage nextIdx) ∨ ∃ nextIdx newIndex, m = s.node.clientMessage nextIdx newIndex := by
  cases hs with
  | sendHeartbeat hb j p hh hp hrun hi hn entries hes =>
    cases ho
    exact .inl ⟨_, congrArg _ hes⟩
  | send k call p hk hp hi =>
    cases ho
    exact .inr ⟨_, _, rfl⟩
  | _ => cases ho

theorem RaftNode.mem_getLogEntries {n : RaftNode} {i j : ℤ} {e : LogEntry} (h : e ∈ n.getLogEntries i j) : e ∈ n.log := by
  unfold getLogEntries at h
  simp only at h
  split at h
  · exact absurd h List.not_mem_nil
  · exact List.mem_of_mem_take (List.mem_of_mem_drop h)

/-! ## Commands from lines -/

/-- The message for a line is read as the request that the process sends for it. -/
theorem Session.message_request {N : ℕ} (p : Process N) (s : Session) (session : ℕ) {l : Line} {command : String} {key value : Str}
    (hl : l.message = some (ascii command, key, value)) (hc : s.requestCounter = p.nextRequestId s.socket) :
    ∃ req, (s.message command key value).clientRequest session = .ok req ∧ p.request s.socket session l = some req := by
  refine ⟨_, rfl, ?_⟩
  unfold Process.request
  rw [hl, ← hc]
  rfl

/-- Two texts in UTF-8 make one. -/
theorem isUtf8_append {a b : Str} (ha : isUtf8 a = true) (hb : isUtf8 b = true) : isUtf8 (a ++ b) = true := by
  fun_induction isUtf8 a with
  | case1 => exact hb
  | case2 c s hlow ih =>
    rw [List.cons_append, isUtf8.eq_def]
    simp only [if_pos hlow]
    exact ih ha
  | case3 => cases ha
  | case4 c h1 h2 h3 d s ih =>
    rw [List.cons_append, List.cons_append, isUtf8.eq_def]
    simp only [if_neg h1, if_neg h2, if_pos h3]
    rw [Bool.and_eq_true] at ha ⊢
    exact ⟨ha.1, ih ha.2⟩
  | case5 => cases ha
  | case6 c h1 h2 h3 h4 d e s ih =>
    rw [List.cons_append, List.cons_append, List.cons_append, isUtf8.eq_def]
    simp only [if_neg h1, if_neg h2, if_neg h3, if_pos h4]
    rw [Bool.and_eq_true] at ha ⊢
    exact ⟨ha.1, ih ha.2⟩
  | case7 => cases ha
  | case8 c h1 h2 h3 h4 h5 d e f s ih =>
    rw [List.cons_append, List.cons_append, List.cons_append, List.cons_append, isUtf8.eq_def]
    simp only [if_neg h1, if_neg h2, if_neg h3, if_neg h4, if_pos h5]
    rw [Bool.and_eq_true] at ha ⊢
    exact ⟨ha.1, ih ha.2⟩
  | case9 => cases ha
  | case10 => cases ha

/-- A string in a value that can be dumped is valid UTF-8. -/
theorem Json.value_utf8 {msg : Json} (hd : msg.dumps = true) {name : String} {default t : Str} (hdefault : isUtf8 default = true)
    (h : msg.value getStr name default = .ok t) : isUtf8 t = true := by
  cases msg with
  | obj members =>
    rw [dumps] at hd
    unfold value at h
    induction members with
    | nil =>
      cases h
      exact hdefault
    | cons m members ih =>
      obtain ⟨name', x⟩ := m
      rw [dumpsMembers, Bool.and_eq_true] at hd
      simp only [List.lookup_cons] at h
      split at h
      · have hx : x.getStr = .ok t := h
        cases x with
        | str s =>
          cases hx
          rw [← hd.1, dumps]
        | _ => cases hx
      · exact ih hd.2 h
  | _ => cases h

/-- What a client types goes into the log only as valid UTF-8. -/
theorem FromLine.utf8 {command : Str} (h : FromLine command) : isUtf8 command = true := by
  obtain ⟨_, _, _, _, _, msg, req, _, _, hd, _, hreq, rfl⟩ := h
  unfold Json.clientRequest at hreq
  have hvalue {name : String} {t : Str} : msg.value Json.getStr name [] = .ok t → isUtf8 t = true := Json.value_utf8 hd rfl
  obtain ⟨command, hcommand, hreq⟩ := bind_eq_ok.mp hreq
  obtain ⟨key, hkey, hreq⟩ := bind_eq_ok.mp hreq
  obtain ⟨value, hval, hreq⟩ := bind_eq_ok.mp hreq
  obtain ⟨clientId, _, hreq⟩ := bind_eq_ok.mp hreq
  have hblank : isUtf8 [32] = true := isUtf8_of_all rfl
  cases hid : msg.value Json.getInt "requestId" 0 with
  | error e =>
    rw [hid] at hreq
    cases hreq
  | ok requestId =>
    rw [hid] at hreq
    cases hreq
    exact isUtf8_append (isUtf8_append (isUtf8_append (isUtf8_append (hvalue hcommand) hblank) (hvalue hkey)) hblank) (hvalue hval)

/-! ## Which messages fit -/

namespace RaftNode

variable {n : RaftNode}

/-- Of a log whose commands come from lines, the messages of the two senders that fit are those that are short enough. -/
theorem messages_fit_iff (hn : ∀ e ∈ n.log, FromLine e.command) (nextIdx newIndex : ℤ) :
    ((n.heartbeatMessage nextIdx).Fits ↔ (n.heartbeatMessage nextIdx).size ≤ recvSize) ∧
      ((n.clientMessage nextIdx newIndex).Fits ↔ (n.clientMessage nextIdx newIndex).size ≤ recvSize) := by
  have hfits (m : AppendEntriesRPC) (hm : ∀ e ∈ m.entries, e ∈ n.log) : m.Fits ↔ m.size ≤ recvSize :=
    m.fits_iff.trans ⟨And.right, fun h => ⟨fun e he => (hn e (hm e he)).utf8, h⟩⟩
  exact ⟨hfits _ fun _ he => mem_getLogEntries he, hfits _ fun _ he => mem_getLogEntries he⟩

end RaftNode

/-- The line `PUT k v`. -/
theorem fromLine_put : FromLine (ascii "PUT k v") := by
  obtain ⟨s', hs'⟩ : ∃ s' : Session, s' =
    { socket := 4, commandHistory := [ascii "PUT k v"], commandCount := 1, requestCounter := 1 } := ⟨_, rfl⟩
  have hline : (Session.start 4).handleLine (ascii "PUT k v") =
      .ok (s', [], .ask (.put (ascii "k")) (s'.message "PUT" (ascii "k") (ascii "v"))) := by
    subst hs'
    rfl
  have hdumps : (s'.message "PUT" (ascii "k") (ascii "v")).dumps = true := by
    rw [message_dumps s' (isUtf8_of_all rfl), isUtf8_of_all rfl, isUtf8_of_all rfl]
    rfl
  exact ⟨_, _, _, _, _, _, _, by decide, hline, hdumps, rfl, rfl, rfl⟩

namespace RaftNode

/-- A leader whose log has `k` entries for the line `PUT k v`. -/
def putLeader (k : ℕ) : RaftNode :=
  { RaftNode.create 0 5000 [5001] { metadata := none, snapshotFile := .absent } with
    state := .leader
    currentTerm := 1
    log := (List.range k).map fun (j : ℕ) => { term := 1, index := (j : ℤ), command := ascii "PUT k v", origin := ([], 0) } }

theorem putLeader_fromLine (k : ℕ) : ∀ e ∈ (putLeader k).log, FromLine e.command := by
  intro e he
  obtain ⟨_, _, rfl⟩ := List.mem_map.mp he
  exact fromLine_put

theorem putLeader_entries (k : ℕ) (newIndex : ℤ) : ((putLeader k).clientMessage 0 newIndex).entries.length = min (newIndex + 1).toNat k := by
  have hbase : (putLeader k).baseIndex = 0 := rfl
  have hlog : (putLeader k).log.length = k := by
    rw [show (putLeader k).log = (List.range k).map _ from rfl, List.length_map, List.length_range]
  show ((putLeader k).getLogEntries 0 (newIndex + 1)).length = _
  rw [getLogEntries_above hbase.le, hbase, List.length_take, List.length_drop, hlog]
  simp

theorem messages_fit_iff_putLeader :
    (((putLeader 1).heartbeatMessage 0).Fits ↔ ((putLeader 1).heartbeatMessage 0).size ≤ recvSize) ∧
      (((putLeader 1).clientMessage 0 0).Fits ↔ ((putLeader 1).clientMessage 0 0).size ≤ recvSize) :=
  messages_fit_iff (putLeader_fromLine 1) 0 0

end RaftNode

/-- Each entry takes 33 bytes at least. -/
theorem AppendEntriesRPC.size_ge (m : AppendEntriesRPC) : 33 * m.entries.length ≤ m.size := by
  have hpos (i : ℤ) : 1 ≤ width i := by
    cases i with
    | ofNat n => exact Nat.le_add_left 1 _
    | negSucc n => exact Nat.le_add_left 1 (_ + 1)
  have hsum (es : List LogEntry) : 33 * es.length ≤ (es.map LogEntry.size).sum := by
    induction es with
    | nil => exact le_rfl
    | cons e es ih =>
      have hi := hpos e.index
      have ht := hpos e.term
      rw [List.map_cons, List.sum_cons, List.length_cons, LogEntry.size]
      omega
  have := hsum m.entries
  unfold size
  omega

/-- A client command to a peer that lacks 300 entries makes a message that does not fit. -/
theorem RaftNode.message_overflows : ¬∀ n : RaftNode, (∀ e ∈ n.log, FromLine e.command) → ∀ nextIdx newIndex : ℤ,
    (n.heartbeatMessage nextIdx).Fits ∧ (n.clientMessage nextIdx newIndex).Fits := by
  intro h
  obtain ⟨_, hsize⟩ := ((putLeader 300).clientMessage 0 299).fits_iff.mp (h (putLeader 300) (putLeader_fromLine 300) 0 299).2
  have hge := ((putLeader 300).clientMessage 0 299).size_ge
  rw [putLeader_entries] at hge
  unfold recvSize at hsize
  omega

end RaftStore
