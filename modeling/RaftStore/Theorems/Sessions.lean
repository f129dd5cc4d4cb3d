import RaftStore.Lemmas.Images
import RaftStore.Lemmas.Node
import RaftStore.Session
import Mathlib.Data.Bool.AllAny

/-!
# Which lines bring the process down

A line of a client is handled without an exception but in four cases: a number after `!` or in the argument of `LOGS` that is no `int`, a
`SNAPSHOT` that no node answers, and a `GET` to which a node has the result `OK`. Every other value that `handle_client` reads is in the
reply of a node.
-/

namespace RaftStore

/-! ## Exceptions -/

/-- A step that follows on another one ends well where both do. -/
theorem bind_eq_ok {α β : Type} {x : Except Exception α} {f : α → Except Exception β} {b : β} :
    x.bind f = .ok b ↔ ∃ a, x = .ok a ∧ f a = .ok b := by
  cases x with
  | error e => exact ⟨nofun, nofun⟩
  | ok a =>
    refine ⟨fun h => ⟨a, rfl, h⟩, ?_⟩
    rintro ⟨_, ha, hf⟩
    cases ha
    exact hf

/-- A value that a result is made of. -/
theorem map_eq_ok {α β : Type} {x : Except Exception α} {f : α → β} {b : β} : x.map f = .ok b ↔ ∃ a, x = .ok a ∧ f a = b := by
  cases x with
  | error e => exact ⟨nofun, nofun⟩
  | ok a =>
    refine ⟨fun h => ⟨a, rfl, Except.ok.inj h⟩, ?_⟩
    rintro ⟨_, ha, hf⟩
    cases ha
    exact congrArg Except.ok hf

@[simp] theorem isOk_map {α β : Type} (x : Except Exception α) (f : α → β) : (x.map f).isOk = x.isOk := by
  cases x with
  | error e => rfl
  | ok a => rfl

theorem isOk_iff {α : Type} {x : Except Exception α} : x.isOk = true ↔ ∃ a, x = .ok a := by
  cases x with
  | error e => exact ⟨nofun, nofun⟩
  | ok a => exact ⟨fun _ => ⟨a, rfl⟩, fun _ => rfl⟩

/-! ## Numbers -/

theorem isDigit_not_space {c : UInt8} (h : isDigit c = true) : isSpace c = false ∧ c ≠ 45 ∧ c ≠ 43 := by
  unfold isDigit at h
  unfold isSpace
  obtain ⟨hlow, hhigh⟩ := (Bool.and_eq_true _ _ ▸ h : _ ∧ _)
  have hl := UInt8.le_iff_toNat_le.mp (of_decide_eq_true hlow)
  have hne (d : UInt8) (hd : d.toNat < 48) : c ≠ d := by
    rintro rfl
    exact absurd hl (by simpa using hd)
  have h13 : ¬c ≤ 13 := fun hc => by
    have := UInt8.le_iff_toNat_le.mp hc
    simp at hl this
    omega
  refine ⟨?_, hne 45 (by decide), hne 43 (by decide)⟩
  simp [hne 32 (by decide), h13]

theorem sign_of_ne {c : UInt8} {rest : Str} (hm : c ≠ 45) (hp : c ≠ 43) : sign (c :: rest) = (false, c :: rest) := by
  unfold sign
  split
  · next heq => exact absurd (List.cons.inj heq).1 hm
  · next heq => exact absurd (List.cons.inj heq).1 hp
  · rfl

/-- `std::stoi` of a text that starts with a digit throws where the digits make no `int`. -/
theorem stoi_isOk {c : UInt8} {rest : Str} (h : isDigit c = true) :
    (stoi (c :: rest)).isOk = true ↔ ofDecimal ((c :: rest).takeWhile isDigit) < 2 ^ 31 := by
  obtain ⟨hs, h45, h43⟩ := isDigit_not_space h
  have hstoi : stoi (c :: rest) = if ofDecimal ((c :: rest).takeWhile isDigit) < 2 ^ 31 then
      .ok (ofDecimal ((c :: rest).takeWhile isDigit) : ℤ) else .error .outOfRange := by
    unfold stoi
    rw [List.dropWhile_cons_of_neg (by simp [hs]), sign_of_ne h45 h43]
    simp only
    rw [if_neg (by simp [h])]
    simp only [Bool.false_eq_true, if_false]
    congr 1
    exact propext ⟨fun ⟨_, hlt⟩ => by omega, fun hlt => ⟨by omega, by omega⟩⟩
  rw [hstoi]
  split
  · next hlt => exact ⟨fun _ => hlt, fun _ => rfl⟩
  · next hge => exact ⟨nofun, fun hlt => absurd hlt hge⟩

/-- The digits in the argument of `LOGS` make an `int`. -/
def LogsFit (word : Str) : Prop := ofDecimal (word.filter isDigit) < 2 ^ 31

theorem logsCount_isOk (word : Str) : (logsCount word).isOk = true ↔ LogsFit word := by
  unfold logsCount LogsFit
  cases hd : word.filter isDigit with
  | nil => exact ⟨fun _ => by decide, fun _ => rfl⟩
  | cons c rest =>
    have hall : ∀ x ∈ c :: rest, isDigit x = true := by
      rw [← hd]
      exact fun x hx => (List.mem_filter.mp hx).2
    simp only [reduceCtorEq, if_false, isOk_map]
    rw [stoi_isOk (hall c List.mem_cons_self), List.takeWhile_eq_self_iff.mpr hall]

/-- The number of a `!n` is an `int`. -/
def RecallFits : Str → Prop
  | 33 :: c :: rest => isDigit c = true → ofDecimal ((c :: rest).takeWhile isDigit) < 2 ^ 31
  | _ => True

theorem fromHistory_isOk (history : List Str) (command : Str) (iss : TextStream) :
    (fromHistory history command iss).isOk = true ↔ RecallFits command := by
  fun_cases RecallFits command with
  | case1 c rest =>
    unfold fromHistory
    split
    · next heq =>
      cases heq
      exact ⟨fun _ => nofun, fun _ => rfl⟩
    · split
      · next heq =>
        cases heq
        by_cases hd : isDigit c = true
        · rw [if_pos hd, isOk_map, stoi_isOk hd]
          exact ⟨fun h _ => h, fun h => h hd⟩
        · rw [if_neg hd]
          exact ⟨fun _ h => absurd h hd, fun _ => rfl⟩
      · next hno => exact absurd rfl (hno c rest)
  | case2 _ hno =>
    unfold fromHistory
    split
    · exact ⟨fun _ => trivial, fun _ => rfl⟩
    · split
      · next c rest _ => exact absurd rfl (hno c rest)
      · exact ⟨fun _ => trivial, fun _ => rfl⟩

/-! ## Requests -/

/-- The status of a reply is `OK`. -/
def Json.isOk (reply : Json) : Bool :=
  match reply.member "status" with
  | .ok status => status.isLit "OK"
  | .error _ => false

/-- A call gives this reply to the message, and its status is `OK`. -/
def Asked.Serves (msg reply : Json) (c : Asked) : Prop :=
  ∃ v, c.answer = some v ∧ msg.dumps = true ∧ (v.handle msg).2 = reply ∧ reply.isOk = true

namespace Sending

variable {p : Sending} {c : Asked} {msg reply : Json}

theorem follow_isOk {random : ℕ} (h : reply.isOk = true) : p.follow random reply = .ok (.inr reply) := by
  unfold Json.isOk at h
  unfold follow
  split at h
  · next status hs =>
    rw [hs]
    exact if_pos h
  · cases h

theorem follow_inr {random : ℕ} {reply' : Json} (h : p.follow random reply = .ok (.inr reply')) : reply = reply' ∧ reply.isOk = true := by
  unfold follow at h
  unfold Json.isOk
  cases hs : reply.member "status" with
  | error e =>
    rw [hs] at h
    cases h
  | ok status =>
    rw [hs] at h
    simp only [Except.bind] at h ⊢
    split at h
    · next hok => exact ⟨Sum.inr.inj (Except.ok.inj h), hok⟩
    · split at h
      · cases hv : reply.value Json.getInt "leaderId" (-1) with
        | error e =>
          rw [hv] at h
          cases h
        | ok leaderId =>
          rw [hv] at h
          cases h
      · cases h

/-- The loop returns the reply that has the status `OK`. -/
theorem turn_serves (h : c.Serves msg reply) : p.turn msg c = .inr reply := by
  obtain ⟨v, hv, hd, rfl, hok⟩ := h
  unfold turn
  simp only [hv, hd, if_true, follow_isOk hok]

theorem turn_inr (h : p.turn msg c = .inr reply) : c.Serves msg reply := by
  unfold turn at h
  split at h
  · cases h
  · next v hv =>
    split at h
    · next hd =>
      split at h
      · next hf =>
        obtain ⟨rfl, hok⟩ := follow_inr (hf.trans (congrArg _ h))
        exact ⟨v, hv, hd, rfl, hok⟩
      · cases h
    · cases h

end Sending

/-- What `sendClientRequest` returns: the one reply with the status `OK` that a call gives, or its own reply where none does. -/
theorem sendClientRequest_cases {msg reply : Json} {p : Sending} {cs : List Asked} (h : sendClientRequest msg p cs = some reply) :
    (reply = unreachable ∧ ∀ c ∈ cs, ∀ r, ¬c.Serves msg r) ∨
      (∃ c ∈ cs, c.Serves msg reply) ∧ ∀ c ∈ cs, ∀ r, c.Serves msg r → r = reply := by
  induction cs generalizing p with
  | nil =>
    unfold sendClientRequest at h
    split at h
    · cases h
    · exact .inl ⟨(Option.some.inj h).symm, fun _ hc => absurd hc List.not_mem_nil⟩
  | cons c cs ih =>
    unfold sendClientRequest at h
    split at h
    · cases ht : p.turn msg c with
      | inr r =>
        simp only [ht] at h
        split at h
        · next hnil =>
          obtain rfl := List.isEmpty_iff.mp hnil
          obtain rfl := Option.some.inj h
          have hserves := Sending.turn_inr ht
          refine .inr ⟨⟨c, List.mem_singleton_self c, hserves⟩, fun c' hc r' hr => ?_⟩
          obtain rfl := List.mem_singleton.mp hc
          exact Sum.inr.inj ((Sending.turn_serves (p := p) hr).symm.trans ht)
        · cases h
      | inl p' =>
        simp only [ht] at h
        have hno (r : Json) : ¬c.Serves msg r := fun hr => by
          have := (Sending.turn_serves (p := p) hr).symm.trans ht
          cases this
        rcases ih h with ⟨hun, hnone⟩ | ⟨⟨c', hc', hs⟩, hall⟩
        · exact .inl ⟨hun, List.forall_mem_cons.mpr ⟨hno, hnone⟩⟩
        · exact .inr ⟨⟨c', List.mem_cons_of_mem c hc', hs⟩, List.forall_mem_cons.mpr ⟨fun r hr => absurd hr (hno r), hall⟩⟩
    · cases h

/-! ## Responses -/

/-- A response from pieces throws where one of them does. -/
theorem render_isOk (reply : Json) (cells : List Cell) : (render reply cells).isOk = cells.all fun c => (c.render reply).isOk := by
  induction cells with
  | nil => rfl
  | cons c cs ih =>
    show ((c.render reply).bind _).isOk = _
    rw [List.all_cons, ← ih]
    cases c.render reply with
    | error _ => rfl
    | ok s => exact isOk_map _ _

theorem renderAll_isOk {line : Json → Except Exception Str} {js : List Json} (h : ∀ j ∈ js, (line j).isOk = true) :
    (renderAll line js).isOk = true := by
  induction js with
  | nil => rfl
  | cons j js ih =>
    obtain ⟨hj, hjs⟩ := List.forall_mem_cons.mp h
    obtain ⟨s, hs⟩ := isOk_iff.mp hj
    unfold renderAll
    rw [hs]
    exact (isOk_map _ _).trans (ih hjs)

theorem listing_isOk {reply j : Json} {upper lower : List Cell} {name : String} {line : Json → Except Exception Str}
    (hu : (render reply upper).isOk = true) (hj : reply.member name = .ok j) (hl : ∀ x ∈ j.elements, (line x).isOk = true)
    (hb : (render reply lower).isOk = true) : (listing reply upper name line lower).isOk = true := by
  obtain ⟨first, hf⟩ := isOk_iff.mp hu
  obtain ⟨lines, hls⟩ := isOk_iff.mp (renderAll_isOk hl)
  unfold listing
  rw [hf, hj]
  show ((renderAll line j.elements).bind _).isOk = true
  rw [hls]
  exact (isOk_map _ _).trans hb

/-- A table is shown where the status is `OK`; for `unreachable` the failure is. -/
theorem shown_isOk {reply : Json} {table : Except Exception Str} {failed : String} {status : Json} (hs : reply.member "status" = .ok status)
    (ht : status.isLit "OK" = true → table.isOk = true) : (shown reply table failed).isOk = true := by
  unfold shown
  rw [hs]
  show (if status.isLit "OK" = true then table else _).isOk = true
  split
  · next h => exact ht h
  · rfl

variable (v : Served)

theorem statusTable_isOk : (render v.status.2 statusTable).isOk = true := by
  rw [render_isOk]
  rfl

theorem metricsTable_isOk : (render v.reportMetrics.2 metricsTable).isOk = true := by
  rw [render_isOk]
  rfl

theorem watchTable_isOk : (render v.reportMetrics.2 watchTable).isOk = true := by
  rw [render_isOk]
  rfl

theorem logSizeTable_isOk : (render v.logSize.2 logSizeTable).isOk = true := by
  rw [render_isOk]
  rfl

theorem entryRows_isOk (e : LogEntry) : (entryRows (Served.logJson e)).isOk = true := rfl

theorem peerRow_isOk (n : RaftNode) (i : ℕ) (port : ℤ) : (render (Served.peerJson n i port) peerRow).isOk = true := by
  rw [render_isOk]
  rfl

/-! ## Messages -/

theorem digits_low (fuel n : ℕ) : ∀ b ∈ digits fuel n, b < 0x80 := by
  induction fuel generalizing n with
  | zero => exact fun _ hb => absurd hb List.not_mem_nil
  | succ fuel ih =>
    unfold digits
    refine List.forall_mem_cons.mpr ⟨?_, ?_⟩
    · rw [UInt8.lt_iff_toNat_lt, Nat.toUInt8_eq, UInt8.toNat_ofNat']
      show (48 + n % 10) % 256 < 128
      omega
    · split
      · exact fun _ hb => absurd hb List.not_mem_nil
      · exact ih _

theorem toString_low (i : ℤ) : ∀ b ∈ toString i, b < 0x80 := by
  intro b hb
  cases i with
  | ofNat n => exact digits_low _ _ b (List.mem_reverse.mp hb)
  | negSucc n =>
    rcases List.mem_cons.mp hb with rfl | hb
    · decide
    · exact digits_low _ _ b (List.mem_reverse.mp hb)

theorem clientIdOf_utf8 (socket : ℕ) : isUtf8 (clientIdOf socket) = true := by
  refine isUtf8_of_low fun b hb => ?_
  rcases List.mem_append.mp hb with hb | hb
  · exact (show ∀ b ∈ ascii "client-", b < 0x80 from List.all_iff_forall_prop.mp rfl) b hb
  · exact toString_low _ b hb

/-- A message of a client is sent where key and value are valid UTF-8. -/
theorem message_dumps (s : Session) {command : String} (hc : isUtf8 (ascii command) = true) (key value : Str) :
    (s.message command key value).dumps = (isUtf8 key && isUtf8 value) := by
  have hrpc : isUtf8 (ascii "ClientRequest") = true := isUtf8_of_all rfl
  simp only [Session.message, Json.lit, Json.dumps, Json.dumpsMembers, clientIdOf_utf8, hrpc, hc, Bool.and_true, Bool.true_and]

theorem getMessage_dumps (s : Session) (key : Str) : (s.message "GET" key []).dumps = isUtf8 key := by
  rw [message_dumps s (isUtf8_of_all rfl)]
  exact Bool.and_true _

theorem snapshotMessage_dumps : (plainMessage "SNAPSHOT_NOW").dumps = true := by
  simp only [plainMessage, Json.lit, Json.dumps, Json.dumpsMembers, Bool.and_true]
  exact isUtf8_of_all rfl

/-- The reply to a `GET` of a leader, by the string that `handleClientCommand` has returned. -/
def getReply (result : Str) : Json :=
  if result = ascii "OK" then .obj [Served.ok]
  else if result = ascii "key not found" then .obj [("status", .lit "error"), ("msg", .str result)]
  else .obj [Served.ok, ("value", .str result)]

section

variable (v : Served) (s : Session) (key value : Str)

theorem handle_snapshotNow : v.handle (plainMessage "SNAPSHOT_NOW") = v.snapshotNow := rfl

theorem handle_clusterInfo : v.handle (plainMessage "CLUSTER_INFO") = v.clusterInfo := rfl

/-- The reply to `GET_LOGS`. -/
theorem handle_getLogs (count : ℤ) : ∃ logs : List LogEntry, (v.handle (.obj [("rpc", .lit "GET_LOGS"), ("count", .int count)])).2 = .obj
    [Served.ok, ("logs", .arr (logs.map Served.logJson)), ("total_count", .int v.node.log.length), ("returned_count", .int logs.length)] :=
  ⟨_, rfl⟩

theorem handle_clientRequest {msg : Json} (hrpc : msg.member "rpc" = .ok (.lit "ClientRequest")) : v.handle msg =
    match v.clientRequest msg with
    | .ok x => x
    | .error _ => (v, .obj [("error", .lit "Invalid JSON")]) := by
  unfold Served.handle
  rw [hrpc]
  rfl

/-- The branch of `ClientRequest` for a `GET` that is read without an exception. -/
theorem clientRequest_get {msg : Json} {key value clientId : Str} {requestId : ℤ}
    (hcommand : msg.value Json.getStr "command" [] = .ok (ascii "GET")) (hkey : msg.value Json.getStr "key" [] = .ok key)
    (hvalue : msg.value Json.getStr "value" [] = .ok value) (hclient : msg.value Json.getStr "clientId" [] = .ok clientId)
    (hid : msg.value Json.getInt "requestId" 0 = .ok requestId) : ∃ v', v.clientRequest msg = .ok (v',
      if v.node.state ≠ .leader then .obj [("status", .lit "redirect"), ("leaderId", .int v.node.leaderId)]
      else getReply v.result) := by
  unfold Served.clientRequest getReply
  simp only [hcommand, hkey, hvalue, hclient, hid, Except.bind]
  by_cases hlead : v.node.state ≠ .leader
  · exact ⟨_, by rw [if_pos hlead, if_pos hlead]⟩
  · rw [if_neg hlead, if_neg hlead]
    by_cases hok : v.result = ascii "OK"
    · exact ⟨_, by rw [if_pos hok, if_pos hok]⟩
    · rw [if_neg hok, if_neg hok]
      by_cases hnone : v.result = ascii "key not found"
      · exact ⟨_, by rw [if_pos hnone, if_pos hnone]⟩
      · exact ⟨_, by rw [if_neg hnone, if_neg hnone, if_pos trivial]⟩

/-- The reply to a `GET`. -/
theorem handle_get : (v.handle (s.message "GET" key [])).2 =
    if v.node.state ≠ .leader then .obj [("status", .lit "redirect"), ("leaderId", .int v.node.leaderId)]
    else if v.result = ascii "OK" then .obj [Served.ok]
    else if v.result = ascii "key not found" then .obj [("status", .lit "error"), ("msg", .str v.result)]
    else .obj [Served.ok, ("value", .str v.result)] := by
  obtain ⟨v', hv'⟩ := clientRequest_get v (show (s.message "GET" key []).value Json.getStr "command" [] = _ from rfl) rfl rfl rfl rfl
  rw [handle_clientRequest v rfl, hv']
  rfl

/-- A snapshot is taken where `triggerSnapshot` takes one. -/
theorem snapshotNow_isOk : v.snapshotNow.2.isOk = true ↔ v.node.log ≠ [] ∧ (v.node.newSnapshot v.store).dumps = true ∧
    (v.node.createSnapshot v.store).1.dumpsMetadata = true := by
  unfold Served.snapshotNow
  cases hr : v.node.triggerSnapshot v.store with
  | none =>
    refine ⟨nofun, fun h => ?_⟩
    rw [RaftNode.triggerSnapshot_eq_some.mpr ⟨h, rfl⟩] at hr
    cases hr
  | some x => exact ⟨fun _ => (RaftNode.triggerSnapshot_eq_some.mp hr).1, fun _ => rfl⟩

end

/-! ## Replies -/

/-- A call finds a leader with the result `OK` for the request. -/
def Requests.FindsOk (r : Requests) : Prop :=
  ∃ c ∈ r.calls, ∃ v, c.answer = some v ∧ v.node.state = .leader ∧ v.result = ascii "OK"

/-- A call finds a node that can take a snapshot: it has a log, and the strings of the store and of the node can be dumped. -/
def Requests.FindsLog (r : Requests) : Prop :=
  ∃ c ∈ r.calls, ∃ v, c.answer = some v ∧ v.node.log ≠ [] ∧ (v.node.newSnapshot v.store).dumps = true ∧
    (v.node.createSnapshot v.store).1.dumpsMetadata = true

variable {r : Requests} {reply msg : Json} {s : Session} {key : Str}

/-- A reply is `unreachable`, or one of a node whose status is `OK`. -/
theorem Requests.reply_cases (h : r.reply msg = some reply) : reply = unreachable ∨ ∃ v : Served, (v.handle msg).2 = reply ∧ reply.isOk = true := by
  rcases sendClientRequest_cases h with ⟨hun, _⟩ | ⟨⟨c, _, v, _, _, hv, hok⟩, _⟩
  · exact .inl hun
  · exact .inr ⟨v, hv, hok⟩

/-- The response to a write does not depend on what else is in the reply. -/
theorem written_isOk {done failed : Str} (h : r.reply msg = some reply) : (written reply done failed).isOk = true := by
  rcases Requests.reply_cases h with rfl | ⟨_, _, hok⟩
  · rfl
  · unfold Json.isOk at hok
    unfold written
    split at hok
    · next status hs =>
      rw [hs]
      show Except.isOk (if status.isLit "OK" = true then _ else _) = true
      rw [if_pos hok]
      rfl
    · cases hok

/-- A table is shown, or a failure. -/
theorem shown_reply (table : Json → Except Exception Str) {failed : String} (h : r.reply msg = some reply)
    (ht : ∀ v : Served, (table (v.handle msg).2).isOk = true) : (shown reply (table reply) failed).isOk = true := by
  rcases Requests.reply_cases h with rfl | ⟨v, rfl, hok⟩
  · rfl
  · unfold Json.isOk at hok
    split at hok
    · next status hs => exact shown_isOk hs fun _ => ht v
    · cases hok

/-- A `GET` throws where its result is `OK`. -/
theorem get_isOk (h : r.reply (s.message "GET" key []) = some reply) :
    ((Query.get key).respond reply).isOk = true ↔ (isUtf8 key = true → ¬r.FindsOk) := by
  constructor
  · rintro hrespond hutf8 ⟨c, hc, v, hv, hlead, hresult⟩
    have hserves : c.Serves (s.message "GET" key []) (.obj [Served.ok]) := by
      refine ⟨v, hv, (getMessage_dumps s key).trans hutf8, ?_, rfl⟩
      rw [handle_get, if_neg (not_not_intro hlead), if_pos hresult]
    rcases sendClientRequest_cases h with ⟨_, hnone⟩ | ⟨_, hall⟩
    · exact hnone c hc _ hserves
    · obtain rfl := hall c hc _ hserves
      cases hrespond
  · intro hno
    rcases sendClientRequest_cases h with ⟨rfl, _⟩ | ⟨⟨c, hc, v, hv, hdumps, rfl, hok⟩, _⟩
    · rfl
    · have hget := handle_get v s key
      rw [hget] at hok ⊢
      split at hok
      · cases hok
      · next hlead =>
        rw [if_neg hlead]
        split at hok
        · next hresult =>
          exact absurd ⟨c, hc, v, hv, not_not.mp hlead, hresult⟩ (hno ((getMessage_dumps s key).symm.trans hdumps))
        · next hresult =>
          rw [if_neg hresult]
          split at hok
          · cases hok
          · next hfound =>
            rw [if_neg hfound]
            rfl

/-- A `SNAPSHOT` throws where no node takes one. -/
theorem snapshot_isOk (h : r.reply (plainMessage "SNAPSHOT_NOW") = some reply) :
    (Query.snapshot.respond reply).isOk = true ↔ r.FindsLog := by
  constructor
  · intro hrespond
    rcases sendClientRequest_cases h with ⟨rfl, _⟩ | ⟨⟨c, hc, v, hv, _, rfl, hok⟩, _⟩
    · cases hrespond
    · exact ⟨c, hc, v, hv, (snapshotNow_isOk v).mp hok⟩
  · rintro ⟨c, hc, v, hv, hlog⟩
    have hserves : c.Serves (plainMessage "SNAPSHOT_NOW") v.snapshotNow.2 :=
      ⟨v, hv, snapshotMessage_dumps, congrArg Prod.snd (handle_snapshotNow v), (snapshotNow_isOk v).mpr hlog⟩
    rcases sendClientRequest_cases h with ⟨_, hnone⟩ | ⟨_, hall⟩
    · exact absurd hserves (hnone c hc _)
    · rw [← hall c hc _ hserves]
      unfold Served.snapshotNow
      rw [RaftNode.triggerSnapshot_eq_some.mpr ⟨hlog, rfl⟩]
      rfl

/-! ## Commands -/

/-- The commands that ask the nodes, each with its message. -/
inductive Session.Asks (s : Session) (word : Str) : Command → Query → Json → Prop
  | put (key value : Str) : Asks s word .put (.put key) (s.message "PUT" key value)
  | get (hw : word ≠ []) : Asks s word .get (.get word) (s.message "GET" word [])
  | delete : Asks s word .delete (.delete word) (s.message "DELETE" word [])
  | status : Asks s word .status .status (plainMessage "STATUS")
  | metrics : Asks s word .metrics .metrics (plainMessage "METRICS")
  | logSize : Asks s word .logSize .logSize (plainMessage "LOGSIZE")
  | snapshot : Asks s word .snapshot .snapshot (plainMessage "SNAPSHOT_NOW")
  | logs (count : ℤ) : Asks s word .logs .logs (.obj [("rpc", .lit "GET_LOGS"), ("count", .int count)])
  | cluster : Asks s word .cluster .cluster (plainMessage "CLUSTER_INFO")

variable {command : Command} {word : Str} {iss : TextStream} {q : Query} {rounds : List Round}

/-- Only the argument of `LOGS` can make a command throw before the nodes are asked. -/
theorem dispatch_isOk : (s.dispatch command iss).isOk = true ↔ (command = .logs → LogsFit (iss.token.1.getD [])) := by
  by_cases hlogs : command = .logs
  · subst hlogs
    have hd : s.dispatch .logs iss = (logsCount (iss.token.1.getD [])).map _ := rfl
    rw [hd, isOk_map, logsCount_isOk]
    exact ⟨fun h _ => h, fun h => h rfl⟩
  · refine ⟨fun _ h => absurd h hlogs, fun _ => ?_⟩
    unfold Session.dispatch
    cases command <;> first | rfl | exact absurd rfl hlogs

/-- The commands that ask the nodes. -/
theorem dispatch_ask (h : s.dispatch command iss = .ok (.ask q msg)) : s.Asks (iss.token.1.getD []) command q msg := by
  unfold Session.dispatch at h
  cases command with
  | put =>
    simp only [Except.ok.injEq] at h
    split at h
    · cases h
    · split at h
      · cases h
      · cases h
        exact .put _ _
  | get =>
    simp only [Except.ok.injEq] at h
    split at h
    · cases h
    · next hw =>
      cases h
      exact .get hw
  | delete =>
    simp only [Except.ok.injEq] at h
    split at h
    · cases h
    · cases h
      exact .delete
  | logs =>
    cases hc : logsCount (iss.token.1.getD []) with
    | error e =>
      simp only [hc] at h
      cases h
    | ok count =>
      simp only [hc] at h
      cases h
      exact .logs count
  | status | metrics | logSize | snapshot | cluster =>
    cases h
    constructor
  | exitRaft | exitServer =>
    simp only [Except.ok.injEq] at h
    split at h <;> cases h
  | watch | help | history | stats | clear | exit | unknown => cases h

/-- A command that asks no node is neither `SNAPSHOT` nor a `GET` with a key. -/
theorem dispatch_other {todo : Todo} (h : s.dispatch command iss = .ok todo) (hno : ∀ q msg, todo ≠ .ask q msg) :
    command ≠ .snapshot ∧ (command = .get → iss.token.1.getD [] = []) := by
  constructor
  · rintro rfl
    exact hno _ _ (Except.ok.inj h).symm
  · rintro rfl
    by_contra hw
    have hask := Except.ok.inj h
    rw [if_neg hw] at hask
    exact hno _ _ hask.symm

/-- The response to a reply, by the command. -/
theorem Session.Asks.respond_isOk (ha : s.Asks word command q msg) (h : r.reply msg = some reply) :
    (q.respond reply).isOk = true ↔
      (command = .snapshot → r.FindsLog) ∧ (command = .get → word ≠ [] → isUtf8 word = true → ¬r.FindsOk) := by
  have hplain (hr : (q.respond reply).isOk = true) (hs : command ≠ .snapshot) (hg : command ≠ .get) : (q.respond reply).isOk = true ↔
      (command = .snapshot → r.FindsLog) ∧ (command = .get → word ≠ [] → isUtf8 word = true → ¬r.FindsOk) :=
    ⟨fun _ => ⟨fun h => absurd h hs, fun h => absurd h hg⟩, fun _ => hr⟩
  cases ha with
  | put key value => exact hplain (written_isOk h) nofun nofun
  | delete => exact hplain (written_isOk h) nofun nofun
  | status => exact hplain (shown_reply (fun j => render j statusTable) h statusTable_isOk) nofun nofun
  | metrics => exact hplain (shown_reply (fun j => render j metricsTable) h metricsTable_isOk) nofun nofun
  | logSize => exact hplain (shown_reply (fun j => render j logSizeTable) h logSizeTable_isOk) nofun nofun
  | logs count =>
    refine hplain (shown_reply (fun j => listing j _ "logs" entryRows _) h fun v => ?_) nofun nofun
    obtain ⟨logs, hlogs⟩ := handle_getLogs v count
    rw [hlogs]
    refine listing_isOk rfl rfl (fun x hx => ?_) rfl
    obtain ⟨e, _, rfl⟩ := List.mem_map.mp hx
    exact entryRows_isOk e
  | cluster =>
    refine hplain (shown_reply (fun j => listing j _ "nodes" (fun node => render node peerRow) _) h fun v => ?_) nofun nofun
    rw [handle_clusterInfo]
    refine listing_isOk rfl rfl (fun x hx => ?_) rfl
    obtain ⟨i, _, rfl⟩ := List.mem_mapIdx.mp hx
    exact peerRow_isOk _ _ _
  | get hw => exact (get_isOk h).trans ⟨fun hno => ⟨nofun, fun _ _ => hno⟩, fun hno => hno.2 rfl hw⟩
  | snapshot => exact (snapshot_isOk h).trans ⟨fun hl => ⟨fun _ => hl, nofun⟩, fun hl => hl.1 rfl⟩

/-! ## Lines -/

/-- The watch mode never throws. -/
theorem watch_isOk {interval : ℤ} {refreshCount : ℕ} {result : Except Exception (List Str)}
    (h : watch interval refreshCount rounds = some result) : result.isOk = true := by
  induction rounds generalizing refreshCount result with
  | nil =>
    unfold watch at h
    split at h
    · cases h
    · cases h
      rfl
  | cons r rs ih =>
    unfold watch at h
    split at h
    · obtain ⟨reply, hr, h⟩ := Option.bind_eq_some_iff.mp h
      have hout : (watchOutput interval refreshCount reply).isOk = true := by
        rcases Requests.reply_cases hr with rfl | ⟨v, rfl, hok⟩
        · rfl
        · unfold watchOutput
          unfold Json.isOk at hok
          split at hok
          · next status hs =>
            rw [hs]
            show Except.isOk (if status.isLit "OK" = true then _ else _) = true
            rw [if_pos hok, isOk_map]
            exact watchTable_isOk v
          · cases hok
      obtain ⟨output, ho⟩ := isOk_iff.mp hout
      simp only [ho] at h
      split at h
      · split at h
        · cases h
          rfl
        · cases h
      · obtain ⟨rest, hrest, rfl⟩ := Option.map_eq_some_iff.mp h
        exact (isOk_map _ _).trans (ih hrest)
    · cases h

/-- The word that a line starts with, and the stream behind it. -/
def typed (received : Str) : Option (Str × TextStream) :=
  match (TextStream.ofStr (commandLine received)).token with
  | (none, _) => none
  | (some word, iss) => some (word, iss)

/-- The command that a line leads to, and the word behind it. -/
def Session.commandOf (s : Session) (received : Str) : Option (Command × Str) :=
  (typed received).bind fun (word, iss) =>
    match fromHistory (s.commandHistory ++ [commandLine received]) word iss with
    | .ok (_, some (command, iss)) => some (.ofName (resolveCommandAlias command), iss.token.1.getD [])
    | _ => none

/-- A number after `!` and the number in the argument of `LOGS` are of type `int`, a node takes the snapshot that is asked for, and no
leader has the result `OK` for a `GET`. -/
structure Session.Handled (s : Session) (received : Str) (rounds : List Round) : Prop where
  fromHistory : ∀ word iss, typed received = some (word, iss) → RecallFits word
  logs : ∀ word, s.commandOf received = some (.logs, word) → LogsFit word
  snapshot : ∀ word, s.commandOf received = some (.snapshot, word) → ∀ r ∈ rounds, r.requests.FindsLog
  get : ∀ word, s.commandOf received = some (.get, word) → word ≠ [] → isUtf8 word = true → ∀ r ∈ rounds, ¬r.requests.FindsOk

/-- A line without a word leads to nothing. -/
theorem handleLine_blank {received : Str} (s : Session) (h : typed received = none) : ∃ s', s.handleLine received = .ok (s', [], .next) := by
  unfold typed at h
  unfold Session.handleLine
  simp only
  split
  · exact ⟨s, rfl⟩
  · split
    · exact ⟨_, rfl⟩
    · next heq =>
      rw [heq] at h
      cases h

/-- A line with a word leads to what its command does. -/
theorem handleLine_typed {received : Str} {iss : TextStream} (s : Session) (h : typed received = some (word, iss)) : ∃ s' : Session,
    s.handleLine received = (fromHistory (s.commandHistory ++ [commandLine received]) word iss).bind fun (sent, next) =>
      match next with
      | none => .ok (s', sent, .next)
      | some (command, iss) => (s'.dispatch (.ofName (resolveCommandAlias command)) iss).map fun todo => (s', sent, todo) := by
  unfold typed at h
  unfold Session.handleLine
  simp only
  split
  · next hnil =>
    rw [hnil] at h
    cases h
  · split
    · next heq =>
      rw [heq] at h
      cases h
    · next heq =>
      rw [heq] at h
      cases h
      exact ⟨_, rfl⟩

/-- What a command leads to throws where the response to the reply does. -/
theorem carryOut_isOk {sent : Str} {todo : Todo} {result : Except Exception (Session × List Str)} (hd : s.dispatch command iss = .ok todo)
    (h : s.carryOut sent rounds todo = some result) : result.isOk = true ↔ (command = .snapshot → ∀ r ∈ rounds, r.requests.FindsLog) ∧
      (command = .get → iss.token.1.getD [] ≠ [] → isUtf8 (iss.token.1.getD []) = true → ∀ r ∈ rounds, ¬r.requests.FindsOk) := by
  have hother (hno : ∀ q msg, todo ≠ .ask q msg) (hok : result.isOk = true) :
      result.isOk = true ↔ (command = .snapshot → ∀ r ∈ rounds, r.requests.FindsLog) ∧
        (command = .get → iss.token.1.getD [] ≠ [] → isUtf8 (iss.token.1.getD []) = true → ∀ r ∈ rounds, ¬r.requests.FindsOk) := by
    obtain ⟨hs, hg⟩ := dispatch_other hd hno
    exact ⟨fun _ => ⟨fun hc => absurd hc hs, fun hc hw => absurd (hg hc) hw⟩, fun _ => hok⟩
  unfold Session.carryOut at h
  cases todo with
  | ask q msg =>
    simp only at h
    split at h
    · next r =>
      obtain ⟨reply, hr, rfl⟩ := Option.map_eq_some_iff.mp h
      rw [isOk_map, (dispatch_ask hd).respond_isOk hr]
      simp only [List.forall_mem_singleton]
    · cases h
  | watch interval =>
    obtain ⟨r, hr, rfl⟩ := Option.map_eq_some_iff.mp h
    exact hother nofun ((isOk_map _ _).trans (watch_isOk hr))
  | next | respond | screen | exitRaft | close =>
    cases h
    exact hother nofun rfl

/-- A line is handled without an exception in these cases, and in no others. -/
theorem Session.handleClient_ok_iff {received : Str} {result : Except Exception (Session × List Str)}
    (h : s.handleClient received rounds = some result) : (∃ x, result = .ok x) ↔ s.Handled received rounds := by
  rw [← isOk_iff]
  unfold Session.handleClient at h
  -- where no command is taken from the line, nothing is asked for
  have hidle (hr : ∀ word iss, typed received = some (word, iss) → RecallFits word) (hc : s.commandOf received = none)
      (hok : result.isOk = true) : result.isOk = true ↔ s.Handled received rounds :=
    ⟨fun _ => ⟨hr, by simp [hc], by simp [hc], by simp [hc]⟩, fun _ => hok⟩
  cases ht : typed received with
  | none =>
    obtain ⟨s', hline⟩ := handleLine_blank s ht
    rw [hline] at h
    cases h
    exact hidle (by simp [ht]) (by simp [Session.commandOf, ht]) rfl
  | some p =>
    obtain ⟨word, iss⟩ := p
    obtain ⟨s', hline⟩ := handleLine_typed s ht
    have hfrom := fromHistory_isOk (s.commandHistory ++ [commandLine received]) word iss
    have hword : (∀ w i, typed received = some (w, i) → RecallFits w) ↔ RecallFits word := by
      simp [ht]
    cases hr : fromHistory (s.commandHistory ++ [commandLine received]) word iss with
    | error e =>
      rw [hr] at hline hfrom
      rw [hline] at h
      cases h
      exact ⟨nofun, fun hh => hfrom.mpr (hword.mp hh.fromHistory)⟩
    | ok found =>
      have hfits : ∀ w i, typed received = some (w, i) → RecallFits w := hword.mpr (hfrom.mp (by rw [hr]; rfl))
      obtain ⟨sent, next⟩ := found
      rw [hr] at hline
      cases next with
      | none =>
        rw [hline] at h
        cases h
        exact hidle hfits (by simp [Session.commandOf, ht, hr]) rfl
      | some next =>
        obtain ⟨name, behind⟩ := next
        obtain ⟨command, hname⟩ : ∃ command, command = Command.ofName (resolveCommandAlias name) := ⟨_, rfl⟩
        have hcommand : s.commandOf received = some (command, behind.token.1.getD []) := by
          simp [Session.commandOf, ht, hr, hname]
        have hdispatch : s.handleLine received = (s'.dispatch command behind).map fun todo => (s', sent, todo) := by
          rw [hline, hname]
          rfl
        rw [hdispatch] at h
        have hlogs : (s'.dispatch command behind).isOk = true ↔ (command = .logs → LogsFit (behind.token.1.getD [])) := dispatch_isOk
        cases hd : s'.dispatch command behind with
        | error e =>
          rw [hd] at h hlogs
          cases h
          refine ⟨nofun, fun hh => hlogs.mpr fun hc => hh.logs _ (hc ▸ hcommand)⟩
        | ok todo =>
          rw [hd] at h hlogs
          rw [carryOut_isOk hd h]
          constructor
          · rintro ⟨hs, hg⟩
            refine ⟨hfits, fun w hw => ?_, fun w hw => ?_, fun w hw => ?_⟩
            all_goals obtain ⟨hc, rfl⟩ := Prod.mk.inj (Option.some.inj (hcommand.symm.trans hw))
            · exact hlogs.mp rfl hc
            · exact hs hc
            · exact hg hc
          · exact fun hh => ⟨fun hc => hh.snapshot _ (hc ▸ hcommand), fun hc => hh.get _ (hc ▸ hcommand)⟩

/-- A connection on which nothing has been typed. -/
def Session.start (socket : ℕ) : Session := { socket := socket, commandHistory := [], commandCount := 0, requestCounter := 0 }

/-- A request to which no node answers. -/
def unanswered : Round :=
  { requests := { random := 0, calls := List.replicate 3 { answer := none, random := 0 } }, polls := [] }

/-- A `SNAPSHOT` that no node answers. -/
theorem handleClient_ok_iff_snapshot : (∃ x, (.error .typeError : Except Exception (Session × List Str)) = .ok x) ↔
    (Session.start 4).Handled (ascii "SNAPSHOT") [unanswered] :=
  Session.handleClient_ok_iff (s := Session.start 4) rfl

/-- A number after `!` that is no `int` ends the thread. -/
theorem line_throws : ¬∀ (s : Session) (received : Str) (rounds : List Round) (result : Except Exception (Session × List Str)),
    s.handleClient received rounds = some result → ∃ x, result = .ok x := by
  intro h
  have hthrows : (Session.start 4).handleClient (ascii "!2147483648") [] = some (.error .outOfRange) := rfl
  obtain ⟨x, hx⟩ := h (Session.start 4) (ascii "!2147483648") [] _ hthrows
  cases hx

end RaftStore
