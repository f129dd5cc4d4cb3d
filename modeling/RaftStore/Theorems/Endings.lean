import RaftStore.Endings
import RaftStore.Theorems.Commands
import RaftStore.Theorems.Reads
import RaftStore.Theorems.Sessions

/-!
# What a GET is told

Values, markers and errors come back in one string, and the reply to a GET tells them apart by two fixed texts. So a value that is one of the
texts is not told, and every other error is told as a value.
-/

namespace RaftStore

/-! ## Results of commands -/

/-- To execute this command reports a missing key: it reads a key that is missing or holds just this text, or deletes a missing one. -/
def KVStore.Misses (s : KVStore) (command : Str) : Prop :=
  ((parseCommand command).1 = ascii "GET" ∧ ∀ val ∈ s.get (parseCommand command).2.1, val = ascii "key not found") ∨
    ((parseCommand command).1 = ascii "DELETE" ∧ s.get (parseCommand command).2.1 = none)

/-- The only results that are this text are those of commands that miss, or read it. -/
theorem KVStore.applyCommand_misses (s : KVStore) (command : Str) :
    (s.applyCommand command).2 = ascii "key not found" ↔ s.Misses command := by
  have hput : ascii "OK" ≠ ascii "key not found" := by decide
  have hother : ascii "error: unknown command" ≠ ascii "key not found" := by decide
  have hget : ascii "GET" ≠ ascii "DELETE" := by decide
  have hputGet : ascii "PUT" ≠ ascii "GET" := by decide
  have hputDelete : ascii "PUT" ≠ ascii "DELETE" := by decide
  unfold Misses
  by_cases hg : (parseCommand command).1 = ascii "GET"
  · rw [s.applyCommand_get hg]
    cases s.get (parseCommand command).2.1 <;> simp [hg, hget]
  · unfold applyCommand
    by_cases hp : (parseCommand command).1 = ascii "PUT"
    · simp [hp, hput, hputGet, hputDelete]
    · by_cases hd : (parseCommand command).1 = ascii "DELETE"
      · cases hkey : s.mp.lookup (parseCommand command).2.1 <;>
          simp [hd, hput, KVStore.remove, KVStore.get, hkey, hget.symm, hputDelete.symm]
      · simp [hp, hg, hd, hother]

/-- The first token of the entry for a GET. -/
theorem parseCommand_sendCommand {req : ClientRequest} (hget : req.command = ascii "GET") :
    (parseCommand (Site.sendCommand req)).1 = ascii "GET" := by
  have hsend : Site.sendCommand req = ascii "GET" ++ 32 :: (req.key ++ 32 :: req.value) := by simp [Site.sendCommand, hget]
  unfold parseCommand
  rw [hsend, takeToken_append (by decide) (List.all_iff_forall_prop.mp rfl)]

/-- A key without blanks is read back from the entry. -/
theorem parseCommand_sendCommand_key {req : ClientRequest} (hget : req.command = ascii "GET") (hne : req.key ≠ [])
    (hkey : ∀ b ∈ req.key, isSpace b = false) : (parseCommand (Site.sendCommand req)).2.1 = req.key := by
  have hsend : Site.sendCommand req = ascii "GET" ++ 32 :: (req.key ++ 32 :: req.value) := by simp [Site.sendCommand, hget]
  unfold parseCommand
  simp only [hsend, takeToken_append (show ascii "GET" ≠ [] by decide) (List.all_iff_forall_prop.mp rfl), takeToken_skip,
    takeToken_append hne hkey]

/-! ## Replies -/

/-- A value that comes out of the string again: it is neither of the two texts, and `dump` takes it. -/
def Carried (val : Str) : Prop := val ≠ ascii "OK" ∧ val ≠ ascii "key not found" ∧ isUtf8 val = true

/-- The string that tells what a key held: the text for a missing key where it held nothing, and else the value, if that is carried. -/
def Faithful (held : Option Str) (result : Str) : Prop :=
  match held with
  | none => result = ascii "key not found"
  | some val => result = val ∧ Carried val

theorem faithful_iff {held : Option Str} {result : Str} :
    Faithful held result ↔ (held = none ∧ result = ascii "key not found") ∨ (held = some result ∧ Carried result) := by
  cases held with
  | none => simp [Faithful]
  | some val =>
    constructor
    · rintro ⟨rfl, hval⟩
      exact .inr ⟨rfl, hval⟩
    · rintro (⟨hnone, _⟩ | ⟨heq, hval⟩)
      · cases hnone
      · obtain rfl := Option.some.inj heq
        exact ⟨rfl, hval⟩

/-- The empty string tells the empty value only. -/
theorem faithful_nil {held : Option Str} : Faithful held [] ↔ held = some [] := by
  have hcarried : Carried [] := ⟨by decide, by decide, rfl⟩
  rw [faithful_iff]
  constructor
  · rintro (⟨_, htext⟩ | ⟨hheld, _⟩)
    · exact absurd htext (by decide)
    · exact hheld
  · exact fun hheld => .inr ⟨hheld, hcarried⟩

/-- The reply can be sent where every value in it is valid UTF-8. -/
theorem getReply_dumps (result : Str) : (getReply result).dumps = (decide (result = ascii "OK") || isUtf8 result) := by
  have hok : isUtf8 (ascii "OK") = true := isUtf8_of_all rfl
  have herror : isUtf8 (ascii "error") = true := isUtf8_of_all rfl
  have hnone : isUtf8 (ascii "key not found") = true := isUtf8_of_all rfl
  unfold getReply
  split
  · next h => simp [h, Served.ok, Json.lit, Json.dumps, Json.dumpsMembers, hok]
  · next h =>
    split
    · next h' => simp [h', Json.lit, Json.dumps, Json.dumpsMembers, herror, hnone]
    · simp [h, Served.ok, Json.lit, Json.dumps, Json.dumpsMembers, hok]

section

variable {v : Served} {msg : Json} {session : ℕ} {req : ClientRequest} {result : Str} {held : Option Str}

/-- `handle_node_client` on a leader, with a message for a GET. -/
theorem Served.answer_get (hlead : v.node.state = .leader) (hrpc : msg.member "rpc" = .ok (.lit "ClientRequest"))
    (hreq : msg.clientRequest session = .ok req) (hget : req.command = ascii "GET") :
    v.answer msg = if v.result = ascii "OK" ∨ isUtf8 v.result then some (getReply v.result) else none := by
  obtain ⟨command, hcommand, hreq⟩ := bind_eq_ok.mp hreq
  obtain ⟨key, hkey, hreq⟩ := bind_eq_ok.mp hreq
  obtain ⟨value, hvalue, hreq⟩ := bind_eq_ok.mp hreq
  obtain ⟨clientId, hclient, hreq⟩ := bind_eq_ok.mp hreq
  obtain ⟨requestId, hid, rfl⟩ := map_eq_ok.mp hreq
  obtain rfl : command = ascii "GET" := hget
  obtain ⟨v', hv'⟩ := clientRequest_get v hcommand hkey hvalue hclient hid
  rw [if_neg (not_not_intro hlead)] at hv'
  unfold answer
  simp only [handle_clientRequest v hrpc, hv', getReply_dumps, Bool.or_eq_true, decide_eq_true_eq]

/-- A reply with a value is faithful where the key held this value. -/
theorem told_value : Told (some (.obj [Served.ok, ("value", .str result)])) held ↔ held = some result := by
  constructor
  · exact fun h => (h.1 result).mp rfl
  · intro h
    refine ⟨fun val => ⟨fun heq => ?_, fun heq => ?_⟩, fun hnone => ?_⟩
    · cases heq
      exact h
    · obtain rfl := Option.some.inj (h.symm.trans heq)
      rfl
    · cases h.symm.trans hnone

/-- A reply with an error is faithful where the key held nothing. -/
theorem told_error {text : Json} : Told (some (.obj [("status", .lit "error"), ("msg", text)])) held ↔ held = none := by
  have hne : ∀ val, Json.obj [("status", .lit "error"), ("msg", text)] ≠ .obj [Served.ok, ("value", .str val)] := by
    intro val heq
    simp at heq
  constructor
  · intro h
    rw [Option.eq_none_iff_forall_ne_some]
    exact fun val hval => hne val (Option.some.inj ((h.1 val).mpr hval))
  · rintro rfl
    exact ⟨fun val => ⟨fun heq => absurd (Option.some.inj heq) (hne val), fun heq => by cases heq⟩, fun _ => ⟨_, rfl, rfl⟩⟩

/-- A reply without a value that is no error is never faithful. -/
theorem not_told {answer : Option Json} (hvalue : ∀ val, answer ≠ some (.obj [Served.ok, ("value", .str val)]))
    (herror : ∀ reply ∈ answer, reply.member "status" ≠ .ok (.lit "error")) : ¬Told answer held := by
  intro h
  have hnone : held = none := Option.eq_none_iff_forall_ne_some.mpr fun val hval => hvalue val ((h.1 val).mpr hval)
  obtain ⟨reply, hreply, hstatus⟩ := h.2 hnone
  exact herror reply hreply hstatus

/-- The reply is faithful exactly where the string is. -/
theorem told_getReply : Told (if result = ascii "OK" ∨ isUtf8 result then some (getReply result) else none) held ↔
    Faithful held result := by
  rw [faithful_iff]
  have hlit : Json.lit "OK" ≠ .lit "error" := fun h => absurd (Json.str.inj h) (by decide)
  by_cases hok : result = ascii "OK"
  · have hreply : getReply result = .obj [Served.ok] := if_pos hok
    have htext : result ≠ ascii "key not found" := hok ▸ by decide
    rw [if_pos (.inl hok), hreply]
    refine iff_of_false (not_told (fun val heq => ?_) (fun reply hreply => ?_)) ?_
    · simp at heq
    · obtain rfl := Option.some.inj hreply
      exact fun hstatus => hlit (Except.ok.inj hstatus)
    · exact fun h => h.elim (fun h => htext h.2) (fun h => h.2.1 hok)
  · by_cases htext : result = ascii "key not found"
    · have hreply : getReply result = .obj [("status", .lit "error"), ("msg", .str result)] := by
        unfold getReply
        rw [if_neg hok, if_pos htext]
      rw [if_pos (.inr (htext ▸ isUtf8_of_all rfl)), hreply, told_error]
      exact ⟨fun h => .inl ⟨h, htext⟩, fun h => h.elim And.left (fun h => absurd htext h.2.2.1)⟩
    · have hreply : getReply result = .obj [Served.ok, ("value", .str result)] := by
        unfold getReply
        rw [if_neg hok, if_neg htext]
      by_cases hutf : isUtf8 result = true
      · rw [if_pos (.inr hutf), hreply, told_value]
        exact ⟨fun h => .inr ⟨h, hok, htext, hutf⟩, fun h => h.elim (fun h => absurd h.2 htext) And.left⟩
      · rw [if_neg (not_or.mpr ⟨hok, hutf⟩)]
        refine iff_of_false (not_told (fun val heq => ?_) (fun reply hreply => ?_)) ?_
        · cases heq
        · cases hreply
        · exact fun h => h.elim (fun h => htext h.2) (fun h => hutf h.2.2.2)

end

/-! ## The commit section -/

/-- A turn that comes to an entry on a node that is shutting down. -/
theorem Applying.applyNext_refused {r : Applying} {e : LogEntry} (he : r.nextEntry = some e) :
    ({ r with node := { r.node with shutdownRequested := true } } : Applying).applyNext.applyResult = ascii "error: node shutting down" := by
  have hentry : ({ r.node with shutdownRequested := true, lastApplied := r.node.lastApplied + 1 } : RaftNode).entryAt
      (({ r.node with shutdownRequested := true, lastApplied := r.node.lastApplied + 1 } : RaftNode).logIdx (r.node.lastApplied + 1)) =
        some e := he
  unfold applyNext
  simp only
  rw [hentry]
  rfl

/-- A turn that comes to no entry leaves the result. -/
theorem Applying.applyNext_none {r : Applying} (he : r.nextEntry = none) : r.applyNext.applyResult = r.applyResult := by
  have hentry : ({ r.node with lastApplied := r.node.lastApplied + 1 } : RaftNode).entryAt
      (({ r.node with lastApplied := r.node.lastApplied + 1 } : RaftNode).logIdx (r.node.lastApplied + 1)) = none := he
  unfold applyNext
  simp only
  rw [hentry]

/-- What the commit section has for a result, by what has become of the entry of its call. -/
def Fate.result (req : ClientRequest) : Fate → Str
  | executed store => (store.applyCommand (Site.sendCommand req)).2
  | overtaken _ => []
  | refused => ascii "error: node shutting down"
  | missed last => last.elim [] Execution.result

namespace CommitSection

variable {req : ClientRequest} (c : CommitSection req)

/-- The turns of the loop only count on the node. -/
theorem after_node (k : ℕ) : (c.after k).node =
    { c.node.setCommitIndex c.newIndex with lastApplied := c.node.lastApplied + k } := by
  induction k with
  | zero => simp [after, RaftNode.committing, RaftNode.setCommitIndex]
  | succ k ih =>
    unfold after
    rw [RaftNode.applyNext_node]
    simp only [ih, Nat.cast_succ, add_assoc]

theorem after_up (k : ℕ) : (c.after k).node.shutdownRequested = false := by
  rw [after_node]
  exact c.up

/-- The result is that of the last entry that the turns have executed. -/
theorem after_result (k : ℕ) : (c.after k).applyResult = (c.last k).elim [] Execution.result := by
  induction k with
  | zero => rfl
  | succ k ih =>
    unfold after last
    cases he : (c.after k).nextEntry with
    | none =>
      have hkeep := Applying.applyNext_none (r := { c.after k with store := c.others k (c.after k).store }) he
      exact hkeep.trans ih
    | some e =>
      have hnext := Applying.applyNext_some (r := { c.after k with store := c.others k (c.after k).store }) (c.after_up k) he
      exact congrArg Applying.applyResult hnext

/-- The node is told to shut down in a turn that comes to an entry. -/
theorem run_refused (hi : c.interrupted = true) {e : LogEntry} (he : (c.after c.completed).nextEntry = some e) :
    c.run.applyResult = ascii "error: node shutting down" := by
  unfold run
  rw [if_pos hi]
  exact Applying.applyNext_refused he

/-- Otherwise the result is that of the last entry that has been executed. -/
theorem run_kept (h : ¬(c.interrupted = true ∧ (c.after c.completed).nextEntry.isSome)) :
    c.run.applyResult = (c.last c.completed).elim [] Execution.result := by
  rw [← c.after_result c.completed]
  unfold run
  by_cases hi : c.interrupted = true
  · have he : (c.after c.completed).nextEntry = none := Option.not_isSome_iff_eq_none.mp fun hsome => h ⟨hi, hsome⟩
    rw [if_pos hi]
    exact Applying.applyNext_none (r := { c.after c.completed with
      node := { (c.after c.completed).node with shutdownRequested := true } }) he
  · rw [if_neg hi]

/-- The result of the commit section, by the fate of the entry. -/
theorem run_result : c.run.applyResult = c.fate.result req := by
  unfold fate
  split
  · next h =>
    obtain ⟨e, he⟩ := Option.isSome_iff_exists.mp h.2
    exact c.run_refused h.1 he
  · next h =>
    have hresult := c.run_kept h
    cases hl : c.last c.completed with
    | none =>
      rw [hresult, hl]
      cases c.earlier <;> rfl
    | some x =>
      rw [hresult, hl]
      simp only
      split
      · next hown =>
        unfold Fate.result
        rw [← c.own, ← hown.2]
        rfl
      · rfl

/-- A section that is not disturbed executes the entry of its call last, where that is still to be applied. -/
theorem fate_executed (hstop : c.stop = none) (hlt : c.node.lastApplied < c.newIndex)
    (he : c.node.entryAt (c.node.logIdx c.newIndex) = some c.entry) : ∃ store, c.fate = .executed store := by
  obtain ⟨j, hj⟩ : ∃ j : ℕ, c.length = j + 1 := Nat.exists_eq_add_one.mpr (by unfold length; omega)
  have hcompleted : c.completed = j + 1 := by
    unfold completed
    rw [hstop]
    exact hj
  have hindex : (c.after j).node.lastApplied + 1 = c.newIndex := by
    have hnode := congrArg RaftNode.lastApplied (c.after_node j)
    unfold length at hj
    simp only at hnode
    omega
  have hnext : (c.after j).nextEntry = some c.entry := by
    unfold Applying.nextEntry
    rw [hindex, c.after_node]
    exact he
  have hlast : c.last (j + 1) =
      some { index := (c.after j).node.lastApplied + 1, entry := c.entry, store := c.others j (c.after j).store } := by
    unfold last
    rw [hnext]
  refine ⟨c.others j (c.after j).store, ?_⟩
  unfold fate interrupted
  rw [hstop, if_neg (by simp), hcompleted, hlast]
  exact if_pos ⟨hindex, rfl⟩

end CommitSection

/-! ## The calls of a site -/

namespace Site

variable {s : Site} {store : KVStore} {k next : ℕ} {o : Outcome} {call call' : ClientCall} {result : Str}

/-- The commit section of a call of the site, which nothing disturbs. -/
def sectionOf (n : RaftNode) (store : KVStore) (call : ClientCall) (hup : n.shutdownRequested = false)
    (hown : call.entry.command = sendCommand call.req) : CommitSection call.req where
  node := n
  store := store
  newIndex := call.newIndex
  entry := call.entry
  others _ store := store
  stop := none
  earlier := none
  up := hup
  own := hown

theorem sectionOf_after {n : RaftNode} (hup : n.shutdownRequested = false) (hown : call.entry.command = sendCommand call.req) (k : ℕ) :
    (sectionOf n store call hup hown).after k = Applying.applyNext^[k] (n.committing store call.newIndex) := by
  induction k with
  | zero => rfl
  | succ k ih =>
    rw [Function.iterate_succ_apply', ← ih]
    rfl

/-- The commit section in one step of a site. -/
theorem commit_sectionOf {n : RaftNode} (hup : n.shutdownRequested = false) (hown : call.entry.command = sendCommand call.req) :
    (commit n store call).2.2.1 = (sectionOf n store call hup hown).run.applyResult := by
  have hloop : applyWhileUp (n.setCommitIndex call.newIndex) store = (n.setCommitIndex call.newIndex).applyCommitted store :=
    RaftNode.applyWhileUp_eq (n := n.setCommitIndex call.newIndex) hup store
  have hresult : (commit n store call).2.2.1 = (applyWhileUp (n.setCommitIndex call.newIndex) store).applyResult := rfl
  rw [hresult, hloop]
  exact (congrArg Applying.applyResult (sectionOf_after hup hown _)).symm

/-- A call that has been changed is found at its place. -/
theorem clientAt_inj (hk : s.clients[k]? = some call) {n : RaftNode} {c : ClientCall}
    (hk' : ({ s with node := n }.clientAt k c).clients[k]? = some call') : call' = c := by
  have hset := clientAt_getElem? (s := { s with node := n }) hk c
  exact Option.some.inj (hk'.symm.trans hset)

/-- A call that returns in a step of its own ends so: the node is shutting down, the commit rule fails, or the commit section has run. -/
theorem clientStep_returns (h : s.clientStep next k store = some o) (hk : s.clients[k]? = some call)
    (hown : call.entry.command = sendCommand call.req) (hk' : o.site.clients[k]? = some call') (hdone : call'.phase = .done result) :
    ∃ e : Ending call.req, result = e.result ∧
      (s.node.shutdownRequested = true ∧ e = .shutdown ∨ ¬mayCommit s.node call ∧ e = .notCommitted ∨
        ∃ hup, mayCommit s.node call ∧ e = .committed (sectionOf s.node store call hup hown)) := by
  rcases Bool.eq_false_or_eq_true s.node.shutdownRequested with hdown | hup
  · unfold clientStep at h
    rw [hk] at h
    simp only [hdown, if_true] at h
    split at h
    · obtain rfl := Option.some.inj h
      obtain rfl := clientAt_inj hk hk'
      cases hdone
      exact ⟨.shutdown, rfl, .inl ⟨hdown, rfl⟩⟩
    · split at h
      · cases h
      · obtain rfl := Option.some.inj h
        obtain rfl := clientAt_inj hk hk'
        cases hdone
    · cases h
  · have hs : Step 0 next s store (.step (.client k)) o := clientStep_inv hup h
    cases hs with
    | send k c p hc hp hi =>
      obtain rfl := clientAt_inj hk hk'
      cases hdone
    | commit k c hc hp hi hm =>
      obtain rfl := Option.some.inj (hk.symm.trans hc)
      obtain rfl := clientAt_inj hk hk'
      cases hdone
      exact ⟨.committed (sectionOf s.node store call hup hown), commit_sectionOf hup hown, .inr (.inr ⟨hup, hm, rfl⟩)⟩
    | notCommitted k c hc hp hi hm =>
      obtain rfl := Option.some.inj (hk.symm.trans hc)
      obtain rfl := clientAt_inj hk hk'
      cases hdone
      exact ⟨.notCommitted, rfl, .inr (.inl ⟨hm, rfl⟩)⟩
    | sendChunk k c t p hc hp hi =>
      obtain rfl := clientAt_inj hk hk'
      cases hdone

/-- A call that returns with a reply to it has been told of a later term. -/
theorem clientReply_returns {r : Option Reply} (h : s.clientReply k store r = some o) (hk : s.clients[k]? = some call)
    (hk' : o.site.clients[k]? = some call') (hdone : call'.phase = .done result) :
    result = (Ending.stepDown : Ending call.req).result ∧ ∃ term success, r.bind Reply.appendEntriesResponse = some (term, success) ∧
      s.node.currentTerm < term := by
  have hs : Step 0 0 s store (.reply (.client k) r) o := clientReply_inv h
  cases hs with
  | lost k c id r hc hp hr =>
    obtain rfl := clientAt_inj hk hk'
    cases hdone
  | later k c id r term success hc hp hr ht =>
    obtain rfl := clientAt_inj hk hk'
    cases hdone
    exact ⟨rfl, term, success, hr, ht⟩
  | success k c id r term hc hp hr ht =>
    obtain rfl := clientAt_inj hk hk'
    cases hdone
  | failure k c id r term hc hp hr ht c' hc' =>
    obtain rfl := clientAt_inj hk hk'
    rw [hc'] at hdone
    split at hdone <;> cases hdone
  | chunkReply k c t id r hc hp c' hc' =>
    obtain rfl := clientAt_inj hk hk'
    rw [hc'] at hdone
    split at hdone <;> cases hdone

end Site

/-! ## Faithful replies -/

/-- A GET on this store is told: it misses the key that is missing, or reads at the first token of its text what the key holds, and that is
carried. -/
def KVStore.Tells (store : KVStore) (req : ClientRequest) : Prop :=
  match store.get req.key with
  | none => store.Misses (Site.sendCommand req)
  | some val => store.get (parseCommand (Site.sendCommand req)).2.1 = some val ∧ Carried val

/-- The call of a GET ends with a reply that is told: the last entry that its commit section executes is its own, and a GET on the store there
is told; or it was executed before on a store with the empty value at the key; or another entry has missed a key; or it is in the table. -/
def Ending.Tells {req : ClientRequest} : Ending req → Prop
  | cached _ kept _ earlier => Faithful (earlier.bind (fun store => store.get req.key)) kept
  | committed c =>
    match c.fate with
    | .executed store => store.Tells req
    | .overtaken store => store.get req.key = some []
    | .refused => False
    | .missed last => ∃ x ∈ last, x.store.Misses x.entry.command
  | _ => False

/-- What a GET on this store returns is faithful exactly where the GET is told. -/
theorem KVStore.tells_iff {store : KVStore} {req : ClientRequest} (hget : req.command = ascii "GET") :
    store.Tells req ↔ Faithful (store.get req.key) (store.applyCommand (Site.sendCommand req)).2 := by
  unfold Tells Faithful
  cases store.get req.key with
  | none => exact (store.applyCommand_misses _).symm
  | some val =>
    rw [store.applyCommand_get (parseCommand_sendCommand hget)]
    refine and_congr_left fun hval => ?_
    cases store.get (parseCommand (Site.sendCommand req)).2.1 with
    | none => exact iff_of_false (fun h => by cases h) (fun h => hval.2.1 h.symm)
    | some found => exact Option.some_inj

/-- A GET of a key without blanks is told where the key is missing, or holds a value that is carried. -/
theorem KVStore.tells_plain {store : KVStore} {req : ClientRequest} (hget : req.command = ascii "GET") (hne : req.key ≠ [])
    (hkey : ∀ b ∈ req.key, isSpace b = false) : store.Tells req ↔ ∀ val ∈ store.get req.key, Carried val := by
  unfold Tells
  cases hheld : store.get req.key with
  | none =>
    have hmiss : store.Misses (Site.sendCommand req) := by
      refine .inl ⟨parseCommand_sendCommand hget, ?_⟩
      rw [parseCommand_sendCommand_key hget hne hkey, hheld]
      exact fun val hval => by cases hval
    exact iff_of_true hmiss fun val hval => by cases hval
  | some val =>
    simp only [parseCommand_sendCommand_key hget hne hkey, hheld, true_and, Option.mem_some_iff, forall_eq']

/-- What comes back is faithful exactly where the ending is told. -/
theorem Ending.tells_iff {req : ClientRequest} (hget : req.command = ascii "GET") (e : Ending req) :
    e.Tells ↔ Faithful e.held e.result := by
  have herror : ∀ text : String, ascii text ≠ ascii "key not found" → (False ↔ ascii text = ascii "key not found") :=
    fun _ hne => iff_of_false id hne
  cases e with
  | shutdown => exact herror "error: shutdown" (by decide)
  | notLeader => exact herror "error: not leader" (by decide)
  | stepDown => exact herror "leader step down" (by decide)
  | notCommitted => exact herror "error: not committed" (by decide)
  | cached node kept hit earlier => exact Iff.rfl
  | committed c =>
    unfold Tells held readFrom result
    simp only
    rw [c.run_result]
    cases c.fate with
    | executed store => exact KVStore.tells_iff hget
    | overtaken store => exact faithful_nil.symm
    | refused => exact herror "error: node shutting down" (by decide)
    | missed last =>
      show _ ↔ last.elim [] Execution.result = ascii "key not found"
      cases last with
      | none =>
        refine iff_of_false (fun h => ?_) (by decide)
        obtain ⟨_, hx, _⟩ := h
        cases hx
      | some x =>
        refine Iff.trans ?_ (x.store.applyCommand_misses x.entry.command).symm
        simp only [Option.mem_some_iff, exists_eq_left']

/-- On a leader, the reply to a GET is faithful exactly where the call ends in a way that is told. -/
theorem get_told_iff {v : Served} {msg : Json} {session : ℕ} {req : ClientRequest} (e : Ending req) (hlead : v.node.state = .leader)
    (hrpc : msg.member "rpc" = .ok (.lit "ClientRequest")) (hreq : msg.clientRequest session = .ok req)
    (hget : req.command = ascii "GET") (hresult : v.result = e.result) : Told (v.answer msg) e.held ↔ e.Tells := by
  rw [v.answer_get hlead hrpc hreq hget, hresult, e.tells_iff hget]
  exact told_getReply

/-- The message of a GET of a key, and the request that is read in it. -/
def getMessage : Json :=
  .obj [("rpc", .lit "ClientRequest"), ("command", .lit "GET"), ("key", .lit "k"), ("clientId", .lit "c"), ("requestId", .int 1)]

def getOfKey : ClientRequest where
  clientId := ascii "c"
  requestId := 1
  command := ascii "GET"
  key := ascii "k"
  value := []
  session := 0

/-- A leader whose call has returned this string. -/
def leaderReturning (result : Str) : Served where
  node := { RaftNode.create 0 5000 [] { metadata := none, snapshotFile := .absent } with state := .leader }
  metrics := .initial
  store := .empty
  uptimeSeconds := 0
  result := result

/-- The entry of the GET. -/
def getEntry : LogEntry := { term := 1, index := 1, command := ascii "GET k ", origin := (ascii "c", 1) }

/-- The commit section of the GET, with the key in the store. -/
def getSection (value : String) : CommitSection getOfKey where
  node := { RaftNode.create 0 5000 [] { metadata := none, snapshotFile := .absent } with
    state := .leader
    log := [{ term := 1, index := 0, command := ascii "PUT k v", origin := (ascii "d", 1) }, getEntry] }
  store := KVStore.empty.put (ascii "k") (ascii value)
  newIndex := 1
  entry := getEntry
  others _ store := store
  stop := none
  earlier := none
  up := rfl
  own := rfl

/-- The value that the key holds is told. -/
theorem get_told_value : Told ((leaderReturning (ascii "v")).answer getMessage) (some (ascii "v")) := by
  have hread : (getMessage.clientRequest 0) = .ok getOfKey := rfl
  have hkept : (KVStore.empty.put (ascii "k") (ascii "v")).get getOfKey.key = some (ascii "v") := AList.lookup_insert _
  have htells : (KVStore.empty.put (ascii "k") (ascii "v")).Tells getOfKey := by
    have hspace : ∀ b ∈ getOfKey.key, isSpace b = false := List.forall_mem_singleton.mpr rfl
    refine (KVStore.tells_plain rfl (by decide) hspace).mpr fun val hval => ?_
    obtain rfl := Option.some.inj (hkept.symm.trans hval)
    exact ⟨by decide, by decide, rfl⟩
  exact (get_told_iff (.committed (getSection "v")) rfl rfl hread rfl (by decide +kernel)).mpr htells

/-- A GET that is not committed is answered with the text of the error as a value. -/
theorem get_untold : ¬∀ (v : Served) (msg : Json) (session : ℕ) (req : ClientRequest) (e : Ending req), v.node.state = .leader →
    msg.member "rpc" = .ok (.lit "ClientRequest") → msg.clientRequest session = .ok req → req.command = ascii "GET" →
    v.result = e.result → Told (v.answer msg) e.held := by
  intro h
  have hread : (getMessage.clientRequest 0) = .ok getOfKey := rfl
  have htold := h (leaderReturning (ascii "error: not committed")) getMessage 0 getOfKey .notCommitted rfl rfl hread rfl rfl
  rw [Served.answer_get rfl rfl hread rfl] at htold
  have htext : ascii "error: not committed" = ascii "key not found" := told_getReply.mp htold
  exact absurd htext (by decide)

end RaftStore
