import RaftStore.Codec

/-!
# What is read is what was written

Every value that a node sends is read as it was meant: a message by its handler, also in the loop over its entries, and a reply by the thread
that waits for it. What the sources do not have, the fields `origin` and `covered`, is not sent.
-/

namespace RaftStore

/-- The entry as the sources have it. -/
def LogEntry.bare (e : LogEntry) : LogEntry := { e with origin := ([], 0) }

/-- The message as the sources have it. -/
def AppendEntriesRPC.bare (m : AppendEntriesRPC) : AppendEntriesRPC := { m with entries := m.entries.map LogEntry.bare }

/-- The message as the sources have it. -/
def InstallSnapshotRPC.bare (m : InstallSnapshotRPC) : InstallSnapshotRPC := { m with covered := [] }

/-- The message as the sources have it. -/
def Request.bare : Request → Request
  | .requestVote m => .requestVote m
  | .appendEntries m => .appendEntries m.bare
  | .installSnapshot m => .installSnapshot m.bare

/-! ## Numbers -/

/-- A number of type `int` is read as it is. -/
theorem Json.getInt32_int {i : ℤ} (h : IsInt i) : Json.getInt32 (.int i) = .ok i := by
  obtain ⟨hlow, hhigh⟩ := h
  exact congrArg Except.ok (Int.bmod_eq_of_le (by omega) (by omega))

/-- The numbers of an entry are of type `int`. -/
def LogEntry.IsInt (e : LogEntry) : Prop := RaftStore.IsInt e.term ∧ RaftStore.IsInt e.index

/-- The numbers of a message are of type `int`. -/
def Request.IsInt : Request → Prop
  | .requestVote m => RaftStore.IsInt m.term ∧ RaftStore.IsInt m.candidateId ∧ RaftStore.IsInt m.lastLogIndex ∧ RaftStore.IsInt m.lastLogTerm
  | .appendEntries m => RaftStore.IsInt m.term ∧ RaftStore.IsInt m.leaderId ∧ RaftStore.IsInt m.prevLogIndex ∧
      RaftStore.IsInt m.prevLogTerm ∧ RaftStore.IsInt m.leaderCommit ∧ ∀ e ∈ m.entries, e.IsInt
  | .installSnapshot m => RaftStore.IsInt m.term ∧ RaftStore.IsInt m.leaderId ∧ RaftStore.IsInt m.lastIncludedIndex ∧
      RaftStore.IsInt m.lastIncludedTerm ∧ RaftStore.IsInt m.offset

/-- The term of a reply is of type `int`. -/
def Reply.IsInt : Reply → Prop
  | .requestVote term _ | .appendEntries term _ | .installSnapshot term _ _ => RaftStore.IsInt term
  | .null | .invalid => True

/-! ## Entries and messages -/

theorem LogEntry.ofJson_toJson {e : LogEntry} (h : e.IsInt) : LogEntry.ofJson e.toJson = .ok e.bare := by
  have hterm : e.toJson.getTo Json.getInt32 "term" = .ok e.term := Json.getInt32_int h.1
  have hindex : e.toJson.getTo Json.getInt32 "index" = .ok e.index := Json.getInt32_int h.2
  unfold LogEntry.ofJson
  rw [hterm, hindex]
  rfl

theorem RequestVoteRPC.ofJson_toJson {m : RequestVoteRPC} (h : (Request.requestVote m).IsInt) : RequestVoteRPC.ofJson m.toJson = .ok m := by
  obtain ⟨h1, h2, h3, h4⟩ := h
  have hterm : m.toJson.value Json.getInt32 "term" 0 = .ok m.term := Json.getInt32_int h1
  have hid : m.toJson.value Json.getInt32 "candidateId" (-1) = .ok m.candidateId := Json.getInt32_int h2
  have hindex : m.toJson.value Json.getInt32 "lastLogIndex" (-1) = .ok m.lastLogIndex := Json.getInt32_int h3
  have hlast : m.toJson.value Json.getInt32 "lastLogTerm" 0 = .ok m.lastLogTerm := Json.getInt32_int h4
  unfold RequestVoteRPC.ofJson
  rw [hterm, hid, hindex, hlast]
  rfl

theorem AppendEntriesRPC.ofJson_toJson {m : AppendEntriesRPC} (h : (Request.appendEntries m).IsInt) :
    AppendEntriesRPC.ofJson m.toJson = .ok ({ m with entries := [] }, .arr (m.entries.map LogEntry.toJson)) := by
  obtain ⟨h1, h2, h3, h4, h5, _⟩ := h
  have hterm : m.toJson.value Json.getInt32 "term" 0 = .ok m.term := Json.getInt32_int h1
  have hid : m.toJson.value Json.getInt32 "leaderId" (-1) = .ok m.leaderId := Json.getInt32_int h2
  have hindex : m.toJson.value Json.getInt32 "prevLogIndex" (-1) = .ok m.prevLogIndex := Json.getInt32_int h3
  have hprev : m.toJson.value Json.getInt32 "prevLogTerm" 0 = .ok m.prevLogTerm := Json.getInt32_int h4
  have hcommit : m.toJson.value Json.getInt32 "leaderCommit" 0 = .ok m.leaderCommit := Json.getInt32_int h5
  unfold AppendEntriesRPC.ofJson
  rw [hterm, hid, hindex, hprev, hcommit]
  rfl

theorem InstallSnapshotRPC.ofJson_toJson {m : InstallSnapshotRPC} (h : (Request.installSnapshot m).IsInt) {chunkNum totalChunks : ℤ}
    (hnum : IsInt chunkNum) (htotal : IsInt totalChunks) : InstallSnapshotRPC.ofJson (m.toJson chunkNum totalChunks) = .ok m.bare := by
  obtain ⟨h1, h2, h3, h4, h5⟩ := h
  have hterm : (m.toJson chunkNum totalChunks).value Json.getInt32 "term" 0 = .ok m.term := Json.getInt32_int h1
  have hid : (m.toJson chunkNum totalChunks).value Json.getInt32 "leaderId" (-1) = .ok m.leaderId := Json.getInt32_int h2
  have hindex : (m.toJson chunkNum totalChunks).value Json.getInt32 "lastIncludedIndex" (-1) = .ok m.lastIncludedIndex :=
    Json.getInt32_int h3
  have hlast : (m.toJson chunkNum totalChunks).value Json.getInt32 "lastIncludedTerm" 0 = .ok m.lastIncludedTerm := Json.getInt32_int h4
  have hoffset : (m.toJson chunkNum totalChunks).value Json.getInt32 "offset" 0 = .ok m.offset := Json.getInt32_int h5
  have hchunk : (m.toJson chunkNum totalChunks).value Json.getInt32 "chunkNum" (-1) = .ok chunkNum := Json.getInt32_int hnum
  have hchunks : (m.toJson chunkNum totalChunks).value Json.getInt32 "totalChunks" (-1) = .ok totalChunks := Json.getInt32_int htotal
  unfold InstallSnapshotRPC.ofJson
  rw [hterm, hid, hindex, hlast, hoffset, hchunk, hchunks]
  rfl

/-! ## Handlers -/

namespace RaftNode

variable (n : RaftNode) (store : KVStore)

/-- Of entries that were sent, the loop appends every one. -/
theorem pushEntries_toJson {es : List LogEntry} (h : ∀ e ∈ es, e.IsInt) :
    n.pushEntries (es.map LogEntry.toJson) = ((es.map LogEntry.bare).foldl pushEntry n, .ok ()) := by
  induction es generalizing n with
  | nil => rfl
  | cons e es ih =>
    unfold List.map pushEntries
    rw [LogEntry.ofJson_toJson (h e List.mem_cons_self)]
    exact ih (n.pushEntry e.bare) fun e' he' => h e' (List.mem_cons_of_mem _ he')

/-- The insertion of entries that were sent ends without an exception. -/
theorem insertJson_toJson {m : AppendEntriesRPC} (h : ∀ e ∈ m.entries, e.IsInt) :
    n.insertJson m.prevLogIndex (.arr (m.entries.map LogEntry.toJson)) = (n.insertEntries m.bare, .ok ()) := by
  obtain ⟨term, leaderId, prevLogIndex, prevLogTerm, entries, leaderCommit⟩ := m
  cases entries with
  | nil =>
    unfold insertEntries
    simp only [AppendEntriesRPC.bare, List.map_nil]
    cases n.entryAt (n.logIdx (prevLogIndex + 1)) <;> rfl
  | cons e es =>
    have hpush (n : RaftNode) := n.pushEntries_toJson h
    have hfirst : (Json.first (.arr ((e :: es).map LogEntry.toJson))).bind LogEntry.ofJson = .ok e.bare :=
      LogEntry.ofJson_toJson (h e List.mem_cons_self)
    unfold insertJson insertEntries
    simp only [AppendEntriesRPC.bare, Json.elements]
    rw [if_neg (by exact Bool.false_ne_true)]
    cases n.entryAt (n.logIdx (prevLogIndex + 1)) with
    | none => exact hpush n
    | some e' =>
      simp only [hfirst]
      show (if e'.term ≠ e.bare.term then _ else _) = (if e'.term ≠ e.bare.term then _ else _, _)
      by_cases hterm : e'.term ≠ e.bare.term
      · rw [if_pos hterm, if_pos hterm]
        exact hpush _
      · rw [if_neg hterm, if_neg hterm]

theorem appendEntriesJson_toJson {m : AppendEntriesRPC} (h : (Request.appendEntries m).IsInt) :
    n.appendEntriesJson store m.toJson = (n.handleAppendEntries store m.bare).answer := by
  have htake (n : RaftNode) : n.takeEntries { m with entries := [] } (.arr (m.entries.map LogEntry.toJson)) =
      (if n.prevMatches m.bare then n.insertEntries m.bare else n, .ok ()) := by
    unfold takeEntries
    show (if n.prevMatches m.bare then n.insertJson m.prevLogIndex _ else _) = _
    split
    · exact n.insertJson_toJson h.2.2.2.2.2
    · rfl
  unfold appendEntriesJson
  rw [AppendEntriesRPC.ofJson_toJson h, handleAppendEntries]
  dsimp only
  by_cases hreceiving : n.receivingSnapshot = true ∧ n.snapshotLeaderId = m.leaderId
  · rw [if_pos hreceiving, if_pos (show _ ∧ n.snapshotLeaderId = m.bare.leaderId from hreceiving)]
    rfl
  rw [if_neg hreceiving, if_neg (show ¬(_ ∧ n.snapshotLeaderId = m.bare.leaderId) from hreceiving)]
  by_cases hstale : m.term < n.currentTerm
  · rw [if_pos hstale, if_pos (show m.bare.term < n.currentTerm from hstale)]
    rfl
  rw [if_neg hstale, if_neg (show ¬m.bare.term < n.currentTerm from hstale), htake]
  split
  · next h =>
    cases h
  · next h =>
    obtain rfl := congrArg Prod.fst h
    rw [apply_ite Handled.answer]
    rfl

end RaftNode

/-- What a node does with the value of a message is what it does with the message. -/
theorem Served.handleJson_toJson (v : Served) {req : Request} (h : req.IsInt) {t : Option Transfer}
    (ht : ∀ u ∈ t, IsInt u.chunkNum ∧ IsInt u.chunkCount) :
    v.handleJson (req.toJson t) = (v.node.handle v.store req.bare).map Handled.answer := by
  cases req with
  | requestVote m =>
    show some (v.node.requestVoteJson v.store m.toJson) = _
    unfold RaftNode.requestVoteJson
    rw [RequestVoteRPC.ofJson_toJson h]
    rfl
  | appendEntries m => exact congrArg some (v.node.appendEntriesJson_toJson v.store h)
  | installSnapshot m =>
    have hzero : IsInt 0 := by constructor <;> decide
    have hnum : IsInt ((t.map fun u => (u.chunkNum : ℤ)).getD 0) ∧ IsInt ((t.map fun u => (u.chunkCount : ℤ)).getD 0) := by
      cases t with
      | none => exact ⟨hzero, hzero⟩
      | some u => exact ht u rfl
    have hread := InstallSnapshotRPC.ofJson_toJson h hnum.1 hnum.2
    show v.node.installSnapshotJson v.store (m.toJson ((t.map (·.chunkNum)).getD 0) ((t.map (·.chunkCount)).getD 0)) = _
    unfold RaftNode.installSnapshotJson
    cases t with
    | none => rw [hread]; rfl
    | some u => rw [hread]; rfl

/-! ## Replies -/

namespace Reply

variable (r : Reply)

theorem requestVoteResponse_toJson (h : r.IsInt) : r.toJson.requestVoteResponse.toOption = r.requestVoteResponse := by
  rcases r with ⟨term, granted⟩ | ⟨term, success⟩ | ⟨term, success, _ | _⟩ | _ | _
  case null | invalid => rfl
  all_goals
    have hterm := Json.getInt32_int h
    simp [toJson, Json.requestVoteResponse, Json.value, requestVoteResponse, hterm]
    rfl

theorem appendEntriesResponse_toJson (h : r.IsInt) : r.toJson.appendEntriesResponse.toOption = r.appendEntriesResponse := by
  rcases r with ⟨term, granted⟩ | ⟨term, success⟩ | ⟨term, success, _ | _⟩ | _ | _
  case null | invalid => rfl
  all_goals
    have hterm := Json.getInt32_int h
    simp [toJson, Json.appendEntriesResponse, Json.value, appendEntriesResponse, hterm]
    rfl

theorem accepted_toJson : r.toJson.accepted = r.accepted := by
  rcases r with _ | _ | ⟨term, success, _ | _⟩ | _ | _ <;> rfl

end Reply

end RaftStore
