import RaftStore.Node

/-!
# Messages between nodes and their handlers

`rpc_server.cpp`, `serializeSnapshot` of `raft_node.cpp` and the texts of the replies. A handler is one step of the node that
receives the message: `node->mtx` is read as re-entrant, so that `becomeFollower` takes effect where a handler that holds the
mutex calls it; what the threads do to the mutex as it is stands in `Locks`. Messages are the values their JSON texts stand for;
that the text of a message is cut off on the way is `Reply.invalid`. The timing of elections and the metrics are left out.
-/

namespace RaftStore

/-! ## Snapshot images -/

/-- One pair of a snapshot image: the two sizes are written as `int`. -/
def serializePair (k v : Str) : Str := intBytes k.length ++ k ++ intBytes v.length ++ v

/-- `serializeSnapshot`. -/
def serializeSnapshot (snap : Snapshot) : Str :=
  intBytes snap.lastIncludedIndex ++ intBytes snap.lastIncludedTerm ++ intBytes snap.kvState.entries.length ++
    (snap.kvState.entries.map (fun p => serializePair p.1 p.2)).flatten

/-- `std::string text(len, '\0'); iss.read(&text[0], len)`: bytes the stream does not have stay zero. The constructor throws for
a negative length. -/
def readText (len : ℤ) (is : IStream) : Option (Str × IStream) :=
  if len < 0 then none
  else
    let (bs, is) := is.read len.toNat
    some (bs ++ List.replicate (len.toNat - bs.length) 0, is)

/-- The loop of `deserializeSnapshot`; `none` when an exception leaves it. -/
def readPairs : ℕ → IStream → StrMap → Option StrMap
  | 0, _, kvState => some kvState
  | size + 1, is, kvState =>
    let (klen, is) := is.readInt 0
    match readText klen is with
    | none => none
    | some (key, is) =>
      let (vlen, is) := is.readInt 0
      match readText vlen is with
      | none => none
      | some (value, is) => readPairs size is (kvState.insert key value)

/-- `deserializeSnapshot`. What the image is too short for starts from zero here; the sources leave it uninitialised. -/
def deserializeSnapshot (buffer : Str) : Option Snapshot :=
  let is : IStream := { bytes := buffer, good := true }
  let (lastIncludedIndex, is) := is.readInt 0
  let (lastIncludedTerm, is) := is.readInt 0
  let (size, is) := is.readInt 0
  (readPairs size.toNat is ∅).map fun kvState =>
    { lastIncludedIndex := lastIncludedIndex
      lastIncludedTerm := lastIncludedTerm
      kvState := kvState
      covered := [] }

/-! ## Messages -/

structure RequestVoteRPC where
  term : ℤ
  candidateId : ℤ
  lastLogIndex : ℤ
  lastLogTerm : ℤ
  deriving DecidableEq

structure AppendEntriesRPC where
  term : ℤ
  leaderId : ℤ
  prevLogIndex : ℤ
  prevLogTerm : ℤ
  entries : List LogEntry
  leaderCommit : ℤ
  deriving DecidableEq

/-- One chunk of a snapshot image, its bytes in Base64. `covered`: the entries the sender's snapshot stands for. -/
structure InstallSnapshotRPC where
  term : ℤ
  leaderId : ℤ
  lastIncludedIndex : ℤ
  lastIncludedTerm : ℤ
  offset : ℤ
  data : Str
  done : Bool
  covered : List LogEntry
  deriving DecidableEq

inductive Request where
  | requestVote (m : RequestVoteRPC)
  | appendEntries (m : AppendEntriesRPC)
  | installSnapshot (m : InstallSnapshotRPC)
  deriving DecidableEq

/-- A reply. `null`: the empty JSON value that AppendEntries is answered with during a snapshot transfer; `invalid`: the answer
`{"error": "Invalid JSON"}` to a message that is no JSON text. -/
inductive Reply where
  | requestVote (term : ℤ) (voteGranted : Bool)
  | appendEntries (term : ℤ) (success : Bool)
  | installSnapshot (term : ℤ) (success : Bool) (error : Str)
  | null
  | invalid
  deriving DecidableEq

/-- `respJson.get<RequestVoteResponse>()`, with the defaults of `from_json`; `none` when it throws. -/
def Reply.requestVoteResponse : Reply → Option (ℤ × Bool)
  | .requestVote term voteGranted => some (term, voteGranted)
  | .appendEntries term _ => some (term, false)
  | .installSnapshot term _ _ => some (term, false)
  | .null => none
  | .invalid => some (0, false)

/-- `respJson.get<AppendEntriesResponse>()`, with the defaults of `from_json`; `none` when it throws. -/
def Reply.appendEntriesResponse : Reply → Option (ℤ × Bool)
  | .requestVote term _ => some (term, false)
  | .appendEntries term success => some (term, success)
  | .installSnapshot term success _ => some (term, success)
  | .null => none
  | .invalid => some (0, false)

/-- `snapRespJson.value("success", false)`; where it throws the transfer ends as with `false`. -/
def Reply.accepted : Reply → Bool
  | .appendEntries _ success => success
  | .installSnapshot _ success _ => success
  | _ => false

/-- What a handler leaves: the node, the store, the reply and what goes to the history. -/
structure Handled where
  node : RaftNode
  store : KVStore
  reply : Reply
  events : List Event

namespace RaftNode

/-! ## RequestVote -/

/-- `candidateUpToDate`: the check of the voter, on its `log` alone. -/
def candidateUpToDate (n : RaftNode) (m : RequestVoteRPC) : Bool :=
  let myLastIndex : ℤ := n.log.length - 1
  let myLastTerm := ((n.entryAt myLastIndex).map (·.term)).getD 0
  decide (m.lastLogTerm > myLastTerm ∨ (m.lastLogTerm = myLastTerm ∧ m.lastLogIndex ≥ myLastIndex))

/-- The term of the message is seen: the node follows a later one. -/
def seeTerm (n : RaftNode) (term : ℤ) : RaftNode :=
  if n.currentTerm < term then n.becomeFollower term else n

/-- `handle_node_client`, RequestVote. -/
def handleRequestVote (n : RaftNode) (store : KVStore) (m : RequestVoteRPC) : Handled :=
  if m.term < n.currentTerm then
    { node := n, store := store, reply := .requestVote n.currentTerm false, events := [] }
  else
    let n := n.seeTerm m.term
    if (n.votedFor = -1 ∨ n.votedFor = m.candidateId) ∧ n.candidateUpToDate m then
      { node := { n with votedFor := m.candidateId }.persistMetadata
        store := store
        reply := .requestVote n.currentTerm true
        events := [.voted n.currentTerm m.candidateId] }
    else { node := n, store := store, reply := .requestVote n.currentTerm false, events := [] }

/-! ## AppendEntries -/

/-- The node steps down for an AppendEntries message, also as a candidate of the message's term, and notes the leader. -/
def stepDown (n : RaftNode) (m : AppendEntriesRPC) : RaftNode :=
  { (if n.currentTerm < m.term ∨ n.state = .candidate then n.becomeFollower m.term else n) with leaderId := m.leaderId }

/-- The consistency check on `prevLogIndex` and `prevLogTerm`. -/
def prevMatches (n : RaftNode) (m : AppendEntriesRPC) : Bool :=
  if 0 ≤ m.prevLogIndex then
    match n.latestSnapshot with
    | some s =>
      if m.prevLogIndex < s.lastIncludedIndex then false
      else if m.prevLogIndex = s.lastIncludedIndex then decide (m.prevLogTerm = s.lastIncludedTerm)
      else ((n.entryAt (n.logIdx m.prevLogIndex)).map (fun e => decide (e.term = m.prevLogTerm))).getD false
    | none => ((n.entryAt (n.logIdx m.prevLogIndex)).map (fun e => decide (e.term = m.prevLogTerm))).getD false
  else true

/-- One turn of the loop that appends the entries of a message. -/
def pushEntry (n : RaftNode) (e : LogEntry) : RaftNode :=
  if (n.log.length : ℤ) ≤ n.logIdx e.index then n.appendLogEntry e else n

/-- The insertion of the entries of a message: of the entries the node has, only the one in the place of the first new entry is
looked at. -/
def insertEntries (n : RaftNode) (m : AppendEntriesRPC) : RaftNode :=
  let logInsertIndex := n.logIdx (m.prevLogIndex + 1)
  match n.entryAt logInsertIndex, m.entries with
  | some e, firstNewEntry :: _ =>
    if e.term ≠ firstNewEntry.term then
      m.entries.foldl pushEntry { n with log := n.log.take logInsertIndex.toNat }
    else n
  | _, _ => m.entries.foldl pushEntry n

/-- The log of a message that passed the check is taken over, and the metadata written. -/
def acceptEntries (n : RaftNode) (m : AppendEntriesRPC) : RaftNode :=
  (if n.prevMatches m then n.insertEntries m else n).persistMetadata

/-- The commit section of the AppendEntries handler. -/
def advanceCommit (n : RaftNode) (store : KVStore) (leaderCommit : ℤ) : RaftNode × KVStore × List Event :=
  let newCommitIndex := min leaderCommit (n.getLogSize - 1)
  let r := (n.setCommitIndex newCommitIndex).applyCommitted store
  let (n, store) := r.node.snapshotAtThreshold r.store
  (n, store, .commitAdvanced newCommitIndex :: r.events)

/-- `handle_node_client`, AppendEntries. -/
def handleAppendEntries (n : RaftNode) (store : KVStore) (m : AppendEntriesRPC) : Handled :=
  if n.receivingSnapshot ∧ n.snapshotLeaderId = m.leaderId then
    { node := n, store := store, reply := .null, events := [] }
  else if m.term < n.currentTerm then
    { node := n, store := store, reply := .appendEntries n.currentTerm false, events := [] }
  else
    let n := n.stepDown m
    let success := n.prevMatches m
    let n := n.acceptEntries m
    if success ∧ n.commitIndex < m.leaderCommit then
      let (n, store, events) := n.advanceCommit store m.leaderCommit
      { node := n, store := store, reply := .appendEntries n.currentTerm success, events := events }
    else { node := n, store := store, reply := .appendEntries n.currentTerm success, events := [] }

/-! ## InstallSnapshot -/

/-- What writing a chunk to the buffer comes to: the new buffer, the `length_error` of `resize`, or a copy to a place before the
buffer, which is undefined. -/
inductive ChunkWrite where
  | written (buffer : Str)
  | lengthError
  | undefined

/-- `max_size` of a `std::vector<char>`: `resize` throws beyond it. That there is memory up to it is taken for granted. -/
def maxBufferSize : ℕ := 2 ^ 63 - 1

/-- `resize` and `std::copy` of the InstallSnapshot handler: the size is computed in `size_t`. -/
def writeChunk (buffer : Str) (offset : ℤ) (chunk : Str) : ChunkWrite :=
  let size := ((offset + chunk.length) % 2 ^ 64).toNat
  if buffer.length < size ∧ maxBufferSize < size then .lengthError
  else
    let buffer := buffer ++ List.replicate (size - buffer.length) 0
    if chunk = [] then .written buffer
    else if offset < 0 then .undefined
    else .written (buffer.take offset.toNat ++ chunk ++ buffer.drop (offset.toNat + chunk.length))

/-- The end of a transfer: the snapshot takes the place of the log and of the store's content. -/
def installSnapshot (n : RaftNode) (store : KVStore) (snap : Snapshot) : RaftNode × KVStore :=
  let n := n.saveSnapshot snap
  ({ { n with
       lastApplied := snap.lastIncludedIndex
       commitIndex := snap.lastIncludedIndex
       log := []
       latestSnapshot := some snap }.persistMetadata with
     snapshotBuffer := [] }, store.loadFromMap snap.kvState)

/-- The answer when an exception is caught while a chunk is processed. -/
def processingFailed (n : RaftNode) (store : KVStore) : Handled where
  node := n
  store := store
  reply := .installSnapshot n.currentTerm false (ascii "processing_failed")
  events := []

/-- `snapshotBuffer` is set. -/
def setBuffer (n : RaftNode) (buffer : Str) : RaftNode := { n with snapshotBuffer := buffer }

/-- The bytes of a chunk. -/
def chunkOf (m : InstallSnapshotRPC) : Str := if m.data = [] then [] else base64Decode m.data

/-- The last chunk is in the buffer: the image is decoded, saved and installed. -/
def finishTransfer (n : RaftNode) (store : KVStore) (m : InstallSnapshotRPC) : Handled :=
  match deserializeSnapshot n.snapshotBuffer with
  | none => n.processingFailed store
  | some snap =>
    if snap.dumps then
      let (n, store) := n.installSnapshot store { snap with covered := m.covered }
      { node := n, store := store, reply := .installSnapshot n.currentTerm true [], events := [] }
    else n.emptySnapshotFile.processingFailed store

/-- `handle_node_client`, InstallSnapshot; `none` where the code has no defined behaviour. -/
def handleInstallSnapshot (n : RaftNode) (store : KVStore) (m : InstallSnapshotRPC) : Option Handled :=
  if m.term < n.currentTerm then
    some { node := n, store := store, reply := .installSnapshot n.currentTerm false (ascii "stale_term"), events := [] }
  else
    let n := n.seeTerm m.term
    let n := n.setBuffer (if m.offset = 0 then [] else n.snapshotBuffer)
    match writeChunk n.snapshotBuffer m.offset (chunkOf m) with
    | .undefined => none
    | .lengthError => some (n.processingFailed store)
    | .written buffer =>
      let n := n.setBuffer buffer
      if m.done then some (n.finishTransfer store m)
      else some { node := n, store := store, reply := .installSnapshot n.currentTerm true [], events := [] }

/-- `handle_node_client`, for a message of another node. -/
def handle (n : RaftNode) (store : KVStore) : Request → Option Handled
  | .requestVote m => some (n.handleRequestVote store m)
  | .appendEntries m => some (n.handleAppendEntries store m)
  | .installSnapshot m => n.handleInstallSnapshot store m

end RaftNode

end RaftStore
