import RaftStore.Store

/-!
# A node of the cluster

`raft_node.h`, `persist_functions.cpp`, `snapshot.cpp` and the parts of `raft_node.cpp` that read and change one node: its log
over a snapshot, its metadata and snapshot files, becoming a follower, applying committed entries and taking a snapshot. An
`int` is an integer; its overflow is undefined in the sources and is not modelled. Three fields are not in the sources and are
read by no definition of the model but to fill the same field elsewhere: `LogEntry.origin`, the request an entry was appended
for, `Snapshot.covered`, the entries a snapshot stands for, and `ClientRequest.session`.
-/

namespace RaftStore

inductive NodeState where
  | follower
  | candidate
  | leader
  deriving DecidableEq

/-- A log entry. `origin`: client and number of the request it was appended for. -/
structure LogEntry where
  term : ℤ
  index : ℤ
  command : Str
  origin : Str × ℤ
  deriving DecidableEq

/-- A snapshot. `covered`: the log entries it stands for. -/
structure Snapshot where
  lastIncludedIndex : ℤ
  lastIncludedTerm : ℤ
  kvState : StrMap
  covered : List LogEntry
  deriving DecidableEq

/-- The JSON dump of `saveSnapshot` accepts every string of the snapshot. -/
def Snapshot.dumps (snap : Snapshot) : Bool :=
  snap.kvState.entries.all (fun p => isUtf8 p.1 && isUtf8 p.2)

/-- The content of a metadata file. -/
structure Metadata where
  currentTerm : ℤ
  votedFor : ℤ
  logEntries : List LogEntry
  clientLastRequest : AList (fun _ : Str => ℤ)
  clientResultCache : StrMap
  deriving DecidableEq

/-- A snapshot file: absent, left empty by a dump that threw, or holding a snapshot. -/
inductive SnapshotFile where
  | absent
  | empty
  | saved (snap : Snapshot)
  deriving DecidableEq

/-- The two files of a node. `metadataEmptied`: the metadata file was left empty by a dump that threw, whatever it held before. -/
structure Disk where
  metadata : Option Metadata
  snapshotFile : SnapshotFile
  metadataEmptied : Bool := false
  deriving DecidableEq

/-- A node: the fields of `RaftNode` that its logic reads, and its files. -/
structure RaftNode where
  id : ℤ
  leaderId : ℤ
  state : NodeState
  currentTerm : ℤ
  votedFor : ℤ
  log : List LogEntry
  commitIndex : ℤ
  lastApplied : ℤ
  rpcPort : ℤ
  peerRpcPorts : List ℤ
  matchIndex : List ℤ
  nextIndex : List ℤ
  runningHeartbeats : Bool
  shutdownRequested : Bool
  clientLastRequest : AList (fun _ : Str => ℤ)
  clientResultCache : StrMap
  latestSnapshot : Option Snapshot
  snapshotBuffer : Str
  receivingSnapshot : Bool
  snapshotLeaderId : ℤ
  disk : Disk

/-- The commands a client can send to a node. `session`: the connection it came from. -/
structure ClientRequest where
  clientId : Str
  requestId : ℤ
  command : Str
  key : Str
  value : Str
  session : ℕ
  deriving DecidableEq

/-- What a run leaves in its history. -/
inductive Event where
  /-- `state` became `LEADER`, on a node that is this. -/
  | becameLeader (node : RaftNode)
  /-- A vote was given, to the node itself or in a reply with `voteGranted`. -/
  | voted (term candidate : ℤ)
  /-- `handleClientCommand` set `commitIndex`, with this entry at that index. -/
  | committed (term index : ℤ) (entry : Option LogEntry)
  /-- The AppendEntries handler set `commitIndex`. -/
  | commitAdvanced (index : ℤ)
  /-- `applyToStateMachine` executed the command of this entry, for this value of `lastApplied`. -/
  | applied (index : ℤ) (entry : LogEntry)
  /-- `handleClientCommand` recorded this result for the request. -/
  | recorded (req : ClientRequest) (result : Str)
  /-- `handleClientCommand` answered the request from its table. -/
  | cached (req : ClientRequest) (result : Str)

/-- `SNAPSHOT_THRESHOLD`. -/
def snapshotThreshold : ℕ := 3000

namespace RaftNode

/-! ## The log over the snapshot -/

/-- `index - latestSnapshot->lastIncludedIndex - 1` where there is a snapshot, and `index` where there is none: the place of a
global index in `log`. -/
def logIdx (n : RaftNode) (index : ℤ) : ℤ :=
  match n.latestSnapshot with
  | some s => index - s.lastIncludedIndex - 1
  | none => index

/-- `log[logIdx]` where `logIdx >= 0 && logIdx < (int)log.size()`. -/
def entryAt (n : RaftNode) (logIdx : ℤ) : Option LogEntry :=
  if 0 ≤ logIdx then n.log[logIdx.toNat]? else none

/-- `RaftNode::getLogTerm`. -/
def getLogTerm (n : RaftNode) (index : ℤ) : ℤ :=
  match n.latestSnapshot with
  | some s =>
    if index ≤ s.lastIncludedIndex then (if index = s.lastIncludedIndex then s.lastIncludedTerm else 0)
    else ((n.entryAt (n.logIdx index)).map (·.term)).getD 0
  | none => ((n.entryAt (n.logIdx index)).map (·.term)).getD 0

/-- `baseIndex` of `getLogSize` and `getLogEntries`. -/
def baseIndex (n : RaftNode) : ℤ :=
  match n.latestSnapshot with
  | some s => s.lastIncludedIndex + 1
  | none => 0

/-- `RaftNode::getLogSize`. -/
def getLogSize (n : RaftNode) : ℤ := n.baseIndex + n.log.length

/-- `RaftNode::getLogEntries`. -/
def getLogEntries (n : RaftNode) (startIndex endIndex : ℤ) : List LogEntry :=
  let logStart := max 0 (startIndex - n.baseIndex)
  let logEnd := min (n.log.length : ℤ) (endIndex - n.baseIndex)
  if logEnd ≤ logStart ∨ (n.log.length : ℤ) ≤ logStart then []
  else (n.log.take logEnd.toNat).drop logStart.toNat

/-- `RaftNode::appendLogEntry`. -/
def appendLogEntry (n : RaftNode) (entry : LogEntry) : RaftNode := { n with log := n.log ++ [entry] }

/-- `RaftNode::truncateLogSafe`. -/
def truncateLogSafe (n : RaftNode) (lastIncludedIndex : ℤ) : RaftNode :=
  let oldSnapshotIndex := n.baseIndex - 1
  if lastIncludedIndex ≤ oldSnapshotIndex then n
  else
    let truncateAtLogIndex := lastIncludedIndex - (oldSnapshotIndex + 1) + 1
    if 0 < truncateAtLogIndex ∧ truncateAtLogIndex ≤ n.log.length then
      { n with log := n.log.drop truncateAtLogIndex.toNat }
    else n

/-- `truncateLog`. -/
def truncateLog (lastIncludedIndex : ℤ) (log : List LogEntry) : List LogEntry :=
  log.foldl (fun newLog entry => if lastIncludedIndex < entry.index then newLog ++ [entry] else newLog) []

/-- The entries the snapshot of the node stands for. -/
def covered (n : RaftNode) : List LogEntry :=
  match n.latestSnapshot with
  | some s => s.covered
  | none => []

/-- The log of the node from global index 0 on: what its snapshot stands for, and `log`. -/
def full (n : RaftNode) : List LogEntry := n.covered ++ n.log

/-- The entry the node has at a global index: in `log`, or under a snapshot that reaches the index. -/
def globalEntry (n : RaftNode) (index : ℤ) : Option LogEntry :=
  match n.latestSnapshot with
  | some s =>
    if index ≤ s.lastIncludedIndex then (if 0 ≤ index then s.covered[index.toNat]? else none)
    else n.entryAt (n.logIdx index)
  | none => n.entryAt (n.logIdx index)

/-! ## Files -/

/-- The dump of `persistMetadata` accepts every string of the node. -/
def dumpsMetadata (n : RaftNode) : Bool :=
  n.log.all (fun e => isUtf8 e.command) && n.clientLastRequest.entries.all (fun p => isUtf8 p.1) &&
    n.clientResultCache.entries.all (fun p => isUtf8 p.1 && isUtf8 p.2)

/-- `persistMetadata`, of a node whose strings the dump accepts. -/
def persistMetadata (n : RaftNode) : RaftNode :=
  let j : Metadata :=
    { currentTerm := n.currentTerm
      votedFor := n.votedFor
      logEntries := n.log
      clientLastRequest := n.clientLastRequest
      clientResultCache := n.clientResultCache }
  { n with disk := { n.disk with metadata := some j, metadataEmptied := false } }

/-- The metadata file is opened, and left empty by a dump that throws. -/
def emptyMetadataFile (n : RaftNode) : RaftNode := { n with disk := { n.disk with metadataEmptied := true } }

/-- `saveSnapshot`, of a snapshot whose strings the dump accepts. -/
def saveSnapshot (n : RaftNode) (snapshot : Snapshot) : RaftNode :=
  { n with disk := { n.disk with snapshotFile := .saved snapshot } }

/-- The snapshot file is opened, and left empty by a dump that throws. -/
def emptySnapshotFile (n : RaftNode) : RaftNode := { n with disk := { n.disk with snapshotFile := .empty } }

/-- `RaftNode::RaftNode`. -/
def create (nodeId port : ℤ) (peers : List ℤ) (disk : Disk) : RaftNode where
  id := nodeId
  leaderId := -1
  state := .follower
  currentTerm := 0
  votedFor := -1
  log := []
  commitIndex := 0
  lastApplied := 0
  rpcPort := port
  peerRpcPorts := peers
  matchIndex := peers.map (fun _ => -1)
  nextIndex := peers.map (fun _ => 0)
  runningHeartbeats := false
  shutdownRequested := false
  clientLastRequest := ∅
  clientResultCache := ∅
  latestSnapshot := none
  snapshotBuffer := []
  receivingSnapshot := false
  snapshotLeaderId := -1
  disk := disk

/-- `loadMetadata`, of a file that was not left empty. -/
def loadMetadata (n : RaftNode) : RaftNode :=
  match n.disk.metadata with
  | none => n
  | some j =>
    { n with
      currentTerm := j.currentTerm
      votedFor := j.votedFor
      log := j.logEntries
      clientLastRequest := j.clientLastRequest
      clientResultCache := j.clientResultCache }

/-- `RaftNode::start`: the snapshot file is loaded, into the store too. An empty file is no JSON, and the exception ends the
process. -/
def start (n : RaftNode) (store : KVStore) : Option (RaftNode × KVStore) :=
  match n.disk.snapshotFile with
  | .absent => some (n, store)
  | .empty => none
  | .saved snap => some
      ({ n with
         latestSnapshot := some snap
         lastApplied := snap.lastIncludedIndex
         commitIndex := snap.lastIncludedIndex }, store.loadFromMap snap.kvState)

/-- What a node is after a crash: built anew by the constructor, `loadMetadata` and `start` from its files. An empty metadata file is no
JSON either. -/
def restart (n : RaftNode) (store : KVStore) : Option (RaftNode × KVStore) :=
  if n.disk.metadataEmptied then none else (create n.id n.rpcPort n.peerRpcPorts n.disk).loadMetadata.start store

/-! ## Roles -/

/-- `RaftNode::becomeFollower`. -/
def becomeFollower (n : RaftNode) (newTerm : ℤ) : RaftNode :=
  if n.shutdownRequested then n
  else
    { n with
      currentTerm := newTerm
      state := .follower
      votedFor := -1
      runningHeartbeats := false }.persistMetadata

/-- `commitIndex` is set. -/
def setCommitIndex (n : RaftNode) (index : ℤ) : RaftNode := { n with commitIndex := index }

/-! ## Snapshots -/

/-- The snapshot that the node takes of the store. -/
def newSnapshot (n : RaftNode) (store : KVStore) : Snapshot where
  lastIncludedIndex := n.lastApplied
  lastIncludedTerm := n.getLogTerm n.lastApplied
  kvState := store.dumpToMap
  covered := n.full.take (n.lastApplied + 1).toNat

/-- The `nextIndex` of each peer is moved past a snapshot. -/
def raiseNextIndex (lastIncludedIndex : ℤ) (nextIndex : List ℤ) : List ℤ :=
  nextIndex.map (fun i => if i ≤ lastIncludedIndex then lastIncludedIndex + 1 else i)

/-- The creation of a snapshot, the same in `triggerSnapshot`, `handleClientCommand` and the AppendEntries handler, where the two dumps
accept the strings of the store and of the node. -/
def createSnapshot (n : RaftNode) (store : KVStore) : RaftNode × KVStore :=
  let snap := n.newSnapshot store
  let n := (n.saveSnapshot snap).truncateLogSafe snap.lastIncludedIndex
  ({ n with
     latestSnapshot := some snap
     nextIndex := raiseNextIndex snap.lastIncludedIndex n.nextIndex }.persistMetadata,
    store.writeAheadLogTruncate snap.lastIncludedIndex)

/-- `RaftNode::triggerSnapshot`; `none` where it returns `false`: the log is empty, or one of the two dumps throws. -/
def triggerSnapshot (n : RaftNode) (store : KVStore) : Option (RaftNode × KVStore) :=
  if n.log.length = 0 then none
  else if (n.newSnapshot store).dumps = true ∧ (n.createSnapshot store).1.dumpsMetadata = true then some (n.createSnapshot store)
  else none

/-- What `triggerSnapshot` leaves where it returns `false`: the dump of the snapshot, or that of the metadata, has emptied its file. -/
def snapshotFailed (n : RaftNode) (store : KVStore) : RaftNode × KVStore :=
  if n.log.length = 0 then (n, store)
  else if (n.newSnapshot store).dumps = false then (n.emptySnapshotFile, store)
  else
    let (n', store) := n.createSnapshot store
    ({ n' with disk := { n'.disk with metadata := n.disk.metadata } }.emptyMetadataFile, store)

/-- The end of both commit sections: a snapshot when `log` has reached the threshold, where the dumps accept its strings. -/
def snapshotAtThreshold (n : RaftNode) (store : KVStore) : RaftNode × KVStore :=
  if snapshotThreshold ≤ n.log.length then n.createSnapshot store else (n, store)

end RaftNode

/-! ## Applying -/

/-- `RaftNode::applyToStateMachine`. -/
def RaftNode.applyToStateMachine (n : RaftNode) (store : KVStore) (command : Str) : KVStore × Str :=
  if n.shutdownRequested then (store, ascii "error: node shutting down") else store.applyCommand command

/-- A node and the store while committed entries are applied: the result of the last command, and what was applied. -/
structure Applying where
  node : RaftNode
  store : KVStore
  applyResult : Str
  events : List Event

/-- One turn of an apply loop. -/
def Applying.applyNext (r : Applying) : Applying :=
  let n := { r.node with lastApplied := r.node.lastApplied + 1 }
  match n.entryAt (n.logIdx n.lastApplied) with
  | none => { r with node := n }
  | some e =>
    let (store, result) := n.applyToStateMachine r.store e.command
    { node := n
      store := store
      applyResult := result
      events := r.events ++ (if n.shutdownRequested then [] else [.applied n.lastApplied e]) }

/-- An apply loop: `while (lastApplied < commitIndex)`. -/
def RaftNode.applyCommitted (n : RaftNode) (store : KVStore) : Applying :=
  Applying.applyNext^[(n.commitIndex - n.lastApplied).toNat]
    { node := n, store := store, applyResult := [], events := [] }

end RaftStore
