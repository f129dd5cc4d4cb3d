import RaftStore.Served
import RaftStore.Wire

/-!
# JSON forms

The JSON values that nodes exchange and keep in their files: `to_json` and `from_json` of the sources, what the chunk loops send, what
`handle_node_client` and the threads read, and the metadata and snapshot files. The handlers are here as functions of the value that was
parsed, with the exceptions that a value of another shape raises. A number that is too large for an `int` is converted. The fields
`origin` and `covered` of the model are in no value.
-/

namespace RaftStore

/-- A value of type `int`. -/
def IsInt (i : ℤ) : Prop := -2 ^ 31 ≤ i ∧ i < 2 ^ 31

namespace Json

/-- `j.get<int>()`: the conversion of a number keeps its last 32 bits. -/
def getInt32 : Json → Except Exception ℤ
  | .int i => .ok (i.bmod (2 ^ 32))
  | .bool b => .ok b.toNat
  | _ => .error .typeError

/-- `j.at(name)`. -/
def require (name : String) : Json → Except Exception Json
  | .obj members => (members.lookup name).elim (.error .outOfRange) .ok
  | _ => .error .typeError

/-- `j.at(name).get_to(x)`, where `get` is `get<T>()`. -/
def getTo {α : Type} (get : Json → Except Exception α) (name : String) (j : Json) : Except Exception α := (j.require name).bind get

/-- `j.get<bool>()`. -/
def getBool : Json → Except Exception Bool
  | .bool b => .ok b
  | _ => .error .typeError

/-- `j.get<std::vector<T>>()`, where `get` is `get<T>()`. -/
def getVector {α : Type} (get : Json → Except Exception α) : Json → Except Exception (List α)
  | .arr xs => xs.mapM get
  | _ => .error .typeError

/-- `j.empty()`. -/
def isEmpty : Json → Bool
  | .null => true
  | .arr xs => xs.isEmpty
  | .obj members => members.isEmpty
  | _ => false

/-- `j[0]`, of a value that is not empty. -/
def first : Json → Except Exception Json
  | .arr (x :: _) => .ok x
  | _ => .error .typeError

/-- A string as the name of a member: a character for each byte. -/
def key (s : Str) : String := String.ofList (s.map fun b => Char.ofNat b.toNat)

/-- `j.items()`. -/
def items : Json → List (Str × Json)
  | .null => []
  | .arr xs => xs.mapIdx fun i x => (toString (i : ℤ), x)
  | .obj members => members.map fun m => (ascii m.1, m.2)
  | j => [([], j)]

/-- `j.contains(name)`. -/
def contains (name : String) : Json → Bool
  | .obj members => (members.lookup name).isSome
  | _ => false

/-- `for (auto &el : j[name].items()) map[el.key()] = el.value();`, from a map that is empty, where there is such a member. -/
def table {α : Type} (get : Json → Except Exception α) (name : String) (j : Json) : Except Exception (AList fun _ : Str => α) :=
  if j.contains name then
    (j.require name).bind fun x =>
      x.items.foldlM (fun map el => (get el.2).map fun value => map.insert el.1 value) ∅
  else .ok ∅

end Json

/-! ## Log entries -/

/-- `from_json` of a log entry. -/
def LogEntry.ofJson (j : Json) : Except Exception LogEntry :=
  (j.getTo Json.getInt32 "term").bind fun term =>
  (j.getTo Json.getInt32 "index").bind fun index =>
  (j.getTo Json.getStr "command").map fun command => { term := term, index := index, command := command, origin := ([], 0) }

/-! ## Messages -/

/-- `to_json` of a RequestVote message. -/
def RequestVoteRPC.toJson (m : RequestVoteRPC) : Json :=
  .obj [("rpc", .lit "RequestVote"), ("term", .int m.term), ("candidateId", .int m.candidateId), ("lastLogIndex", .int m.lastLogIndex),
    ("lastLogTerm", .int m.lastLogTerm)]

/-- The message that both chunk loops build. -/
def InstallSnapshotRPC.toJson (m : InstallSnapshotRPC) (chunkNum totalChunks : ℤ) : Json :=
  .obj [("rpc", .lit "InstallSnapshot"), ("term", .int m.term), ("leaderId", .int m.leaderId),
    ("lastIncludedIndex", .int m.lastIncludedIndex), ("lastIncludedTerm", .int m.lastIncludedTerm), ("offset", .int m.offset),
    ("data", .str m.data), ("done", .bool m.done), ("chunkNum", .int chunkNum), ("totalChunks", .int totalChunks)]

/-- The payload of a message, where the transfer that a chunk is of says its number and how many there are. -/
def Request.toJson (t : Option Transfer) : Request → Json
  | .requestVote m => m.toJson
  | .appendEntries m => m.toJson
  | .installSnapshot m => m.toJson ((t.map (·.chunkNum)).getD 0) ((t.map (·.chunkCount)).getD 0)

/-- What the branch of RequestVote reads. -/
def RequestVoteRPC.ofJson (j : Json) : Except Exception RequestVoteRPC :=
  (j.value Json.getInt32 "term" 0).bind fun term =>
  (j.value Json.getInt32 "candidateId" (-1)).bind fun candidateId =>
  (j.value Json.getInt32 "lastLogIndex" (-1)).bind fun lastLogIndex =>
  (j.value Json.getInt32 "lastLogTerm" 0).map fun lastLogTerm =>
    { term := term, candidateId := candidateId, lastLogIndex := lastLogIndex, lastLogTerm := lastLogTerm }

/-- What the branch of AppendEntries reads first: the message without its entries, and the value of these, which stays as it is. -/
def AppendEntriesRPC.ofJson (j : Json) : Except Exception (AppendEntriesRPC × Json) :=
  (j.value Json.getInt32 "term" 0).bind fun term =>
  (j.value Json.getInt32 "leaderId" (-1)).bind fun leaderId =>
  (j.value Json.getInt32 "prevLogIndex" (-1)).bind fun prevLogIndex =>
  (j.value Json.getInt32 "prevLogTerm" 0).bind fun prevLogTerm =>
  (j.value .ok "entries" (.arr [])).bind fun entries =>
  (j.value Json.getInt32 "leaderCommit" 0).map fun leaderCommit =>
    ({ term := term, leaderId := leaderId, prevLogIndex := prevLogIndex, prevLogTerm := prevLogTerm, entries := [],
       leaderCommit := leaderCommit }, entries)

/-- What the branch of InstallSnapshot reads. -/
def InstallSnapshotRPC.ofJson (j : Json) : Except Exception InstallSnapshotRPC :=
  (j.value Json.getInt32 "term" 0).bind fun term =>
  (j.value Json.getInt32 "leaderId" (-1)).bind fun leaderId =>
  (j.value Json.getInt32 "lastIncludedIndex" (-1)).bind fun lastIncludedIndex =>
  (j.value Json.getInt32 "lastIncludedTerm" 0).bind fun lastIncludedTerm =>
  (j.value Json.getInt32 "offset" 0).bind fun offset =>
  (j.value Json.getStr "data" []).bind fun chunkBase64 =>
  (j.value Json.getBool "done" false).bind fun done =>
  (j.value Json.getInt32 "chunkNum" (-1)).bind fun _ =>
  (j.value Json.getInt32 "totalChunks" (-1)).map fun _ =>
    { term := term, leaderId := leaderId, lastIncludedIndex := lastIncludedIndex, lastIncludedTerm := lastIncludedTerm,
      offset := offset, data := chunkBase64, done := done, covered := [] }

/-! ## Replies -/

/-- The value of a reply. -/
def Reply.toJson : Reply → Json
  | .requestVote term voteGranted => .obj [("term", .int term), ("voteGranted", .bool voteGranted)]
  | .appendEntries term success => .obj [("term", .int term), ("success", .bool success)]
  | .installSnapshot term success [] => .obj [("term", .int term), ("success", .bool success)]
  | .installSnapshot term success error => .obj [("term", .int term), ("success", .bool success), ("error", .str error)]
  | .null => .null
  | .invalid => .obj [("error", .lit "Invalid JSON")]

namespace Json

/-- `from_json` of the response to RequestVote. -/
def requestVoteResponse (j : Json) : Except Exception (ℤ × Bool) :=
  (j.value getInt32 "term" 0).bind fun term => (j.value getBool "voteGranted" false).map fun voteGranted => (term, voteGranted)

/-- `from_json` of the response to AppendEntries. -/
def appendEntriesResponse (j : Json) : Except Exception (ℤ × Bool) :=
  (j.value getInt32 "term" 0).bind fun term => (j.value getBool "success" false).map fun success => (term, success)

/-- `accepted` in the chunk loops: a value that it cannot be read from ends the transfer too. -/
def accepted (j : Json) : Bool := ((j.value getBool "success" false).toOption).getD false

end Json

/-- The reply that `start_election` reads. -/
def Reply.ofVote (j : Json) : Reply :=
  match j.requestVoteResponse with
  | .ok (term, voteGranted) => .requestVote term voteGranted
  | .error _ => .null

/-- The reply to AppendEntries that a thread reads. -/
def Reply.ofAppend (j : Json) : Reply :=
  match j.appendEntriesResponse with
  | .ok (term, success) => .appendEntries term success
  | .error _ => .null

/-- The reply to a chunk that a thread reads. -/
def Reply.ofChunk (j : Json) : Reply := .installSnapshot 0 j.accepted []

namespace Site

/-- The transfer whose chunk a thread has sent last. -/
def transfer (s : Site) : Thread → Option Transfer
  | .election => none
  | .heartbeat => s.heartbeat.bind fun hb =>
    match hb.phase with
    | .chunkReply _ t _ => some t
    | _ => none
  | .client k => s.clients[k]?.bind fun c =>
    match c.phase with
    | .chunkReply t _ => some t
    | _ => none

/-- What a thread makes of the value of a reply. -/
def readReply (s : Site) (t : Thread) (j : Json) : Reply :=
  if t = .election then .ofVote j else if (s.transfer t).isSome then .ofChunk j else .ofAppend j

end Site

/-! ## Handlers -/

/-- What a handler leaves, with the value of its reply. -/
structure Answered where
  node : RaftNode
  store : KVStore
  reply : Json

/-- A reply as its value. -/
def Handled.answer (h : Handled) : Answered := { node := h.node, store := h.store, reply := h.reply.toJson }

namespace RaftNode

/-- The answer to an exception. -/
def invalidJson (n : RaftNode) (store : KVStore) : Answered := { node := n, store := store, reply := Reply.invalid.toJson }

/-- The loop that appends the entries of a message: an exception leaves it in the middle. -/
def pushEntries (n : RaftNode) : List Json → RaftNode × Except Exception Unit
  | [] => (n, .ok ())
  | x :: xs =>
    match LogEntry.ofJson x with
    | .ok e => (n.pushEntry e).pushEntries xs
    | .error ex => (n, .error ex)

/-- The insertion of the entries of a message. -/
def insertJson (n : RaftNode) (prevLogIndex : ℤ) (entries : Json) : RaftNode × Except Exception Unit :=
  if entries.isEmpty then (n, .ok ())
  else
    let logInsertIndex := n.logIdx (prevLogIndex + 1)
    match n.entryAt logInsertIndex with
    | some e =>
      match entries.first.bind LogEntry.ofJson with
      | .ok firstNewEntry =>
        if e.term ≠ firstNewEntry.term then
          { n with log := n.log.take logInsertIndex.toNat }.pushEntries entries.elements
        else (n, .ok ())
      | .error ex => (n, .error ex)
    | none => n.pushEntries entries.elements

/-- The entries of a message that passes the check are taken over. -/
def takeEntries (n : RaftNode) (m : AppendEntriesRPC) (entries : Json) : RaftNode × Except Exception Unit :=
  if n.prevMatches m then n.insertJson m.prevLogIndex entries else (n, .ok ())

/-- `handle_node_client`, RequestVote. -/
def requestVoteJson (n : RaftNode) (store : KVStore) (j : Json) : Answered :=
  match RequestVoteRPC.ofJson j with
  | .error _ => n.invalidJson store
  | .ok m => (n.handleRequestVote store m).answer

/-- `handle_node_client`, AppendEntries. -/
def appendEntriesJson (n : RaftNode) (store : KVStore) (j : Json) : Answered :=
  match AppendEntriesRPC.ofJson j with
  | .error _ => n.invalidJson store
  | .ok (m, entries) =>
    if n.receivingSnapshot ∧ n.snapshotLeaderId = m.leaderId then { node := n, store := store, reply := Reply.null.toJson }
    else if m.term < n.currentTerm then
      { node := n, store := store, reply := (Reply.appendEntries n.currentTerm false).toJson }
    else
      let n := n.stepDown m
      let success := n.prevMatches m
      match n.takeEntries m entries with
      | (n, .error _) => n.invalidJson store
      | (n, .ok ()) =>
        let n := n.persistMetadata
        if success ∧ n.commitIndex < m.leaderCommit then
          let (n, store, _) := n.advanceCommit store m.leaderCommit
          { node := n, store := store, reply := (Reply.appendEntries n.currentTerm success).toJson }
        else { node := n, store := store, reply := (Reply.appendEntries n.currentTerm success).toJson }

/-- `handle_node_client`, InstallSnapshot; `none` where the code has no defined behaviour. -/
def installSnapshotJson (n : RaftNode) (store : KVStore) (j : Json) : Option Answered :=
  match InstallSnapshotRPC.ofJson j with
  | .error _ =>
    some { node := n, store := store, reply := (Reply.installSnapshot n.currentTerm false (ascii "handler_failed")).toJson }
  | .ok m => (n.handleInstallSnapshot store m).map Handled.answer

end RaftNode

/-- What a node answers to a client, with what is left of it. -/
def Served.answered (v : Served) (j : Json) : Answered := { node := (v.handle j).1.node, store := (v.handle j).1.store, reply := (v.handle j).2 }

/-- `handle_node_client` on the value that was parsed. -/
def Served.handleJson (v : Served) (j : Json) : Option Answered :=
  match (j.member "rpc").bind Json.getStr with
  | .error _ => some (v.node.invalidJson v.store)
  | .ok rpcType =>
    if rpcType = ascii "RequestVote" then some (v.node.requestVoteJson v.store j)
    else if rpcType = ascii "AppendEntries" then some (v.node.appendEntriesJson v.store j)
    else if rpcType = ascii "InstallSnapshot" then v.node.installSnapshotJson v.store j
    else some (v.answered j)

/-! ## Files -/

/-- The value that `persistMetadata` writes. -/
def Metadata.toJson (m : Metadata) : Json :=
  .obj [("currentTerm", .int m.currentTerm), ("votedFor", .int m.votedFor), ("logEntries", .arr (m.logEntries.map LogEntry.toJson)),
    ("clientLastRequest", .obj (m.clientLastRequest.entries.map fun p => (Json.key p.1, .int p.2))),
    ("clientResultCache", .obj (m.clientResultCache.entries.map fun p => (Json.key p.1, .str p.2)))]

/-- What `loadMetadata` reads from a value. -/
def Metadata.ofJson (j : Json) : Except Exception Metadata :=
  (j.value Json.getInt32 "currentTerm" 0).bind fun currentTerm =>
  (j.value Json.getInt32 "votedFor" (-1)).bind fun votedFor =>
  (j.value (Json.getVector LogEntry.ofJson) "logEntries" []).bind fun logEntries =>
  (j.table Json.getInt32 "clientLastRequest").bind fun clientLastRequest =>
  (j.table Json.getStr "clientResultCache").map fun clientResultCache =>
    { currentTerm := currentTerm, votedFor := votedFor, logEntries := logEntries, clientLastRequest := clientLastRequest,
      clientResultCache := clientResultCache }

/-- The value that `saveSnapshot` writes. -/
def Snapshot.toJson (snap : Snapshot) : Json :=
  .obj [("metadata", .obj [("lastIncludedIndex", .int snap.lastIncludedIndex), ("lastIncludedTerm", .int snap.lastIncludedTerm)]),
    ("state", .obj (snap.kvState.entries.map fun p => (Json.key p.1, .str p.2)))]

/-- `j.get<std::map<std::string, std::string>>()`. -/
def Json.getMap : Json → Except Exception StrMap
  | .obj members => members.foldlM (fun map m => m.2.getStr.map fun value => map.insert (ascii m.1) value) ∅
  | _ => .error .typeError

/-- What `RaftNode::start` reads from a value. -/
def Snapshot.ofJson (j : Json) : Except Exception Snapshot :=
  ((j.path ["metadata", "lastIncludedIndex"]).bind Json.getInt32).bind fun lastIncludedIndex =>
  ((j.path ["metadata", "lastIncludedTerm"]).bind Json.getInt32).bind fun lastIncludedTerm =>
  ((j.member "state").bind Json.getMap).map fun kvState =>
    { lastIncludedIndex := lastIncludedIndex, lastIncludedTerm := lastIncludedTerm, kvState := kvState, covered := [] }

namespace RaftNode

/-- `loadMetadata`, from the value in the file. -/
def readMetadata (n : RaftNode) (j : Json) : Except Exception RaftNode :=
  (Metadata.ofJson j).map fun m =>
    { n with
      currentTerm := m.currentTerm
      votedFor := m.votedFor
      log := m.logEntries
      clientLastRequest := m.clientLastRequest
      clientResultCache := m.clientResultCache }

/-- `RaftNode::start`, from the value in the snapshot file. -/
def readSnapshot (n : RaftNode) (store : KVStore) (j : Json) : Except Exception (RaftNode × KVStore) :=
  (Snapshot.ofJson j).map fun snap =>
    ({ n with
       latestSnapshot := some snap
       lastApplied := snap.lastIncludedIndex
       commitIndex := snap.lastIncludedIndex }, store.loadFromMap snap.kvState)

/-- `loadMetadata`, from the value that was written to the file. -/
def loadJson (n : RaftNode) : Except Exception RaftNode :=
  match n.disk.metadata with
  | none => .ok n
  | some m => n.readMetadata m.toJson

/-- `RaftNode::start`, from the value that was written to the snapshot file. An exception ends the process. -/
def startJson (n : RaftNode) (store : KVStore) : Option (RaftNode × KVStore) :=
  match n.disk.snapshotFile with
  | .absent => some (n, store)
  | .empty => none
  | .saved snap => (n.readSnapshot store snap.toJson).toOption

/-- What a node is after a crash, by the values in its files. An empty file has none. -/
def restartJson (n : RaftNode) (store : KVStore) : Option (RaftNode × KVStore) :=
  if n.disk.metadataEmptied then none
  else ((create n.id n.rpcPort n.peerRpcPorts n.disk).loadJson.toOption).bind (·.startJson store)

end RaftNode

end RaftStore
