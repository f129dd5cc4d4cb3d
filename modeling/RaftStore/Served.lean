import RaftStore.Json
import RaftStore.Site

/-!
# What a node answers to clients

The branches of `handle_node_client` for the messages that `handle_client` sends, and the metrics that two of them report. The result of
`handleClientCommand` is a part of what is served: the threads that make it are in `RaftStore.Site`.
-/

namespace RaftStore

/-- `Metrics`. -/
structure Metrics where
  currentTerm : ℤ
  votedFor : ℤ
  leaderId : ℤ
  role : Str
  logSize : ℤ
  commitIndex : ℤ
  lastApplied : ℤ
  snapshotCount : ℤ
  lastSnapshotIndex : ℤ
  lastSnapshotTerm : ℤ
  electionCount : ℤ
  leaderChanges : ℤ
  votesReceived : ℤ
  appendEntriesSent : ℤ
  appendEntriesReceived : ℤ
  requestVotesSent : ℤ
  requestVotesReceived : ℤ
  installSnapshotsSent : ℤ
  installSnapshotsReceived : ℤ
  clientRequestsReceived : ℤ
  clientRequestsSucceeded : ℤ
  clientRequestsFailed : ℤ
  clientRequestsRedirected : ℤ
  totalProcessingTimeMs : ℤ
  avgResponseTimeMs : ℤ

namespace Metrics

/-- The metrics that a node starts with. -/
def initial : Metrics where
  currentTerm := 0
  votedFor := -1
  leaderId := -1
  role := ascii "Follower"
  logSize := 0
  commitIndex := 0
  lastApplied := 0
  snapshotCount := 0
  lastSnapshotIndex := 0
  lastSnapshotTerm := 0
  electionCount := 0
  leaderChanges := 0
  votesReceived := 0
  appendEntriesSent := 0
  appendEntriesReceived := 0
  requestVotesSent := 0
  requestVotesReceived := 0
  installSnapshotsSent := 0
  installSnapshotsReceived := 0
  clientRequestsReceived := 0
  clientRequestsSucceeded := 0
  clientRequestsFailed := 0
  clientRequestsRedirected := 0
  totalProcessingTimeMs := 0
  avgResponseTimeMs := 0

/-- `Metrics::toJson`. -/
def toJson (m : Metrics) (uptimeSeconds : ℤ) : List (String × Json) :=
  [("raft_state", .obj
      [("term", .int m.currentTerm), ("role", .str m.role), ("voted_for", .int m.votedFor), ("leader_id", .int m.leaderId)]),
    ("log_state", .obj [("log_size", .int m.logSize), ("commit_index", .int m.commitIndex), ("last_applied", .int m.lastApplied)]),
    ("snapshots", .obj
      [("count", .int m.snapshotCount), ("last_index", .int m.lastSnapshotIndex), ("last_term", .int m.lastSnapshotTerm)]),
    ("elections", .obj
      [("election_count", .int m.electionCount), ("leader_changes", .int m.leaderChanges), ("votes_received", .int m.votesReceived)]),
    ("rpcs", .obj
      [("append_entries_sent", .int m.appendEntriesSent), ("append_entries_received", .int m.appendEntriesReceived),
        ("request_votes_sent", .int m.requestVotesSent), ("request_votes_received", .int m.requestVotesReceived),
        ("install_snapshots_sent", .int m.installSnapshotsSent), ("install_snapshots_received", .int m.installSnapshotsReceived)]),
    ("client_requests", .obj
      [("received", .int m.clientRequestsReceived), ("succeeded", .int m.clientRequestsSucceeded),
        ("failed", .int m.clientRequestsFailed), ("redirected", .int m.clientRequestsRedirected)]),
    ("performance", .obj
      [("total_processing_time_ms", .int m.totalProcessingTimeMs), ("avg_response_time_ms", .int m.avgResponseTimeMs)]),
    ("uptime_seconds", .int uptimeSeconds)]

/-- `Metrics::recordSnapshot`. -/
def recordSnapshot (m : Metrics) (index term : ℤ) : Metrics :=
  { m with snapshotCount := m.snapshotCount + 1, lastSnapshotIndex := index, lastSnapshotTerm := term }

end Metrics

namespace RaftNode

/-- `RaftNode::updateLogMetrics`. -/
def updateLogMetrics (n : RaftNode) (m : Metrics) : Metrics :=
  let m := { m with logSize := n.getLogSize, commitIndex := n.commitIndex, lastApplied := n.lastApplied }
  match n.latestSnapshot with
  | some s => { m with lastSnapshotIndex := s.lastIncludedIndex, lastSnapshotTerm := s.lastIncludedTerm }
  | none => m

/-- The name of the role in `getStatus`. -/
def roleStr (n : RaftNode) : Str :=
  match n.state with
  | .leader => ascii "Leader"
  | .candidate => ascii "Candidate"
  | .follower => ascii "Follower"

/-- What `RaftNode::getStatus` returns, with the metrics that it has updated. -/
def getStatus (n : RaftNode) (m : Metrics) : List (String × Json) :=
  [("node_id", .int n.id), ("term", .int n.currentTerm), ("role", .str n.roleStr), ("leader_id", .int n.leaderId),
    ("commit_index", .int n.commitIndex), ("last_applied", .int n.lastApplied), ("log_size", .int n.getLogSize),
    ("voted_for", .int n.votedFor), ("snapshot_count", .int m.snapshotCount), ("last_snapshot_index", .int m.lastSnapshotIndex)]

end RaftNode

/-- A node when a message of a client comes in. `result`: what `handleClientCommand` returns for it. -/
structure Served where
  node : RaftNode
  metrics : Metrics
  store : KVStore
  uptimeSeconds : ℤ
  result : Str

namespace Served

/-- `{"status", "OK"}`. -/
def ok : String × Json := ("status", .lit "OK")

/-- The branch of `ClientRequest`. -/
def clientRequest (v : Served) (msg : Json) : Except Exception (Served × Json) :=
  (msg.value Json.getStr "command" []).bind fun command =>
  (msg.value Json.getStr "key" []).bind fun _ =>
  (msg.value Json.getStr "value" []).bind fun _ =>
  (msg.value Json.getStr "clientId" []).bind fun _ =>
  (msg.value Json.getInt "requestId" 0).bind fun _ =>
  let m := { v.metrics with clientRequestsReceived := v.metrics.clientRequestsReceived + 1 }
  let succeeded := { v with metrics := { m with clientRequestsSucceeded := m.clientRequestsSucceeded + 1 } }
  let failed := { v with metrics := { m with clientRequestsFailed := m.clientRequestsFailed + 1 } }
  if v.node.state ≠ .leader then
    .ok ({ v with metrics := { m with clientRequestsRedirected := m.clientRequestsRedirected + 1 } },
      .obj [("status", .lit "redirect"), ("leaderId", .int v.node.leaderId)])
  else if v.result = ascii "OK" then .ok (succeeded, .obj [ok])
  else if v.result = ascii "key not found" then .ok (failed, .obj [("status", .lit "error"), ("msg", .str v.result)])
  else if command = ascii "GET" then .ok (succeeded, .obj [ok, ("value", .str v.result)])
  else .ok (failed, .obj [("status", .lit "error"), ("msg", .str v.result)])

/-- The branch of `STATUS`. -/
def status (v : Served) : Served × Json :=
  let m := v.node.updateLogMetrics v.metrics
  ({ v with metrics := m }, .obj (v.node.getStatus m ++ [ok]))

/-- The branch of `METRICS`. -/
def reportMetrics (v : Served) : Served × Json :=
  let m := v.node.updateLogMetrics v.metrics
  ({ v with metrics := m }, .obj (m.toJson v.uptimeSeconds ++ [ok]))

/-- The branch of `LOGSIZE`. -/
def logSize (v : Served) : Served × Json :=
  (v, .obj
    [ok, ("total_log_size", .int v.node.getLogSize), ("physical_log_size", .int v.node.log.length),
      ("snapshot_index", .int ((v.node.latestSnapshot.map (·.lastIncludedIndex)).getD 0)),
      ("commit_index", .int v.node.commitIndex), ("last_applied", .int v.node.lastApplied)])

/-- The branch of `SNAPSHOT_NOW`. -/
def snapshotNow (v : Served) : Served × Json :=
  match v.node.triggerSnapshot v.store with
  | some (n, store) =>
    let index := (n.latestSnapshot.map (·.lastIncludedIndex)).getD 0
    let term := (n.latestSnapshot.map (·.lastIncludedTerm)).getD 0
    ({ v with node := n, store := store, metrics := v.metrics.recordSnapshot index term },
      .obj [ok, ("message", .lit "Snapshot created successfully"), ("snapshot_index", .int index), ("snapshot_term", .int term)])
  | none =>
    let (n, store) := v.node.snapshotFailed v.store
    ({ v with node := n, store := store },
      .obj [("status", .lit "error"), ("message", .lit "Failed to create snapshot (log may be empty)")])

/-- An entry in the reply to `GET_LOGS`. -/
def logJson (e : LogEntry) : Json := .obj [("index", .int e.index), ("term", .int e.term), ("command", .str e.command)]

/-- The branch of `GET_LOGS`. -/
def getLogs (v : Served) (msg : Json) : Except Exception (Served × Json) :=
  (msg.value Json.getInt "count" 10).bind fun count =>
  let logs := v.node.log.drop (max 0 ((v.node.log.length : ℤ) - count)).toNat
  .ok (v, .obj
    [ok, ("logs", .arr (logs.map logJson)), ("total_count", .int v.node.log.length), ("returned_count", .int logs.length)])

/-- A peer in the reply to `CLUSTER_INFO`. -/
def peerJson (n : RaftNode) (i : ℕ) (port : ℤ) : Json :=
  .obj [("node_id", .int i), ("port", .int port), ("next_index", .int (n.nextIndex.getD i (-1))),
    ("match_index", .int (n.matchIndex.getD i (-1)))]

/-- The branch of `CLUSTER_INFO`. -/
def clusterInfo (v : Served) : Served × Json :=
  (v, .obj
    [ok, ("current_node_id", .int v.node.id), ("cluster_size", .int v.node.peerRpcPorts.length),
      ("nodes", .arr (v.node.peerRpcPorts.mapIdx (peerJson v.node))), ("leader_id", .int v.node.leaderId)])

/-- `handle_node_client` on a message that is not one of a node; an exception is caught in it. -/
def handle (v : Served) (msg : Json) : Served × Json :=
  let reply := (msg.member "rpc").bind fun rpc => rpc.getStr.bind fun rpcType =>
    if rpcType = ascii "ClientRequest" then v.clientRequest msg
    else if rpcType = ascii "STATUS" then .ok v.status
    else if rpcType = ascii "METRICS" then .ok v.reportMetrics
    else if rpcType = ascii "LOGSIZE" then .ok v.logSize
    else if rpcType = ascii "SNAPSHOT_NOW" then .ok v.snapshotNow
    else if rpcType = ascii "GET_LOGS" then v.getLogs msg
    else if rpcType = ascii "CLUSTER_INFO" then .ok v.clusterInfo
    else .ok (v, .obj [("error", .lit "Unknown RPC")])
  match reply with
  | .ok x => x
  | .error _ => (v, .obj [("error", .lit "Invalid JSON")])

end Served

end RaftStore
