import RaftStore.Rpc

/-!
# A node and its threads

`start_election`, `send_heartbeats` and `handleClientCommand` of `raft_node.cpp`: the threads of a node that send messages and
wait for the replies. A thread is cut at its calls of `sendRPC`: what it does from the return of one call up to the next is one
or two steps, between which the handlers and the other threads of the node may run. A call that gets no reply in time returns
the empty string (`none`).

The 2040-byte branch of the transfer loops is left out: a chunk of 512 bytes never makes a message that long.
-/

namespace RaftStore

/-! ## Snapshot transfers -/

/-- A transfer of a snapshot: its image, and the number of the next chunk. -/
structure Transfer where
  snap : Snapshot
  snapBytes : Str
  chunkNum : ℕ
  deriving DecidableEq

namespace Transfer

/-- `chunkSize`. -/
def chunkSize : ℕ := 512

/-- The start of the transfer of a snapshot. -/
def start (snap : Snapshot) : Transfer := { snap := snap, snapBytes := serializeSnapshot snap, chunkNum := 0 }

/-- `chunkCount`. -/
def chunkCount (t : Transfer) : ℕ := (t.snapBytes.length + chunkSize - 1) / chunkSize

/-- `offset` of the next chunk. -/
def offset (t : Transfer) : ℕ := t.chunkNum * chunkSize

/-- `end` of the next chunk. The sum of the source is one of `int`s: it is this one for images of at most 2^31 - 512 bytes, and beyond
them the source has no defined behaviour at the last chunk. -/
def stop (t : Transfer) : ℕ := min (t.offset + chunkSize) t.snapBytes.length

/-- The message with the next chunk. -/
def message (t : Transfer) (n : RaftNode) : InstallSnapshotRPC where
  term := n.currentTerm
  leaderId := n.id
  lastIncludedIndex := t.snap.lastIncludedIndex
  lastIncludedTerm := t.snap.lastIncludedTerm
  offset := t.offset
  data := base64Encode ((t.snapBytes.take t.stop).drop t.offset)
  done := decide (t.stop = t.snapBytes.length)
  covered := t.snap.covered

/-- The reply to a chunk for peer `i` is seen: the node after it, and the transfer unless it has ended. -/
def reply (t : Transfer) (n : RaftNode) (i : ℕ) (r : Option Reply) : RaftNode × Option Transfer :=
  match r with
  | none => (n, none)
  | some r =>
    if r.accepted then
      let n := if t.stop = t.snapBytes.length then
          { n with
            nextIndex := n.nextIndex.set i (t.snap.lastIncludedIndex + 1)
            matchIndex := n.matchIndex.set i t.snap.lastIncludedIndex }
        else n
      (n, if t.chunkNum + 1 < t.chunkCount then some { t with chunkNum := t.chunkNum + 1 } else none)
    else (n, none)

end Transfer

/-! ## Threads -/

/-- Where an election is: about to ask the next peer or to count the votes, waiting for a vote, or elected and waiting for the
heartbeat thread of an earlier leadership to end. -/
inductive ElectionPhase where
  | ask
  | await (call : ℕ)
  | join
  deriving DecidableEq

/-- A run of `start_election`. `rest`: the peers whose votes are not in; `term`: the term it was started in. -/
structure Election where
  votes : ℕ
  rest : List ℤ
  phase : ElectionPhase
  term : ℤ
  deriving DecidableEq

/-- Where a heartbeat thread is: at the outer loop, at peer `i`, waiting for the reply to AppendEntries with `count` entries
from `nextIdx`, about to send a chunk, or waiting for the reply to one. -/
inductive HeartbeatPhase where
  | top
  | peer (i : ℕ)
  | append (i : ℕ) (nextIdx : ℤ) (count : ℕ) (call : ℕ)
  | chunk (i : ℕ) (t : Transfer)
  | chunkReply (i : ℕ) (t : Transfer) (call : ℕ)
  deriving DecidableEq

/-- A run of `send_heartbeats`. `term`: the term it was started in. -/
structure Heartbeat where
  phase : HeartbeatPhase
  term : ℤ
  deriving DecidableEq

/-- Where a client command is: about to send to the current peer or to commit, waiting for the reply to AppendEntries, about to
send a chunk, waiting for the reply to one, or returned with a result. -/
inductive CallPhase where
  | ready
  | append (call : ℕ)
  | chunk (t : Transfer)
  | chunkReply (t : Transfer) (call : ℕ)
  | done (result : Str)
  deriving DecidableEq

/-- A run of `handleClientCommand` past its append. `i`: the current peer; `entry`: the entry it appended. -/
structure ClientCall where
  req : ClientRequest
  entry : LogEntry
  newIndex : ℤ
  successCount : ℕ
  i : ℕ
  phase : CallPhase
  deriving DecidableEq

/-- A node with its threads. Client commands are kept in the order they came, also when they have returned. -/
structure Site where
  node : RaftNode
  election : Option Election
  heartbeat : Option Heartbeat
  clients : List ClientCall

/-- The threads of a node that send messages. -/
inductive Thread where
  | election
  | heartbeat
  | client (k : ℕ)
  deriving DecidableEq

/-- What can happen at a site. -/
inductive Input where
  | startElection
  | step (t : Thread)
  | reply (t : Thread) (r : Option Reply)
  | receive (req : Request)
  | clientRequest (req : ClientRequest)
  | snapshotNow
  | restart
  deriving DecidableEq

/-- A message on its way out. -/
structure Send where
  port : ℤ
  req : Request
  deriving DecidableEq

/-- What a step of a site leaves: the site, the store, a message to send, the reply of a handler, and what goes to the
history. -/
structure Outcome where
  site : Site
  store : KVStore
  send : Option Send
  reply : Option Reply
  events : List Event

/-- A step that changes the site only. -/
def Outcome.local (site : Site) (store : KVStore) : Outcome :=
  { site := site, store := store, send := none, reply := none, events := [] }

namespace RaftNode

/-- `resp.term > currentTerm` in a reply: the node takes the later term. -/
def followReply (n : RaftNode) (term : ℤ) : RaftNode :=
  { n with currentTerm := term, state := .follower, votedFor := -1 }.persistMetadata

/-- The RequestVote message of a candidate. -/
def voteRequest (n : RaftNode) : RequestVoteRPC where
  term := n.currentTerm
  candidateId := n.id
  lastLogIndex := n.getLogSize - 1
  lastLogTerm := n.getLogTerm (n.getLogSize - 1)

/-- The AppendEntries message of a leader with these entries from `nextIdx`. -/
def appendRequest (n : RaftNode) (nextIdx : ℤ) (entries : List LogEntry) : AppendEntriesRPC where
  term := n.currentTerm
  leaderId := n.id
  prevLogIndex := nextIdx - 1
  prevLogTerm := n.getLogTerm (nextIdx - 1)
  entries := entries
  leaderCommit := n.commitIndex

/-- `nextIndex[i]--` where it is positive. -/
def retreat (n : RaftNode) (i : ℕ) : RaftNode :=
  if 0 < n.nextIndex.getD i 0 then { n with nextIndex := n.nextIndex.set i (n.nextIndex.getD i 0 - 1) } else n

/-- `latestSnapshot && nextIndex[i] <= latestSnapshot->lastIncludedIndex`: the snapshot that peer `i` needs. -/
def neededSnapshot (n : RaftNode) (i : ℕ) : Option Snapshot :=
  n.latestSnapshot.filter (fun s => n.nextIndex.getD i 0 ≤ s.lastIncludedIndex)

end RaftNode

namespace Site

/-! ## Elections -/

/-- `election_timer` finds the timeout over and calls `start_election`: up to the first request for a vote. -/
def startElection (s : Site) (store : KVStore) : Option Outcome :=
  if s.election.isSome ∨ s.node.shutdownRequested ∨ s.node.state = .leader then none
  else
    let n := { s.node with
      state := .candidate
      currentTerm := s.node.currentTerm + 1
      votedFor := s.node.id }.persistMetadata
    some
      { site := { s with
          node := n
          election := some { votes := 1, rest := n.peerRpcPorts, phase := .ask, term := n.currentTerm } }
        store := store
        send := none
        reply := none
        events := [.voted n.currentTerm n.id] }

/-- The end of a promotion: the heartbeat thread is started and the metadata written. -/
def startHeartbeats (s : Site) (n : RaftNode) : Site :=
  { s with
    node := n.persistMetadata
    election := none
    heartbeat := if n.shutdownRequested then s.heartbeat else some { phase := .top, term := n.currentTerm } }

/-- The promotion to `LEADER`. -/
def promoted (n : RaftNode) : RaftNode :=
  { n with
    state := .leader
    runningHeartbeats := true
    leaderId := n.id
    nextIndex := n.nextIndex.map (fun _ => n.getLogSize)
    matchIndex := n.matchIndex.map (fun _ => -1) }

/-- What `start_election` does next: asks the next peer, counts the votes of the `size` nodes, or ends its wait for an earlier
heartbeat thread. -/
def electionStep (size next : ℕ) (s : Site) (store : KVStore) : Option Outcome :=
  match s.election with
  | none => none
  | some el =>
    match el.phase with
    | .await _ => none
    | .join =>
      if s.heartbeat.isSome then none
      else some (.local (s.startHeartbeats { s.node with runningHeartbeats := true }) store)
    | .ask =>
      if s.node.shutdownRequested then some (.local { s with election := none } store)
      else
        match el.rest with
        | peerPort :: _ => some
            { site := { s with election := some { el with phase := .await next } }
              store := store
              send := some { port := peerPort, req := .requestVote s.node.voteRequest }
              reply := none
              events := [] }
        | [] =>
          if size / 2 < el.votes then
            let n := promoted s.node
            let site := if s.heartbeat.isSome then
                { s with
                  node := { n with runningHeartbeats := false }
                  election := some { el with phase := .join } }
              else s.startHeartbeats n
            some { site := site, store := store, send := none, reply := none, events := [.becameLeader n] }
          else some (.local { s with election := none } store)

/-- What `start_election` does with the reply to a request for a vote. -/
def electionReply (s : Site) (store : KVStore) (r : Option Reply) : Option Outcome :=
  match s.election with
  | none => none
  | some el =>
    match el.phase with
    | .await _ =>
      if s.node.shutdownRequested then some (.local { s with election := none } store)
      else
        let ask (votes : ℕ) := { s with election := some { el with votes := votes, rest := el.rest.tail, phase := .ask } }
        match r.bind Reply.requestVoteResponse with
        | none => some (.local (ask el.votes) store)
        | some (term, voteGranted) =>
          if s.node.currentTerm < term then some (.local { s with node := s.node.followReply term, election := none } store)
          else some (.local (ask (if voteGranted then el.votes + 1 else el.votes)) store)
    | _ => none

/-! ## Heartbeats -/

/-- `MAX_ENTRIES_PER_BATCH`. -/
def maxEntriesPerBatch : ℤ := 20

/-- The heartbeat thread goes on at another place. -/
def heartbeatAt (s : Site) (hb : Heartbeat) (phase : HeartbeatPhase) : Site :=
  { s with heartbeat := some { hb with phase := phase } }

/-- What `send_heartbeats` does next. -/
def heartbeatStep (next : ℕ) (s : Site) (store : KVStore) : Option Outcome :=
  match s.heartbeat with
  | none => none
  | some hb =>
    match hb.phase with
    | .top =>
      if s.node.runningHeartbeats ∧ s.node.state = .leader ∧ ¬s.node.shutdownRequested then
        some (.local (s.heartbeatAt hb (.peer 0)) store)
      else some (.local { s with heartbeat := none } store)
    | .peer i =>
      if s.node.shutdownRequested then some (.local { s with heartbeat := none } store)
      else if ¬s.node.runningHeartbeats then some (.local (s.heartbeatAt hb .top) store)
      else
        match s.node.peerRpcPorts[i]? with
        | none => some (.local (s.heartbeatAt hb .top) store)
        | some peerPort =>
          match s.node.neededSnapshot i with
          | some snapshot => some (.local (s.heartbeatAt hb (.chunk i (Transfer.start snapshot))) store)
          | none =>
            let nextIdx := s.node.nextIndex.getD i 0
            let entries := s.node.getLogEntries nextIdx (min (nextIdx + maxEntriesPerBatch) s.node.getLogSize)
            some
              { site := s.heartbeatAt hb (.append i nextIdx entries.length next)
                store := store
                send := some { port := peerPort, req := .appendEntries (s.node.appendRequest nextIdx entries) }
                reply := none
                events := [] }
    | .chunk i t =>
      match s.node.peerRpcPorts[i]? with
      | none => none
      | some peerPort => some
          { site := s.heartbeatAt hb (.chunkReply i t next)
            store := store
            send := some { port := peerPort, req := .installSnapshot (t.message s.node) }
            reply := none
            events := [] }
    | _ => none

/-- What `send_heartbeats` does with a reply. -/
def heartbeatReply (s : Site) (store : KVStore) (r : Option Reply) : Option Outcome :=
  match s.heartbeat with
  | none => none
  | some hb =>
    match hb.phase with
    | .append i nextIdx count _ =>
      if s.node.shutdownRequested then some (.local { s with heartbeat := none } store)
      else if ¬s.node.runningHeartbeats then some (.local (s.heartbeatAt hb .top) store)
      else
        match r.bind Reply.appendEntriesResponse with
        | none => some (.local (s.heartbeatAt hb (.peer (i + 1))) store)
        | some (term, success) =>
          if s.node.currentTerm < term then
            some (.local { s with
              node := { s.node with runningHeartbeats := false }.followReply term
              heartbeat := none } store)
          else
            let n :=
              if success ∧ count ≠ 0 then
                { s.node with
                  nextIndex := s.node.nextIndex.set i (nextIdx + count)
                  matchIndex := s.node.matchIndex.set i (nextIdx + count - 1) }
              else if ¬success then s.node.retreat i
              else s.node
            some (.local ({ s with node := n }.heartbeatAt hb (.peer (i + 1))) store)
    | .chunkReply i t _ =>
      let (n, t) := t.reply s.node i r
      some (.local ({ s with node := n }.heartbeatAt hb (match t with
        | some t => .chunk i t
        | none => .peer (i + 1))) store)
    | _ => none

/-! ## Client commands -/

/-- The text of the entry for a request: `command + " " + key + " " + value`. -/
def sendCommand (req : ClientRequest) : Str := req.command ++ [32] ++ req.key ++ [32] ++ req.value

/-- The result that `clientResultCache` has for the request, if it is the last one of its client. -/
def cachedResult (n : RaftNode) (req : ClientRequest) : Option Str :=
  if n.clientLastRequest.lookup req.clientId = some req.requestId then
    some ((n.clientResultCache.lookup req.clientId).getD [])
  else none

/-- The entry that is appended for a request. -/
def newEntry (n : RaftNode) (req : ClientRequest) : LogEntry where
  term := n.currentTerm
  index := n.getLogSize
  command := sendCommand req
  origin := (req.clientId, req.requestId)

/-- A ClientRequest message comes in: up to the append of `handleClientCommand`, where the node leads and the request is not
answered from the table. -/
def clientRequest (s : Site) (store : KVStore) (req : ClientRequest) : Outcome :=
  if s.node.shutdownRequested ∨ s.node.state ≠ .leader then .local s store
  else
    match cachedResult s.node req with
    | some result => { Outcome.local s store with events := [.cached req result] }
    | none =>
      let entry := newEntry s.node req
      let call : ClientCall :=
        { req := req, entry := entry, newIndex := s.node.getLogSize, successCount := 1, i := 0, phase := .ready }
      .local { s with node := s.node.appendLogEntry entry, clients := s.clients ++ [call] } store

/-- The test of the commit rule. -/
def mayCommit (n : RaftNode) (call : ClientCall) : Prop :=
  n.getLogTerm call.newIndex = n.currentTerm ∧ (n.peerRpcPorts.length + 1) / 2 < call.successCount

instance (n : RaftNode) (call : ClientCall) : Decidable (mayCommit n call) := instDecidableAnd

/-- `while (lastApplied < commitIndex && !shutdownRequested)`: the apply loop of `handleClientCommand`. -/
def applyWhileUp (n : RaftNode) (store : KVStore) : Applying :=
  if n.shutdownRequested then { node := n, store := store, applyResult := [], events := [] } else n.applyCommitted store

/-- The result of a request is recorded, and the metadata written. -/
def recordResult (n : RaftNode) (req : ClientRequest) (applyResult : Str) : RaftNode :=
  { n with
    clientLastRequest := n.clientLastRequest.insert req.clientId req.requestId
    clientResultCache := n.clientResultCache.insert req.clientId applyResult }.persistMetadata

/-- The commit section of `handleClientCommand`: apply, take a snapshot at the threshold, record the result. -/
def commit (n : RaftNode) (store : KVStore) (call : ClientCall) : RaftNode × KVStore × Str × List Event :=
  let n := n.setCommitIndex call.newIndex
  let r := applyWhileUp n store
  let (n', store) := r.node.snapshotAtThreshold r.store
  (recordResult n' call.req r.applyResult, store, r.applyResult,
    .committed n.currentTerm call.newIndex (n.globalEntry call.newIndex) :: r.events ++ [.recorded call.req r.applyResult])

/-- The client command at place `k` goes on. -/
def clientAt (s : Site) (k : ℕ) (call : ClientCall) : Site := { s with clients := s.clients.set k call }

/-- What `handleClientCommand` does next: sends to the current peer, or commits after the last one. -/
def clientStep (next k : ℕ) (s : Site) (store : KVStore) : Option Outcome :=
  match s.clients[k]? with
  | none => none
  | some call =>
    match call.phase with
    | .ready =>
      if s.node.shutdownRequested then some (.local (s.clientAt k { call with phase := .done (ascii "error: shutdown") }) store)
      else
        match s.node.peerRpcPorts[call.i]? with
        | some port =>
          let nextIdx := s.node.nextIndex.getD call.i 0
          let entries := s.node.getLogEntries nextIdx (call.newIndex + 1)
          some
            { site := s.clientAt k { call with phase := .append next }
              store := store
              send := some { port := port, req := .appendEntries (s.node.appendRequest nextIdx entries) }
              reply := none
              events := [] }
        | none =>
          if mayCommit s.node call then
            let (n, store, applyResult, events) := commit s.node store call
            some
              { site := { s with node := n }.clientAt k { call with phase := .done applyResult }
                store := store
                send := none
                reply := none
                events := events }
          else some (.local (s.clientAt k { call with phase := .done (ascii "error: not committed") }) store)
    | .chunk t =>
      match s.node.peerRpcPorts[call.i]? with
      | none => none
      | some port => some
          { site := s.clientAt k { call with phase := .chunkReply t next }
            store := store
            send := some { port := port, req := .installSnapshot (t.message s.node) }
            reply := none
            events := [] }
    | _ => none

/-- What `handleClientCommand` does with a reply. -/
def clientReply (k : ℕ) (s : Site) (store : KVStore) (r : Option Reply) : Option Outcome :=
  match s.clients[k]? with
  | none => none
  | some call =>
    let nextPeer (call : ClientCall) := { call with i := call.i + 1, phase := .ready }
    match call.phase with
    | .append _ =>
      match r.bind Reply.appendEntriesResponse with
      | none => some (.local (s.clientAt k (nextPeer call)) store)
      | some (term, success) =>
        if s.node.currentTerm < term then
          some (.local ({ s with node := s.node.followReply term }.clientAt k
            { call with phase := .done (ascii "leader step down") }) store)
        else if success then
          let n := { s.node with
            nextIndex := s.node.nextIndex.set call.i (call.newIndex + 1)
            matchIndex := s.node.matchIndex.set call.i call.newIndex }
          some (.local ({ s with node := n }.clientAt k
            (nextPeer { call with successCount := call.successCount + 1 })) store)
        else
          let n := s.node.retreat call.i
          some (.local ({ s with node := n }.clientAt k (match n.neededSnapshot call.i with
            | some snapshot => { call with phase := .chunk (Transfer.start snapshot) }
            | none => nextPeer call)) store)
    | .chunkReply t _ =>
      let (n, t) := t.reply s.node call.i r
      some (.local ({ s with node := n }.clientAt k (match t with
        | some t => { call with phase := .chunk t }
        | none => nextPeer call)) store)
    | _ => none

/-! ## Steps of a site -/

/-- The call whose reply a thread waits for. -/
def awaiting (s : Site) : Thread → Option ℕ
  | .election => s.election.bind fun el =>
    match el.phase with
    | .await call => some call
    | _ => none
  | .heartbeat => s.heartbeat.bind fun hb =>
    match hb.phase with
    | .append _ _ _ call => some call
    | .chunkReply _ _ call => some call
    | _ => none
  | .client k => s.clients[k]?.bind fun c =>
    match c.phase with
    | .append call => some call
    | .chunkReply _ call => some call
    | _ => none

/-- A message of another node is handled. -/
def receive (s : Site) (store : KVStore) (req : Request) : Option Outcome :=
  (s.node.handle store req).map fun h =>
    { site := { s with node := h.node }, store := h.store, send := none, reply := some h.reply, events := h.events }

/-- One step of a site in a cluster of `size` nodes; `next` names the call that it may make. `none`: the input cannot occur. -/
def step (size next : ℕ) (s : Site) (store : KVStore) : Input → Option Outcome
  | .startElection => s.startElection store
  | .step .election => s.electionStep size next store
  | .step .heartbeat => s.heartbeatStep next store
  | .step (.client k) => s.clientStep next k store
  | .reply .election r => s.electionReply store r
  | .reply .heartbeat r => s.heartbeatReply store r
  | .reply (.client k) r => s.clientReply k store r
  | .receive req => s.receive store req
  | .clientRequest req => some (s.clientRequest store req)
  | .snapshotNow => (s.node.triggerSnapshot store).map fun (n, store) => .local { s with node := n } store
  | .restart => (s.node.restart store).map fun (n, store) =>
      .local { node := n, election := none, heartbeat := none, clients := [] } store

/-- A node that has never run, and no threads. -/
def create (nodeId port : ℤ) (peers : List ℤ) : Site where
  node := RaftNode.create nodeId port peers { metadata := none, snapshotFile := .absent }
  election := none
  heartbeat := none
  clients := []

end Site

end RaftStore
