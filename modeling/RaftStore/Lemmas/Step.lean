import RaftStore.Lemmas.Node

/-!
# What a step of a site can be

`Site.Step` lists what a site whose node is running can do, one constructor for each way through `Site.step`, with the
conditions it is taken under. What is proved of every step is proved by cases over it.
-/

namespace RaftStore

namespace Site

/-- The election asks the next peer, with these votes. -/
def askNext (s : Site) (el : Election) (votes : ℕ) : Site :=
  { s with election := some { el with votes := votes, rest := el.rest.tail, phase := .ask } }

/-- The client command goes on to the next peer. -/
def nextPeer (call : ClientCall) : ClientCall := { call with i := call.i + 1, phase := .ready }

/-- The node after the reply of peer `i` to AppendEntries with `count` entries from `nextIdx`. -/
def heartbeatAnswered (n : RaftNode) (i : ℕ) (nextIdx : ℤ) (count : ℕ) (success : Bool) : RaftNode :=
  if success ∧ count ≠ 0 then
    { n with
      nextIndex := n.nextIndex.set i (nextIdx + count)
      matchIndex := n.matchIndex.set i (nextIdx + count - 1) }
  else if ¬success then n.retreat i
  else n

/-- A reply to a heartbeat changes what the peer is sent next and what it is known to have. -/
theorem heartbeatAnswered_shape (n : RaftNode) (i : ℕ) (nextIdx : ℤ) (count : ℕ) (success : Bool) :
    ∃ next matched, heartbeatAnswered n i nextIdx count success = { n with nextIndex := next, matchIndex := matched } := by
  unfold heartbeatAnswered
  split
  · exact ⟨_, _, rfl⟩
  · split
    · obtain ⟨next, heq⟩ := n.retreat_shape i
      exact ⟨next, n.matchIndex, heq⟩
    · exact ⟨n.nextIndex, n.matchIndex, rfl⟩

@[simp] theorem heartbeatAnswered_role (n : RaftNode) (i : ℕ) (nextIdx : ℤ) (count : ℕ) (success : Bool) :
    (heartbeatAnswered n i nextIdx count success).role = n.role := by
  obtain ⟨_, _, heq⟩ := heartbeatAnswered_shape n i nextIdx count success
  rw [heq]
  rfl

/-- The node after a peer has taken the entries of a client command. -/
def clientAnswered (n : RaftNode) (call : ClientCall) : RaftNode :=
  { n with
    nextIndex := n.nextIndex.set call.i (call.newIndex + 1)
    matchIndex := n.matchIndex.set call.i call.newIndex }

/-- The node in the first step of an election. -/
def candidacy (n : RaftNode) : RaftNode :=
  { n with state := .candidate, currentTerm := n.currentTerm + 1, votedFor := n.id }.persistMetadata

/-- The site after a promotion. -/
def elected (s : Site) (el : Election) : Site :=
  if s.heartbeat.isSome then
    { s with
      node := { promoted s.node with runningHeartbeats := false }
      election := some { el with phase := .join } }
  else s.startHeartbeats (promoted s.node)

/-- A promoted node may have to wait for its heartbeat thread, or has written its metadata. -/
theorem elected_node (s : Site) (el : Election) :
    ∃ run disk, (s.elected el).node = { promoted s.node with runningHeartbeats := run, disk := disk } := by
  unfold elected
  split
  · exact ⟨false, s.node.disk, rfl⟩
  · exact ⟨true, _, rfl⟩

@[simp] theorem elected_role (s : Site) (el : Election) : (s.elected el).node.role = (promoted s.node).role := by
  obtain ⟨_, _, heq⟩ := s.elected_node el
  rw [heq]
  rfl

@[simp] theorem elected_clients (s : Site) (el : Election) : (s.elected el).clients = s.clients := by
  unfold elected
  split <;> rfl

/-- The append of `handleClientCommand`, and the call that goes on after it. -/
def appendEntry (s : Site) (req : ClientRequest) : Site :=
  { s with
    node := s.node.appendLogEntry (newEntry s.node req)
    clients := s.clients ++
      [{ req := req, entry := newEntry s.node req, newIndex := s.node.getLogSize, successCount := 1, i := 0,
         phase := .ready }] }

/-- The steps of a site whose node is running. -/
inductive Step (size next : ℕ) (s : Site) (store : KVStore) : Input → Outcome → Prop where
  | startElection (he : s.election = none) (hl : s.node.state ≠ .leader) :
      Step size next s store .startElection
        { site := { s with
            node := candidacy s.node
            election := some
              { votes := 1, rest := s.node.peerRpcPorts, phase := .ask, term := s.node.currentTerm + 1 } }
          store := store
          send := none
          reply := none
          events := [.voted (s.node.currentTerm + 1) s.node.id] }
  | join (el : Election) (he : s.election = some el) (hp : el.phase = .join) (hh : s.heartbeat = none) :
      Step size next s store (.step .election)
        (.local (s.startHeartbeats { s.node with runningHeartbeats := true }) store)
  | ask (el : Election) (p : ℤ) (rest : List ℤ) (he : s.election = some el) (hp : el.phase = .ask)
      (hr : el.rest = p :: rest) :
      Step size next s store (.step .election)
        { site := { s with election := some { el with phase := .await next } }
          store := store
          send := some { port := p, req := .requestVote s.node.voteRequest }
          reply := none
          events := [] }
  | win (el : Election) (he : s.election = some el) (hp : el.phase = .ask) (hr : el.rest = [])
      (hv : size / 2 < el.votes) :
      Step size next s store (.step .election)
        { site := s.elected el
          store := store
          send := none
          reply := none
          events := [.becameLeader (promoted s.node)] }
  | lose (el : Election) (he : s.election = some el) (hp : el.phase = .ask) (hr : el.rest = [])
      (hv : ¬size / 2 < el.votes) :
      Step size next s store (.step .election) (.local { s with election := none } store)
  | noVote (el : Election) (call : ℕ) (r : Option Reply) (he : s.election = some el) (hp : el.phase = .await call)
      (hr : r.bind Reply.requestVoteResponse = none) :
      Step size next s store (.reply .election r) (.local (s.askNext el el.votes) store)
  | voteLater (el : Election) (call : ℕ) (r : Option Reply) (term : ℤ) (voteGranted : Bool) (he : s.election = some el)
      (hp : el.phase = .await call) (hr : r.bind Reply.requestVoteResponse = some (term, voteGranted))
      (ht : s.node.currentTerm < term) :
      Step size next s store (.reply .election r)
        (.local { s with node := s.node.followReply term, election := none } store)
  | vote (el : Election) (call : ℕ) (r : Option Reply) (term : ℤ) (voteGranted : Bool) (he : s.election = some el)
      (hp : el.phase = .await call) (hr : r.bind Reply.requestVoteResponse = some (term, voteGranted))
      (ht : ¬s.node.currentTerm < term) :
      Step size next s store (.reply .election r)
        (.local (s.askNext el (if voteGranted then el.votes + 1 else el.votes)) store)
  | round (hb : Heartbeat) (hh : s.heartbeat = some hb) (hp : hb.phase = .top) (hl : s.node.state = .leader) :
      Step size next s store (.step .heartbeat) (.local (s.heartbeatAt hb (.peer 0)) store)
  | endHeartbeats (hb : Heartbeat) (hh : s.heartbeat = some hb) (hp : hb.phase = .top) :
      Step size next s store (.step .heartbeat) (.local { s with heartbeat := none } store)
  | endRound (hb : Heartbeat) (i : ℕ) (hh : s.heartbeat = some hb) (hp : hb.phase = .peer i) :
      Step size next s store (.step .heartbeat) (.local (s.heartbeatAt hb .top) store)
  | needSnapshot (hb : Heartbeat) (i : ℕ) (snapshot : Snapshot) (hh : s.heartbeat = some hb) (hp : hb.phase = .peer i)
      (hn : s.node.neededSnapshot i = some snapshot) :
      Step size next s store (.step .heartbeat) (.local (s.heartbeatAt hb (.chunk i (Transfer.start snapshot))) store)
  | sendHeartbeat (hb : Heartbeat) (i : ℕ) (p : ℤ) (hh : s.heartbeat = some hb) (hp : hb.phase = .peer i)
      (hrun : s.node.runningHeartbeats = true) (hi : s.node.peerRpcPorts[i]? = some p)
      (hn : s.node.neededSnapshot i = none) (entries : List LogEntry)
      (hes : entries = s.node.getLogEntries (s.node.nextIndex.getD i 0)
        (min (s.node.nextIndex.getD i 0 + maxEntriesPerBatch) s.node.getLogSize)) :
      Step size next s store (.step .heartbeat)
        { site := s.heartbeatAt hb (.append i (s.node.nextIndex.getD i 0) entries.length next)
          store := store
          send := some
            { port := p, req := .appendEntries (s.node.appendRequest (s.node.nextIndex.getD i 0) entries) }
          reply := none
          events := [] }
  | sendHeartbeatChunk (hb : Heartbeat) (i : ℕ) (t : Transfer) (p : ℤ) (hh : s.heartbeat = some hb)
      (hp : hb.phase = .chunk i t) (hi : s.node.peerRpcPorts[i]? = some p) :
      Step size next s store (.step .heartbeat)
        { site := s.heartbeatAt hb (.chunkReply i t next)
          store := store
          send := some { port := p, req := .installSnapshot (t.message s.node) }
          reply := none
          events := [] }
  | heartbeatStopped (hb : Heartbeat) (i : ℕ) (nextIdx : ℤ) (count call : ℕ) (r : Option Reply)
      (hh : s.heartbeat = some hb) (hp : hb.phase = .append i nextIdx count call) :
      Step size next s store (.reply .heartbeat r) (.local (s.heartbeatAt hb .top) store)
  | heartbeatLost (hb : Heartbeat) (i : ℕ) (nextIdx : ℤ) (count call : ℕ) (r : Option Reply)
      (hh : s.heartbeat = some hb) (hp : hb.phase = .append i nextIdx count call)
      (hr : r.bind Reply.appendEntriesResponse = none) :
      Step size next s store (.reply .heartbeat r) (.local (s.heartbeatAt hb (.peer (i + 1))) store)
  | heartbeatLater (hb : Heartbeat) (i : ℕ) (nextIdx : ℤ) (count call : ℕ) (r : Option Reply) (term : ℤ) (success : Bool)
      (hh : s.heartbeat = some hb) (hp : hb.phase = .append i nextIdx count call)
      (hr : r.bind Reply.appendEntriesResponse = some (term, success)) (ht : s.node.currentTerm < term) :
      Step size next s store (.reply .heartbeat r)
        (.local { s with node := { s.node with runningHeartbeats := false }.followReply term, heartbeat := none } store)
  | heartbeatReply (hb : Heartbeat) (i : ℕ) (nextIdx : ℤ) (count call : ℕ) (r : Option Reply) (term : ℤ) (success : Bool)
      (hh : s.heartbeat = some hb) (hp : hb.phase = .append i nextIdx count call)
      (hr : r.bind Reply.appendEntriesResponse = some (term, success)) (ht : ¬s.node.currentTerm < term) :
      Step size next s store (.reply .heartbeat r)
        (.local ({ s with node := heartbeatAnswered s.node i nextIdx count success }.heartbeatAt hb (.peer (i + 1))) store)
  | heartbeatChunkReply (hb : Heartbeat) (i : ℕ) (t : Transfer) (call : ℕ) (r : Option Reply)
      (hh : s.heartbeat = some hb) (hp : hb.phase = .chunkReply i t call) (phase : HeartbeatPhase)
      (hph : phase = match (t.reply s.node i r).2 with
        | some t => .chunk i t
        | none => .peer (i + 1)) :
      Step size next s store (.reply .heartbeat r)
        (.local ({ s with node := (t.reply s.node i r).1 }.heartbeatAt hb phase) store)
  | refuse (req : ClientRequest) (hl : s.node.state ≠ .leader) :
      Step size next s store (.clientRequest req) (.local s store)
  | cached (req : ClientRequest) (result : Str) (hl : s.node.state = .leader)
      (hc : cachedResult s.node req = some result) :
      Step size next s store (.clientRequest req) { Outcome.local s store with events := [.cached req result] }
  | append (req : ClientRequest) (hl : s.node.state = .leader) (hc : cachedResult s.node req = none) :
      Step size next s store (.clientRequest req) (.local (s.appendEntry req) store)
  | send (k : ℕ) (call : ClientCall) (p : ℤ) (hk : s.clients[k]? = some call) (hp : call.phase = .ready)
      (hi : s.node.peerRpcPorts[call.i]? = some p) :
      Step size next s store (.step (.client k))
        { site := s.clientAt k { call with phase := .append next }
          store := store
          send := some
            { port := p
              req := .appendEntries (s.node.appendRequest (s.node.nextIndex.getD call.i 0)
                (s.node.getLogEntries (s.node.nextIndex.getD call.i 0) (call.newIndex + 1))) }
          reply := none
          events := [] }
  | commit (k : ℕ) (call : ClientCall) (hk : s.clients[k]? = some call) (hp : call.phase = .ready)
      (hi : s.node.peerRpcPorts[call.i]? = none) (hm : mayCommit s.node call) :
      Step size next s store (.step (.client k))
        { site := { s with node := (commit s.node store call).1 }.clientAt k
            { call with phase := .done (commit s.node store call).2.2.1 }
          store := (commit s.node store call).2.1
          send := none
          reply := none
          events := (commit s.node store call).2.2.2 }
  | notCommitted (k : ℕ) (call : ClientCall) (hk : s.clients[k]? = some call) (hp : call.phase = .ready)
      (hi : s.node.peerRpcPorts[call.i]? = none) (hm : ¬mayCommit s.node call) :
      Step size next s store (.step (.client k))
        (.local (s.clientAt k { call with phase := .done (ascii "error: not committed") }) store)
  | sendChunk (k : ℕ) (call : ClientCall) (t : Transfer) (p : ℤ) (hk : s.clients[k]? = some call)
      (hp : call.phase = .chunk t) (hi : s.node.peerRpcPorts[call.i]? = some p) :
      Step size next s store (.step (.client k))
        { site := s.clientAt k { call with phase := .chunkReply t next }
          store := store
          send := some { port := p, req := .installSnapshot (t.message s.node) }
          reply := none
          events := [] }
  | lost (k : ℕ) (call : ClientCall) (id : ℕ) (r : Option Reply) (hk : s.clients[k]? = some call)
      (hp : call.phase = .append id) (hr : r.bind Reply.appendEntriesResponse = none) :
      Step size next s store (.reply (.client k) r) (.local (s.clientAt k (nextPeer call)) store)
  | later (k : ℕ) (call : ClientCall) (id : ℕ) (r : Option Reply) (term : ℤ) (success : Bool)
      (hk : s.clients[k]? = some call) (hp : call.phase = .append id)
      (hr : r.bind Reply.appendEntriesResponse = some (term, success)) (ht : s.node.currentTerm < term) :
      Step size next s store (.reply (.client k) r)
        (.local ({ s with node := s.node.followReply term }.clientAt k
          { call with phase := .done (ascii "leader step down") }) store)
  | success (k : ℕ) (call : ClientCall) (id : ℕ) (r : Option Reply) (term : ℤ) (hk : s.clients[k]? = some call)
      (hp : call.phase = .append id) (hr : r.bind Reply.appendEntriesResponse = some (term, true))
      (ht : ¬s.node.currentTerm < term) :
      Step size next s store (.reply (.client k) r)
        (.local ({ s with node := clientAnswered s.node call }.clientAt k
          (nextPeer { call with successCount := call.successCount + 1 })) store)
  | failure (k : ℕ) (call : ClientCall) (id : ℕ) (r : Option Reply) (term : ℤ) (hk : s.clients[k]? = some call)
      (hp : call.phase = .append id) (hr : r.bind Reply.appendEntriesResponse = some (term, false))
      (ht : ¬s.node.currentTerm < term) (call' : ClientCall)
      (hc : call' = match (s.node.retreat call.i).neededSnapshot call.i with
        | some snapshot => { call with phase := .chunk (Transfer.start snapshot) }
        | none => nextPeer call) :
      Step size next s store (.reply (.client k) r)
        (.local ({ s with node := s.node.retreat call.i }.clientAt k call') store)
  | chunkReply (k : ℕ) (call : ClientCall) (t : Transfer) (id : ℕ) (r : Option Reply) (hk : s.clients[k]? = some call)
      (hp : call.phase = .chunkReply t id) (call' : ClientCall)
      (hc : call' = match (t.reply s.node call.i r).2 with
        | some t => { call with phase := .chunk t }
        | none => nextPeer call) :
      Step size next s store (.reply (.client k) r)
        (.local ({ s with node := (t.reply s.node call.i r).1 }.clientAt k call') store)
  | receive (req : Request) (h : Handled) (hh : s.node.handle store req = some h) :
      Step size next s store (.receive req)
        { site := { s with node := h.node }, store := h.store, send := none, reply := some h.reply, events := h.events }
  | snapshotNow (hl : s.node.log ≠ []) :
      Step size next s store .snapshotNow
        (.local { s with node := (s.node.createSnapshot store).1 } (s.node.createSnapshot store).2)
  | restart (n : RaftNode) (store' : KVStore) (hr : s.node.restart store = some (n, store')) :
      Step size next s store .restart
        (.local { node := n, election := none, heartbeat := none, clients := [] } store')

variable {size next : ℕ} {s : Site} {store : KVStore} {o : Outcome}

theorem electionStep_inv (hu : s.node.shutdownRequested = false) (h : s.electionStep size next store = some o) :
    Step size next s store (.step .election) o := by
  unfold electionStep at h
  split at h
  · cases h
  · next el he =>
    split at h
    · cases h
    · next hp =>
      split at h
      · cases h
      · next hh =>
        obtain rfl := Option.some.inj h
        exact .join el he hp (by simpa using hh)
    · next hp =>
      rw [if_neg (by simp [hu])] at h
      split at h
      · next p rest hr =>
        obtain rfl := Option.some.inj h
        exact .ask el p rest he hp hr
      · next hr =>
        split at h
        · next hv =>
          obtain rfl := Option.some.inj h
          exact .win el he hp hr hv
        · next hv =>
          obtain rfl := Option.some.inj h
          exact .lose el he hp hr hv

theorem electionReply_inv (hu : s.node.shutdownRequested = false) {r : Option Reply}
    (h : s.electionReply store r = some o) : Step size next s store (.reply .election r) o := by
  unfold electionReply at h
  split at h
  · cases h
  · next el he =>
    split at h
    · next call hp =>
      rw [if_neg (by simp [hu])] at h
      simp only at h
      split at h
      · next hr =>
        obtain rfl := Option.some.inj h
        exact .noVote el call r he hp hr
      · next term g hr =>
        split at h
        · next ht =>
          obtain rfl := Option.some.inj h
          exact .voteLater el call r term g he hp hr ht
        · next ht =>
          obtain rfl := Option.some.inj h
          exact .vote el call r term g he hp hr ht
    · cases h

theorem heartbeatStep_inv (hu : s.node.shutdownRequested = false) (h : s.heartbeatStep next store = some o) :
    Step size next s store (.step .heartbeat) o := by
  unfold heartbeatStep at h
  split at h
  · cases h
  · next hb hh =>
    split at h
    · next hp =>
      split at h
      · next hc =>
        obtain rfl := Option.some.inj h
        exact .round hb hh hp hc.2.1
      · obtain rfl := Option.some.inj h
        exact .endHeartbeats hb hh hp
    · next i hp =>
      rw [if_neg (by simp [hu])] at h
      split at h
      · obtain rfl := Option.some.inj h
        exact .endRound hb i hh hp
      · next hrun =>
        split at h
        · obtain rfl := Option.some.inj h
          exact .endRound hb i hh hp
        · next p hi =>
          split at h
          · next snapshot hn =>
            obtain rfl := Option.some.inj h
            exact .needSnapshot hb i snapshot hh hp hn
          · next hn =>
            obtain rfl := Option.some.inj h
            exact .sendHeartbeat hb i p hh hp (by simpa using hrun) hi hn _ rfl
    · next i t hp =>
      split at h
      · cases h
      · next p hi =>
        obtain rfl := Option.some.inj h
        exact .sendHeartbeatChunk hb i t p hh hp hi
    · cases h

theorem heartbeatReply_inv (hu : s.node.shutdownRequested = false) {r : Option Reply}
    (h : s.heartbeatReply store r = some o) : Step size next s store (.reply .heartbeat r) o := by
  unfold heartbeatReply at h
  split at h
  · cases h
  · next hb hh =>
    split at h
    · next i nextIdx count call hp =>
      rw [if_neg (by simp [hu])] at h
      split at h
      · obtain rfl := Option.some.inj h
        exact .heartbeatStopped hb i nextIdx count call r hh hp
      · split at h
        · next hr =>
          obtain rfl := Option.some.inj h
          exact .heartbeatLost hb i nextIdx count call r hh hp hr
        · next term success hr =>
          split at h
          · next ht =>
            obtain rfl := Option.some.inj h
            exact .heartbeatLater hb i nextIdx count call r term success hh hp hr ht
          · next ht =>
            obtain rfl := Option.some.inj h
            exact .heartbeatReply hb i nextIdx count call r term success hh hp hr ht
    · next i t call hp =>
      obtain rfl := Option.some.inj h
      exact .heartbeatChunkReply hb i t call r hh hp _ rfl
    · cases h

theorem clientRequest_inv (hu : s.node.shutdownRequested = false) (req : ClientRequest) :
    Step size next s store (.clientRequest req) (s.clientRequest store req) := by
  unfold clientRequest
  split
  · next hc => exact .refuse req (by simpa [hu] using hc)
  · next hc =>
    have hl : s.node.state = .leader := by simpa [hu] using hc
    split
    · next result hc => exact .cached req result hl hc
    · next hc => exact .append req hl hc

theorem clientStep_inv (hu : s.node.shutdownRequested = false) {k : ℕ} (h : s.clientStep next k store = some o) :
    Step size next s store (.step (.client k)) o := by
  unfold clientStep at h
  split at h
  · cases h
  · next call hk =>
    split at h
    · next hp =>
      rw [if_neg (by simp [hu])] at h
      split at h
      · next p hi =>
        obtain rfl := Option.some.inj h
        exact .send k call p hk hp hi
      · next hi =>
        split at h
        · next hm =>
          obtain rfl := Option.some.inj h
          exact .commit k call hk hp hi hm
        · next hm =>
          obtain rfl := Option.some.inj h
          exact .notCommitted k call hk hp hi hm
    · next t hp =>
      split at h
      · cases h
      · next p hi =>
        obtain rfl := Option.some.inj h
        exact .sendChunk k call t p hk hp hi
    · cases h

theorem clientReply_inv {k : ℕ} {r : Option Reply} (h : s.clientReply k store r = some o) :
    Step size next s store (.reply (.client k) r) o := by
  unfold clientReply at h
  split at h
  · cases h
  · next call hk =>
    simp only at h
    split at h
    · next id hp =>
      split at h
      · next hr =>
        obtain rfl := Option.some.inj h
        exact .lost k call id r hk hp hr
      · next term success hr =>
        split at h
        · next ht =>
          obtain rfl := Option.some.inj h
          exact .later k call id r term success hk hp hr ht
        · next ht =>
          split at h
          · next hs =>
            obtain rfl := Option.some.inj h
            exact .success k call id r term hk hp (hs ▸ hr) ht
          · next hs =>
            obtain rfl := Option.some.inj h
            exact .failure k call id r term hk hp (by simpa [hs] using hr) ht _ rfl
    · next t id hp =>
      obtain rfl := Option.some.inj h
      exact .chunkReply k call t id r hk hp _ rfl
    · cases h

/-- Every step of a site whose node is running is one of the list. -/
theorem step_inv (hu : s.node.shutdownRequested = false) {i : Input} (h : s.step size next store i = some o) :
    Step size next s store i o := by
  cases i with
  | startElection =>
    simp only [step, startElection] at h
    split at h
    · cases h
    · next hc =>
      obtain rfl := Option.some.inj h
      rw [not_or, not_or] at hc
      exact .startElection (by simpa using hc.1) hc.2.2
  | step t =>
    cases t with
    | election => exact electionStep_inv hu h
    | heartbeat => exact heartbeatStep_inv hu h
    | client k => exact clientStep_inv hu h
  | reply t r =>
    cases t with
    | election => exact electionReply_inv hu h
    | heartbeat => exact heartbeatReply_inv hu h
    | client k => exact clientReply_inv h
  | receive req =>
    obtain ⟨r, hr, rfl⟩ := Option.map_eq_some_iff.mp h
    exact .receive req r hr
  | clientRequest req =>
    obtain rfl := Option.some.inj h
    exact clientRequest_inv hu req
  | snapshotNow =>
    obtain ⟨r, hr, rfl⟩ := Option.map_eq_some_iff.mp h
    obtain ⟨⟨hl, _⟩, rfl⟩ := RaftNode.triggerSnapshot_eq_some.mp hr
    exact .snapshotNow hl
  | restart =>
    obtain ⟨r, hr, rfl⟩ := Option.map_eq_some_iff.mp h
    exact .restart r.1 r.2 hr

end Site

end RaftStore
