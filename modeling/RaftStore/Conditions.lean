import RaftStore.Lemmas.Cluster

/-!
# Conditions on the steps of a run

Each condition is about one step of a site and the state it is taken in: a branch of the code is not taken there, or is taken
only where it does no harm. A run satisfies a condition when each of its steps does.
-/

namespace RaftStore

/-- The RequestVote message that an input is. -/
def Input.requestVote : Input → Option RequestVoteRPC
  | .receive (.requestVote m) => some m
  | _ => none

/-- The AppendEntries message that an input is. -/
def Input.appendEntries : Input → Option AppendEntriesRPC
  | .receive (.appendEntries m) => some m
  | _ => none

/-- The InstallSnapshot message that an input is. -/
def Input.installSnapshot : Input → Option InstallSnapshotRPC
  | .receive (.installSnapshot m) => some m
  | _ => none

/-- The client command that an input lets go on. -/
def Input.clientStep : Input → Option ℕ
  | .step (.client k) => some k
  | _ => none

/-- The index of the last entry that a message brings, or `prevLogIndex`. -/
def AppendEntriesRPC.reach (m : AppendEntriesRPC) : ℤ := m.prevLogIndex + m.entries.length

namespace RaftNode

/-- The node leads the term `t`. -/
def leads (n : RaftNode) (t : ℤ) : Prop := n.state = .leader ∧ n.currentTerm = t

instance (n : RaftNode) (t : ℤ) : Decidable (n.leads t) := instDecidableAnd

/-- The RequestVote handler answers with `voteGranted`. -/
def grants (n : RaftNode) (m : RequestVoteRPC) : Prop :=
  n.currentTerm ≤ m.term ∧ (n.currentTerm < m.term ∨ n.votedFor = -1 ∨ n.votedFor = m.candidateId) ∧
    n.candidateUpToDate m = true

instance (n : RaftNode) (m : RequestVoteRPC) : Decidable (n.grants m) := instDecidableAnd

/-- The check of the voter, made on its log with what its snapshot stands for. -/
def logUpToDate (n : RaftNode) (m : RequestVoteRPC) : Prop :=
  n.getLogTerm (n.getLogSize - 1) < m.lastLogTerm ∨
    m.lastLogTerm = n.getLogTerm (n.getLogSize - 1) ∧ n.getLogSize - 1 ≤ m.lastLogIndex

instance (n : RaftNode) (m : RequestVoteRPC) : Decidable (n.logUpToDate m) := instDecidableOr

/-- The AppendEntries handler takes the message over. -/
def accepts (n : RaftNode) (m : AppendEntriesRPC) : Prop := n.currentTerm ≤ m.term ∧ n.prevMatches m = true

instance (n : RaftNode) (m : AppendEntriesRPC) : Decidable (n.accepts m) := instDecidableAnd

/-- The comparison of the first new entry with the one in its place: whether the terms are the same, if there are two. -/
def firstMatches (n : RaftNode) (m : AppendEntriesRPC) : Option Bool :=
  match n.entryAt (n.logIdx (m.prevLogIndex + 1)), m.entries with
  | some e, firstNewEntry :: _ => some (decide (e.term = firstNewEntry.term))
  | _, _ => none

/-- The node has an entry of the same term in the place of the last entry of the message. -/
def holdsLast (n : RaftNode) (m : AppendEntriesRPC) : Prop :=
  ∀ e ∈ m.entries.getLast?, n.getLogTerm m.reach = e.term

instance (n : RaftNode) (m : AppendEntriesRPC) : Decidable (n.holdsLast m) :=
  inferInstanceAs (Decidable (∀ e ∈ m.entries.getLast?, n.getLogTerm m.reach = e.term))

/-- The snapshot that the InstallSnapshot handler decodes after the last chunk. -/
def assembled (n : RaftNode) (m : InstallSnapshotRPC) : Option Snapshot :=
  if m.done then
    match writeChunk (if m.offset = 0 then [] else n.snapshotBuffer) m.offset (chunkOf m) with
    | .written buffer => deserializeSnapshot buffer
    | _ => none
  else none

end RaftNode

namespace Site

/-! ## Elections -/

/-- The votes of a majority are counted while the node is a candidate of the term it asked for them in. -/
def electsInOwnTerm (size : ℕ) (s : Site) (i : Input) : Prop :=
  i = .step .election → ∀ el ∈ s.election, el.phase = .ask → el.rest = [] → size / 2 < el.votes →
    s.node.state = .candidate ∧ s.node.currentTerm = el.term

instance (size : ℕ) (s : Site) (i : Input) : Decidable (electsInOwnTerm size s i) := inferInstanceAs (Decidable (_ → _))

/-- A vote is granted only to a candidate whose log is up to date with the voter's whole log. -/
def votesOnWholeLog (s : Site) (i : Input) : Prop := ∀ m ∈ i.requestVote, s.node.grants m → s.node.logUpToDate m

instance (s : Site) (i : Input) : Decidable (votesOnWholeLog s i) :=
  inferInstanceAs (Decidable (∀ m ∈ i.requestVote, s.node.grants m → s.node.logUpToDate m))

/-! ## What leaders send -/

/-- The heartbeat thread is about to send a message. -/
def heartbeatSends (s : Site) (hb : Heartbeat) : Bool :=
  match hb.phase with
  | .peer j => s.node.runningHeartbeats && decide (j < s.node.peerRpcPorts.length) && (s.node.neededSnapshot j).isNone
  | .chunk _ _ => true
  | _ => false

/-- The client command is about to send AppendEntries. -/
def clientSends (s : Site) (call : ClientCall) : Bool :=
  decide (call.phase = .ready) && decide (call.i < s.node.peerRpcPorts.length)

/-- The client command is about to send a chunk of a snapshot. -/
def clientSendsChunk (call : ClientCall) : Bool :=
  match call.phase with
  | .chunk _ => true
  | _ => false

/-- A heartbeat thread sends only while the node leads the term the thread was started in. -/
def heartbeatsAsLeader (s : Site) (i : Input) : Prop :=
  i = .step .heartbeat → ∀ hb ∈ s.heartbeat, heartbeatSends s hb = true → s.node.leads hb.term

instance (s : Site) (i : Input) : Decidable (heartbeatsAsLeader s i) := inferInstanceAs (Decidable (_ → _))

/-- A client command sends only while the node leads the term of the entry it has appended. -/
def replicatesAsLeader (s : Site) (i : Input) : Prop :=
  ∀ k ∈ i.clientStep, ∀ call ∈ s.clients[k]?,
    clientSends s call = true ∨ clientSendsChunk call = true → s.node.leads call.entry.term

instance (s : Site) (i : Input) : Decidable (replicatesAsLeader s i) :=
  inferInstanceAs (Decidable (∀ k ∈ i.clientStep, ∀ call ∈ s.clients[k]?,
    clientSends s call = true ∨ clientSendsChunk call = true → s.node.leads call.entry.term))

/-- A client command sends AppendEntries from the first index on only while no entry is under a snapshot. -/
def sendsFromFirst (s : Site) (i : Input) : Prop :=
  ∀ k ∈ i.clientStep, ∀ call ∈ s.clients[k]?, clientSends s call = true → s.node.nextIndex.getD call.i 0 ≤ 0 →
    s.node.latestSnapshot = none

instance (s : Site) (i : Input) : Decidable (sendsFromFirst s i) :=
  inferInstanceAs (Decidable (∀ k ∈ i.clientStep, ∀ call ∈ s.clients[k]?, clientSends s call = true →
    s.node.nextIndex.getD call.i 0 ≤ 0 → s.node.latestSnapshot = none))

/-- A client command passes the test of the commit rule only while the node leads the term of the entry it has appended. -/
def commitsAsLeader (s : Site) (i : Input) : Prop :=
  ∀ k ∈ i.clientStep, ∀ call ∈ s.clients[k]?, call.phase = .ready → s.node.peerRpcPorts.length ≤ call.i →
    mayCommit s.node call → s.node.leads call.entry.term

instance (s : Site) (i : Input) : Decidable (commitsAsLeader s i) :=
  inferInstanceAs (Decidable (∀ k ∈ i.clientStep, ∀ call ∈ s.clients[k]?, call.phase = .ready →
    s.node.peerRpcPorts.length ≤ call.i → mayCommit s.node call → s.node.leads call.entry.term))

/-! ## What followers take over -/

/-- A message that starts before a snapshot of the receiver and reaches beyond its log agrees with the last entry it has. -/
def joinsAgree (s : Site) (i : Input) : Prop :=
  ∀ m ∈ i.appendEntries, s.node.accepts m → m.prevLogIndex < 0 → s.node.latestSnapshot ≠ none →
    s.node.getLogSize ≤ m.reach →
    ∀ e ∈ m.entries[(s.node.getLogSize - 1).toNat]?, s.node.getLogTerm (s.node.getLogSize - 1) = e.term

instance (s : Site) (i : Input) : Decidable (joinsAgree s i) :=
  inferInstanceAs (Decidable (∀ m ∈ i.appendEntries, s.node.accepts m → m.prevLogIndex < 0 →
    s.node.latestSnapshot ≠ none → s.node.getLogSize ≤ m.reach →
    ∀ e ∈ m.entries[(s.node.getLogSize - 1).toNat]?, s.node.getLogTerm (s.node.getLogSize - 1) = e.term))

/-- A message whose first entry the node has, or that ends within its log without a conflict, brings nothing the node does not
have. -/
def skipsHeld (s : Site) (i : Input) : Prop :=
  ∀ m ∈ i.appendEntries, s.node.accepts m → s.node.firstMatches m ≠ some false →
    s.node.firstMatches m = some true ∨ m.reach < s.node.getLogSize → s.node.holdsLast m

instance (s : Site) (i : Input) : Decidable (skipsHeld s i) :=
  inferInstanceAs (Decidable (∀ m ∈ i.appendEntries, s.node.accepts m → s.node.firstMatches m ≠ some false →
    s.node.firstMatches m = some true ∨ m.reach < s.node.getLogSize → s.node.holdsLast m))

/-- A conflict does not cut the log below what is applied. -/
def keepsApplied (s : Site) (i : Input) : Prop :=
  ∀ m ∈ i.appendEntries, s.node.accepts m → s.node.firstMatches m = some false → s.node.lastApplied ≤ m.reach

instance (s : Site) (i : Input) : Decidable (keepsApplied s i) :=
  inferInstanceAs (Decidable (∀ m ∈ i.appendEntries, s.node.accepts m → s.node.firstMatches m = some false →
    s.node.lastApplied ≤ m.reach))

/-- `commitIndex` is not advanced beyond what the message has brought or verified. -/
def commitsVerified (s : Site) (i : Input) : Prop :=
  ∀ m ∈ i.appendEntries, s.node.accepts m → s.node.commitIndex < m.leaderCommit →
    m.leaderCommit ≤ m.reach ∨ s.node.getLogSize ≤ m.reach + 1 ∨ s.node.firstMatches m = some false

instance (s : Site) (i : Input) : Decidable (commitsVerified s i) :=
  inferInstanceAs (Decidable (∀ m ∈ i.appendEntries, s.node.accepts m → s.node.commitIndex < m.leaderCommit →
    m.leaderCommit ≤ m.reach ∨ s.node.getLogSize ≤ m.reach + 1 ∨ s.node.firstMatches m = some false))

/-- The snapshot that is decoded after the last chunk is the one the message speaks of. -/
def installsImage (s : Site) (i : Input) : Prop :=
  ∀ m ∈ i.installSnapshot, s.node.currentTerm ≤ m.term → ∀ snap ∈ s.node.assembled m, snap.dumps = true →
    snap.lastIncludedIndex = m.lastIncludedIndex ∧ snap.lastIncludedTerm = m.lastIncludedTerm

instance (s : Site) (i : Input) : Decidable (installsImage s i) :=
  inferInstanceAs (Decidable (∀ m ∈ i.installSnapshot, s.node.currentTerm ≤ m.term → ∀ snap ∈ s.node.assembled m,
    snap.dumps = true →
    snap.lastIncludedIndex = m.lastIncludedIndex ∧ snap.lastIncludedTerm = m.lastIncludedTerm))

/-- A snapshot is installed only over a log that it covers, or that differs from it at its last index. -/
def dropsNothing (s : Site) (i : Input) : Prop :=
  ∀ m ∈ i.installSnapshot, s.node.currentTerm ≤ m.term → ∀ snap ∈ s.node.assembled m, snap.dumps = true →
    s.node.getLogSize ≤ m.lastIncludedIndex + 1 ∨
      s.node.baseIndex ≤ m.lastIncludedIndex + 1 ∧ s.node.getLogTerm m.lastIncludedIndex ≠ m.lastIncludedTerm

instance (s : Site) (i : Input) : Decidable (dropsNothing s i) :=
  inferInstanceAs (Decidable (∀ m ∈ i.installSnapshot, s.node.currentTerm ≤ m.term → ∀ snap ∈ s.node.assembled m,
    snap.dumps = true → s.node.getLogSize ≤ m.lastIncludedIndex + 1 ∨
      s.node.baseIndex ≤ m.lastIncludedIndex + 1 ∧ s.node.getLogTerm m.lastIncludedIndex ≠ m.lastIncludedTerm))

/-! ## Together -/

/-- Indices stay aligned: what leaders send is a piece of a log, or nobody takes it over, what is applied stays in the log, and images are
genuine. -/
def aligns (s : Site) (i : Input) : Prop := sendsFromFirst s i ∧ keepsApplied s i ∧ installsImage s i

instance (s : Site) (i : Input) : Decidable (aligns s i) := instDecidableAnd

/-- Logs match: elections are safe, only leaders send, and what a follower joins to its log agrees with it. -/
def matchesLogs (size : ℕ) (s : Site) (i : Input) : Prop :=
  electsInOwnTerm size s i ∧ heartbeatsAsLeader s i ∧ replicatesAsLeader s i ∧ joinsAgree s i ∧ aligns s i

instance (size : ℕ) (s : Site) (i : Input) : Decidable (matchesLogs size s i) := instDecidableAnd

/-- Committed entries stay: also, votes go by the whole log, a positive answer means that the entries are held, and an entry is
committed by its leader. -/
def keepsCommitted (size : ℕ) (s : Site) (i : Input) : Prop :=
  matchesLogs size s i ∧ votesOnWholeLog s i ∧ skipsHeld s i ∧ dropsNothing s i ∧ commitsAsLeader s i

instance (size : ℕ) (s : Site) (i : Input) : Decidable (keepsCommitted size s i) := instDecidableAnd

/-- Committed entries are applied: also, followers commit what they have verified. -/
def appliesCommitted (size : ℕ) (s : Site) (i : Input) : Prop := keepsCommitted size s i ∧ commitsVerified s i

instance (size : ℕ) (s : Site) (i : Input) : Decidable (appliesCommitted size s i) := instDecidableAnd

end Site

namespace Cluster

variable {N : ℕ}

/-- The step of a site that an action is satisfies `P`. -/
def Acts (P : Site → Input → Prop) (c : Cluster N) (x : Action N) : Prop := ∀ p ∈ c.input x, P (c.sites p.1) p.2

instance (P : Site → Input → Prop) [∀ s i, Decidable (P s i)] (c : Cluster N) (x : Action N) : Decidable (Acts P c x) :=
  inferInstanceAs (Decidable (∀ p ∈ c.input x, P (c.sites p.1) p.2))

end Cluster

end RaftStore
