import RaftStore.Site
import RaftStore.Systems.Runs

/-!
# Stepping down

The reply to a message reaches `currentTerm` on five paths: the votes in `start_election`, and the replies to AppendEntries and to
InstallSnapshot in `send_heartbeats` and in `handleClientCommand`. A reply with a later term should leave a follower of that term, whatever
the path, and no thread of the node should go on as if it led.
-/

namespace RaftStore

/-- The term that a reply carries. -/
def Reply.term : Reply → Option ℤ
  | .requestVote term _ => some term
  | .appendEntries term _ => some term
  | .installSnapshot term _ _ => some term
  | .null => none
  | .invalid => none

/-- The messages that a node sends as leader. -/
def Request.fromLeader : Request → Bool
  | .requestVote _ => false
  | .appendEntries _ => true
  | .installSnapshot _ => true

namespace Site

/-! ## What a step down is for -/

/-- One step of a site and its store. -/
def advance (size : ℕ) (x : Site × KVStore) (a : ℕ × Input) : Option (Site × KVStore) :=
  (x.1.step size a.1 x.2 a.2).map fun o => (o.site, o.store)

/-- The step does not make the node a leader. -/
def StaysDown (size : ℕ) (x : Site × KVStore) (a : ℕ × Input) : Prop := ∀ y ∈ advance size x a, y.1.node.state ≠ .leader

/-- Whatever messages, replies and requests come, the node sends nothing as leader until it is elected again. -/
def SendsNothing (size : ℕ) (s : Site) (store : KVStore) : Prop :=
  ∀ x, Systems.Run (advance size) (StaysDown size) (s, store) x →
    ∀ next i o, x.1.step size next x.2 i = some o → ∀ m ∈ o.send, m.req.fromLeader = false

/-- The node is a follower of the term, has written that to its metadata file, and sends nothing more as leader. -/
structure SteppedDown (size : ℕ) (term : ℤ) (s : Site) (store : KVStore) : Prop where
  state : s.node.state = .follower
  currentTerm : s.node.currentTerm = term
  votedFor : s.node.votedFor = -1
  runningHeartbeats : s.node.runningHeartbeats = false
  persisted : ∃ j ∈ s.node.disk.metadata, j.currentTerm = term ∧ j.votedFor = -1
  silent : s.SendsNothing size store

end Site

/-! ## Threads that have nothing more to send -/

/-- A heartbeat thread that is told to stop sends nothing more: it is not about to send a chunk, and has none left in a transfer. -/
def Heartbeat.Silent (n : RaftNode) (hb : Heartbeat) : Prop :=
  match hb.phase with
  | .chunk i _ => n.peerRpcPorts.length ≤ i
  | .chunkReply i t _ => n.peerRpcPorts.length ≤ i ∨ t.chunkCount ≤ t.chunkNum + 1
  | _ => True

instance (n : RaftNode) : ∀ hb : Heartbeat, Decidable (hb.Silent n)
  | ⟨.top, _⟩ | ⟨.peer _, _⟩ | ⟨.append _ _ _ _, _⟩ => instDecidableTrue
  | ⟨.chunk i _, _⟩ => Nat.decLe n.peerRpcPorts.length i
  | ⟨.chunkReply i t _, _⟩ => inferInstanceAs (Decidable (n.peerRpcPorts.length ≤ i ∨ t.chunkCount ≤ t.chunkNum + 1))

/-- A client command sends nothing more: it has no peer left, or goes to the next one only to find the node shut down. -/
def ClientCall.Silent (n : RaftNode) (call : ClientCall) : Prop :=
  match call.phase with
  | .ready => n.shutdownRequested = true ∨ n.peerRpcPorts.length ≤ call.i
  | .append _ => n.peerRpcPorts.length ≤ call.i
  | .chunk _ => n.peerRpcPorts.length ≤ call.i
  | .chunkReply t _ => (n.peerRpcPorts.length ≤ call.i ∨ t.chunkCount ≤ t.chunkNum + 1) ∧
      (n.shutdownRequested = true ∨ n.peerRpcPorts.length ≤ call.i + 1)
  | .done _ => True

instance (n : RaftNode) : ∀ call : ClientCall, Decidable (call.Silent n)
  | ⟨_, _, _, _, i, .ready⟩ => inferInstanceAs (Decidable (n.shutdownRequested = true ∨ n.peerRpcPorts.length ≤ i))
  | ⟨_, _, _, _, i, .append _⟩ | ⟨_, _, _, _, i, .chunk _⟩ => Nat.decLe n.peerRpcPorts.length i
  | ⟨_, _, _, _, i, .chunkReply t _⟩ => inferInstanceAs (Decidable ((n.peerRpcPorts.length ≤ i ∨ t.chunkCount ≤ t.chunkNum + 1) ∧
      (n.shutdownRequested = true ∨ n.peerRpcPorts.length ≤ i + 1)))
  | ⟨_, _, _, _, _, .done _⟩ => instDecidableTrue

namespace Site

/-- The heartbeat thread, if there is one, sends nothing more. -/
def HeartbeatSilent (s : Site) : Prop := ∀ hb ∈ s.heartbeat, hb.Silent s.node

instance (s : Site) : Decidable s.HeartbeatSilent := inferInstanceAs (Decidable (∀ hb ∈ s.heartbeat, hb.Silent s.node))

/-- The client commands at the places that satisfy `P` send nothing more. -/
def ClientsSilent (s : Site) (P : ℕ → Prop) : Prop := ∀ k, P k → ∀ call ∈ s.clients[k]?, call.Silent s.node

/-- A reply with a later term that this thread gets has its effect: the path looks at the term and the flag of the heartbeats is down
afterwards, and no other thread is about to send as leader. -/
def HeedsTerm (s : Site) : Thread → Prop
  | .election => s.node.shutdownRequested = false ∧ s.node.runningHeartbeats = false ∧ s.HeartbeatSilent ∧
      s.ClientsSilent fun _ => True
  | .heartbeat => (∃ hb ∈ s.heartbeat, ∃ i nextIdx count call, hb.phase = .append i nextIdx count call) ∧
      s.node.shutdownRequested = false ∧ s.node.runningHeartbeats = true ∧ s.ClientsSilent fun _ => True
  | .client k => (∃ c ∈ s.clients[k]?, ∃ call, c.phase = .append call) ∧ s.node.runningHeartbeats = false ∧ s.HeartbeatSilent ∧
      s.ClientsSilent fun j => j ≠ k

end Site

end RaftStore
