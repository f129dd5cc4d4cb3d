import RaftStore.Rpc
import RaftStore.Systems.Locks

/-!
# The mutexes that the threads take

`node->mtx`, `clientMutex` and `store_mutex`, as the functions of the node take them. A test that is made when a function is entered
or a mutex has just been taken is made on the state of the node at that time; where a test depends on a reply, on what another
thread may have changed, or on nothing that a mutex depends on, both ways are taken. A return from the middle of a function is a
program that is left.
-/

namespace RaftStore

open Systems

/-- The mutexes that are not recursive, those of one node and the one of the store. -/
inductive Mutex where
  | mtx
  | clientMutex
  | storeMutex
  deriving DecidableEq

/-- The order in which mutexes are taken inside one another. -/
def Mutex.rank : Mutex → ℕ
  | mtx => 0
  | clientMutex => 1
  | storeMutex => 2

/-- What a thread does to the mutexes. -/
abbrev Locking := LockProg Mutex

/-- A message that comes in at `handle_node_client`. `other`: one that only reads, is of no known type, or is no JSON text. -/
inductive NodeMessage where
  | peer (req : Request)
  | clientRequest
  | snapshotNow
  | other
  deriving DecidableEq

namespace Locking

open LockProg

/-- `persistMetadata`. -/
def persistMetadata : Locking := lockGuard .clientMutex skip

/-- `RaftNode::applyToStateMachine`: commands of another kind do not touch the store. -/
def applyToStateMachine : Locking := maybe (lockGuard .storeMutex skip)

/-- The creation of a snapshot, which the callers do with `mtx` held. -/
def createSnapshot : Locking := block [lockGuard .storeMutex skip, persistMetadata]

/-- `RaftNode::triggerSnapshot`. -/
def triggerSnapshot (n : RaftNode) : Locking := attempt (if n.log.length = 0 then skip else lockGuard .mtx createSnapshot)

/-- `RaftNode::becomeFollower`. -/
def becomeFollower (n : RaftNode) : Locking :=
  block [lockGuard .mtx skip, if n.shutdownRequested then skip else persistMetadata]

/-- `reset_timeout`. -/
def resetTimeout : Locking := lockGuard .mtx skip

/-- A reply of a later term in `start_election` and in `handleClientCommand`, inside a `try`. -/
def laterTerm : Locking := attempt (maybe (lockGuard .mtx (maybe persistMetadata)))

/-- `start_election`. -/
def startElection : Locking :=
  block [lockGuard .mtx skip, persistMetadata, loop (maybe laterTerm),
    maybe (block [lockGuard .mtx skip, resetTimeout, persistMetadata])]

/-- `send_heartbeats`. -/
def sendHeartbeats : Locking :=
  attempt (loop (loop (attempt (maybe (block [lockGuard .mtx skip, persistMetadata])))))

/-- The commit section of `handleClientCommand`. -/
def commitSection : Locking :=
  lockGuard .mtx (block [loop applyToStateMachine, maybe createSnapshot, lockGuard .clientMutex skip])

/-- `RaftNode::handleClientCommand`. -/
def handleClientCommand (n : RaftNode) : Locking :=
  if n.shutdownRequested ∨ n.state ≠ .leader then skip
  else
    block [lockGuard .clientMutex skip, lockGuard .mtx skip, loop (maybe laterTerm), maybe (block [commitSection, persistMetadata])]

/-- `handle_node_client`, RequestVote. -/
def requestVote (n : RaftNode) (m : RequestVoteRPC) : Locking :=
  if m.term < n.currentTerm then skip
  else block [if n.currentTerm < m.term then becomeFollower n else skip, maybe persistMetadata]

/-- `handle_node_client`, AppendEntries: `mtx` is held all the time. -/
def appendEntries (n : RaftNode) (m : AppendEntriesRPC) : Locking :=
  lockGuard .mtx
    (if n.receivingSnapshot ∧ n.snapshotLeaderId = m.leaderId then skip
    else if m.term < n.currentTerm then skip
    else
      block [if n.currentTerm < m.term ∨ n.state = .candidate then becomeFollower n else skip, persistMetadata,
        maybe (block [loop applyToStateMachine, maybe createSnapshot])])

/-- `handle_node_client`, InstallSnapshot. -/
def installSnapshot (n : RaftNode) (m : InstallSnapshotRPC) : Locking :=
  attempt
    (if m.term < n.currentTerm then skip
    else
      block [if n.currentTerm < m.term then becomeFollower n else skip,
        attempt (if m.done then block [lockGuard .mtx skip, persistMetadata] else skip)])

/-- `handle_node_client`. -/
def handleNodeClient (stopRPC : Bool) (n : RaftNode) (msg : NodeMessage) : Locking :=
  if stopRPC then skip
  else
    attempt (match msg with
      | .peer (.requestVote m) => requestVote n m
      | .peer (.appendEntries m) => appendEntries n m
      | .peer (.installSnapshot m) => installSnapshot n m
      | .clientRequest => if n.state ≠ .leader then skip else handleClientCommand n
      | .snapshotNow => triggerSnapshot n
      | .other => skip)

end Locking

/-- A function that a thread executes. -/
inductive ThreadTask where
  | handleNodeClient (stopRPC : Bool) (msg : NodeMessage)
  | handleClientCommand
  | triggerSnapshot
  | startElection
  | sendHeartbeats
  | resetTimeout
  | becomeFollower
  deriving DecidableEq

/-- What the thread does to the mutexes of a node in this state. -/
def ThreadTask.locking (n : RaftNode) : ThreadTask → Locking
  | handleNodeClient stopRPC msg => Locking.handleNodeClient stopRPC n msg
  | handleClientCommand => Locking.handleClientCommand n
  | triggerSnapshot => Locking.triggerSnapshot n
  | startElection => Locking.startElection
  | sendHeartbeats => Locking.sendHeartbeats
  | resetTimeout => Locking.resetTimeout
  | becomeFollower => Locking.becomeFollower n

end RaftStore
