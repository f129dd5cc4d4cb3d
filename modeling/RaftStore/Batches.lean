import RaftStore.Site

/-!
# How a leader puts a message together

`handleClientCommand` and `send_heartbeats` read `nextIndex`, the log and the snapshot one after another, without the mutex: between two
reads other threads may append to the log and take snapshots.
-/

namespace RaftStore

namespace RaftNode

/-- What other threads do to a leader in the meantime: SNAPSHOT_NOW, the commit section of a client command with its snapshot at the
threshold, and the append of one. -/
inductive Meanwhile : RaftNode → RaftNode → Prop
  | refl (n : RaftNode) : Meanwhile n n
  | snapshotNow {n x y : RaftNode} {store store' : KVStore} (h : Meanwhile n x) (hx : x.triggerSnapshot store = some (y, store')) :
    Meanwhile n y
  | commit {n x : RaftNode} (store : KVStore) {call : ClientCall} (h : Meanwhile n x) (hx : Site.mayCommit x call) :
    Meanwhile n (Site.commit x store call).1
  | append {n x : RaftNode} (req : ClientRequest) (h : Meanwhile n x) : Meanwhile n (x.appendLogEntry (Site.newEntry x req))

end RaftNode

/-- The leader at each of the reads: of `latestSnapshot`, `nextIndex[i]`, `getLogTerm`, `getLogSize` and `getLogEntries`. -/
structure Readings where
  atSnapshot : RaftNode
  atNext : RaftNode
  atTerm : RaftNode
  atSize : RaftNode
  atEntries : RaftNode
  beforeNext : RaftNode.Meanwhile atSnapshot atNext
  beforeTerm : RaftNode.Meanwhile atNext atTerm
  beforeSize : RaftNode.Meanwhile atTerm atSize
  beforeEntries : RaftNode.Meanwhile atSize atEntries

namespace Readings

/-- `nextIdx` for peer `i`. -/
def nextIdx (r : Readings) (i : ℕ) : ℤ := r.atNext.nextIndex.getD i 0

/-- The message with these entries. -/
def message (r : Readings) (i : ℕ) (entries : List LogEntry) : AppendEntriesRPC where
  term := r.atEntries.currentTerm
  leaderId := r.atEntries.id
  prevLogIndex := r.nextIdx i - 1
  prevLogTerm := r.atTerm.getLogTerm (r.nextIdx i - 1)
  entries := entries
  leaderCommit := r.atEntries.commitIndex

/-- The message of `handleClientCommand` to peer `i`, of a command at `newIndex`. -/
def clientMessage (r : Readings) (i : ℕ) (newIndex : ℤ) : AppendEntriesRPC :=
  r.message i (r.atEntries.getLogEntries (r.nextIdx i) (newIndex + 1))

/-- `endIndex` of the batch of a heartbeat. -/
def batchEnd (r : Readings) (i : ℕ) : ℤ := min (r.nextIdx i + Site.maxEntriesPerBatch) r.atSize.getLogSize

/-- The message of `send_heartbeats` to peer `i`; `none` where the peer is sent a snapshot. -/
def heartbeatMessage (r : Readings) (i : ℕ) : Option AppendEntriesRPC :=
  if (r.atSnapshot.latestSnapshot.filter fun s => r.nextIdx i ≤ s.lastIncludedIndex).isSome then none
  else some (r.message i
    (if r.nextIdx i < r.atSize.getLogSize then r.atEntries.getLogEntries (r.nextIdx i) (r.batchEnd i) else []))

end Readings

/-- A message that is a piece of the log of this node: the entries stand behind `prevLogIndex`, and `prevLogTerm` is the term of the entry
there. -/
def AppendEntriesRPC.IsPiece (m : AppendEntriesRPC) (n : RaftNode) : Prop :=
  (∀ (j : ℕ) (e : LogEntry), m.entries[j]? = some e → e.index = m.prevLogIndex + 1 + j) ∧
    (m.prevLogIndex = -1 ∧ m.prevLogTerm = 0 ∨
      m.prevLogTerm ≠ 0 ∧ ∃ e ∈ n.globalEntry m.prevLogIndex, e.term = m.prevLogTerm)

end RaftStore
