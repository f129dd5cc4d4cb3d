import RaftStore.Cluster
import RaftStore.Replay

/-!
# Replicas over one store

The apply loops of the nodes of `raftAlgorithm`, which all execute the commands of a common log on the one `store` of the process.
A turn is one round of a loop, so that the loops of different nodes interleave between any two commands.
-/

namespace RaftStore

open Systems (Write left)

/-- A turn of one of the nodes. -/
inductive Turn (N : ℕ) where
  /-- The leader commits up to an index. -/
  | commit (index : ℤ)
  /-- A node is told a `leaderCommit`. -/
  | advance (v : Fin N) (leaderCommit : ℤ)
  /-- The apply loop of a node goes round once. -/
  | apply (v : Fin N)
  deriving DecidableEq

/-- The nodes of a process, and the store that they share. -/
structure Replicas (N : ℕ) where
  nodes : Fin N → RaftNode
  store : KVStore

namespace Replicas

variable {N : ℕ}

/-- A process that has just been started, in which every node gets the same log. -/
def start (N : ℕ) (log : List LogEntry) : Replicas N where
  nodes v := { RaftNode.create v.val (Cluster.port v) (Cluster.peers v) { metadata := none, snapshotFile := .absent } with
    log := log }
  store := KVStore.empty

/-- The process after a node has changed. -/
def setNode (r : Replicas N) (v : Fin N) (n : RaftNode) : Replicas N := { r with nodes := Function.update r.nodes v n }

/-- One round of the apply loop of a node. -/
def applying (r : Replicas N) (v : Fin N) : Applying :=
  Applying.applyNext { node := r.nodes v, store := r.store, applyResult := [], events := [] }

/-- One turn, where `l` leads; `none` where it cannot occur. -/
def step (l : Fin N) (r : Replicas N) : Turn N → Option (Replicas N)
  | .commit index =>
    if (r.nodes l).commitIndex < index ∧ index < (r.nodes l).getLogSize then
      some (r.setNode l ((r.nodes l).setCommitIndex index))
    else none
  | .advance v leaderCommit =>
    if leaderCommit ≤ (r.nodes l).commitIndex ∧ (r.nodes v).commitIndex < leaderCommit then
      some (r.setNode v ((r.nodes v).setCommitIndex (min leaderCommit ((r.nodes v).getLogSize - 1))))
    else none
  | .apply v =>
    if (r.nodes v).lastApplied < (r.nodes v).commitIndex then
      some { r.setNode v (r.applying v).node with store := (r.applying v).store }
    else none

/-- Turns one after the other. -/
def run (l : Fin N) : Replicas N → List (Turn N) → Option (Replicas N)
  | r, [] => some r
  | r, t :: turns => (r.step l t).bind fun r => run l r turns

end Replicas

namespace Turn

variable {N : ℕ}

/-- How far each node has applied after a turn. -/
def applied (f : Fin N → ℕ) : Turn N → Fin N → ℕ
  | .apply v => Function.update f v (f v + 1)
  | _ => f

/-- The index that a turn applies. -/
def index (f : Fin N → ℕ) : Turn N → Option ℕ
  | .apply v => some (f v + 1)
  | _ => none

/-- The indices that turns apply, one after the other, where each node has applied up to `f`. -/
def order (f : Fin N → ℕ) : List (Turn N) → List ℕ
  | [] => []
  | t :: turns => (t.index f).toList ++ order (t.applied f) turns

end Turn

/-- What the commands at these places of a log write. -/
def writesAt (log : List LogEntry) (places : List ℕ) : List (Write Str Str) :=
  places.filterMap fun j => (log[j]?.bind fun e => StoreCall.ofCommand e.command).map StoreCall.write

/-- What a GET of a key returns after these writes. -/
def readAfter (key : Str) (ws : List (Write Str Str)) : Str := (left key ws).getD (ascii "key not found")

end RaftStore
