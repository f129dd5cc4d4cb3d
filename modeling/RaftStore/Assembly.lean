import RaftStore.Cluster
import RaftStore.Lemmas.Images
import RaftStore.Systems.Runs

/-!
# What the chunks in a buffer are of

A cluster with a history of its transfers: the chunk that each call carries, how far the image in the buffer of a node has come, and
the snapshots that were stored at the end of a transfer. The handler sees none of this. A message says which leader, which snapshot
and which chunk it is of, but the handler looks only at its term, its offset and `done`.
-/

namespace RaftStore

/-- The transfer whose next chunk a thread is about to send. -/
def Site.sending (s : Site) : Thread → Option Transfer
  | .election => none
  | .heartbeat => s.heartbeat.bind fun hb =>
    match hb.phase with
    | .chunk _ t => some t
    | _ => none
  | .client k => s.clients[k]?.bind fun call =>
    match call.phase with
    | .chunk t => some t
    | _ => none

/-- The later one of two chunks, where the first chunk of a transfer starts the buffer anew. -/
def Transfer.extend (t : Transfer) (held : Option Transfer) : Transfer :=
  match held with
  | some h => if t.chunkNum ≠ 0 ∧ t.chunkNum < h.chunkNum then h else t
  | none => t

/-- The node that handles a call in an action, and the call. -/
def Action.delivered {N : ℕ} : Action N → Option (Fin N × ℕ)
  | .deliver v id => some (v, id)
  | _ => none

/-- A cluster and its transfers. `carried`: the chunk of each call; `held`: the last chunk of the image in the buffer of a node. -/
structure Assembly (N : ℕ) where
  cluster : Cluster N
  carried : List (Option Transfer)
  held : Fin N → Option Transfer
  stored : List (Fin N × Snapshot)

namespace Assembly

variable {N : ℕ}

def init (N : ℕ) : Assembly N where
  cluster := Cluster.init N
  carried := []
  held _ := none
  stored := []

/-- The chunk that node `v` takes when it handles a call: one that is not of an earlier term. -/
def takes (s : Assembly N) (v : Fin N) (id : ℕ) : Option Transfer :=
  match s.cluster.calls[id]?.map Call.req with
  | some (.installSnapshot m) => if m.term < (s.cluster.sites v).node.currentTerm then none else s.carried[id]?.join
  | _ => none

/-- The snapshot that the `done` branch stores at node `v` when a call is handled; `c` is the cluster after it. -/
def storedBy (s : Assembly N) (c : Cluster N) (v : Fin N) (id : ℕ) : Option Snapshot :=
  match s.cluster.calls[id]?.map Call.req, c.calls[id]?.bind Call.resp with
  | some (.installSnapshot m), some reply => if m.done ∧ reply.accepted then (c.sites v).node.latestSnapshot else none
  | _, _ => none

/-- The image in the buffer of node `v` after a call is handled. A snapshot that is stored leaves the buffer empty. -/
def heldAfter (s : Assembly N) (v : Fin N) (id : ℕ) (stored : Option Snapshot) : Option Transfer :=
  match s.takes v id with
  | none => s.held v
  | some t => if stored.isSome then none else some (t.extend (s.held v))

/-- The transfers after an action that leads to the cluster `c`. -/
def note (s : Assembly N) (c : Cluster N) : Action N → Assembly N
  | .step v t =>
    let sent := List.replicate (c.calls.length - s.cluster.calls.length) ((s.cluster.sites v).sending t)
    { s with cluster := c, carried := s.carried ++ sent }
  | .deliver v id =>
    let stored := s.storedBy c v id
    { s with
      cluster := c
      held := Function.update s.held v (s.heldAfter v id stored)
      stored := s.stored ++ stored.toList.map (fun snap => (v, snap)) }
  | .restart v => { s with cluster := c, held := Function.update s.held v none }
  | _ => { s with cluster := c }

/-- One action of the cluster. -/
def step (s : Assembly N) (x : Action N) : Option (Assembly N) := (s.cluster.step x).map fun c => s.note c x

/-- A chunk is in order: the first one of an image, or one that the image in the buffer has or that comes next in it. The numbers of its
snapshot are of type `int`. -/
def Fitting (held : Option Transfer) (t : Transfer) : Prop :=
  t.snap.Fits ∧ (t.chunkNum = 0 ∨ ∃ h ∈ held, h.snapBytes = t.snapBytes ∧ t.chunkNum ≤ h.chunkNum + 1)

instance (held : Option Transfer) (t : Transfer) : Decidable (Fitting held t) := instDecidableAnd

/-- The chunk that a node takes is in order. -/
def InOrder (s : Assembly N) (x : Action N) : Prop := ∀ p ∈ x.delivered, ∀ t ∈ s.takes p.1 p.2, Fitting (s.held p.1) t

instance (s : Assembly N) (x : Action N) : Decidable (s.InOrder x) :=
  inferInstanceAs (Decidable (∀ p ∈ x.delivered, ∀ t ∈ s.takes p.1 p.2, Fitting (s.held p.1) t))

end Assembly

end RaftStore
