import RaftStore.Lemmas.Step

/-!
# A leader and one follower, undisturbed

What `send_heartbeats` does for one peer together with the handlers of that peer, when every message is delivered whole and answered in
time, and neither node does anything else.
-/

namespace RaftStore

/-- The two nodes, and the store that all nodes of the process share. -/
structure Exchange where
  leader : RaftNode
  follower : RaftNode
  store : KVStore

/-- `offset + chunkSize` and the size of the image are of type `int`, so that `end` is what the loop means by it. -/
def Transfer.Counted (t : Transfer) : Prop := t.offset + Transfer.chunkSize < 2 ^ 31 ∧ t.snapBytes.length < 2 ^ 31

instance (t : Transfer) : Decidable t.Counted := instDecidableAnd

/-- The loop over the chunks of a transfer to peer `i`, for at most `fuel` more of them: the nodes after it and the messages that were
sent, or `none` where the loop's own sum overflows or the handler has no defined behaviour. -/
def Transfer.deliver (i : ℕ) : ℕ → Transfer → Exchange → Option (Exchange × List InstallSnapshotRPC)
  | 0, _, x => some (x, [])
  | fuel + 1, t, x =>
    if t.Counted then
      let m := t.message x.leader
      match x.follower.handleInstallSnapshot x.store m with
      | none => none
      | some h =>
        let (leader, rest) := t.reply x.leader i (some h.reply)
        let x : Exchange := { leader := leader, follower := h.node, store := h.store }
        match rest with
        | none => some (x, [m])
        | some t => (deliver i fuel t x).map fun (x, ms) => (x, m :: ms)
    else none

namespace Exchange

/-- The transfer of a snapshot to peer `i`. -/
def transfer (i : ℕ) (snap : Snapshot) (x : Exchange) : Option (Exchange × List InstallSnapshotRPC) :=
  (Transfer.start snap).deliver i (Transfer.start snap).chunkCount x

/-- What the leader does with the reply to AppendEntries with `count` entries from `nextIdx`. -/
def answered (n : RaftNode) (i : ℕ) (nextIdx : ℤ) (count : ℕ) (reply : Reply) : RaftNode :=
  match reply.appendEntriesResponse with
  | none => n
  | some (term, success) =>
    if n.currentTerm < term then { n with runningHeartbeats := false }.followReply term
    else Site.heartbeatAnswered n i nextIdx count success

/-- One round of `send_heartbeats` for peer `i`: a transfer, or a batch of entries. -/
def round (i : ℕ) (x : Exchange) : Option Exchange :=
  match x.leader.neededSnapshot i with
  | some snapshot => (x.transfer i snapshot).map Prod.fst
  | none =>
    let nextIdx := x.leader.nextIndex.getD i 0
    let entries := x.leader.getLogEntries nextIdx (min (nextIdx + Site.maxEntriesPerBatch) x.leader.getLogSize)
    let h := x.follower.handleAppendEntries x.store (x.leader.appendRequest nextIdx entries)
    some { leader := answered x.leader i nextIdx entries.length h.reply, follower := h.node, store := h.store }

/-- A step of the leader's heartbeat thread, with the handling of the message it sends and the reply. -/
def turn (next : ℕ) : Site × RaftNode × KVStore → Option (Site × RaftNode × KVStore)
  | (s, follower, store) =>
    match s.heartbeatStep next store with
    | none => none
    | some o =>
      match o.send with
      | none => some (o.site, follower, o.store)
      | some m =>
        match follower.handle o.store m.req with
        | none => none
        | some h => (o.site.heartbeatReply h.store (some h.reply)).map fun o' => (o'.site, h.node, o'.store)

/-- Rounds one after the other. -/
def rounds (i : ℕ) : ℕ → Exchange → Option Exchange
  | 0, x => some x
  | k + 1, x => (x.round i).bind (rounds i k)

end Exchange

end RaftStore
