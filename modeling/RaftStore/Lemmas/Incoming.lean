import RaftStore.Lemmas.Aligned

/-!
# What a node has of an incoming snapshot

The buffer and the two fields about a transfer that is coming in change where an InstallSnapshot message is handled and where the node is
started again, and nowhere else.
-/

namespace RaftStore

structure Incoming where
  snapshotBuffer : Str
  receivingSnapshot : Bool
  snapshotLeaderId : ℤ
  deriving DecidableEq

namespace RaftNode

variable {n : RaftNode}

/-- What the node has of an incoming snapshot. -/
def incoming (n : RaftNode) : Incoming where
  snapshotBuffer := n.snapshotBuffer
  receivingSnapshot := n.receivingSnapshot
  snapshotLeaderId := n.snapshotLeaderId

@[simp] theorem createSnapshot_incoming (n : RaftNode) (store : KVStore) : (n.createSnapshot store).1.incoming = n.incoming := by
  obtain ⟨_, _, _, heq⟩ := n.createSnapshot_shape store
  rw [heq]
  rfl

@[simp] theorem snapshotAtThreshold_incoming (n : RaftNode) (store : KVStore) :
    (n.snapshotAtThreshold store).1.incoming = n.incoming := by
  obtain ⟨_, _, _, _, heq⟩ := n.snapshotAtThreshold_shape store
  rw [heq]
  rfl

@[simp] theorem seeTerm_incoming (n : RaftNode) (t : ℤ) : (n.seeTerm t).incoming = n.incoming := by
  obtain ⟨_, _, _, _, _, heq⟩ := n.seeTerm_shape t
  rw [heq]
  rfl

@[simp] theorem acceptEntries_incoming (n : RaftNode) (m : AppendEntriesRPC) :
    (n.acceptEntries m).incoming = n.incoming := by
  obtain ⟨log, heq⟩ := n.acceptEntries_eq m
  rw [heq]
  rfl

@[simp] theorem stepDown_incoming (n : RaftNode) (m : AppendEntriesRPC) :
    (n.stepDown m).incoming = n.incoming := by
  obtain ⟨_, _, _, _, _, heq⟩ := n.stepDown_shape m
  rw [heq]
  rfl

@[simp] theorem advanceCommit_incoming (n : RaftNode) (store : KVStore) (leaderCommit : ℤ) :
    (n.advanceCommit store leaderCommit).1.incoming = n.incoming := by
  show (snapshotAtThreshold _ _).1.incoming = n.incoming
  rw [snapshotAtThreshold_incoming, applyCommitted_node]
  rfl

/-- The other handlers leave it alone. -/
theorem handle_incoming {store : KVStore} {req : Request} {r : Handled} (hreq : ∀ m, req ≠ .installSnapshot m)
    (hr : n.handle store req = some r) : r.node.incoming = n.incoming := by
  cases req with
  | requestVote m =>
    obtain rfl := Option.some.inj hr
    show (n.handleRequestVote store m).node.incoming = _
    unfold handleRequestVote
    simp only
    split
    · rfl
    · split
      · exact n.seeTerm_incoming m.term
      · exact n.seeTerm_incoming m.term
  | appendEntries m =>
    obtain rfl := Option.some.inj hr
    rcases n.handleAppendEntries_node store m with heq | ⟨_, heq | heq⟩
    · exact congrArg incoming heq
    · exact (congrArg incoming heq).trans (by simp)
    · exact (congrArg incoming heq).trans (by simp)
  | installSnapshot m => exact absurd rfl (hreq m)

end RaftNode

namespace Site

variable {size next : ℕ} {s : Site} {store : KVStore} {i : Input} {o : Outcome}

/-- Only messages and a restart change it. -/
theorem Step.incoming (hst : Step size next s store i o) (hs : s.Sound) (hi : i ≠ .restart) (hrec : ∀ req, i ≠ .receive req) :
    o.site.node.incoming = s.node.incoming := by
  cases hst with
  | win el he hp hr hv =>
    obtain ⟨_, _, heq⟩ := s.elected_node el
    show (s.elected el).node.incoming = _
    rw [heq]
    rfl
  | heartbeatReply hb j nextIdx count call r term success hh hp hr ht =>
    obtain ⟨_, _, heq⟩ := heartbeatAnswered_shape s.node j nextIdx count success
    show (heartbeatAnswered s.node j nextIdx count success).incoming = _
    rw [heq]
    rfl
  | heartbeatChunkReply hb j t call r hh hp phase hph =>
    obtain ⟨_, _, heq⟩ := t.reply_shape s.node j r
    show (t.reply s.node j r).1.incoming = _
    rw [heq]
    rfl
  | commit k call hk hp hi hm =>
    have h' : (s.node.setCommitIndex call.newIndex).Sound := hs.node.congr rfl rfl rfl rfl
    show (Site.commit s.node store call).1.incoming = _
    unfold Site.commit
    simp only [h'.applyWhileUp_eq]
    show (RaftNode.snapshotAtThreshold _ _).1.incoming = _
    rw [RaftNode.snapshotAtThreshold_incoming, RaftNode.applyCommitted_node]
    rfl
  | failure k call id r term hk hp hr ht call' hc =>
    obtain ⟨_, heq⟩ := s.node.retreat_shape call.i
    show (s.node.retreat call.i).incoming = _
    rw [heq]
    rfl
  | chunkReply k call t id r hk hp call' hc =>
    obtain ⟨_, _, heq⟩ := t.reply_shape s.node call.i r
    show (t.reply s.node call.i r).1.incoming = _
    rw [heq]
    rfl
  | receive req r hr => exact absurd rfl (hrec req)
  | snapshotNow hl => exact s.node.createSnapshot_incoming store
  | restart n store' hr => exact absurd rfl hi
  | _ => rfl

end Site

end RaftStore
