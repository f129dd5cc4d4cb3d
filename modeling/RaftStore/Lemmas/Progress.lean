import RaftStore.Lemmas.Aligned
import RaftStore.Refinement.Votes

/-!
# Where a step moves the commit index

`commitIndex` and `lastApplied` are moved by the two commit sections, by the end of a snapshot transfer and by a restart, and by
nothing else. Whatever messages come in, what is applied lies above what was applied before.
-/

namespace RaftStore

/-- Nothing was applied. -/
def Event.Idle (ev : Event) : Prop := ∀ j e, ev ≠ .applied j e

/-- How far a node is: what is committed and what is applied. -/
structure Progress where
  commitIndex : ℤ
  lastApplied : ℤ
  deriving DecidableEq

namespace RaftNode

variable {n : RaftNode}

/-- How far the node is. -/
def progress (n : RaftNode) : Progress := { commitIndex := n.commitIndex, lastApplied := n.lastApplied }

@[simp] theorem createSnapshot_progress (n : RaftNode) (store : KVStore) :
    (n.createSnapshot store).1.progress = n.progress := by
  obtain ⟨_, _, _, heq⟩ := n.createSnapshot_shape store
  rw [heq]
  rfl

@[simp] theorem snapshotAtThreshold_progress (n : RaftNode) (store : KVStore) :
    (n.snapshotAtThreshold store).1.progress = n.progress := by
  obtain ⟨_, _, _, _, heq⟩ := n.snapshotAtThreshold_shape store
  rw [heq]
  rfl

@[simp] theorem becomeFollower_progress (n : RaftNode) (t : ℤ) : (n.becomeFollower t).progress = n.progress := by
  unfold becomeFollower
  split <;> rfl

@[simp] theorem seeTerm_progress (n : RaftNode) (t : ℤ) : (n.seeTerm t).progress = n.progress := by
  unfold seeTerm
  split
  · exact becomeFollower_progress n t
  · rfl

@[simp] theorem stepDown_progress (n : RaftNode) (m : AppendEntriesRPC) : (n.stepDown m).progress = n.progress := by
  unfold stepDown
  split
  · exact becomeFollower_progress n m.term
  · rfl

@[simp] theorem acceptEntries_progress (n : RaftNode) (m : AppendEntriesRPC) :
    (n.acceptEntries m).progress = n.progress := by
  obtain ⟨log, h⟩ := n.acceptEntries_eq m
  rw [h]
  rfl

@[simp] theorem retreat_progress (n : RaftNode) (i : ℕ) : (n.retreat i).progress = n.progress := by
  obtain ⟨_, heq⟩ := n.retreat_shape i
  rw [heq]
  rfl

theorem handleRequestVote_progress (n : RaftNode) (store : KVStore) (m : RequestVoteRPC) :
    (n.handleRequestVote store m).node.progress = n.progress ∧ ∀ ev ∈ (n.handleRequestVote store m).events, ev.Idle := by
  have hs := n.seeTerm_progress m.term
  unfold handleRequestVote
  simp only
  split
  · exact ⟨rfl, by simp⟩
  · split
    · refine ⟨hs, fun ev hev => ?_⟩
      obtain rfl := List.mem_singleton.mp hev
      exact fun _ _ => nofun
    · exact ⟨hs, by simp⟩

/-- A commit section: `commitIndex` is set, and what is not applied up to it is applied. -/
theorem applyCommitted_progress (n : RaftNode) (store : KVStore) (k : ℤ) :
    ((n.setCommitIndex k).applyCommitted store).node.progress =
      { commitIndex := k, lastApplied := max n.lastApplied k } := by
  rw [applyCommitted_node]
  rfl

/-- What is applied in a commit section lies above what was applied before. -/
theorem applyCommitted_above {store : KVStore} {k j : ℤ} {e : LogEntry}
    (h : Event.applied j e ∈ ((n.setCommitIndex k).applyCommitted store).events) : n.lastApplied < j := by
  obtain ⟨i, e', heq, hlt, _⟩ := applyCommitted_events h
  obtain ⟨rfl, _⟩ := Event.applied.inj heq
  exact hlt

/-- How far the AppendEntries handler takes a node. -/
theorem handleAppendEntries_progress (n : RaftNode) (store : KVStore) (m : AppendEntriesRPC) :
    ((n.handleAppendEntries store m).node.progress = n.progress ∧
      ∀ ev ∈ (n.handleAppendEntries store m).events, ev.Idle) ∨
    (n.accepts m ∧ n.commitIndex < m.leaderCommit ∧ ∃ k,
      k = min m.leaderCommit (((n.stepDown m).acceptEntries m).getLogSize - 1) ∧
      (n.handleAppendEntries store m).node.progress = { commitIndex := k, lastApplied := max n.lastApplied k } ∧
      ∀ j e, Event.applied j e ∈ (n.handleAppendEntries store m).events → n.lastApplied < j) := by
  have hd := n.stepDown_progress m
  have ha := (n.stepDown m).acceptEntries_progress m
  unfold handleAppendEntries
  simp only
  split
  · exact Or.inl ⟨rfl, by simp⟩
  · split
    · exact Or.inl ⟨rfl, by simp⟩
    · next ht =>
      split
      · next hc =>
        have hci : ((n.stepDown m).acceptEntries m).commitIndex = n.commitIndex :=
          congrArg Progress.commitIndex (ha.trans hd)
        have hla : ((n.stepDown m).acceptEntries m).lastApplied = n.lastApplied :=
          congrArg Progress.lastApplied (ha.trans hd)
        refine Or.inr ⟨⟨by omega, ?_⟩, by rw [← hci]; exact hc.2, _, rfl, ?_, fun j e hev => ?_⟩
        · rw [← (n.stepDown_checks m).1]
          exact hc.1
        · show (snapshotAtThreshold _ _).1.progress = _
          rw [snapshotAtThreshold_progress, applyCommitted_progress, hla]
        · rcases List.mem_cons.mp hev with hev | hev
          · cases hev
          · exact hla ▸ applyCommitted_above hev
      · exact Or.inl ⟨ha.trans hd, by simp⟩

/-- How far the InstallSnapshot handler takes a node. -/
theorem handleInstallSnapshot_progress {store : KVStore} {m : InstallSnapshotRPC} {r : Handled}
    (hr : n.handleInstallSnapshot store m = some r) : r.node.progress = n.progress ∨
      n.currentTerm ≤ m.term ∧ ∃ snap ∈ n.assembled m, snap.dumps = true ∧
        r.node.progress = { commitIndex := snap.lastIncludedIndex, lastApplied := snap.lastIncludedIndex } := by
  have hs := n.seeTerm_progress m.term
  rcases handleInstallSnapshot_node hr with heq | ⟨ht, b, heq | heq | ⟨hd, snap, hsnap, hdumps, hw, heq⟩⟩
  · exact Or.inl (by rw [heq])
  · exact Or.inl (by rw [heq]; exact hs)
  · exact Or.inl (by rw [heq]; exact hs)
  · exact Or.inr ⟨ht, snap, assembled_eq hd hsnap hw, hdumps, by rw [heq]; rfl⟩

end RaftNode

@[simp] theorem Transfer.reply_progress (t : Transfer) (n : RaftNode) (i : ℕ) (r : Option Reply) :
    (t.reply n i r).1.progress = n.progress := by
  obtain ⟨_, _, heq⟩ := t.reply_shape n i r
  rw [heq]
  rfl

namespace Site

@[simp] theorem heartbeatAnswered_progress (n : RaftNode) (i : ℕ) (nextIdx : ℤ) (count : ℕ) (success : Bool) :
    (heartbeatAnswered n i nextIdx count success).progress = n.progress := by
  obtain ⟨_, _, heq⟩ := heartbeatAnswered_shape n i nextIdx count success
  rw [heq]
  rfl

@[simp] theorem elected_progress (s : Site) (el : Election) : (s.elected el).node.progress = s.node.progress := by
  obtain ⟨_, _, heq⟩ := s.elected_node el
  rw [heq]
  rfl

/-- How far the commit section of a client command takes a node that is running. -/
theorem commit_progress {n : RaftNode} (h : n.Sound) (store : KVStore) (call : ClientCall) :
    (commit n store call).1.progress = { commitIndex := call.newIndex, lastApplied := max n.lastApplied call.newIndex } ∧
      ∀ j e, Event.applied j e ∈ (commit n store call).2.2.2 → n.lastApplied < j := by
  have h' : (n.setCommitIndex call.newIndex).Sound := h.congr rfl rfl rfl rfl
  unfold commit
  simp only [h'.applyWhileUp_eq]
  refine ⟨?_, fun j e hev => ?_⟩
  · show (RaftNode.snapshotAtThreshold _ _).1.progress = _
    rw [RaftNode.snapshotAtThreshold_progress, RaftNode.applyCommitted_progress]
  · rcases List.mem_append.mp hev with hev | hev
    · rcases List.mem_cons.mp hev with hev | hev
      · cases hev
      · exact RaftNode.applyCommitted_above hev
    · cases List.mem_singleton.mp hev

/-- A client command is about to commit: no peer is left, and the test of the commit rule is passed. -/
def committing (s : Site) (i : Input) : Option ClientCall :=
  i.clientStep.bind fun k => s.clients[k]?.filter fun call =>
    decide (call.phase = .ready) && decide (s.node.peerRpcPorts.length ≤ call.i) && decide (mayCommit s.node call)

/-- A step that neither commits nor applies. -/
def Still (s : Site) (o : Outcome) : Prop := o.site.node.progress = s.node.progress ∧ ∀ ev ∈ o.events, ev.Idle

/-- A step that commits at `k` and applies what is not applied up to it. -/
def Commits (s : Site) (o : Outcome) (k : ℤ) : Prop :=
  o.site.node.progress = { commitIndex := k, lastApplied := max s.node.lastApplied k } ∧
    ∀ j e, Event.applied j e ∈ o.events → s.node.lastApplied < j

variable {size next : ℕ} {s : Site} {store : KVStore} {i : Input} {o : Outcome}

/-- How far a step takes the node: it stays where it is, a client command or an AppendEntries message commits, a snapshot is
installed, or the node is started again. -/
theorem Sound.progress_cases (h : s.Sound) (hs : Step size next s store i o) :
    s.Still o ∨ (∃ call ∈ s.committing i, s.Commits o call.newIndex) ∨
      (∃ m ∈ i.appendEntries, s.node.accepts m ∧ s.node.commitIndex < m.leaderCommit ∧
        s.Commits o (min m.leaderCommit (((s.node.stepDown m).acceptEntries m).getLogSize - 1))) ∨
      (∃ m ∈ i.installSnapshot, s.node.currentTerm ≤ m.term ∧ ∃ snap ∈ s.node.assembled m, snap.dumps = true ∧
        o.events = [] ∧
        o.site.node.progress = { commitIndex := snap.lastIncludedIndex, lastApplied := snap.lastIncludedIndex }) ∨
      i = .restart := by
  have hstill {n : RaftNode} (hr : n.progress = s.node.progress) {site : Site} (hn : site.node = n) {st : KVStore} :
      s.Still (.local site st) := ⟨by rw [← hr, ← hn]; rfl, fun ev hev => nomatch hev⟩
  cases hs with
  | startElection he hl =>
    refine Or.inl ⟨rfl, fun ev hev => ?_⟩
    obtain rfl := List.mem_singleton.mp hev
    exact fun _ _ => nofun
  | win el he hp hr hv =>
    refine Or.inl ⟨?_, fun ev hev => ?_⟩
    · exact s.elected_progress el
    · obtain rfl := List.mem_singleton.mp hev
      exact fun _ _ => nofun
  | heartbeatReply hb i nextIdx count call r term success hh hp hr ht =>
    exact Or.inl (hstill (heartbeatAnswered_progress s.node i nextIdx count success) rfl)
  | heartbeatChunkReply hb i t call r hh hp phase hph => exact Or.inl (hstill (Transfer.reply_progress t s.node i r) rfl)
  | cached req result hl hc =>
    refine Or.inl ⟨rfl, fun ev hev => ?_⟩
    obtain rfl := List.mem_singleton.mp hev
    exact fun _ _ => nofun
  | commit k call hk hp hi hm =>
    refine Or.inr (Or.inl ⟨call, ?_, commit_progress h.node store call⟩)
    simpa [committing, Input.clientStep, hk, hp, hm] using List.getElem?_eq_none_iff.mp hi
  | failure k call id r term hk hp hr ht call' hc => exact Or.inl (hstill (RaftNode.retreat_progress _ _) rfl)
  | chunkReply k call t id r hk hp call' hc => exact Or.inl (hstill (Transfer.reply_progress t s.node call.i r) rfl)
  | receive req r hr =>
    cases req with
    | requestVote m =>
      obtain rfl := Option.some.inj hr
      exact Or.inl (s.node.handleRequestVote_progress store m)
    | appendEntries m =>
      obtain rfl := Option.some.inj hr
      rcases s.node.handleAppendEntries_progress store m with hst | ⟨hacc, hlt, k, rfl, hc⟩
      · exact Or.inl hst
      · exact Or.inr (Or.inr (Or.inl ⟨m, rfl, hacc, hlt, hc⟩))
    | installSnapshot m =>
      have hnil := handleInstallSnapshot_events hr
      rcases RaftNode.handleInstallSnapshot_progress hr with heq | ⟨ht, snap, hsnap, hdumps, heq⟩
      · exact Or.inl ⟨heq, fun ev hev => by rw [hnil] at hev; cases hev⟩
      · exact Or.inr (Or.inr (Or.inr (Or.inl ⟨m, rfl, ht, snap, hsnap, hdumps, hnil, heq⟩)))
  | snapshotNow hl => exact Or.inl (hstill (s.node.createSnapshot_progress store) rfl)
  | restart n store' hr => exact Or.inr (Or.inr (Or.inr (Or.inr rfl)))
  | _ => exact Or.inl ⟨rfl, fun ev hev => nomatch hev⟩

end Site

end RaftStore
