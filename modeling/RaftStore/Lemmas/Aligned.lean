import RaftStore.Lemmas.Append

/-!
# Entries stay in their places

When leaders send what is in their log, followers do not cut their log below what is applied, and images are genuine, every
entry of a cluster stands at its own global index: in the logs, in the messages and under the snapshots.
-/

namespace RaftStore

namespace RaftNode

variable {n n' : RaftNode}

/-! ## Nodes -/

/-- Being aligned is a matter of the log, the snapshot, what is applied and what the peers are sent next. -/
theorem Aligned.congr (h : n.Aligned) (hl : n'.log = n.log) (hs : n'.latestSnapshot = n.latestSnapshot)
    (ha : n'.lastApplied = n.lastApplied) (hn : ∀ i ∈ n'.nextIndex, 0 ≤ i) : n'.Aligned := by
  have hf : n'.full = n.full := by rw [full, full, covered, covered, hl, hs]
  have hb : n'.baseIndex = n.baseIndex := by rw [baseIndex, baseIndex, hs]
  constructor
  · rw [hs]
    exact h.genuine
  · rw [hf]
    exact h.placed
  · rw [ha]
    exact h.applied_nonneg
  · rw [ha, hb]
    exact h.applied_base
  · rw [ha, hf]
    exact h.applied_lt
  · exact hn

/-- Another log over the same snapshot, long enough for what is applied. -/
theorem Aligned.withLog (h : n.Aligned) (log : List LogEntry) (hp : Placed 0 (n.covered ++ log))
    (ha : n.lastApplied = 0 ∨ n.lastApplied < (n.covered ++ log).length) :
    ({ n with log := log } : RaftNode).persistMetadata.Aligned :=
  ⟨h.genuine, hp, h.applied_nonneg, h.applied_base, ha, h.nextIndex⟩

/-- More entries of the log are applied. -/
theorem Aligned.withApplied (h : n.Aligned) {k : ℤ} (hk : k < n.full.length ∨ k ≤ n.lastApplied) (commitIndex : ℤ) :
    ({ n with lastApplied := max n.lastApplied k, commitIndex := commitIndex } : RaftNode).Aligned := by
  have h0 := h.applied_nonneg
  have hb := h.applied_base
  have hl := h.applied_lt
  refine ⟨h.genuine, h.placed, ?_, ?_, ?_, h.nextIndex⟩
  · show 0 ≤ max n.lastApplied k
    omega
  · show n.baseIndex ≤ max n.lastApplied k + 1
    omega
  · show max n.lastApplied k = 0 ∨ max n.lastApplied k < n.full.length
    omega

theorem Aligned.createSnapshot (h : n.Aligned) (store : KVStore) (hne : n.full ≠ []) :
    (n.createSnapshot store).1.Aligned := by
  have hf := createSnapshot_full h store hne
  have hl := h.applied_lt
  have h0 := h.applied_nonneg
  rw [createSnapshot_eq h store hne] at hf ⊢
  refine ⟨?_, ?_, h0, le_rfl, ?_, ?_⟩
  · intro s hs
    obtain rfl := Option.some.inj hs
    exact newSnapshot_genuine h store hne
  · rw [hf]
    exact h.placed
  · rw [hf]
    exact hl
  · intro i hi
    obtain ⟨j, hj, rfl⟩ := List.mem_map.mp hi
    have := h.nextIndex j hj
    split <;> omega

theorem full_ne_nil (hl : n.log ≠ []) : n.full ≠ [] := by
  rw [full, ne_eq, List.append_eq_nil_iff]
  exact fun h => hl h.2

theorem Aligned.snapshotAtThreshold (h : n.Aligned) (store : KVStore) : (n.snapshotAtThreshold store).1.Aligned := by
  unfold RaftNode.snapshotAtThreshold
  split
  · next ht =>
    refine h.createSnapshot store (full_ne_nil ?_)
    rintro hnil
    simp [hnil, snapshotThreshold] at ht
  · exact h

/-- Committed entries up to an index of the log are applied. -/
theorem Aligned.applyCommitted (h : n.Aligned) (store : KVStore)
    (hk : n.commitIndex < n.full.length ∨ n.commitIndex ≤ n.lastApplied) : (n.applyCommitted store).node.Aligned := by
  rw [applyCommitted_node]
  exact h.withApplied hk n.commitIndex

theorem Aligned.advanceCommit (h : n.Aligned) (store : KVStore) (leaderCommit : ℤ) :
    (n.advanceCommit store leaderCommit).1.Aligned := by
  have hs := h.getLogSize_eq
  have h' : (n.setCommitIndex (min leaderCommit (n.getLogSize - 1))).Aligned := h.congr rfl rfl rfl h.nextIndex
  refine (h'.applyCommitted store (Or.inl ?_)).snapshotAtThreshold _
  show min leaderCommit (n.getLogSize - 1) < n.full.length
  omega

/-- A leader appends an entry at the end of its log. -/
theorem Aligned.append (h : n.Aligned) {e : LogEntry} (hi : e.index = n.getLogSize) (ht : 1 ≤ e.term) :
    (n.appendLogEntry e).Aligned := by
  have hfull : (n.appendLogEntry e).full = n.full ++ [e] := (List.append_assoc _ _ _).symm
  have hl := h.applied_lt
  refine ⟨h.genuine, ?_, h.applied_nonneg, h.applied_base, ?_, h.nextIndex⟩
  · rw [hfull]
    refine h.placed.append (Placed.singleton ?_ ht)
    rw [hi, h.getLogSize_eq, Nat.zero_add]
  · rw [hfull, List.length_append, List.length_singleton]
    show n.lastApplied = 0 ∨ n.lastApplied < _
    push_cast
    omega

/-- The log of an accepted message is taken over. -/
theorem Aligned.acceptEntries (h : n.Aligned) {m : AppendEntriesRPC} {p : ℕ} (hprev : m.prevLogIndex + 1 = p)
    (hm : Placed p m.entries)
    (hk : n.prevMatches m = true → n.firstMatches m = some false → n.lastApplied ≤ m.reach) :
    (n.acceptEntries m).Aligned := by
  unfold RaftNode.acceptEntries
  split
  · next hc =>
    obtain ⟨hle, _⟩ := h.prevMatches_place hprev hc
    obtain ⟨log, hlog⟩ := n.insertEntries_eq m
    have hplaced {l : List LogEntry} (hl : l <+: n.full) (hp : l.length = p) : Placed 0 (l ++ m.entries) :=
      (h.placed.piece hl).append (by rw [Nat.zero_add, hp]; exact hm)
    have happ := h.applied_lt
    cases hf : n.firstMatches m with
    | none =>
      have hfull := h.insertEntries_join hm hle hf
      rw [hlog] at hfull ⊢
      have hfull' : n.covered ++ log = n.full ++ m.entries.drop (n.full.length - p) := hfull
      refine h.withLog log ?_ ?_
      · rw [hfull']
        refine h.placed.append ?_
        have := hm.drop (n.full.length - p)
        rwa [show p + (n.full.length - p) = 0 + n.full.length by omega] at this
      · rw [hfull', List.length_append]
        push_cast
        omega
    | some b =>
      cases b with
      | true =>
        rw [Aligned.insertEntries_skip hf]
        exact h.congr rfl rfl rfl h.nextIndex
      | false =>
        have hfull := h.insertEntries_conflict hprev hm hf
        have hreach := hk hc hf
        have hlen : (n.full.take p).length = p := by
          rw [List.length_take]
          omega
        rw [hlog] at hfull ⊢
        have hfull' : n.covered ++ log = n.full.take p ++ m.entries := hfull
        refine h.withLog log ?_ ?_
        · rw [hfull']
          exact hplaced (List.take_prefix _ _) hlen
        · obtain ⟨e, f, hhead, _, _⟩ := Aligned.firstMatches_eq hf
          have hpos : 0 < m.entries.length := List.length_pos_iff.mpr (by rintro hnil; simp [hnil] at hhead)
          rw [hfull', List.length_append, hlen]
          unfold AppendEntriesRPC.reach at hreach
          push_cast
          omega
  · exact h.congr rfl rfl rfl h.nextIndex

/-- A snapshot that covers a piece of a log takes the place of the log. -/
theorem Aligned.installSnapshot (h : n.Aligned) (store : KVStore) {snap : Snapshot} (hs : snap.Genuine) :
    (n.installSnapshot store snap).1.Aligned := by
  have hfull : (n.installSnapshot store snap).1.full = snap.covered := List.append_nil _
  have hlen := hs.length
  refine ⟨?_, ?_, hs.index_nonneg, le_rfl, ?_, h.nextIndex⟩
  · intro s he
    obtain rfl := Option.some.inj he
    exact hs
  · rw [hfull]
    exact hs.placed
  · rw [hfull]
    right
    show snap.lastIncludedIndex < _
    omega

/-- A node that is started again has a piece of the log it had. -/
theorem Aligned.restart (h : n.Aligned) (hn : n.Sound) {store store' : KVStore} (hr : n.restart store = some (n', store')) :
    n'.Aligned := by
  obtain ⟨_, rfl⟩ := hn.restart_eq hr
  have hp : n.covered ++ n.saved.logEntries <+: n.full := (List.prefix_append_right_inj _).mpr hn.saved_prefix
  have hc := h.covered_length
  have hbase : n.baseIndex = 0 ∧ n.lastIncluded = 0 ∨ n.baseIndex = n.lastIncluded + 1 ∧ 0 ≤ n.lastIncluded := by
    unfold baseIndex lastIncluded
    cases hs : n.latestSnapshot with
    | none => exact Or.inl ⟨rfl, rfl⟩
    | some s => exact Or.inr ⟨rfl, (h.genuine s hs).index_nonneg⟩
  refine ⟨h.genuine, h.placed.piece hp, ?_, ?_, ?_, ?_⟩
  · show 0 ≤ n.lastIncluded
    omega
  · show n.baseIndex ≤ n.lastIncluded + 1
    omega
  · show n.lastIncluded = 0 ∨ n.lastIncluded < (n.covered ++ n.saved.logEntries).length
    rw [List.length_append]
    push_cast
    omega
  · intro i hi
    obtain ⟨_, _, rfl⟩ := List.mem_map.mp hi
    exact le_rfl

theorem Aligned.retreat (h : n.Aligned) (i : ℕ) : (n.retreat i).Aligned := by
  unfold RaftNode.retreat
  split
  · refine h.congr rfl rfl rfl (fun j hj => ?_)
    rcases List.mem_or_eq_of_mem_set hj with hj | rfl
    · exact h.nextIndex j hj
    · omega
  · exact h

/-- One index of `nextIndex` is set. -/
theorem Aligned.setNext (h : n.Aligned) (i : ℕ) {k : ℤ} (hk : 0 ≤ k) (matchIndex : List ℤ) :
    ({ n with nextIndex := n.nextIndex.set i k, matchIndex := matchIndex } : RaftNode).Aligned := by
  refine h.congr rfl rfl rfl (fun j hj => ?_)
  rcases List.mem_or_eq_of_mem_set hj with hj | rfl
  · exact h.nextIndex j hj
  · exact hk

theorem Aligned.transferReply (h : n.Aligned) {t : Transfer} (ht : t.snap.Genuine) (i : ℕ) (r : Option Reply) :
    (t.reply n i r).1.Aligned := by
  have := ht.index_nonneg
  unfold Transfer.reply
  split
  · exact h
  · split
    · simp only
      split
      · exact h.setNext i (by omega) _
      · exact h
    · exact h

/-! ## What a step down leaves -/

/-- Becoming a follower changes the role and the metadata file. -/
theorem becomeFollower_shape (n : RaftNode) (t : ℤ) : ∃ (term : ℤ) (state : NodeState) (vote : ℤ) (b : Bool) (d : Disk),
    n.becomeFollower t = { n with
      currentTerm := term, state := state, votedFor := vote, runningHeartbeats := b, disk := d } := by
  unfold becomeFollower
  split
  · exact ⟨n.currentTerm, n.state, n.votedFor, n.runningHeartbeats, n.disk, rfl⟩
  · exact ⟨_, _, _, _, _, rfl⟩

/-- Seeing a term changes the role and the metadata file. -/
theorem seeTerm_shape (n : RaftNode) (t : ℤ) : ∃ (term : ℤ) (state : NodeState) (vote : ℤ) (b : Bool) (d : Disk),
    n.seeTerm t = { n with
      currentTerm := term, state := state, votedFor := vote, runningHeartbeats := b, disk := d } := by
  unfold seeTerm
  split
  · exact n.becomeFollower_shape t
  · exact ⟨n.currentTerm, n.state, n.votedFor, n.runningHeartbeats, n.disk, rfl⟩

/-- Stepping down changes the role, the metadata file and the leader that is noted. -/
theorem stepDown_shape (n : RaftNode) (m : AppendEntriesRPC) :
    ∃ (term : ℤ) (state : NodeState) (vote : ℤ) (b : Bool) (d : Disk), n.stepDown m = { n with
      currentTerm := term, state := state, votedFor := vote, runningHeartbeats := b, disk := d, leaderId := m.leaderId } := by
  unfold stepDown
  split
  · obtain ⟨term, state, vote, b, d, heq⟩ := n.becomeFollower_shape m.term
    exact ⟨term, state, vote, b, d, by rw [heq]⟩
  · exact ⟨n.currentTerm, n.state, n.votedFor, n.runningHeartbeats, n.disk, rfl⟩

theorem Aligned.seeTerm (h : n.Aligned) (t : ℤ) : (n.seeTerm t).Aligned := by
  obtain ⟨_, _, _, _, _, heq⟩ := n.seeTerm_shape t
  rw [heq]
  exact h.congr rfl rfl rfl h.nextIndex

theorem Aligned.stepDown (h : n.Aligned) (m : AppendEntriesRPC) : (n.stepDown m).Aligned := by
  obtain ⟨_, _, _, _, _, heq⟩ := n.stepDown_shape m
  rw [heq]
  exact h.congr rfl rfl rfl h.nextIndex

/-- The checks of the AppendEntries handler come out the same after the step down. -/
theorem stepDown_checks (n : RaftNode) (m : AppendEntriesRPC) : (n.stepDown m).prevMatches m = n.prevMatches m ∧
    (n.stepDown m).firstMatches m = n.firstMatches m ∧ (n.stepDown m).lastApplied = n.lastApplied := by
  obtain ⟨_, _, _, _, _, heq⟩ := n.stepDown_shape m
  rw [heq]
  exact ⟨rfl, rfl, rfl⟩

/-- The snapshot that is installed is the one the condition on images speaks of. -/
theorem assembled_eq {m : InstallSnapshotRPC} {buffer : Str} {snap : Snapshot} (hd : m.done = true)
    (hs : deserializeSnapshot buffer = some snap)
    (hw : writeChunk (if m.offset = 0 then [] else (n.seeTerm m.term).snapshotBuffer) m.offset (chunkOf m) =
      .written buffer) : n.assembled m = some snap := by
  obtain ⟨_, _, _, _, _, heq⟩ := n.seeTerm_shape m.term
  rw [heq] at hw
  have hw' : writeChunk (if m.offset = 0 then [] else n.snapshotBuffer) m.offset (chunkOf m) = .written buffer := hw
  rw [assembled, if_pos hd, hw']
  exact hs

end RaftNode

/-! ## Messages and threads -/

/-- The message names an index, and the term 0 for it: no entry has that term, and nobody takes the message over. -/
def AppendEntriesRPC.Vain (m : AppendEntriesRPC) : Prop := 0 ≤ m.prevLogIndex ∧ m.prevLogTerm = 0

/-- The entries that a message brings stand in their places, or nobody takes them over. -/
def Request.Aligned : Request → Prop
  | .requestVote _ => True
  | .appendEntries m => m.Vain ∨ ∃ p : ℕ, m.prevLogIndex + 1 = p ∧ Placed p m.entries
  | .installSnapshot m => Covers m.covered m.lastIncludedIndex m.lastIncludedTerm

def HeartbeatPhase.Aligned : HeartbeatPhase → Prop
  | .append _ nextIdx _ _ => 0 ≤ nextIdx
  | .chunk _ t => t.snap.Genuine
  | .chunkReply _ t _ => t.snap.Genuine
  | _ => True

def CallPhase.Aligned : CallPhase → Prop
  | .chunk t => t.snap.Genuine
  | .chunkReply t _ => t.snap.Genuine
  | _ => True

def ClientCall.Aligned (call : ClientCall) : Prop := 0 ≤ call.newIndex ∧ 1 ≤ call.entry.term ∧ call.phase.Aligned

/-- The log of the node and what its threads are about to send stand in their places. -/
structure Site.Aligned (s : Site) : Prop where
  node : s.node.Aligned
  heartbeat : ∀ hb, s.heartbeat = some hb → hb.phase.Aligned
  client : ∀ call ∈ s.clients, call.Aligned

namespace RaftNode

variable {n : RaftNode}

theorem Aligned.nextIndex_getD (h : n.Aligned) (i : ℕ) : 0 ≤ n.nextIndex.getD i 0 := by
  rw [List.getD_eq_getElem?_getD]
  cases hi : n.nextIndex[i]? with
  | none => exact le_rfl
  | some k => exact h.nextIndex k (List.mem_of_getElem? hi)

/-- A peer that needs no snapshot is sent entries above it. -/
theorem Aligned.baseIndex_le_next (h : n.Aligned) {i : ℕ} (hn : n.neededSnapshot i = none) :
    n.baseIndex ≤ n.nextIndex.getD i 0 := by
  have h0 := h.nextIndex_getD i
  unfold neededSnapshot at hn
  unfold baseIndex
  split
  · next s hs =>
    rw [hs, Option.filter_eq_none_iff] at hn
    have := hn s rfl
    simp only [decide_eq_true_eq] at this
    omega
  · exact h0

/-- Without a snapshot a peer may be sent the log from any index on. -/
theorem Aligned.baseIndex_le_of_none (h : n.Aligned) {i : ℕ} (hs : n.latestSnapshot = none) : n.baseIndex ≤ n.nextIndex.getD i 0 := by
  have h0 := h.nextIndex_getD i
  unfold baseIndex
  rw [hs]
  exact h0

/-- The snapshot that a peer needs is that of the node. -/
theorem neededSnapshot_eq {i : ℕ} {s : Snapshot} (hn : n.neededSnapshot i = some s) : n.latestSnapshot = some s :=
  (Option.filter_eq_some_iff.mp hn).1

/-- An index under the snapshot, but for its last one, has no term. -/
theorem getLogTerm_below {i : ℤ} (h : i + 1 < n.baseIndex) (h0 : 0 ≤ i) : n.getLogTerm i = 0 := by
  unfold baseIndex at h
  unfold getLogTerm
  cases hs : n.latestSnapshot with
  | none =>
    simp only [hs] at h
    omega
  | some s =>
    simp only [hs] at h ⊢
    rw [if_pos (by omega), if_neg (by omega)]

/-- What is sent from under the snapshot, but not from the first index on, nobody takes over. -/
theorem appendRequest_vain {a : ℤ} (ha : 1 ≤ a) (hb : a < n.baseIndex) (es : List LogEntry) : (n.appendRequest a es).Vain :=
  ⟨by show 0 ≤ a - 1; omega, getLogTerm_below (by omega) (by omega)⟩

/-- A vain message does not pass the check. -/
theorem Aligned.prevMatches_vain (h : n.Aligned) {m : AppendEntriesRPC} (hv : m.Vain) : n.prevMatches m = false := by
  rw [Bool.eq_false_iff]
  intro hp
  obtain ⟨_, e, he, ht⟩ := h.prevMatches_full hv.1 hp
  have hterm := (h.placed _ e he).2
  rw [ht, hv.2] at hterm
  omega

/-- Nothing of a vain message is taken over. -/
theorem Aligned.acceptEntries_vain (h : n.Aligned) {m : AppendEntriesRPC} (hv : m.Vain) : (n.acceptEntries m).Aligned := by
  unfold RaftNode.acceptEntries
  rw [if_neg (by simp [h.prevMatches_vain hv])]
  exact h.congr rfl rfl rfl h.nextIndex

/-- A message with a piece of the log above the snapshot, or from under it. -/
theorem Aligned.appendRequest (h : n.Aligned) {a b : ℤ} (ha : 0 ≤ a) (hb : a ≤ 0 → n.baseIndex ≤ a) :
    (Request.appendEntries (n.appendRequest a (n.getLogEntries a b))).Aligned := by
  by_cases hlow : a < n.baseIndex
  · exact .inl (appendRequest_vain (by omega) hlow _)
  refine .inr ⟨a.toNat, ?_, ?_⟩
  · show a - 1 + 1 = _
    omega
  · show Placed a.toNat (n.getLogEntries a b)
    rw [h.getLogEntries_eq (not_lt.mp hlow)]
    have := (h.placed.piece (List.take_prefix b.toNat _)).drop a.toNat
    rwa [Nat.zero_add] at this

/-- Every handler keeps the node aligned. -/
theorem Aligned.handle (h : n.Aligned) {store : KVStore} {req : Request} {r : Handled} (hreq : req.Aligned)
    (hk : ∀ m, req = .appendEntries m → n.accepts m → n.firstMatches m = some false → n.lastApplied ≤ m.reach)
    (hi : ∀ m, req = .installSnapshot m → n.currentTerm ≤ m.term → ∀ snap, n.assembled m = some snap → snap.dumps = true →
      snap.lastIncludedIndex = m.lastIncludedIndex ∧ snap.lastIncludedTerm = m.lastIncludedTerm)
    (hr : n.handle store req = some r) : r.node.Aligned := by
  cases req with
  | requestVote m =>
    obtain rfl := Option.some.inj hr
    have hs := h.seeTerm m.term
    unfold handleRequestVote
    simp only
    split
    · exact h
    · split
      · exact hs.congr rfl rfl rfl hs.nextIndex
      · exact hs
  | appendEntries m =>
    obtain rfl := Option.some.inj hr
    obtain ⟨hprev, hfirst, happ⟩ := n.stepDown_checks m
    have hacc (ht : n.currentTerm ≤ m.term) : ((n.stepDown m).acceptEntries m).Aligned := by
      rcases hreq with hv | ⟨p, hp, hm⟩
      · exact (h.stepDown m).acceptEntries_vain hv
      · refine (h.stepDown m).acceptEntries hp hm (fun hpm hf => ?_)
        rw [happ]
        exact hk m rfl ⟨ht, hprev ▸ hpm⟩ (hfirst ▸ hf)
    rcases n.handleAppendEntries_node store m with heq | ⟨ht, heq | heq⟩
    · rw [heq]
      exact h
    · rw [heq]
      exact hacc ht
    · rw [heq]
      exact (hacc ht).advanceCommit store _
  | installSnapshot m =>
    have hs (b : Str) : ((n.seeTerm m.term).setBuffer b).Aligned :=
      (h.seeTerm m.term).congr rfl rfl rfl (h.seeTerm m.term).nextIndex
    rcases handleInstallSnapshot_node hr with heq | ⟨ht, b, heq | heq | ⟨hd, snap, hsnap, hdumps, hw, heq⟩⟩
    · rw [heq]
      exact h
    · rw [heq]
      exact hs b
    · rw [heq]
      exact (hs b).congr rfl rfl rfl (hs b).nextIndex
    · obtain ⟨hidx, hterm⟩ := hi m rfl ht snap (assembled_eq hd hsnap hw) hdumps
      have hg : ({ snap with covered := m.covered } : Snapshot).Genuine := by
        show Covers m.covered snap.lastIncludedIndex snap.lastIncludedTerm
        rw [hidx, hterm]
        exact hreq
      rw [heq]
      exact (hs b).installSnapshot store hg

/-- The commit section of a client command keeps the node aligned. -/
theorem Aligned.commit (h : n.Aligned) (hn : n.Sound) (store : KVStore) {call : ClientCall}
    (ht : call.entry.term ≤ n.currentTerm) (hcall : call.Aligned) (hm : Site.mayCommit n call) :
    (Site.commit n store call).1.Aligned := by
  have hn' : (n.setCommitIndex call.newIndex).Sound := hn.congr rfl rfl rfl rfl
  have h' : (n.setCommitIndex call.newIndex).Aligned := h.congr rfl rfl rfl h.nextIndex
  obtain ⟨_, hb, e, he, _⟩ := h.getLogTerm_ne (i := call.newIndex) (by have := hm.1; have := hcall.2.1; omega)
  have hlt := (List.getElem?_eq_some_iff.mp he).1
  have hs := (h'.applyCommitted store (Or.inl (by show call.newIndex < n.full.length; omega))).snapshotAtThreshold
    ((n.setCommitIndex call.newIndex).applyCommitted store).store
  unfold Site.commit
  simp only [hn'.applyWhileUp_eq]
  exact hs.congr rfl rfl rfl hs.nextIndex

end RaftNode

namespace Site

variable {size next : ℕ} {s : Site} {store : KVStore} {i : Input} {o : Outcome}

/-- A promoted node will send its peers what comes after its log. -/
theorem promoted_aligned {n : RaftNode} (h : n.Aligned) : (promoted n).Aligned := by
  refine h.congr rfl rfl rfl (fun j hj => ?_)
  obtain ⟨_, _, rfl⟩ := List.mem_map.mp hj
  have := h.getLogSize_eq
  omega

theorem heartbeatAnswered_aligned {n : RaftNode} (h : n.Aligned) (i : ℕ) {nextIdx : ℤ} (hnext : 0 ≤ nextIdx) (count : ℕ)
    (success : Bool) : (heartbeatAnswered n i nextIdx count success).Aligned := by
  unfold heartbeatAnswered
  split
  · exact h.setNext i (by omega) _
  · split
    · exact h.retreat i
    · exact h

/-- The heartbeat thread is started on an aligned node. -/
theorem Aligned.startHeartbeats (h : s.Aligned) {n : RaftNode} (ha : n.Aligned) : (s.startHeartbeats n).Aligned := by
  refine ⟨ha.congr rfl rfl rfl ha.nextIndex, fun hb hhb => ?_, h.client⟩
  simp only [Site.startHeartbeats] at hhb
  split at hhb
  · exact h.heartbeat hb hhb
  · obtain rfl := Option.some.inj hhb
    trivial

theorem Aligned.elected (h : s.Aligned) (el : Election) : (s.elected el).Aligned := by
  have hpromoted := promoted_aligned h.node
  unfold Site.elected
  split
  · exact ⟨hpromoted.congr rfl rfl rfl hpromoted.nextIndex, h.heartbeat, h.client⟩
  · exact h.startHeartbeats hpromoted

/-- The heartbeat thread goes on. -/
theorem Aligned.heartbeatAt (h : s.Aligned) {n : RaftNode} (ha : n.Aligned) (hb : Heartbeat) (p : HeartbeatPhase)
    (hp : p.Aligned) : ({ s with node := n }.heartbeatAt hb p).Aligned := by
  refine ⟨ha, fun hb' hhb => ?_, h.client⟩
  obtain rfl := Option.some.inj hhb
  exact hp

/-- A client command goes on. -/
theorem Aligned.clientAt (h : s.Aligned) {n : RaftNode} (ha : n.Aligned) (k : ℕ) (call : ClientCall) (hc : call.Aligned) :
    ({ s with node := n }.clientAt k call).Aligned := by
  refine ⟨ha, h.heartbeat, fun c hmem => ?_⟩
  rcases List.mem_or_eq_of_mem_set hmem with hmem | rfl
  · exact h.client c hmem
  · exact hc

theorem nextPeer_aligned {call : ClientCall} (h : call.Aligned) : (nextPeer call).Aligned := ⟨h.1, h.2.1, trivial⟩

theorem Aligned.appendEntry (h : s.Aligned) {req : ClientRequest} (hterm : 1 ≤ s.node.currentTerm) :
    (s.appendEntry req).Aligned := by
  refine ⟨h.node.append rfl hterm, h.heartbeat, fun c hmem => ?_⟩
  rcases List.mem_append.mp hmem with hmem | hmem
  · exact h.client c hmem
  · obtain rfl := List.mem_singleton.mp hmem
    have hsize := h.node.getLogSize_eq
    exact ⟨by show 0 ≤ s.node.getLogSize; omega, hterm, trivial⟩

/-- A message on its way out brings entries in their places. -/
def SendsAligned (o : Outcome) : Prop := ∀ x, o.send = some x → x.req.Aligned

/-- Every step that aligns keeps a site aligned. -/
theorem Aligned.step (h : s.Aligned) (hs : s.Sound) (hst : Step size next s store i o) (hal : aligns s i)
    (hreq : ∀ req, i = .receive req → req.Aligned) : o.site.Aligned ∧ SendsAligned o := by
  have hn := h.node
  have hnone {o : Outcome} (ho : o.send = none) : SendsAligned o := fun x hx => by cases ho.symm.trans hx
  have hnode (n : RaftNode) (ha : n.Aligned) (el : Option Election) : Site.Aligned { s with node := n, election := el } :=
    ⟨ha, h.heartbeat, h.client⟩
  have hcall (k : ℕ) (call : ClientCall) (hk : s.clients[k]? = some call) : call.Aligned :=
    h.client call (List.mem_of_getElem? hk)
  have hfollow (t : ℤ) : (s.node.followReply t).Aligned := hn.congr rfl rfl rfl hn.nextIndex
  cases hst with
  | startElection he hl => exact ⟨hnode (candidacy s.node) (hn.congr rfl rfl rfl hn.nextIndex) _, hnone rfl⟩
  | join el he hp hh => exact ⟨h.startHeartbeats (hn.congr rfl rfl rfl hn.nextIndex), hnone rfl⟩
  | ask el p rest he hp hr =>
    refine ⟨hnode _ hn _, fun x hx => ?_⟩
    obtain rfl := Option.some.inj hx
    trivial
  | win el he hp hr hv => exact ⟨h.elected el, hnone rfl⟩
  | lose el he hp hr hv => exact ⟨hnode _ hn _, hnone rfl⟩
  | noVote el call r he hp hr => exact ⟨hnode _ hn _, hnone rfl⟩
  | voteLater el call r term g he hp hr ht => exact ⟨hnode _ (hfollow term) _, hnone rfl⟩
  | vote el call r term g he hp hr ht => exact ⟨hnode _ hn _, hnone rfl⟩
  | round hb hh hp hl => exact ⟨h.heartbeatAt hn hb (.peer 0) trivial, hnone rfl⟩
  | endHeartbeats hb hh hp => exact ⟨⟨hn, nofun, h.client⟩, hnone rfl⟩
  | endRound hb j hh hp => exact ⟨h.heartbeatAt hn hb .top trivial, hnone rfl⟩
  | needSnapshot hb j snapshot hh hp hns =>
    have ht : (Transfer.start snapshot).snap.Genuine := hn.genuine _ (RaftNode.neededSnapshot_eq hns)
    exact ⟨h.heartbeatAt hn hb (.chunk j (Transfer.start snapshot)) ht, hnone rfl⟩
  | sendHeartbeat hb j p hh hp hrun hi hns entries hes =>
    refine ⟨h.heartbeatAt hn hb (.append j _ _ _) (hn.nextIndex_getD j), fun x hx => ?_⟩
    obtain rfl := Option.some.inj hx
    rw [hes]
    exact hn.appendRequest (hn.nextIndex_getD j) fun _ => hn.baseIndex_le_next hns
  | sendHeartbeatChunk hb j t p hh hp hi =>
    have ht : t.snap.Genuine := by
      have := h.heartbeat hb hh
      rwa [hp] at this
    refine ⟨h.heartbeatAt hn hb (.chunkReply j t next) ht, fun x hx => ?_⟩
    obtain rfl := Option.some.inj hx
    exact ht
  | heartbeatStopped hb j nextIdx count call r hh hp => exact ⟨h.heartbeatAt hn hb .top trivial, hnone rfl⟩
  | heartbeatLost hb j nextIdx count call r hh hp hr =>
    exact ⟨h.heartbeatAt hn hb (.peer (j + 1)) trivial, hnone rfl⟩
  | heartbeatLater hb j nextIdx count call r term success hh hp hr ht =>
    exact ⟨⟨hn.congr rfl rfl rfl hn.nextIndex, nofun, h.client⟩, hnone rfl⟩
  | heartbeatReply hb j nextIdx count call r term success hh hp hr ht =>
    have hnext : 0 ≤ nextIdx := by
      have := h.heartbeat hb hh
      rwa [hp] at this
    have hanswered := heartbeatAnswered_aligned hn j hnext count success
    exact ⟨h.heartbeatAt hanswered hb (.peer (j + 1)) trivial, hnone rfl⟩
  | heartbeatChunkReply hb j t call r hh hp phase hph =>
    have ht : t.snap.Genuine := by
      have := h.heartbeat hb hh
      rwa [hp] at this
    refine ⟨h.heartbeatAt (hn.transferReply ht j r) hb _ ?_, hnone rfl⟩
    rw [hph]
    split
    · next t' ht' =>
      show t'.snap.Genuine
      rw [Transfer.reply_snap ht']
      exact ht
    · trivial
  | refuse req hl => exact ⟨h, hnone rfl⟩
  | cached req result hl hc => exact ⟨h, hnone rfl⟩
  | append req hl hc => exact ⟨h.appendEntry (hs.state_term (by rw [hl]; decide)), hnone rfl⟩
  | send k call p hk hp hi =>
    obtain ⟨h1, h2, _⟩ := hcall k call hk
    have hlt := (List.getElem?_eq_some_iff.mp hi).1
    have hfirst := hal.1 k rfl call hk (by simp [clientSends, hp, hlt])
    refine ⟨h.clientAt hn k { call with phase := .append next } ⟨h1, h2, trivial⟩, fun x hx => ?_⟩
    obtain rfl := Option.some.inj hx
    exact hn.appendRequest (hn.nextIndex_getD _) fun h0 => hn.baseIndex_le_of_none (hfirst h0)
  | commit k call hk hp hi hm =>
    have hc := hcall k call hk
    have hcommit := hn.commit hs.node store (hs.client call (List.mem_of_getElem? hk)).1 hc hm
    exact ⟨h.clientAt hcommit k { call with phase := .done _ } ⟨hc.1, hc.2.1, trivial⟩, hnone rfl⟩
  | notCommitted k call hk hp hi hm =>
    have hc := hcall k call hk
    exact ⟨h.clientAt hn k { call with phase := .done _ } ⟨hc.1, hc.2.1, trivial⟩, hnone rfl⟩
  | sendChunk k call t p hk hp hi =>
    obtain ⟨h1, h2, ht⟩ := hcall k call hk
    rw [hp] at ht
    refine ⟨h.clientAt hn k { call with phase := .chunkReply t next } ⟨h1, h2, ht⟩, fun x hx => ?_⟩
    obtain rfl := Option.some.inj hx
    exact ht
  | lost k call id r hk hp hr => exact ⟨h.clientAt hn k _ (nextPeer_aligned (hcall k call hk)), hnone rfl⟩
  | later k call id r term success hk hp hr ht =>
    have hc := hcall k call hk
    exact ⟨h.clientAt (hfollow term) k { call with phase := .done _ } ⟨hc.1, hc.2.1, trivial⟩, hnone rfl⟩
  | success k call id r term hk hp hr ht =>
    have hc := hcall k call hk
    have hanswered : (clientAnswered s.node call).Aligned := hn.setNext call.i (by have := hc.1; omega) _
    exact ⟨h.clientAt hanswered k (nextPeer { call with successCount := call.successCount + 1 })
      ⟨hc.1, hc.2.1, trivial⟩, hnone rfl⟩
  | failure k call id r term hk hp hr ht call' hc' =>
    have hc := hcall k call hk
    refine ⟨h.clientAt (hn.retreat call.i) k _ ?_, hnone rfl⟩
    rw [hc']
    split
    · next snapshot hsn =>
      exact ⟨hc.1, hc.2.1, (hn.retreat call.i).genuine _ (RaftNode.neededSnapshot_eq hsn)⟩
    · exact nextPeer_aligned hc
  | chunkReply k call t id r hk hp call' hc' =>
    have hc := hcall k call hk
    have ht : t.snap.Genuine := by
      have := hc.2.2
      rwa [hp] at this
    refine ⟨h.clientAt (hn.transferReply ht call.i r) k _ ?_, hnone rfl⟩
    rw [hc']
    split
    · next t' ht' =>
      refine ⟨hc.1, hc.2.1, ?_⟩
      show t'.snap.Genuine
      rw [Transfer.reply_snap ht']
      exact ht
    · exact nextPeer_aligned hc
  | receive req r hr =>
    refine ⟨hnode r.node (hn.handle (hreq req rfl) ?_ ?_ hr) _, hnone rfl⟩
    · rintro m rfl hacc hf
      exact hal.2.1 m rfl hacc hf
    · rintro m rfl ht snap hsnap hdumps
      exact hal.2.2 m rfl ht snap hsnap hdumps
  | snapshotNow hl => exact ⟨hnode _ (hn.createSnapshot store (RaftNode.full_ne_nil hl)) _, hnone rfl⟩
  | restart n store' hr =>
    exact ⟨⟨hn.restart hs.node hr, nofun, fun c hmem => absurd hmem List.not_mem_nil⟩, hnone rfl⟩

end Site

namespace Cluster

variable {N : ℕ}

/-- Every site and every message of the cluster is aligned. -/
structure Aligned (c : Cluster N) : Prop where
  site : ∀ v, (c.sites v).Aligned
  call : ∀ y ∈ c.calls, y.req.Aligned

theorem aligned_init (N : ℕ) : (init N).Aligned where
  site v := by
    refine ⟨⟨nofun, Placed.nil 0, le_rfl, zero_le_one, Or.inl rfl, fun i hi => ?_⟩,
      nofun, fun _ hc => absurd hc List.not_mem_nil⟩
    obtain ⟨_, _, rfl⟩ := List.mem_map.mp hi
    exact le_rfl
  call _ h := absurd h List.not_mem_nil

/-- The messages of the calls in which a reply has been noted. -/
theorem noteReply_aligned {l : List Call} (h : ∀ y ∈ l, y.req.Aligned) (id : ℕ) (resp : Option Reply) :
    ∀ y ∈ noteReply l id resp, y.req.Aligned := by
  intro y hy
  rcases mem_noteReply hy with hy | ⟨y₀, hy₀, rfl⟩
  · exact h y hy
  · exact h y₀ (List.mem_of_getElem? hy₀)

theorem Aligned.siteStep {c c' : Cluster N} {v : Fin N} {i : Input} {o : Outcome} (h : c.Aligned) (hc : c.Sound)
    (hs : SiteStep c c' v i o) (hal : Site.aligns (c.sites v) i) : c'.Aligned := by
  obtain ⟨hsite, hsend⟩ := (h.site v).step (hc.site v) ((hc.site v).step hs.outcome).1 hal (fun req hi => by
    rcases hs.calls with ⟨hno, _⟩ | ⟨_, y, hy, hi', _⟩
    · exact absurd hi (hno req)
    · obtain rfl := Input.receive.inj (hi.symm.trans hi')
      exact h.call y (List.mem_of_getElem? hy))
  have hcalls : ∀ y ∈ c.calls ++ o.calls, y.req.Aligned := by
    intro y hy
    rcases List.mem_append.mp hy with hy | hy
    · exact h.call y hy
    · obtain ⟨x, hx, rfl⟩ := List.mem_map.mp hy
      exact hsend x (Option.mem_toList.mp hx)
  refine ⟨fun u => ?_, ?_⟩
  · rw [hs.site u]
    split
    · exact hsite
    · exact h.site u
  · rcases hs.calls with ⟨_, heq⟩ | ⟨id, _, _, _, _, _, heq⟩ <;> rw [heq]
    · exact hcalls
    · exact noteReply_aligned hcalls id _

/-- Every cluster that a run of steps that align reaches is aligned. -/
theorem Reachable.aligned {c : Cluster N} (h : Reachable (Acts Site.aligns) c) : c.Aligned := by
  induction h with
  | init => exact aligned_init N
  | step hreach hP hstep ih =>
    rcases step_cases hstep with ⟨v, i, o, hi, hs⟩ | ⟨id, y, _, _, _, rfl⟩
    · exact ih.siteStep hreach.sound hs (hP _ hi)
    · exact ⟨ih.site, noteReply_aligned ih.call id _⟩

end Cluster

end RaftStore
