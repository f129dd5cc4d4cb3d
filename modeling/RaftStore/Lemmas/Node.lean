import RaftStore.Lemmas.Log
import RaftStore.Site

/-!
# What the operations of a node leave unchanged

The role of a node is what elections turn on: who it is, its term, its vote and its state. Most operations do not touch it. A
node is *sound* when its files hold its term, its vote and its log, but for what a leader has appended since it last wrote them.
-/

namespace RaftStore

/-- What elections turn on. -/
structure Role where
  id : ℤ
  rpcPort : ℤ
  peerRpcPorts : List ℤ
  shutdownRequested : Bool
  receivingSnapshot : Bool
  state : NodeState
  currentTerm : ℤ
  votedFor : ℤ

namespace RaftNode

/-- The role of a node. -/
def role (n : RaftNode) : Role where
  id := n.id
  rpcPort := n.rpcPort
  peerRpcPorts := n.peerRpcPorts
  shutdownRequested := n.shutdownRequested
  receivingSnapshot := n.receivingSnapshot
  state := n.state
  currentTerm := n.currentTerm
  votedFor := n.votedFor

/-! ## The role is kept -/

@[simp] theorem persistMetadata_role (n : RaftNode) : n.persistMetadata.role = n.role := rfl

@[simp] theorem saveSnapshot_role (n : RaftNode) (s : Snapshot) : (n.saveSnapshot s).role = n.role := rfl

/-- A truncation changes `log` only. -/
theorem truncateLogSafe_shape (n : RaftNode) (i : ℤ) : ∃ log, n.truncateLogSafe i = { n with log := log } := by
  unfold truncateLogSafe
  simp only
  split
  · exact ⟨n.log, rfl⟩
  · split
    · exact ⟨_, rfl⟩
    · exact ⟨n.log, rfl⟩

/-- What the creation of a snapshot changes: the snapshot, the log under it, what the peers are sent next and the two files. -/
theorem createSnapshot_shape (n : RaftNode) (store : KVStore) : ∃ log disk, disk.snapshotFile = .saved (n.newSnapshot store) ∧
    (n.createSnapshot store).1 = { n with
      log := log
      latestSnapshot := some (n.newSnapshot store)
      nextIndex := raiseNextIndex n.lastApplied n.nextIndex
      disk := disk } := by
  obtain ⟨log, heq⟩ := (n.saveSnapshot (n.newSnapshot store)).truncateLogSafe_shape n.lastApplied
  unfold createSnapshot
  simp only
  rw [show (n.newSnapshot store).lastIncludedIndex = n.lastApplied from rfl, heq]
  exact ⟨log, _, rfl, rfl⟩

/-- A snapshot is taken of a log that is not empty, where the dumps accept the strings of the store and of the node. -/
theorem triggerSnapshot_eq_some {n : RaftNode} {store : KVStore} {r : RaftNode × KVStore} :
    n.triggerSnapshot store = some r ↔ (n.log ≠ [] ∧ (n.newSnapshot store).dumps = true ∧
      (n.createSnapshot store).1.dumpsMetadata = true) ∧ n.createSnapshot store = r := by
  unfold triggerSnapshot
  by_cases hlog : n.log = []
  · simp [hlog]
  · rw [if_neg (by simpa using hlog)]
    by_cases hd : (n.newSnapshot store).dumps = true ∧ (n.createSnapshot store).1.dumpsMetadata = true
    · rw [if_pos hd]
      simp [hlog, hd]
    · rw [if_neg hd]
      simp [hlog, hd]

/-- Where the snapshot can be dumped it is saved, the log and the write-ahead log are cut, whatever `triggerSnapshot` returns. -/
theorem triggerSnapshot_saved {n : RaftNode} {store : KVStore} (hlog : n.log ≠ []) (hd : (n.newSnapshot store).dumps = true) :
    ∃ n', (n.triggerSnapshot store).getD (n.snapshotFailed store) = (n', (n.createSnapshot store).2) ∧
      n'.log = (n.createSnapshot store).1.log ∧ n'.disk.snapshotFile = .saved (n.newSnapshot store) := by
  have hfile : (n.createSnapshot store).1.disk.snapshotFile = .saved (n.newSnapshot store) := by
    obtain ⟨_, _, hf, heq⟩ := n.createSnapshot_shape store
    rw [heq]
    exact hf
  by_cases hm : (n.createSnapshot store).1.dumpsMetadata = true
  · rw [triggerSnapshot_eq_some.mpr ⟨⟨hlog, hd, hm⟩, rfl⟩]
    exact ⟨_, rfl, rfl, hfile⟩
  · have hlen : ¬n.log.length = 0 := by simpa using hlog
    unfold triggerSnapshot snapshotFailed
    rw [if_neg hlen, if_neg hlen, if_neg (fun h => hm h.2), if_neg (by simp [hd])]
    exact ⟨_, rfl, rfl, hfile⟩

/-- What a commit section may change at its end: nothing, or what the creation of a snapshot changes. -/
theorem snapshotAtThreshold_shape (n : RaftNode) (store : KVStore) : ∃ log snap next disk,
    (n.snapshotAtThreshold store).1 = { n with log := log, latestSnapshot := snap, nextIndex := next, disk := disk } := by
  unfold snapshotAtThreshold
  split
  · obtain ⟨log, disk, _, heq⟩ := n.createSnapshot_shape store
    exact ⟨log, _, _, disk, heq⟩
  · exact ⟨n.log, n.latestSnapshot, n.nextIndex, n.disk, rfl⟩

@[simp] theorem createSnapshot_role (n : RaftNode) (store : KVStore) : (n.createSnapshot store).1.role = n.role := by
  obtain ⟨_, _, _, heq⟩ := n.createSnapshot_shape store
  rw [heq]
  rfl

@[simp] theorem snapshotAtThreshold_role (n : RaftNode) (store : KVStore) :
    (n.snapshotAtThreshold store).1.role = n.role := by
  obtain ⟨_, _, _, _, heq⟩ := n.snapshotAtThreshold_shape store
  rw [heq]
  rfl

/-- One turn of an apply loop counts `lastApplied` up, and does nothing else to the node. -/
theorem applyNext_node (r : Applying) :
    r.applyNext.node = { r.node with lastApplied := r.node.lastApplied + 1 } := by
  unfold Applying.applyNext
  simp only
  split <;> rfl

theorem iterate_applyNext_node (r : Applying) (k : ℕ) :
    (Applying.applyNext^[k] r).node = { r.node with lastApplied := r.node.lastApplied + k } := by
  induction k with
  | zero => simp
  | succ k ih =>
    rw [Function.iterate_succ_apply', applyNext_node, ih]
    simp only [Nat.cast_succ]
    congr 1
    omega

/-- An apply loop moves `lastApplied` up to `commitIndex`, and does nothing else to the node. -/
theorem applyCommitted_node (n : RaftNode) (store : KVStore) :
    (n.applyCommitted store).node = { n with lastApplied := max n.lastApplied n.commitIndex } := by
  have hmax : n.lastApplied + ((n.commitIndex - n.lastApplied).toNat : ℤ) = max n.lastApplied n.commitIndex := by omega
  unfold applyCommitted
  rw [iterate_applyNext_node]
  simp only [hmax]

/-- What an apply loop leaves in the history: the entries it has applied, each at its index. -/
theorem iterate_applyNext_events (r : Applying) (k : ℕ) {ev : Event} (hev : ev ∈ (Applying.applyNext^[k] r).events) :
    ev ∈ r.events ∨ ∃ i e, ev = .applied i e ∧ r.node.lastApplied < i ∧ i ≤ r.node.lastApplied + k ∧
      r.node.entryAt (r.node.logIdx i) = some e := by
  induction k with
  | zero => exact Or.inl hev
  | succ k ih =>
    have hn := iterate_applyNext_node r k
    rw [Function.iterate_succ_apply'] at hev
    generalize Applying.applyNext^[k] r = r' at ih hn hev
    have hold (h : ev ∈ r'.events) : ev ∈ r.events ∨ ∃ i e, ev = .applied i e ∧ r.node.lastApplied < i ∧
        i ≤ r.node.lastApplied + (k + 1 : ℕ) ∧ r.node.entryAt (r.node.logIdx i) = some e := by
      rcases ih h with h | ⟨i, e, rfl, h1, h2, h3⟩
      · exact Or.inl h
      · exact Or.inr ⟨i, e, rfl, h1, by push_cast; omega, h3⟩
    unfold Applying.applyNext at hev
    simp only at hev
    split at hev
    · exact hold hev
    · next e he =>
      rcases List.mem_append.mp hev with hev | hev
      · exact hold hev
      · split at hev
        · cases hev
        · obtain rfl := List.mem_singleton.mp hev
          rw [hn] at he ⊢
          exact Or.inr ⟨_, e, rfl, by simp only; omega, by simp only; push_cast; omega, he⟩

/-- What an apply loop has applied stands in the log, above what was applied before and up to `commitIndex`. -/
theorem applyCommitted_events {n : RaftNode} {store : KVStore} {ev : Event} (hev : ev ∈ (n.applyCommitted store).events) :
    ∃ i e, ev = .applied i e ∧ n.lastApplied < i ∧ i ≤ n.commitIndex ∧ n.entryAt (n.logIdx i) = some e := by
  rcases iterate_applyNext_events _ _ hev with hev | ⟨i, e, rfl, h1, h2, h3⟩
  · cases hev
  · exact ⟨i, e, rfl, h1, by simp only at h1 h2; omega, h3⟩

@[simp] theorem applyCommitted_role (n : RaftNode) (store : KVStore) : (n.applyCommitted store).node.role = n.role := by
  rw [applyCommitted_node]
  rfl

@[simp] theorem advanceCommit_role (n : RaftNode) (store : KVStore) (leaderCommit : ℤ) :
    (n.advanceCommit store leaderCommit).1.role = n.role := by
  show (snapshotAtThreshold _ _).1.role = n.role
  rw [snapshotAtThreshold_role, applyCommitted_role]
  rfl

/-- The loop that appends the entries of a message changes `log` only. -/
theorem foldl_pushEntry (es : List LogEntry) (n : RaftNode) :
    ∃ log, n.log <+: log ∧ es.foldl pushEntry n = { n with log := log } := by
  induction es generalizing n with
  | nil => exact ⟨n.log, List.prefix_rfl, rfl⟩
  | cons e es ih =>
    obtain ⟨log, hp, hlog⟩ := ih (pushEntry n e)
    refine ⟨log, ?_, ?_⟩
    · refine List.IsPrefix.trans ?_ hp
      unfold pushEntry
      split
      · exact List.prefix_append _ _
      · exact List.prefix_rfl
    · rw [List.foldl_cons, hlog]
      unfold pushEntry
      split <;> rfl

/-- The insertion of the entries of a message changes `log` only. -/
theorem insertEntries_eq (n : RaftNode) (m : AppendEntriesRPC) : ∃ log, n.insertEntries m = { n with log := log } := by
  unfold insertEntries
  simp only
  split
  · split
    · obtain ⟨log, _, h⟩ := foldl_pushEntry m.entries { n with log := n.log.take (n.logIdx (m.prevLogIndex + 1)).toNat }
      exact ⟨log, h⟩
    · exact ⟨n.log, rfl⟩
  · obtain ⟨log, _, h⟩ := foldl_pushEntry m.entries n
    exact ⟨log, h⟩

/-- What an accepted message does to the node: another `log`, and the metadata written. -/
theorem acceptEntries_eq (n : RaftNode) (m : AppendEntriesRPC) :
    ∃ log, n.acceptEntries m = { n with log := log }.persistMetadata := by
  unfold acceptEntries
  split
  · obtain ⟨log, h⟩ := n.insertEntries_eq m
    exact ⟨log, by rw [h]⟩
  · exact ⟨n.log, rfl⟩

@[simp] theorem acceptEntries_role (n : RaftNode) (m : AppendEntriesRPC) : (n.acceptEntries m).role = n.role := by
  obtain ⟨log, h⟩ := n.acceptEntries_eq m
  rw [h]
  rfl

@[simp] theorem installSnapshot_role (n : RaftNode) (store : KVStore) (snap : Snapshot) :
    (n.installSnapshot store snap).1.role = n.role := rfl

@[simp] theorem setBuffer_role (n : RaftNode) (buffer : Str) : (n.setBuffer buffer).role = n.role := rfl

@[simp] theorem emptySnapshotFile_role (n : RaftNode) : n.emptySnapshotFile.role = n.role := rfl

/-- A retreat changes what the peer is sent next. -/
theorem retreat_shape (n : RaftNode) (i : ℕ) : ∃ next, n.retreat i = { n with nextIndex := next } := by
  unfold retreat
  split
  · exact ⟨_, rfl⟩
  · exact ⟨n.nextIndex, rfl⟩

@[simp] theorem retreat_role (n : RaftNode) (i : ℕ) : (n.retreat i).role = n.role := by
  obtain ⟨_, heq⟩ := n.retreat_shape i
  rw [heq]
  rfl

end RaftNode

/-- The reply to a chunk changes what the peer is sent next and what it is known to have. -/
theorem Transfer.reply_shape (t : Transfer) (n : RaftNode) (i : ℕ) (r : Option Reply) :
    ∃ next matched, (t.reply n i r).1 = { n with nextIndex := next, matchIndex := matched } := by
  unfold Transfer.reply
  split
  · exact ⟨n.nextIndex, n.matchIndex, rfl⟩
  · split
    · simp only
      split
      · exact ⟨_, _, rfl⟩
      · exact ⟨n.nextIndex, n.matchIndex, rfl⟩
    · exact ⟨n.nextIndex, n.matchIndex, rfl⟩

@[simp] theorem Transfer.reply_role (t : Transfer) (n : RaftNode) (i : ℕ) (r : Option Reply) :
    (t.reply n i r).1.role = n.role := by
  obtain ⟨_, _, heq⟩ := t.reply_shape n i r
  rw [heq]
  rfl

/-- A transfer that goes on does so with the next chunk. -/
theorem Transfer.reply_rest {t t' : Transfer} {n : RaftNode} {i : ℕ} {r : Option Reply} (h : (t.reply n i r).2 = some t') :
    t.chunkNum + 1 < t.chunkCount ∧ t' = { t with chunkNum := t.chunkNum + 1 } := by
  unfold Transfer.reply at h
  split at h
  · cases h
  · split at h
    · simp only at h
      split at h
      · next hlt => exact ⟨hlt, (Option.some.inj h).symm⟩
      · cases h
    · cases h

theorem Transfer.reply_snap {t t' : Transfer} {n : RaftNode} {i : ℕ} {r : Option Reply}
    (h : (t.reply n i r).2 = some t') : t'.snap = t.snap := by
  obtain ⟨_, rfl⟩ := Transfer.reply_rest h
  rfl

/-- What a commit section leaves: what its apply loop and the snapshot at the threshold leave, but for the tables and the metadata file. -/
theorem Site.commit_shape (n : RaftNode) (store : KVStore) (call : ClientCall) {r : Applying}
    (hr : applyWhileUp (n.setCommitIndex call.newIndex) store = r) : ∃ last cache disk,
      (Site.commit n store call).1 = { (r.node.snapshotAtThreshold r.store).1 with
        clientLastRequest := last, clientResultCache := cache, disk := disk } := by
  subst hr
  exact ⟨_, _, _, rfl⟩

@[simp] theorem Site.applyWhileUp_role (n : RaftNode) (store : KVStore) : (applyWhileUp n store).node.role = n.role := by
  unfold applyWhileUp
  split
  · rfl
  · exact n.applyCommitted_role store

@[simp] theorem Site.commit_role (n : RaftNode) (store : KVStore) (call : ClientCall) :
    (Site.commit n store call).1.role = n.role := by
  obtain ⟨_, _, _, heq⟩ := Site.commit_shape n store call rfl
  rw [heq]
  show (RaftNode.snapshotAtThreshold _ _).1.role = n.role
  rw [RaftNode.snapshotAtThreshold_role, Site.applyWhileUp_role]
  rfl

namespace RaftNode

/-! ## Files -/

/-- What `loadMetadata` finds in the metadata file, or the defaults where there is none. -/
def saved (n : RaftNode) : Metadata :=
  n.disk.metadata.getD
    { currentTerm := 0, votedFor := -1, logEntries := [], clientLastRequest := ∅, clientResultCache := ∅ }

/-- The snapshot file that holds a snapshot. -/
def fileOf : Option Snapshot → SnapshotFile
  | none => .absent
  | some s => .saved s

/-- The node is running, and its files hold what it must not lose. An empty snapshot file keeps the node from starting again. -/
structure Sound (n : RaftNode) : Prop where
  up : n.shutdownRequested = false
  idle : n.receivingSnapshot = false
  term_nonneg : 0 ≤ n.currentTerm
  saved_term : n.saved.currentTerm = n.currentTerm
  saved_vote : n.saved.votedFor = n.votedFor
  saved_prefix : n.saved.logEntries <+: n.log
  saved_log : n.state ≠ .leader → n.saved.logEntries = n.log
  file : n.disk.snapshotFile = .empty ∨ n.disk.snapshotFile = fileOf n.latestSnapshot

/-- Soundness is a matter of the role, the log, the snapshot and the files. -/
theorem Sound.congr {n n' : RaftNode} (h : n.Sound) (hr : n'.role = n.role) (hl : n'.log = n.log) (hd : n'.disk = n.disk)
    (hs : n'.latestSnapshot = n.latestSnapshot) : n'.Sound := by
  have hsaved : n'.saved = n.saved := by rw [saved, saved, hd]
  constructor
  · exact (congrArg Role.shutdownRequested hr).trans h.up
  · exact (congrArg Role.receivingSnapshot hr).trans h.idle
  · rw [show n'.currentTerm = n.currentTerm from congrArg Role.currentTerm hr]
    exact h.term_nonneg
  · rw [hsaved]
    exact h.saved_term.trans (congrArg Role.currentTerm hr).symm
  · rw [hsaved]
    exact h.saved_vote.trans (congrArg Role.votedFor hr).symm
  · rw [hsaved, hl]
    exact h.saved_prefix
  · rw [hsaved, hl, show n'.state = n.state from congrArg Role.state hr]
    exact h.saved_log
  · rw [hd, hs]
    exact h.file

/-- Writing the metadata makes the node sound. -/
theorem sound_persist {n : RaftNode} (hu : n.shutdownRequested = false) (hi : n.receivingSnapshot = false)
    (ht : 0 ≤ n.currentTerm) (hf : n.disk.snapshotFile = .empty ∨ n.disk.snapshotFile = fileOf n.latestSnapshot) :
    n.persistMetadata.Sound :=
  ⟨hu, hi, ht, rfl, rfl, List.prefix_rfl, fun _ => rfl, hf⟩

theorem Sound.persist {n : RaftNode} (h : n.Sound) : n.persistMetadata.Sound :=
  sound_persist h.up h.idle h.term_nonneg h.file

theorem Sound.becomeFollower {n : RaftNode} (h : n.Sound) {t : ℤ} (ht : 0 ≤ t) : (n.becomeFollower t).Sound := by
  unfold RaftNode.becomeFollower
  rw [if_neg (by simp [h.up])]
  exact sound_persist h.up h.idle ht h.file

/-- `becomeFollower` on a node that is running. -/
theorem Sound.becomeFollower_eq {n : RaftNode} (h : n.Sound) (t : ℤ) :
    n.becomeFollower t = { n with
      currentTerm := t, state := .follower, votedFor := -1, runningHeartbeats := false }.persistMetadata := by
  unfold RaftNode.becomeFollower
  rw [if_neg (by simp [h.up])]

theorem Sound.seeTerm {n : RaftNode} (h : n.Sound) (t : ℤ) : (n.seeTerm t).Sound := by
  unfold RaftNode.seeTerm
  split
  · exact h.becomeFollower (by have := h.term_nonneg; omega)
  · exact h

theorem Sound.stepDown {n : RaftNode} (h : n.Sound) (m : AppendEntriesRPC) (hm : n.currentTerm ≤ m.term) :
    (n.stepDown m).Sound := by
  unfold RaftNode.stepDown
  split
  · exact (h.becomeFollower (t := m.term) (by have := h.term_nonneg; omega)).congr rfl rfl rfl rfl
  · exact h.congr rfl rfl rfl rfl

theorem Sound.followReply {n : RaftNode} (h : n.Sound) {t : ℤ} (ht : 0 ≤ t) : (n.followReply t).Sound :=
  sound_persist h.up h.idle ht h.file

theorem Sound.createSnapshot {n : RaftNode} (h : n.Sound) (store : KVStore) : (n.createSnapshot store).1.Sound := by
  have hr := n.createSnapshot_role store
  refine sound_persist ?_ ?_ ?_ (Or.inr ?_)
  · exact (congrArg Role.shutdownRequested hr).trans h.up
  · exact (congrArg Role.receivingSnapshot hr).trans h.idle
  · exact h.term_nonneg.trans_eq (congrArg Role.currentTerm hr).symm
  · obtain ⟨_, heq⟩ := (n.saveSnapshot (n.newSnapshot store)).truncateLogSafe_shape n.lastApplied
    show ((n.saveSnapshot (n.newSnapshot store)).truncateLogSafe n.lastApplied).disk.snapshotFile = _
    rw [heq]
    rfl

theorem Sound.snapshotAtThreshold {n : RaftNode} (h : n.Sound) (store : KVStore) :
    (n.snapshotAtThreshold store).1.Sound := by
  unfold RaftNode.snapshotAtThreshold
  split
  · exact h.createSnapshot store
  · exact h

theorem Sound.applyCommitted {n : RaftNode} (h : n.Sound) (store : KVStore) : (n.applyCommitted store).node.Sound := by
  rw [applyCommitted_node]
  exact h.congr rfl rfl rfl rfl

theorem Sound.acceptEntries {n : RaftNode} (h : n.Sound) (m : AppendEntriesRPC) : (n.acceptEntries m).Sound := by
  obtain ⟨log, heq⟩ := n.acceptEntries_eq m
  rw [heq]
  exact sound_persist h.up h.idle h.term_nonneg h.file

theorem Sound.advanceCommit {n : RaftNode} (h : n.Sound) (store : KVStore) (leaderCommit : ℤ) :
    (n.advanceCommit store leaderCommit).1.Sound := by
  have h' : (n.setCommitIndex (min leaderCommit (n.getLogSize - 1))).Sound := h.congr rfl rfl rfl rfl
  exact (h'.applyCommitted store).snapshotAtThreshold _

theorem Sound.installSnapshot {n : RaftNode} (h : n.Sound) (store : KVStore) (snap : Snapshot) :
    (n.installSnapshot store snap).1.Sound :=
  ⟨h.up, h.idle, h.term_nonneg, rfl, rfl, List.prefix_rfl, fun _ => rfl, Or.inr rfl⟩

theorem Sound.retreat {n : RaftNode} (h : n.Sound) (i : ℕ) : (n.retreat i).Sound := by
  obtain ⟨_, heq⟩ := n.retreat_shape i
  rw [heq]
  exact h.congr rfl rfl rfl rfl

theorem Sound.transferReply {n : RaftNode} (h : n.Sound) (t : Transfer) (i : ℕ) (r : Option Reply) :
    (t.reply n i r).1.Sound := by
  obtain ⟨_, _, heq⟩ := t.reply_shape n i r
  rw [heq]
  exact h.congr rfl rfl rfl rfl

/-- The apply loop of a client command, on a node that is running. -/
theorem applyWhileUp_eq {n : RaftNode} (hup : n.shutdownRequested = false) (store : KVStore) :
    Site.applyWhileUp n store = n.applyCommitted store :=
  if_neg (by simp [hup])

theorem Sound.applyWhileUp_eq {n : RaftNode} (h : n.Sound) (store : KVStore) :
    Site.applyWhileUp n store = n.applyCommitted store :=
  RaftNode.applyWhileUp_eq h.up store

theorem Sound.commit {n : RaftNode} (h : n.Sound) (store : KVStore) (call : ClientCall) :
    (Site.commit n store call).1.Sound := by
  have h' : (n.setCommitIndex call.newIndex).Sound := h.congr rfl rfl rfl rfl
  have hs := (h'.applyCommitted store).snapshotAtThreshold ((n.setCommitIndex call.newIndex).applyCommitted store).store
  unfold Site.commit
  simp only [h'.applyWhileUp_eq]
  exact sound_persist hs.up hs.idle hs.term_nonneg hs.file

/-- The last index under the snapshot, or `0` where there is none. -/
def lastIncluded (n : RaftNode) : ℤ := (n.latestSnapshot.map (·.lastIncludedIndex)).getD 0

/-- What `loadMetadata` finds. -/
theorem loadMetadata_create (n : RaftNode) : (create n.id n.rpcPort n.peerRpcPorts n.disk).loadMetadata =
    { create n.id n.rpcPort n.peerRpcPorts n.disk with
      currentTerm := n.saved.currentTerm
      votedFor := n.saved.votedFor
      log := n.saved.logEntries
      clientLastRequest := n.saved.clientLastRequest
      clientResultCache := n.saved.clientResultCache } := by
  unfold loadMetadata saved
  cases hm : n.disk.metadata with
  | none => simp [create, hm]
  | some j => simp [create, hm]

/-- Neither of the two files was left empty. -/
def FilesWhole (n : RaftNode) : Prop := n.disk.snapshotFile ≠ .empty ∧ n.disk.metadataEmptied = false

instance (n : RaftNode) : Decidable n.FilesWhole := instDecidableAnd

/-- A node is started again where its metadata file was not left empty. -/
theorem restart_whole {n : RaftNode} {store : KVStore} {r : RaftNode × KVStore} (hr : n.restart store = some r) :
    n.disk.metadataEmptied = false ∧ (create n.id n.rpcPort n.peerRpcPorts n.disk).loadMetadata.start store = some r := by
  unfold restart at hr
  split at hr
  · cases hr
  · next he => exact ⟨Bool.eq_false_iff.mpr he, hr⟩

/-- A sound node that is started again has the term, the vote and the snapshot it had, and the log of its metadata file. -/
theorem Sound.restart_eq {n n' : RaftNode} (h : n.Sound) {store store' : KVStore}
    (hr : n.restart store = some (n', store')) : n.disk.snapshotFile = fileOf n.latestSnapshot ∧
      n' = { create n.id n.rpcPort n.peerRpcPorts n.disk with
        currentTerm := n.currentTerm
        votedFor := n.votedFor
        log := n.saved.logEntries
        clientLastRequest := n.saved.clientLastRequest
        clientResultCache := n.saved.clientResultCache
        latestSnapshot := n.latestSnapshot
        lastApplied := n.lastIncluded
        commitIndex := n.lastIncluded } := by
  replace hr := (restart_whole hr).2
  rw [loadMetadata_create, h.saved_term, h.saved_vote] at hr
  have hfile := h.file
  unfold start at hr
  simp only [create] at hr
  cases hf : n.disk.snapshotFile with
  | empty => simp [hf] at hr
  | absent =>
    simp only [hf, Option.some.injEq, Prod.mk.injEq] at hr
    obtain ⟨rfl, -⟩ := hr
    have hs : n.latestSnapshot = none := by
      cases hs : n.latestSnapshot <;> simp [hf, hs, fileOf] at hfile ⊢
    simp [hs, fileOf, lastIncluded, create]
  | saved s =>
    simp only [hf, Option.some.injEq, Prod.mk.injEq] at hr
    obtain ⟨rfl, -⟩ := hr
    have hs : n.latestSnapshot = some s := by
      cases hs : n.latestSnapshot <;> simp [hf, hs, fileOf] at hfile ⊢
      exact hfile.symm
    simp [hs, fileOf, lastIncluded, create]

/-- A node is sound when it is started. -/
theorem Sound.restart {n n' : RaftNode} (h : n.Sound) {store store' : KVStore}
    (hr : n.restart store = some (n', store')) : n'.Sound ∧ n'.role = { n.role with state := .follower } := by
  obtain ⟨hf, rfl⟩ := h.restart_eq hr
  refine ⟨⟨rfl, rfl, h.term_nonneg, h.saved_term, h.saved_vote, List.prefix_rfl, fun _ => rfl, Or.inr hf⟩, ?_⟩
  simp [role, create, h.up, h.idle]

end RaftNode

end RaftStore
