import RaftStore.Lemmas.Progress

/-!
# What a node holds on to

An entry is held when it is under the snapshot of the node, or at its place in the metadata file. Most steps let go of nothing; a
snapshot moves entries from the log under itself, and a conflict lets go of what it cuts.
-/

namespace RaftStore

namespace RaftNode

variable {n n' n'' : RaftNode} {i : ℤ} {e : LogEntry} {es : List (ℤ × LogEntry)}

/-- The entry at a global index is under the snapshot, or at its place in the metadata file. -/
def Holds (n : RaftNode) (i : ℤ) (e : LogEntry) : Prop :=
  (∃ s, n.latestSnapshot = some s ∧ i ≤ s.lastIncludedIndex) ∨
    n.baseIndex ≤ i ∧ n.saved.logEntries[(n.logIdx i).toNat]? = some e

/-- The node holds these entries, and its snapshot file is the one of its snapshot. -/
structure Stored (n : RaftNode) (es : List (ℤ × LogEntry)) : Prop where
  file : n.disk.snapshotFile = fileOf n.latestSnapshot
  base : n.baseIndex ≤ n.lastApplied + 1
  held : ∀ p ∈ es, n.Holds p.1 p.2

/-- The node goes on over the same snapshot, with a metadata file that starts with the entries it had. -/
structure Stores (n n' : RaftNode) : Prop where
  saved : n.saved.logEntries <+: n'.saved.logEntries
  snapshot : n'.latestSnapshot = n.latestSnapshot
  file : n'.disk.snapshotFile = n.disk.snapshotFile
  applied : n.lastApplied ≤ n'.lastApplied

theorem Stores.refl (n : RaftNode) : n.Stores n := ⟨List.prefix_rfl, rfl, rfl, le_rfl⟩

theorem Stores.trans (h : n.Stores n') (h' : n'.Stores n'') : n.Stores n'' where
  saved := h.saved.trans h'.saved
  snapshot := h'.snapshot.trans h.snapshot
  file := h'.file.trans h.file
  applied := h.applied.trans h'.applied

/-- A node with the same snapshot and files that has applied no less. -/
theorem Stores.congr (hs : n'.latestSnapshot = n.latestSnapshot) (hd : n'.disk = n.disk)
    (ha : n.lastApplied ≤ n'.lastApplied) : n.Stores n' where
  saved := by
    unfold RaftNode.saved
    rw [hd]
  snapshot := hs
  file := by rw [hd]
  applied := ha

/-- The metadata is written, for a log that starts with the one of the metadata file. -/
theorem Stores.persist (hl : n.saved.logEntries <+: n'.log) (hs : n'.latestSnapshot = n.latestSnapshot)
    (hf : n'.disk.snapshotFile = n.disk.snapshotFile) (ha : n.lastApplied ≤ n'.lastApplied) : n.Stores n'.persistMetadata where
  saved := hl
  snapshot := hs
  file := hf
  applied := ha

theorem Stores.baseIndex (h : n.Stores n') : n'.baseIndex = n.baseIndex := by
  unfold RaftNode.baseIndex
  rw [h.snapshot]

theorem Holds.stores (h : n.Holds i e) (hs : n.Stores n') : n'.Holds i e := by
  rcases h with ⟨s, hsnap, hle⟩ | ⟨hb, he⟩
  · exact Or.inl ⟨s, hs.snapshot.trans hsnap, hle⟩
  · refine Or.inr ⟨hs.baseIndex.le.trans hb, ?_⟩
    rw [logIdx_eq, hs.baseIndex, ← logIdx_eq]
    obtain ⟨l, hl⟩ := hs.saved
    rw [← hl, List.getElem?_append_left (List.getElem?_eq_some_iff.mp he).1]
    exact he

theorem Stored.stores (h : n.Stored es) (hs : n.Stores n') : n'.Stored es where
  file := by rw [hs.file, h.file, hs.snapshot]
  base := by
    have := h.base
    have := hs.applied
    rw [hs.baseIndex]
    omega
  held p hp := (h.held p hp).stores hs

/-- What is held is in the files: under the snapshot of the snapshot file, or in the log of the metadata file. -/
def Durable (n : RaftNode) (i : ℤ) (e : LogEntry) : Prop :=
  (∃ s, n.disk.snapshotFile = .saved s ∧ i ≤ s.lastIncludedIndex) ∨ e ∈ n.saved.logEntries

theorem Stored.durable (h : n.Stored es) {p : ℤ × LogEntry} (hp : p ∈ es) : n.Durable p.1 p.2 := by
  rcases h.held p hp with ⟨s, hs, hle⟩ | ⟨_, he⟩
  · exact Or.inl ⟨s, by rw [h.file, hs]; rfl, hle⟩
  · exact Or.inr (List.mem_of_getElem? he)

/-! ## Operations that let go of nothing -/

theorem Sound.becomeFollower_stores (h : n.Sound) (t : ℤ) : n.Stores (n.becomeFollower t) := by
  rw [h.becomeFollower_eq]
  exact Stores.persist h.saved_prefix rfl rfl le_rfl

theorem Sound.seeTerm_stores (h : n.Sound) (t : ℤ) : n.Stores (n.seeTerm t) := by
  unfold RaftNode.seeTerm
  split
  · exact h.becomeFollower_stores t
  · exact Stores.refl n

theorem Sound.stepDown_stores (h : n.Sound) (m : AppendEntriesRPC) : n.Stores (n.stepDown m) := by
  unfold RaftNode.stepDown
  split
  · exact (h.becomeFollower_stores m.term).trans (Stores.congr rfl rfl le_rfl)
  · exact Stores.congr rfl rfl le_rfl

theorem retreat_stores (n : RaftNode) (j : ℕ) : n.Stores (n.retreat j) := by
  obtain ⟨_, heq⟩ := n.retreat_shape j
  rw [heq]
  exact Stores.congr rfl rfl le_rfl

theorem applyCommitted_stores (n : RaftNode) (store : KVStore) : n.Stores (n.applyCommitted store).node := by
  rw [applyCommitted_node]
  exact Stores.congr rfl rfl (le_max_left _ _)

theorem Sound.handleRequestVote_stores (h : n.Sound) (store : KVStore) (m : RequestVoteRPC) :
    n.Stores (n.handleRequestVote store m).node := by
  have hs := h.seeTerm_stores m.term
  unfold RaftNode.handleRequestVote
  simp only
  split
  · exact Stores.refl n
  · split
    · exact hs.trans (Stores.persist (Sound.saved_prefix (h.seeTerm m.term)) rfl rfl le_rfl)
    · exact hs

/-! ## Operations that move entries -/

/-- What `createSnapshot` leaves: a snapshot up to `lastApplied` in memory and on disk, the log as it is in the metadata file,
and, where that index is in the log, the entries above it. -/
theorem createSnapshot_log (n : RaftNode) (store : KVStore) :
    (n.createSnapshot store).1.latestSnapshot = some (n.newSnapshot store) ∧
      (n.createSnapshot store).1.disk.snapshotFile = .saved (n.newSnapshot store) ∧
      (n.createSnapshot store).1.saved.logEntries = (n.createSnapshot store).1.log ∧
      (n.baseIndex ≤ n.lastApplied + 1 → n.lastApplied < n.getLogSize →
        (n.createSnapshot store).1.log = n.log.drop (n.lastApplied + 1 - n.baseIndex).toNat) := by
  refine ⟨rfl, ?_, rfl, fun hb hlt => ?_⟩
  · obtain ⟨_, _, hfile, heq⟩ := n.createSnapshot_shape store
    rw [heq]
    exact hfile
  · show ((n.saveSnapshot (n.newSnapshot store)).truncateLogSafe n.lastApplied).log = _
    rw [truncateLogSafe_log (n.saveSnapshot (n.newSnapshot store)) hb hlt]
    rfl

/-- A snapshot moves the entries up to `lastApplied` under itself, and keeps the others. -/
theorem Stored.createSnapshot (h : n.Stored es) (hs : n.Sound) (store : KVStore) : (n.createSnapshot store).1.Stored es := by
  obtain ⟨hsnap, hfile, hsaved, hlog⟩ := n.createSnapshot_log store
  have hbase : (n.createSnapshot store).1.baseIndex = n.lastApplied + 1 := by
    unfold baseIndex
    rw [hsnap]
    rfl
  have hb := h.base
  refine ⟨by rw [hfile, hsnap]; rfl, ?_, fun p hp => ?_⟩
  · have hla : (n.createSnapshot store).1.lastApplied = n.lastApplied :=
      congrArg Progress.lastApplied (n.createSnapshot_progress store)
    rw [hbase, hla]
  by_cases hle : p.1 ≤ n.lastApplied
  · exact Or.inl ⟨_, hsnap, hle⟩
  rcases h.held p hp with ⟨s, hs, hle'⟩ | ⟨hbp, he⟩
  · have : n.baseIndex = s.lastIncludedIndex + 1 := by simp [baseIndex, hs]
    omega
  · -- the entry is above `lastApplied` and in the log, so that the log is cut below it
    obtain ⟨l, hl⟩ := hs.saved_prefix
    have hlt := (List.getElem?_eq_some_iff.mp he).1
    have he' : n.log[(n.logIdx p.1).toNat]? = some p.2 := by
      rw [← hl, List.getElem?_append_left hlt]
      exact he
    have hlen := (List.getElem?_eq_some_iff.mp he').1
    rw [logIdx_eq] at he' hlen
    refine Or.inr ⟨by omega, ?_⟩
    rw [hsaved, hlog h.base (by unfold getLogSize; omega), logIdx_eq, hbase, List.getElem?_drop, ← he']
    congr 1
    omega

theorem Stored.snapshotAtThreshold (h : n.Stored es) (hs : n.Sound) (store : KVStore) :
    (n.snapshotAtThreshold store).1.Stored es := by
  unfold RaftNode.snapshotAtThreshold
  split
  · exact h.createSnapshot hs store
  · exact h

/-- What stays of the log when a message is taken over: all of it, or what lies below the first new entry where that one
conflicts. -/
theorem acceptEntries_log (n : RaftNode) (m : AppendEntriesRPC) : ∃ l,
    n.acceptEntries m = { n with log := l }.persistMetadata ∧
      (n.log <+: l ∨ n.firstMatches m = some false ∧ n.prevMatches m = true ∧
        n.log.take (n.logIdx (m.prevLogIndex + 1)).toNat <+: l) := by
  unfold acceptEntries
  split
  · next hm =>
    rcases hf : n.firstMatches m with _ | ⟨_ | _⟩
    · obtain ⟨l, hp, heq⟩ := foldl_pushEntry m.entries n
      exact ⟨l, by rw [Aligned.insertEntries_push hf, heq], Or.inl hp⟩
    · obtain ⟨l, hp, heq⟩ := foldl_pushEntry m.entries { n with log := n.log.take (n.logIdx (m.prevLogIndex + 1)).toNat }
      exact ⟨l, by rw [Aligned.insertEntries_cut hf, heq], Or.inr ⟨rfl, hm, hp⟩⟩
    · exact ⟨n.log, by rw [Aligned.insertEntries_skip hf], Or.inl List.prefix_rfl⟩
  · exact ⟨n.log, rfl, Or.inl List.prefix_rfl⟩

/-- A message that does not cut the log at an entry held or below it. -/
theorem Stored.acceptEntries (h : n.Stored es) (hs : n.Sound) {m : AppendEntriesRPC}
    (hcut : n.prevMatches m = true → n.firstMatches m = some false → ∀ p ∈ es, p.1 ≤ m.prevLogIndex) :
    (n.acceptEntries m).Stored es := by
  obtain ⟨l, heq, hl | ⟨hf, hm, hl⟩⟩ := n.acceptEntries_log m
  · rw [heq]
    exact h.stores (Stores.persist (hs.saved_prefix.trans hl) rfl rfl le_rfl)
  · rw [heq]
    refine ⟨h.file, h.base, fun p hp => (h.held p hp).imp (fun h => h) fun ⟨hb, he⟩ => ⟨hb, ?_⟩⟩
    have hp := hcut hm hf p hp
    have hlt := (List.getElem?_eq_some_iff.mp he).1
    obtain ⟨l', hl'⟩ := hs.saved_prefix
    obtain ⟨l'', hl''⟩ := hl
    have he' : n.log[(n.logIdx p.1).toNat]? = some p.2 := by
      rw [← hl', List.getElem?_append_left hlt]
      exact he
    have hlen := (List.getElem?_eq_some_iff.mp he').1
    have hidx : (n.logIdx p.1).toNat < (n.logIdx (m.prevLogIndex + 1)).toNat := by
      rw [logIdx_eq, logIdx_eq]
      omega
    show l[(n.logIdx p.1).toNat]? = some p.2
    rw [← hl'', List.getElem?_append_left (by rw [List.length_take]; omega), List.getElem?_take_of_lt hidx]
    exact he'

/-- A snapshot that covers what is held is installed. -/
theorem Stored.installSnapshot {store : KVStore} {snap : Snapshot} (hcov : ∀ p ∈ es, p.1 ≤ snap.lastIncludedIndex) :
    (n.installSnapshot store snap).1.Stored es where
  file := rfl
  base := le_rfl
  held p hp := Or.inl ⟨snap, rfl, hcov p hp⟩

/-- What is held is there when the node is started again. -/
theorem Stored.restart (h : n.Stored es) (hs : n.Sound) {store store' : KVStore} (hr : n.restart store = some (n', store')) :
    n'.Stored es := by
  obtain ⟨hf, rfl⟩ := hs.restart_eq hr
  refine ⟨hf, ?_, h.held⟩
  unfold baseIndex lastIncluded
  cases n.latestSnapshot with
  | none => exact zero_le_one
  | some s => exact le_rfl

end RaftNode

theorem Transfer.reply_stores (t : Transfer) (n : RaftNode) (j : ℕ) (r : Option Reply) : n.Stores (t.reply n j r).1 := by
  obtain ⟨_, _, heq⟩ := t.reply_shape n j r
  rw [heq]
  exact RaftNode.Stores.congr rfl rfl le_rfl

end RaftStore
