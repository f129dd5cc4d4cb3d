import RaftStore.Lemmas.Site

/-!
# Crashes in the middle of a compaction

The states of a node between the steps of `triggerSnapshot`, of the snapshot that a commit section takes at the threshold, and of
the end of the InstallSnapshot handler. A crash leaves the two files as they are there. The write-ahead log is truncated between
two of the states, and the store is loaded between two others; the node does not change in either. The dump of a snapshot or of the
metadata throws where a string is not valid UTF-8, and has opened its file by then.
-/

namespace RaftStore

namespace RaftNode

/-- The writing of the metadata, where a dump that throws leaves the file empty. -/
def writeMetadata (n : RaftNode) : RaftNode := if n.dumpsMetadata then n.persistMetadata else n.emptyMetadataFile

/-- The states of a node while it takes a snapshot. A dump that throws leaves its file empty, and is the last of them. -/
def snapshotSteps (n : RaftNode) (store : KVStore) : List RaftNode :=
  let snap := n.newSnapshot store
  if snap.dumps then
    let saved := n.saveSnapshot snap
    let truncated := saved.truncateLogSafe snap.lastIncludedIndex
    let taken := { truncated with latestSnapshot := some snap }
    let raised := { taken with nextIndex := raiseNextIndex snap.lastIncludedIndex taken.nextIndex }
    [n, saved, truncated, taken, raised, raised.writeMetadata]
  else [n, n.emptySnapshotFile]

/-- The states of a node from the point at which an image has been decoded. A dump that throws leaves its file empty. -/
def installSteps (n : RaftNode) (snap : Snapshot) : List RaftNode :=
  if snap.dumps then
    let saved := n.saveSnapshot snap
    let applied := { saved with lastApplied := snap.lastIncludedIndex }
    let committed := applied.setCommitIndex snap.lastIncludedIndex
    let cleared := { committed with log := [] }
    let taken := { cleared with latestSnapshot := some snap }
    [n, saved, applied, committed, cleared, taken, taken.writeMetadata] ++
      if taken.dumpsMetadata then [taken.persistMetadata.setBuffer []] else []
  else [n, n.emptySnapshotFile]

/-- The metadata is written. -/
theorem writeMetadata_of_dumps {n : RaftNode} (h : n.dumpsMetadata = true) : n.writeMetadata = n.persistMetadata := if_pos h

/-- The metadata file is left empty. -/
theorem writeMetadata_of_not {n : RaftNode} (h : n.dumpsMetadata ≠ true) : n.writeMetadata = n.emptyMetadataFile := if_neg h

/-- While a snapshot is taken the files are those from before, then the snapshot file is new, and then the metadata file. -/
theorem snapshotSteps_of_dumps {n : RaftNode} {store : KVStore} (h : (n.newSnapshot store).dumps = true) :
    ∃ (between : List RaftNode) (raised : RaftNode), n.snapshotSteps store = n :: n.saveSnapshot (n.newSnapshot store) :: between ++ [raised.writeMetadata] ∧
      (∀ c ∈ between, c.disk = (n.saveSnapshot (n.newSnapshot store)).disk) ∧
      raised.disk = (n.saveSnapshot (n.newSnapshot store)).disk ∧ raised.persistMetadata = (n.createSnapshot store).1 := by
  have hdisk : ((n.saveSnapshot (n.newSnapshot store)).truncateLogSafe (n.newSnapshot store).lastIncludedIndex).disk =
      (n.saveSnapshot (n.newSnapshot store)).disk := by
    obtain ⟨_, heq⟩ := (n.saveSnapshot (n.newSnapshot store)).truncateLogSafe_shape (n.newSnapshot store).lastIncludedIndex
    rw [heq]
  refine ⟨[_, _, _], _, if_pos h, ?_, hdisk, rfl⟩
  intro c hc
  simp only [List.mem_cons, List.not_mem_nil, or_false] at hc
  rcases hc with rfl | rfl | rfl <;> exact hdisk

/-- While a snapshot is installed the files are those from before, then the snapshot file is new, and then the metadata file. -/
theorem installSteps_of_dumps {n : RaftNode} {snap : Snapshot} (h : snap.dumps = true) :
    ∃ (between : List RaftNode) (taken : RaftNode), n.installSteps snap =
        n :: n.saveSnapshot snap :: between ++ taken.writeMetadata ::
        (if taken.dumpsMetadata then [taken.persistMetadata.setBuffer []] else []) ∧
      (∀ c ∈ between, c.disk = (n.saveSnapshot snap).disk) ∧ taken.disk = (n.saveSnapshot snap).disk ∧ taken.log = [] ∧
        taken.dumpsMetadata = ({ n with log := [] } : RaftNode).dumpsMetadata := by
  refine ⟨[_, _, _, _], _, if_pos h, ?_, rfl, rfl, rfl⟩
  intro c hc
  simp only [List.mem_cons, List.not_mem_nil, or_false] at hc
  rcases hc with rfl | rfl | rfl | rfl <;> rfl

/-- The last state is the one `triggerSnapshot` leaves, whatever it returns. -/
theorem snapshotSteps_last (n : RaftNode) (store : KVStore) (hlog : n.log ≠ []) : (n.snapshotSteps store).getLast? =
    some ((n.triggerSnapshot store).getD (n.snapshotFailed store)).1 := by
  have hlen : ¬n.log.length = 0 := by simpa using hlog
  by_cases hd : (n.newSnapshot store).dumps = true
  · obtain ⟨between, raised, hsteps, _, hdisk, hraised⟩ := snapshotSteps_of_dumps hd
    rw [hsteps, List.getLast?_concat]
    have hdumps : raised.dumpsMetadata = (n.createSnapshot store).1.dumpsMetadata := by rw [← hraised]; rfl
    by_cases hm : raised.dumpsMetadata = true
    · rw [writeMetadata_of_dumps hm, triggerSnapshot_eq_some.mpr ⟨⟨hlog, hd, hdumps ▸ hm⟩, rfl⟩, hraised]
      rfl
    · unfold triggerSnapshot snapshotFailed
      rw [writeMetadata_of_not hm, if_neg hlen, if_neg hlen, if_neg (fun h => hm (hdumps.trans h.2)), if_neg (by simp [hd])]
      simp only [← hraised, Option.getD_none]
      -- the metadata file is as it was, but for being empty
      have hmeta : raised.disk.metadata = n.disk.metadata := by rw [hdisk]; rfl
      unfold emptyMetadataFile persistMetadata
      simp only [← hmeta]
  · have hlast : n.snapshotSteps store = [n, n.emptySnapshotFile] := if_neg hd
    rw [hlast]
    unfold triggerSnapshot snapshotFailed
    rw [if_neg hlen, if_neg hlen, if_neg (show ¬((n.newSnapshot store).dumps = true ∧ _) from fun h => hd h.1),
      if_pos (by simpa using hd)]
    rfl

/-- The last state is the one the handler leaves after the last chunk, where its tables can be dumped. -/
theorem installSteps_last {n : RaftNode} {snap : Snapshot} (h : deserializeSnapshot n.snapshotBuffer = some snap)
    (hm : ({ n with log := [] } : RaftNode).dumpsMetadata = true) (store : KVStore) (m : InstallSnapshotRPC) :
    (n.installSteps { snap with covered := m.covered }).getLast? = some (n.finishTransfer store m).node := by
  have hd : ({ snap with covered := m.covered } : Snapshot).dumps = snap.dumps := rfl
  unfold finishTransfer
  simp only [h]
  unfold installSteps
  simp only [hd]
  split
  · exact congrArg (fun l : List RaftNode => List.getLast? (_ ++ l)) (if_pos hm)
  · rfl

/-- Each entry of `log` stands at its own global index. -/
def InPlace (n : RaftNode) : Prop := ∀ (j : ℕ) (e : LogEntry), n.log[j]? = some e → e.index = n.baseIndex + j

instance (n : RaftNode) : Decidable n.InPlace :=
  decidable_of_iff (∀ j : Fin n.log.length, n.log[j].index = n.baseIndex + j)
    ⟨fun h j e he => by
      obtain ⟨hj, rfl⟩ := List.getElem?_eq_some_iff.mp he
      exact h ⟨j, hj⟩,
    fun h j => h j n.log[j] (List.getElem?_eq_getElem j.isLt)⟩

/-- A crash in the state `c` loses nothing: the node starts again, with every entry in its place, and with the terms that the
entries it has had in `n`. -/
def Recovers (n c : RaftNode) : Prop :=
  ∀ store, ∃ n' store', c.restart store = some (n', store') ∧ n'.InPlace ∧
    ∀ i, n'.baseIndex ≤ i → i < n'.getLogSize → n'.getLogTerm i = n.getLogTerm i

end RaftNode

end RaftStore
