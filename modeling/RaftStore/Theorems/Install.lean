import RaftStore.Install
import RaftStore.Lemmas.Aligned

/-!
# What an InstallSnapshot message can do to a node

A chunk is copied to the range of the buffer that its offset names, which begins before the buffer for a negative offset that the size of
the chunk makes up for. A message that is answered without success leaves the node as it was, but for the snapshot file where the dump
of the snapshot throws, and for everything where the dump of the metadata does after the installation.
-/

namespace RaftStore

namespace RaftNode

variable {n : RaftNode} {store : KVStore} {m : InstallSnapshotRPC}

/-! ## Chunks -/

/-- The size that is computed from an `int` offset: the sum, or beyond what a vector can have. -/
theorem sizeWith_eq {offset : ℤ} {chunk : Str} (hlo : -2 ^ 31 ≤ offset) (hhi : offset < 2 ^ 31) (hc : chunk.length ≤ maxBufferSize) :
    if 0 ≤ offset + chunk.length then (sizeWith offset chunk : ℤ) = offset + chunk.length else maxBufferSize < sizeWith offset chunk := by
  unfold sizeWith maxBufferSize at *
  split <;> omega

/-- The handler copies a chunk to a range within the buffer, exactly where the message is stale, or there is no byte to copy, or the
offset is not negative, or so low that `resize` throws. -/
theorem chunk_in_bounds_iff (hlo : -2 ^ 31 ≤ m.offset) (hhi : m.offset < 2 ^ 31) (hchunk : (chunkOf m).length ≤ maxBufferSize)
    (hbuffer : n.snapshotBuffer.length ≤ maxBufferSize) :
    (∀ w ∈ n.chunkCopy m, w.InBounds) ↔
      m.term < n.currentTerm ∨ chunkOf m = [] ∨ 0 ≤ m.offset ∨ m.offset + (chunkOf m).length < 0 := by
  have hsize := sizeWith_eq hlo hhi hchunk
  have hbuf : (n.bufferFor m).length ≤ maxBufferSize := by
    unfold bufferFor
    split
    · exact Nat.zero_le _
    · exact hbuffer
  unfold chunkCopy
  split
  · next ht => exact iff_of_true nofun (.inl ht)
  · next ht =>
    simp only
    split
    · next hthrows =>
      refine iff_of_true nofun (.inr (.inr ?_))
      split at hsize <;> omega
    · next hresized =>
      have hsum : 0 ≤ m.offset + (chunkOf m).length := by
        by_contra hneg
        rw [if_neg hneg] at hsize
        exact hresized ⟨by omega, hsize⟩
      rw [if_pos hsum] at hsize
      split
      · next hnil => exact iff_of_true nofun (.inr (.inl hnil))
      · next hnil =>
        simp only [Option.mem_def, Option.some.injEq, forall_eq', ChunkCopy.InBounds]
        refine ⟨fun h => .inr (.inr (.inl h.1)), fun h => ⟨?_, ?_⟩⟩
        · rcases h with h | h | h | h
          · exact absurd h ht
          · exact absurd h hnil
          · exact h
          · omega
        · show m.offset + (chunkOf m).length ≤ ((max (n.bufferFor m).length (sizeWith m.offset (chunkOf m)) : ℕ) : ℤ)
          omega

/-- The handler has no defined behaviour exactly where it copies to places before the buffer. -/
theorem handleInstallSnapshot_undefined (n : RaftNode) (store : KVStore) (m : InstallSnapshotRPC) :
    n.handleInstallSnapshot store m = none ↔ ∃ w ∈ n.chunkCopy m, w.start < 0 := by
  have hbuffer : (if m.offset = 0 then [] else (n.seeTerm m.term).snapshotBuffer) = n.bufferFor m := by
    obtain ⟨_, _, _, _, _, heq⟩ := n.seeTerm_shape m.term
    rw [heq]
    rfl
  have hwrite : writeChunk (n.bufferFor m) m.offset (chunkOf m) =
      if (n.bufferFor m).length < sizeWith m.offset (chunkOf m) ∧ maxBufferSize < sizeWith m.offset (chunkOf m) then .lengthError
      else
        let buffer := n.bufferFor m ++ List.replicate (sizeWith m.offset (chunkOf m) - (n.bufferFor m).length) 0
        if chunkOf m = [] then .written buffer
        else if m.offset < 0 then .undefined
        else .written (buffer.take m.offset.toNat ++ chunkOf m ++ buffer.drop (m.offset.toNat + (chunkOf m).length)) := rfl
  unfold handleInstallSnapshot chunkCopy
  split
  · exact iff_of_false nofun (fun ⟨_, h, _⟩ => by cases h)
  · simp only [setBuffer_snapshotBuffer, hbuffer, hwrite]
    by_cases hneg : m.offset < 0
    · split_ifs <;> simp [hneg]
    · split_ifs <;> simp [hneg]

/-- A follower that has never run, and a message of two bytes for it that names an offset of -1. -/
def emptyFollower : RaftNode := create 1 5001 [5000, 5002] { metadata := none, snapshotFile := .absent }
def beforeBuffer : InstallSnapshotRPC where
  term := 1
  leaderId := 0
  lastIncludedIndex := 0
  lastIncludedTerm := 1
  offset := -1
  data := base64Encode [7, 7]
  done := false
  covered := []

theorem chunk_in_bounds_emptyFollower : (∀ w ∈ emptyFollower.chunkCopy { beforeBuffer with offset := 0 }, w.InBounds) ↔
    (1 : ℤ) < 0 ∨ chunkOf { beforeBuffer with offset := 0 } = [] ∨ (0 : ℤ) ≤ 0 ∨
      (0 : ℤ) + (chunkOf { beforeBuffer with offset := 0 }).length < 0 :=
  chunk_in_bounds_iff (n := emptyFollower) (m := { beforeBuffer with offset := 0 }) (by decide) (by decide) (by decide +kernel)
    (by decide)

/-- The two bytes are copied to the places -1 and 0 of a buffer of size 1. -/
theorem chunk_out_of_bounds : ¬∀ (n : RaftNode) (m : InstallSnapshotRPC), -2 ^ 31 ≤ m.offset → m.offset < 2 ^ 31 →
    (chunkOf m).length ≤ maxBufferSize → n.snapshotBuffer.length ≤ maxBufferSize → ∀ w ∈ n.chunkCopy m, w.InBounds := by
  intro h
  have hcopy : emptyFollower.chunkCopy beforeBuffer = some { start := -1, stop := 1, size := 1 } := by decide +kernel
  have hin := h emptyFollower beforeBuffer (by decide) (by decide) (by decide +kernel) (by decide) _ hcopy
  exact absurd hin (by decide)

/-! ## Refused messages -/

/-- The dump of `persistMetadata` accepts the strings of the two client tables. -/
def dumpsTables (n : RaftNode) : Bool := ({ n with log := [] } : RaftNode).dumpsMetadata

/-- The node stands at the end of the snapshot: its log is empty, and the snapshot in memory and on disk, the store and the indices are what
this one says. -/
structure StandsAt (n : RaftNode) (store : KVStore) (snap : Snapshot) : Prop where
  log : n.log = []
  lastApplied : n.lastApplied = snap.lastIncludedIndex
  commitIndex : n.commitIndex = snap.lastIncludedIndex
  latestSnapshot : n.latestSnapshot.map Snapshot.content = some snap.content
  snapshotFile : n.disk.snapshotFile.content = some (some snap.content)
  lookup : ∀ k, store.get k = snap.kvState.lookup k

/-- No exception changes what a refused message is to leave: the message is stale, the directory cannot be made, the metadata cannot be
written when the node becomes a follower, or the image that the message completes, if it is decoded, can be written, and the client
tables too. (A file that is empty already stays as it is, and so does a node that stands at the end of the snapshot.) -/
def refusesCleanly (directories : Bool) (n : RaftNode) (store : KVStore) (m : InstallSnapshotRPC) : Prop :=
  m.term < n.currentTerm ∨ directories = false ∨
    (n.currentTerm < m.term ∧ n.shutdownRequested = false ∧ n.dumpsMetadata = false) ∨
      ∀ snap ∈ n.assembled m,
        if snap.dumps then n.dumpsTables = true ∨ n.StandsAt store snap else n.disk.snapshotFile = .empty

@[simp] theorem setBuffer_kept (n : RaftNode) (b : Str) (store : KVStore) : (n.setBuffer b).kept store = n.kept store := rfl
@[simp] theorem withMetadataOf_kept (n n' : RaftNode) (store : KVStore) : (n.withMetadataOf n').kept store = n.kept store := rfl

@[simp] theorem becomeFollower_kept (n : RaftNode) (t : ℤ) (store : KVStore) : (n.becomeFollower t).kept store = n.kept store := by
  unfold becomeFollower
  split <;> rfl

@[simp] theorem seeTerm_kept (n : RaftNode) (t : ℤ) (store : KVStore) : (n.seeTerm t).kept store = n.kept store := by
  unfold seeTerm
  split
  · exact n.becomeFollower_kept t store
  · rfl

@[simp] theorem setBuffer_snapshotFile (n : RaftNode) (b : Str) : (n.setBuffer b).disk.snapshotFile = n.disk.snapshotFile := rfl

@[simp] theorem seeTerm_snapshotFile (n : RaftNode) (t : ℤ) : (n.seeTerm t).disk.snapshotFile = n.disk.snapshotFile := by
  unfold seeTerm becomeFollower
  split
  · split <;> rfl
  · rfl

/-- Emptying the snapshot file is seen unless it is empty. -/
theorem emptySnapshotFile_kept (n : RaftNode) (store : KVStore) :
    n.emptySnapshotFile.kept store = n.kept store ↔ n.disk.snapshotFile = .empty := by
  unfold kept
  simp only [Kept.mk.injEq, emptySnapshotFile, true_and]
  cases n.disk.snapshotFile <;> simp [SnapshotFile.content]

/-- An installation changes nothing exactly where the node stands at the end of the snapshot. -/
theorem standsAt_iff (n : RaftNode) (store : KVStore) (snap : Snapshot) :
    (n.installSnapshot store snap).1.kept (n.installSnapshot store snap).2 = n.kept store ↔ n.StandsAt store snap := by
  have hkept : (n.installSnapshot store snap).1.kept (n.installSnapshot store snap).2 =
      { lookup := fun k => snap.kvState.lookup k, writeAheadLog := store.writeAheadLog, log := [], latestSnapshot := some snap.content,
        commitIndex := snap.lastIncludedIndex, lastApplied := snap.lastIncludedIndex, snapshotFile := some (some snap.content) } := rfl
  rw [hkept, kept, Kept.mk.injEq]
  constructor
  · rintro ⟨hlookup, _, hlog, hsnap, hcommit, happlied, hfile⟩
    exact ⟨hlog.symm, happlied.symm, hcommit.symm, hsnap.symm, hfile.symm, fun k => (congrFun hlookup k).symm⟩
  · intro h
    exact ⟨funext fun k => (h.lookup k).symm, rfl, h.log.symm, h.latestSnapshot.symm, h.commitIndex.symm, h.lastApplied.symm,
      h.snapshotFile.symm⟩

/-- The seen term and the buffer change nothing of what an installation reads. -/
theorem installSnapshot_kept (n : RaftNode) (t : ℤ) (b : Str) (store : KVStore) (snap : Snapshot) (covered : List LogEntry) :
    ((((n.seeTerm t).setBuffer b).installSnapshot store { snap with covered := covered }).1.kept
      (((n.seeTerm t).setBuffer b).installSnapshot store { snap with covered := covered }).2 =
        (n.installSnapshot store snap).1.kept (n.installSnapshot store snap).2) ∧
      (((n.seeTerm t).setBuffer b).installSnapshot store { snap with covered := covered }).1.dumpsMetadata = n.dumpsTables := by
  obtain ⟨_, _, _, _, _, heq⟩ := n.seeTerm_shape t
  rw [heq]
  exact ⟨rfl, rfl⟩

/-- The end of a transfer, where it is refused. -/
theorem finishTransferIn_kept (n : RaftNode) (store : KVStore) (m : InstallSnapshotRPC) (directories : Bool) :
    ((n.finishTransferIn directories store m).handled.Refused →
      (n.finishTransferIn directories store m).handled.node.kept (n.finishTransferIn directories store m).handled.store = n.kept store) ↔
        directories = false ∨ ∀ snap ∈ deserializeSnapshot n.snapshotBuffer,
          if snap.dumps then
            (n.installSnapshot store { snap with covered := m.covered }).1.dumpsMetadata = true ∨
              (n.installSnapshot store { snap with covered := m.covered }).1.kept
                (n.installSnapshot store { snap with covered := m.covered }).2 = n.kept store
          else n.disk.snapshotFile = .empty := by
  have hrefused (n : RaftNode) (store : KVStore) : (n.processingFailed store).Refused := ⟨_, _, rfl⟩
  unfold finishTransferIn
  split
  · next hnone =>
    rw [hnone]
    exact iff_of_true (fun _ => rfl) (.inr nofun)
  · next snap hsnap =>
    rw [hsnap]
    simp only [Option.mem_def, Option.some.injEq, forall_eq']
    split
    · next hdir => exact iff_of_true (fun _ => rfl) (.inl hdir)
    · next hdir =>
      rw [or_iff_right hdir]
      cases hdumps : snap.dumps with
      | false =>
        simp only [if_true, Bool.false_eq_true, if_false]
        rw [← n.emptySnapshotFile_kept store]
        exact ⟨fun h => h (hrefused _ _), fun h _ => h⟩
      | true =>
        simp only [if_true, Bool.true_eq_false, if_false]
        split
        · next hmeta =>
          refine iff_of_true (fun ⟨_, _, h⟩ => ?_) (.inl hmeta)
          cases h
        · next hmeta =>
          rw [or_iff_right hmeta]
          exact ⟨fun h => h (hrefused _ _), fun h _ => h⟩

/-- The snapshot is decoded from what the chunk leaves in the buffer. -/
theorem assembled_written {n : RaftNode} {m : InstallSnapshotRPC} {buffer : Str}
    (hw : writeChunk (n.bufferFor m) m.offset (chunkOf m) = .written buffer) :
    n.assembled m = if m.done then deserializeSnapshot buffer else none := by
  have hw' : writeChunk (if m.offset = 0 then [] else n.snapshotBuffer) m.offset (chunkOf m) = .written buffer := hw
  unfold assembled
  rw [hw']

/-- A chunk that cannot be written leaves none. -/
theorem assembled_unwritten {n : RaftNode} {m : InstallSnapshotRPC}
    (hw : ∀ buffer, writeChunk (n.bufferFor m) m.offset (chunkOf m) ≠ .written buffer) : n.assembled m = none := by
  unfold assembled
  split
  · split
    · next buffer hb => exact absurd hb (hw buffer)
    · rfl
  · rfl

/-- A message that is answered without success leaves the store, the log, the snapshot in memory and on disk and the indices as they
were, exactly where no exception comes after the snapshot file is opened. -/
theorem refused_kept_iff (directories : Bool) (n : RaftNode) (store : KVStore) (m : InstallSnapshotRPC) :
    (∀ a ∈ n.handleInstallSnapshotIn directories store m, a.handled.Refused → a.handled.node.kept a.handled.store = n.kept store) ↔
      n.refusesCleanly directories store m := by
  have hbuffer : ((n.seeTerm m.term).setBuffer ((n.seeTerm m.term).bufferFor m)).snapshotBuffer = n.bufferFor m := by
    obtain ⟨_, _, _, _, _, heq⟩ := n.seeTerm_shape m.term
    rw [heq]
    rfl
  unfold handleInstallSnapshotIn refusesCleanly
  split
  · next ht =>
    refine iff_of_true (fun a ha _ => ?_) (.inl ht)
    cases ha
    rfl
  · next ht =>
    rw [or_iff_right ht]
    split
    · next hf =>
      refine iff_of_true (fun a ha _ => ?_) (.inr (.inl hf))
      cases ha
      exact n.becomeFollower_kept m.term store
    · next hf =>
      rw [or_iff_right hf]
      simp only [hbuffer]
      cases hw : writeChunk (n.bufferFor m) m.offset (chunkOf m) with
      | undefined =>
        rw [assembled_unwritten fun buffer hb => by cases hw.symm.trans hb]
        simp
      | lengthError =>
        rw [assembled_unwritten fun buffer hb => by cases hw.symm.trans hb]
        refine iff_of_true (fun a ha _ => ?_) (.inr (by simp))
        cases ha
        exact n.seeTerm_kept m.term store
      | written buffer =>
        rw [assembled_written hw]
        simp only
        by_cases hd : m.done = true
        · rw [if_pos hd, if_pos hd]
          simp only [Option.mem_def, Option.some.injEq, forall_eq']
          have hend := finishTransferIn_kept (((n.seeTerm m.term).setBuffer ((n.seeTerm m.term).bufferFor m)).setBuffer buffer)
            store m directories
          simp only [setBuffer_setBuffer, setBuffer_snapshotBuffer, setBuffer_kept, seeTerm_kept, (installSnapshot_kept ..).1,
            (installSnapshot_kept ..).2, standsAt_iff, setBuffer_snapshotFile, seeTerm_snapshotFile, Option.mem_def] at hend ⊢
          exact hend
        · rw [if_neg hd, if_neg hd]
          refine iff_of_true (fun a ha hr => ?_) (.inr fun _ h => by cases h)
          cases ha
          obtain ⟨_, _, h⟩ := hr
          cases h

/-- Where the directory is there and the strings of the node are valid, this is the handler. -/
theorem handleInstallSnapshotIn_whole (hd : n.dumpsMetadata = true) :
    n.handleInstallSnapshotIn true store m = (n.handleInstallSnapshot store m).map Attempt.whole := by
  have htables : n.dumpsTables = true := by
    unfold dumpsTables
    unfold dumpsMetadata at hd ⊢
    simp only [Bool.and_eq_true, List.all_nil, true_and] at hd ⊢
    exact ⟨hd.1.2, hd.2⟩
  unfold handleInstallSnapshotIn handleInstallSnapshot
  split
  · rfl
  · rw [if_neg (by simp [hd])]
    simp only [bufferFor]
    cases writeChunk ((n.seeTerm m.term).setBuffer (if m.offset = 0 then [] else (n.seeTerm m.term).snapshotBuffer)).snapshotBuffer
      m.offset (chunkOf m) with
    | undefined => rfl
    | lengthError => rfl
    | written buffer =>
      simp only [setBuffer_setBuffer]
      split
      · unfold finishTransferIn finishTransfer
        rw [setBuffer_snapshotBuffer]
        cases deserializeSnapshot buffer with
        | none => rfl
        | some snap =>
          cases hdumps : snap.dumps with
          | false => simp [hdumps]
          | true => simp [hdumps, (installSnapshot_kept n m.term buffer store snap m.covered).2, htables]
      · rfl

/-- A snapshot whose one value is no valid UTF-8, and a message with its whole image. -/
def binarySnapshot : Snapshot where
  lastIncludedIndex := 3
  lastIncludedTerm := 1
  kvState := (∅ : StrMap).insert (ascii "k") [255]
  covered := []
def binaryImage : InstallSnapshotRPC where
  term := 1
  leaderId := 0
  lastIncludedIndex := 3
  lastIncludedTerm := 1
  offset := 0
  data := base64Encode (serializeSnapshot binarySnapshot)
  done := true
  covered := []

/-- The message is refused, and the follower, which had no snapshot file, has an empty one, with which it will not start again. -/
theorem refused_file_emptied : ¬∀ (directories : Bool) (n : RaftNode) (store : KVStore) (m : InstallSnapshotRPC),
    ∀ a ∈ n.handleInstallSnapshotIn directories store m, a.handled.Refused → a.handled.node.kept a.handled.store = n.kept store := by
  intro h
  obtain ⟨snap, hassembled, hdumps⟩ : ∃ snap, emptyFollower.assembled binaryImage = some snap ∧ snap.dumps = false :=
    Option.map_eq_some_iff.mp (show (emptyFollower.assembled binaryImage).map Snapshot.dumps = some false by decide +kernel)
  rcases (refused_kept_iff true emptyFollower KVStore.empty binaryImage).mp (h _ _ _ _) with h | h | h | h
  · exact absurd h (by decide)
  · cases h
  · exact absurd h.2.2 (by decide)
  · have hfile := h snap hassembled
    rw [if_neg (by simp [hdumps])] at hfile
    cases hfile

end RaftNode

end RaftStore
