import RaftStore.Conditions

/-!
# InstallSnapshot in finer steps

The InstallSnapshot handler once more: the range of the buffer that a chunk is copied to, and the handler with the exceptions that its
files can raise. `create_directories` of `saveSnapshot` may fail, and the dump of `persistMetadata` throws for a node with a string that
is no valid UTF-8; in `handleInstallSnapshot` neither happens.
-/

namespace RaftStore

/-! ## The copy of a chunk -/

/-- A copy to the places from `start` up to `stop` of a buffer of this size. -/
structure ChunkCopy where
  start : ℤ
  stop : ℤ
  size : ℕ
  deriving DecidableEq

/-- The copy stays inside the buffer. -/
def ChunkCopy.InBounds (w : ChunkCopy) : Prop := 0 ≤ w.start ∧ w.stop ≤ w.size

instance (w : ChunkCopy) : Decidable w.InBounds := instDecidableAnd

/-- `offset + chunk.size()`: the offset is converted to `size_t`, and so is the sum. -/
def sizeWith (offset : ℤ) (chunk : Str) : ℕ := ((offset + chunk.length) % 2 ^ 64).toNat

namespace RaftNode

/-- `snapshotBuffer` when the chunk of a message is written. -/
def bufferFor (n : RaftNode) (m : InstallSnapshotRPC) : Str := if m.offset = 0 then [] else n.snapshotBuffer

/-- The `std::copy` of the handler after its `resize`; `none` where it copies nothing: the message is stale, `resize` throws, or the
chunk is empty. -/
def chunkCopy (n : RaftNode) (m : InstallSnapshotRPC) : Option ChunkCopy :=
  if m.term < n.currentTerm then none
  else
    let chunk := chunkOf m
    let size := sizeWith m.offset chunk
    if (n.bufferFor m).length < size ∧ maxBufferSize < size then none
    else if chunk = [] then none
    else some { start := m.offset, stop := m.offset + chunk.length, size := max (n.bufferFor m).length size }

end RaftNode

/-! ## The handler with failing files -/

/-- How the handling of a message ends. `metadataEmptied`: the metadata file, otherwise as in the node, was left empty by a dump that
threw. -/
structure Attempt where
  handled : Handled
  metadataEmptied : Bool

/-- A handling with whole files. -/
def Attempt.whole (h : Handled) : Attempt := { handled := h, metadataEmptied := false }

namespace RaftNode

/-- The answer to an exception that only the handler of the whole message catches. -/
def handlerFailed (n : RaftNode) (store : KVStore) : Handled where
  node := n
  store := store
  reply := .installSnapshot n.currentTerm false (ascii "handler_failed")
  events := []

/-- The metadata file is that of another state of the node. -/
def withMetadataOf (n n' : RaftNode) : RaftNode := { n with disk := { n.disk with metadata := n'.disk.metadata } }

/-- The node after the last chunk, where `directories` says whether `create_directories` succeeds: the image is decoded, saved and
installed, and then the metadata is written. -/
def finishTransferIn (directories : Bool) (n : RaftNode) (store : KVStore) (m : InstallSnapshotRPC) : Attempt :=
  match deserializeSnapshot n.snapshotBuffer with
  | none => .whole (n.processingFailed store)
  | some snap =>
    if directories = false then .whole (n.processingFailed store)
    else if snap.dumps = false then .whole (n.emptySnapshotFile.processingFailed store)
    else
      let (n', store') := n.installSnapshot store { snap with covered := m.covered }
      if n'.dumpsMetadata then
        .whole { node := n', store := store', reply := .installSnapshot n'.currentTerm true [], events := [] }
      else
        -- `persistMetadata` comes after the assignments, and before the buffer is cleared
        { handled := ((n'.withMetadataOf n).setBuffer n.snapshotBuffer).processingFailed store', metadataEmptied := true }

/-- `handle_node_client`, InstallSnapshot, with the exceptions that its files can raise. -/
def handleInstallSnapshotIn (directories : Bool) (n : RaftNode) (store : KVStore) (m : InstallSnapshotRPC) : Option Attempt :=
  if m.term < n.currentTerm then
    some (.whole { node := n, store := store, reply := .installSnapshot n.currentTerm false (ascii "stale_term"), events := [] })
  else if n.currentTerm < m.term ∧ n.shutdownRequested = false ∧ n.dumpsMetadata = false then
    -- `persistMetadata` of `becomeFollower`, after its assignments
    some { handled := ((n.becomeFollower m.term).withMetadataOf n).handlerFailed store, metadataEmptied := true }
  else
    let n := n.seeTerm m.term
    let n := n.setBuffer (n.bufferFor m)
    match writeChunk n.snapshotBuffer m.offset (chunkOf m) with
    | .undefined => none
    | .lengthError => some (.whole (n.processingFailed store))
    | .written buffer =>
      let n := n.setBuffer buffer
      if m.done then some (n.finishTransferIn directories store m)
      else some (.whole { node := n, store := store, reply := .installSnapshot n.currentTerm true [], events := [] })

end RaftNode

/-! ## What a refused message is to leave -/

/-- What a snapshot says: its index, its term, and what it has for each key. -/
structure SnapshotContent where
  lastIncludedIndex : ℤ
  lastIncludedTerm : ℤ
  lookup : Str → Option Str

/-- What a snapshot says. -/
def Snapshot.content (snap : Snapshot) : SnapshotContent where
  lastIncludedIndex := snap.lastIncludedIndex
  lastIncludedTerm := snap.lastIncludedTerm
  lookup k := snap.kvState.lookup k

/-- What is in a snapshot file: `none` where there is no file, `some none` in an empty one. -/
def SnapshotFile.content : SnapshotFile → Option (Option SnapshotContent)
  | .absent => none
  | .empty => some none
  | .saved snap => some (some snap.content)

/-- The store, the log, the snapshot in memory and on disk, and how far the log is committed and applied. -/
structure Kept where
  lookup : Str → Option Str
  writeAheadLog : WAL
  log : List LogEntry
  latestSnapshot : Option SnapshotContent
  commitIndex : ℤ
  lastApplied : ℤ
  snapshotFile : Option (Option SnapshotContent)

/-- These parts of a node and the store. -/
def RaftNode.kept (n : RaftNode) (store : KVStore) : Kept where
  lookup := store.get
  writeAheadLog := store.writeAheadLog
  log := n.log
  latestSnapshot := n.latestSnapshot.map Snapshot.content
  commitIndex := n.commitIndex
  lastApplied := n.lastApplied
  snapshotFile := n.disk.snapshotFile.content

/-- The answer is one without success. -/
def Handled.Refused (h : Handled) : Prop := ∃ term error, h.reply = .installSnapshot term false error

end RaftStore
