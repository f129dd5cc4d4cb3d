import RaftStore.Consensus.Completeness
import RaftStore.Cluster
import RaftStore.Conditions
import RaftStore.Lemmas.Aligned
import RaftStore.Theorems.Elections
import RaftStore.Theorems.Ballots
import RaftStore.Theorems.Applied
import RaftStore.Theorems.Applying
import RaftStore.Theorems.Terms
import RaftStore.Theorems.Speaking
import RaftStore.Theorems.Durable
import RaftStore.Theorems.Recovery
import RaftStore.Theorems.Replay
import RaftStore.Theorems.Compaction
import RaftStore.Theorems.Alignment
import RaftStore.Theorems.Reads
import RaftStore.Theorems.Retries
import RaftStore.Theorems.Cache
import RaftStore.Theorems.Deadlock
import RaftStore.Theorems.Wal
import RaftStore.Theorems.Writers
import RaftStore.Theorems.Acknowledged
import RaftStore.Theorems.Assembly
import RaftStore.Theorems.Divergence
import RaftStore.Theorems.Wire
import RaftStore.Theorems.Restriction
import RaftStore.Theorems.Install
import RaftStore.Theorems.Damaged
import RaftStore.Theorems.Commands
import RaftStore.Theorems.Verified
import RaftStore.Theorems.Batches
import RaftStore.Theorems.Replaced
import RaftStore.Theorems.Results
import RaftStore.Theorems.StepDown
import RaftStore.Theorems.Base64
import RaftStore.Theorems.Spellings
import RaftStore.Theorems.Requests
import RaftStore.Theorems.Endings
import RaftStore.Theorems.Timer
import RaftStore.Theorems.Returns
import RaftStore.Theorems.Electable
import RaftStore.Theorems.Codec
import RaftStore.Theorems.Utf8
