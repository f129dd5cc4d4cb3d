import RaftStore.Lemmas.Storage
import RaftStore.Theorems.Applying

/-!
# What is committed is in the files

A run is kept together with the entries that were committed on the node. A commit section sets `commitIndex` in the middle of a
step: the node at that point, and the node after each step, have in their files what was committed so far, where a leader commits
only what it has written, and nothing that was committed is cut off.
-/

namespace RaftStore

namespace RaftNode

/-- The entries up to `commitIndex`, each with its global index. -/
def upToCommit (n : RaftNode) : List (ℤ × LogEntry) :=
  (List.range (n.commitIndex + 1).toNat).filterMap fun i : ℕ => (n.globalEntry i).map fun e => ((i : ℤ), e)

variable {n : RaftNode} {es : List (ℤ × LogEntry)}

/-- What a node has up to a commit index within its metadata file is held. -/
theorem Stored.upToCommit (h : n.Stored es) (hs : n.Sound) (hc : n.commitIndex < n.baseIndex + n.saved.logEntries.length) :
    n.Stored (n.upToCommit ++ es) := by
  refine ⟨h.file, h.base, fun p hp => ?_⟩
  rcases List.mem_append.mp hp with hp | hp
  · obtain ⟨i, hi, hpe⟩ := List.mem_filterMap.mp hp
    obtain ⟨e, he, rfl⟩ := Option.map_eq_some_iff.mp hpe
    have hi : i < (n.commitIndex + 1).toNat := List.mem_range.mp hi
    -- an entry above the snapshot stands in the log, below the end of what is written of it
    have hlog (hb : n.baseIndex ≤ i) (he : n.entryAt (n.logIdx i) = some e) : n.Holds i e := by
      refine Or.inr ⟨hb, ?_⟩
      obtain ⟨l, hl⟩ := hs.saved_prefix
      rw [entryAt_of_nonneg n (by rw [logIdx_eq]; omega), ← hl, List.getElem?_append_left (by rw [logIdx_eq]; omega)] at he
      exact he
    unfold globalEntry at he
    split at he
    · next s hsnap =>
      have hb : n.baseIndex = s.lastIncludedIndex + 1 := by simp [baseIndex, hsnap]
      split at he
      · next hle => exact Or.inl ⟨s, hsnap, hle⟩
      · exact hlog (by omega) he
    · next hsnap =>
      have hb : n.baseIndex = 0 := by simp [baseIndex, hsnap]
      exact hlog (by omega) he
  · exact h.held p hp

/-- Where `commitIndex` is set within the metadata file, what is committed is held. -/
theorem Stored.setCommitIndex (h : n.Stored es) (hs : n.Sound) {k : ℤ}
    (hk : k < n.baseIndex + n.saved.logEntries.length) :
    (n.setCommitIndex k).Sound ∧ (n.setCommitIndex k).Stored ((n.setCommitIndex k).upToCommit ++ es) := by
  have hk' : (n.setCommitIndex k).Sound := hs.congr rfl rfl rfl rfl
  have hst : (n.setCommitIndex k).Stored es := h.stores (.congr rfl rfl le_rfl)
  exact ⟨hk', hst.upToCommit hk' hk⟩

/-- What the AppendEntries handler does to a sound node: it commits, or takes the message over at most. -/
theorem Sound.handleAppendEntries_commit (h : n.Sound) (store : KVStore) (m : AppendEntriesRPC) :
    ((n.accepts m ∧ n.commitIndex < m.leaderCommit) ∧ (n.handleAppendEntries store m).node =
        (((n.stepDown m).acceptEntries m).advanceCommit store m.leaderCommit).1) ∨
      ¬(n.accepts m ∧ n.commitIndex < m.leaderCommit) ∧ ((n.handleAppendEntries store m).node = n ∨
        n.currentTerm ≤ m.term ∧ (n.handleAppendEntries store m).node = (n.stepDown m).acceptEntries m) := by
  have hprev := (n.stepDown_checks m).1
  have hci : ((n.stepDown m).acceptEntries m).commitIndex = n.commitIndex :=
    congrArg Progress.commitIndex (((n.stepDown m).acceptEntries_progress m).trans (n.stepDown_progress m))
  unfold RaftNode.handleAppendEntries
  simp only [h.idle, Bool.false_eq_true, false_and, if_false]
  split
  · next ht => exact Or.inr ⟨fun hacc => absurd ht (not_lt.mpr hacc.1.1), Or.inl rfl⟩
  · next ht =>
    rw [hprev, hci]
    split
    · next hc => exact Or.inl ⟨⟨⟨not_lt.mp ht, hc.1⟩, hc.2⟩, rfl⟩
    · next hc => exact Or.inr ⟨fun hacc => hc ⟨hacc.1.2, hacc.2⟩, Or.inr ⟨not_lt.mp ht, rfl⟩⟩

/-- What the InstallSnapshot handler does to the files: nothing is lost, or an image has come in whole, which is installed or
cannot be dumped. -/
theorem Sound.handleInstallSnapshot_stores (h : n.Sound) {store : KVStore} {m : InstallSnapshotRPC} {r : Handled}
    (hr : n.handleInstallSnapshot store m = some r) : n.Stores r.node ∨ n.currentTerm ≤ m.term ∧ ∃ snap ∈ n.assembled m,
      snap.dumps = false ∨ ∃ n' : RaftNode, r.node = (n'.installSnapshot store { snap with covered := m.covered }).1 := by
  have hst (b : Str) : n.Stores ((n.seeTerm m.term).setBuffer b) :=
    (h.seeTerm_stores m.term).trans (Stores.congr rfl rfl le_rfl)
  unfold RaftNode.handleInstallSnapshot at hr
  simp only [setBuffer_snapshotBuffer, setBuffer_setBuffer] at hr
  split at hr
  · obtain rfl := Option.some.inj hr
    exact Or.inl (Stores.refl n)
  · next ht =>
    split at hr
    · cases hr
    · obtain rfl := Option.some.inj hr
      exact Or.inl (hst _)
    · next buffer hw =>
      split at hr
      · next hd =>
        obtain rfl := Option.some.inj hr
        unfold finishTransfer
        rw [setBuffer_snapshotBuffer]
        split
        · exact Or.inl (hst buffer)
        · next snap hsnap =>
          refine Or.inr ⟨not_lt.mp ht, snap, assembled_eq hd hsnap hw, ?_⟩
          split
          · exact Or.inr ⟨_, rfl⟩
          · next hdumps => exact Or.inl (Bool.eq_false_of_not_eq_true hdumps)
      · obtain rfl := Option.some.inj hr
        exact Or.inl (hst buffer)

end RaftNode

namespace Site

/-- The node at the point of a step at which a commit section has set `commitIndex`. -/
def commitPoint (s : Site) (i : Input) : Option RaftNode :=
  match i with
  | .receive (.appendEntries m) =>
    if s.node.accepts m ∧ s.node.commitIndex < m.leaderCommit then
      let n := (s.node.stepDown m).acceptEntries m
      some (n.setCommitIndex (min m.leaderCommit (n.getLogSize - 1)))
    else none
  | i => (s.committing i).map fun call => s.node.setCommitIndex call.newIndex

/-- Nothing of what is committed is lost by the step: a client command commits only what is in the metadata file or under the
snapshot, a conflict does not cut off what is committed, and a snapshot that comes in covers it and can be written. -/
def keepsDurable (s : Site) (es : List (ℤ × LogEntry)) (i : Input) : Prop :=
  (∀ call ∈ s.committing i, call.newIndex < s.node.baseIndex + s.node.saved.logEntries.length) ∧
    (∀ m ∈ i.appendEntries, s.node.accepts m → s.node.firstMatches m = some false → ∀ p ∈ es, p.1 ≤ m.prevLogIndex) ∧
    ∀ m ∈ i.installSnapshot, s.node.currentTerm ≤ m.term → ∀ snap ∈ s.node.assembled m,
      snap.dumps = true ∧ ∀ p ∈ es, p.1 ≤ snap.lastIncludedIndex

instance (s : Site) (es : List (ℤ × LogEntry)) (i : Input) : Decidable (s.keepsDurable es i) :=
  inferInstanceAs (Decidable ((∀ call ∈ s.committing i,
      call.newIndex < s.node.baseIndex + s.node.saved.logEntries.length) ∧
    (∀ m ∈ i.appendEntries, s.node.accepts m → s.node.firstMatches m = some false → ∀ p ∈ es, p.1 ≤ m.prevLogIndex) ∧
    ∀ m ∈ i.installSnapshot, s.node.currentTerm ≤ m.term → ∀ snap ∈ s.node.assembled m,
      snap.dumps = true ∧ ∀ p ∈ es, p.1 ≤ snap.lastIncludedIndex))

variable {size next : ℕ} {s : Site} {store : KVStore} {i : Input} {o : Outcome} {es : List (ℤ × LogEntry)} {n : RaftNode}

/-- What is committed at a commit point is held there, and so is what was committed before. -/
theorem Sound.commitPoint_stored (h : s.Sound) (hes : s.node.Stored es) (hk : s.keepsDurable es i)
    (hn : s.commitPoint i = some n) : n.Sound ∧ n.Stored (n.upToCommit ++ es) := by
  unfold commitPoint at hn
  split at hn
  · next m =>
    split at hn
    · next hacc =>
      obtain rfl := Option.some.inj hn
      have hd := h.node.stepDown m hacc.1.1
      have ha := hd.acceptEntries m
      have hst : ((s.node.stepDown m).acceptEntries m).Stored es :=
        (hes.stores (h.node.stepDown_stores m)).acceptEntries hd fun _ hf =>
          hk.2.1 m rfl hacc.1 ((s.node.stepDown_checks m).2.1 ▸ hf)
      -- the metadata has just been written
      have hsaved : ((s.node.stepDown m).acceptEntries m).saved.logEntries = ((s.node.stepDown m).acceptEntries m).log := by
        obtain ⟨l, heq⟩ := (s.node.stepDown m).acceptEntries_eq m
        rw [heq]
        rfl
      refine hst.setCommitIndex ha ?_
      rw [hsaved]
      unfold RaftNode.getLogSize
      omega
    · cases hn
  · obtain ⟨call, hc, rfl⟩ := Option.map_eq_some_iff.mp hn
    exact hes.setCommitIndex h.node (hk.1 call hc)

/-- The end of both commit sections keeps what the node holds. -/
theorem stored_of_commit (h : n.Stored es) (hs : n.Sound) (store : KVStore) :
    ((n.applyCommitted store).node.snapshotAtThreshold (n.applyCommitted store).store).1.Stored es :=
  (h.stores (n.applyCommitted_stores store)).snapshotAtThreshold (hs.applyCommitted store) _

/-- A step keeps what the node holds, and what it commits. -/
theorem Sound.step_stored (h : s.Sound) (hes : s.node.Stored es) (hk : s.keepsDurable es i)
    (hs : Step size next s store i o) :
    o.site.node.Stored ((s.commitPoint i).elim [] RaftNode.upToCommit ++ es) := by
  have hn := h.node
  have hsend {k : ℕ} {call : ClientCall} (hc : s.clients[k]? = some call)
      (hq : call.phase = .ready → s.node.peerRpcPorts.length ≤ call.i → ¬mayCommit s.node call) :
      s.commitPoint (.step (.client k)) = none := by
    simpa [commitPoint, committing, Input.clientStep, hc] using hq
  cases hs with
  | startElection he hl => exact hes.stores (.persist hn.saved_prefix rfl rfl le_rfl)
  | join el he hp hh => exact hes.stores (.persist hn.saved_prefix rfl rfl le_rfl)
  | win el he hp hr hv =>
    show (s.elected el).node.Stored _
    unfold Site.elected
    split
    · exact hes.stores (.congr rfl rfl le_rfl)
    · exact hes.stores (.persist hn.saved_prefix rfl rfl le_rfl)
  | voteLater el call r term voteGranted he hp hr ht => exact hes.stores (.persist hn.saved_prefix rfl rfl le_rfl)
  | heartbeatLater hb i nextIdx count call r term success hh hp hr ht =>
    exact hes.stores (.persist hn.saved_prefix rfl rfl le_rfl)
  | heartbeatReply hb i nextIdx count call r term success hh hp hr ht =>
    obtain ⟨_, _, heq⟩ := heartbeatAnswered_shape s.node i nextIdx count success
    show (heartbeatAnswered s.node i nextIdx count success).Stored _
    rw [heq]
    exact hes.stores (.congr rfl rfl le_rfl)
  | heartbeatChunkReply hb i t call r hh hp phase hph => exact hes.stores (t.reply_stores s.node i r)
  | append req hl hc => exact hes.stores (.congr rfl rfl le_rfl)
  | send k call p hc hp hi =>
    rw [hsend hc fun _ hle => by cases hi.symm.trans (List.getElem?_eq_none hle)]
    exact hes
  | notCommitted k call hc hp hi hm =>
    rw [hsend hc fun _ _ => hm]
    exact hes
  | sendChunk k call t p hc hp hi =>
    rw [hsend hc fun hr => by cases hp.symm.trans hr]
    exact hes
  | commit k call hc hp hi hm =>
    have hcp : s.commitPoint (.step (.client k)) = some (s.node.setCommitIndex call.newIndex) := by
      simpa [commitPoint, committing, Input.clientStep, hc, hp, hm] using List.getElem?_eq_none_iff.mp hi
    obtain ⟨hns, hnh⟩ := h.commitPoint_stored hes hk hcp
    rw [hcp]
    show (Site.commit s.node store call).1.Stored _
    unfold Site.commit
    simp only [hns.applyWhileUp_eq]
    exact (stored_of_commit hnh hns store).stores
      (.persist (RaftNode.Sound.saved_prefix ((hns.applyCommitted store).snapshotAtThreshold _)) rfl rfl le_rfl)
  | later k call id r term success hc hp hr ht => exact hes.stores (.persist hn.saved_prefix rfl rfl le_rfl)
  | success k call id r term hc hp hr ht => exact hes.stores (.congr rfl rfl le_rfl)
  | failure k call id r term hc hp hr ht call' hc' => exact hes.stores (s.node.retreat_stores call.i)
  | chunkReply k call t id r hc hp call' hc' => exact hes.stores (t.reply_stores s.node call.i r)
  | receive req r hr =>
    cases req with
    | requestVote m =>
      obtain rfl := Option.some.inj hr
      exact hes.stores (hn.handleRequestVote_stores store m)
    | appendEntries m =>
      obtain rfl := Option.some.inj hr
      rcases hn.handleAppendEntries_commit store m with ⟨hacc, heq⟩ | ⟨hacc, heq⟩
      · have hcp : s.commitPoint (.receive (.appendEntries m)) = some (((s.node.stepDown m).acceptEntries m).setCommitIndex
            (min m.leaderCommit (((s.node.stepDown m).acceptEntries m).getLogSize - 1))) := if_pos hacc
        obtain ⟨hns, hnh⟩ := h.commitPoint_stored hes hk hcp
        rw [hcp]
        show (s.node.handleAppendEntries store m).node.Stored _
        rw [heq]
        exact stored_of_commit hnh hns store
      · have hcp : s.commitPoint (.receive (.appendEntries m)) = none := if_neg hacc
        rw [hcp]
        show (s.node.handleAppendEntries store m).node.Stored es
        rcases heq with heq | ⟨ht, heq⟩
        · rw [heq]
          exact hes
        · rw [heq]
          obtain ⟨hprev, hfirst, _⟩ := s.node.stepDown_checks m
          exact (hes.stores (hn.stepDown_stores m)).acceptEntries (hn.stepDown m ht) fun hm hf =>
            hk.2.1 m rfl ⟨ht, hprev ▸ hm⟩ (hfirst ▸ hf)
    | installSnapshot m =>
      show r.node.Stored es
      rcases hn.handleInstallSnapshot_stores hr with hst | ⟨ht, snap, hsnap, hcase⟩
      · exact hes.stores hst
      · obtain ⟨hd, hcov⟩ := hk.2.2 m rfl ht snap hsnap
        rcases hcase with hf | ⟨n', heq⟩
        · exact absurd (hd.symm.trans hf) (by decide)
        · rw [heq]
          exact RaftNode.Stored.installSnapshot hcov
  | snapshotNow hl => exact hes.createSnapshot hn store
  | restart n store' hr => exact hes.restart hn hr
  | _ => exact hes

end Site

/-! ## Runs -/

/-- A node on its own, and the entries that were committed on it. -/
structure Ledger where
  solo : Solo
  committed : List (ℤ × LogEntry)

namespace Ledger

/-- A node that has never run. -/
def create (nodeId port : ℤ) (peers : List ℤ) : Ledger where
  solo := Solo.create nodeId port peers
  committed := []

/-- One step: a commit section adds the entries up to the index it has set. -/
def step (size : ℕ) (x : Ledger) (w : Occurrence) : Option Ledger :=
  (x.solo.step size w).map fun y =>
    { solo := y, committed := (x.solo.site.commitPoint w.input).elim [] RaftNode.upToCommit ++ x.committed }

/-- The step loses nothing of what is committed. -/
def keepsDurable (x : Ledger) (w : Occurrence) : Prop := x.solo.site.keepsDurable x.committed w.input

instance (x : Ledger) (w : Occurrence) : Decidable (x.keepsDurable w) :=
  inferInstanceAs (Decidable (x.solo.site.keepsDurable x.committed w.input))

variable {size : ℕ} {x y : Ledger}

/-- The node is sound, and holds what was committed on it. -/
structure Holding (x : Ledger) : Prop where
  sound : x.solo.site.Sound
  stored : x.solo.site.node.Stored x.committed

theorem holding_create (nodeId port : ℤ) (peers : List ℤ) : (create nodeId port peers).Holding where
  sound := Site.sound_create _ _ _
  stored := ⟨rfl, zero_le_one, fun _ hp => absurd hp List.not_mem_nil⟩

theorem Holding.step {w : Occurrence} (h : x.Holding) (hk : x.keepsDurable w) (hs : x.step size w = some y) : y.Holding := by
  obtain ⟨z, hz, rfl⟩ := Option.map_eq_some_iff.mp hs
  obtain ⟨o, ho, hsound, rfl⟩ := Solo.step_inv h.sound hz
  exact ⟨hsound, h.sound.step_stored h.stored hk ho⟩

/-- What was committed on a node is in its files: after every step, and where a commit section has just set `commitIndex`, in
every run that loses nothing of it. -/
theorem committed_durable {nodeId port : ℤ} {peers : List ℤ}
    (h : Systems.Run (step size) keepsDurable (create nodeId port peers) x) :
    (∀ p ∈ x.committed, x.solo.site.node.Durable p.1 p.2) ∧
      ∀ w, x.keepsDurable w → ∀ n ∈ x.solo.site.commitPoint w.input, ∀ p ∈ n.upToCommit ++ x.committed,
        n.Durable p.1 p.2 := by
  obtain ⟨hsound, hst⟩ := h.invariant (fun _ _ _ hx hk hs => hx.step hk hs) (holding_create nodeId port peers)
  exact ⟨fun p hp => hst.durable hp, fun w hk n hn p hp => (hsound.commitPoint_stored hst hk hn).2.durable hp⟩

/-- Node 0 of three nodes. -/
def ofThree : Ledger where
  solo := Solo.ofThree
  committed := []

/-- Inputs over the store the last step has left. -/
def alone (is : List Input) : List Occurrence := is.map fun i => { input := i, store := none }

/-- Node 0 takes a snapshot, which writes its second command to the metadata file, and commits that command. -/
def snapshotFirst : List Input :=
  Solo.isElected ++ [.clientRequest (putRequest 1 "a"), .clientRequest (putRequest 2 "b"), .snapshotNow] ++ Solo.replicates 1

theorem snapshotFirst_committed : ∃ x ∈ Systems.runAll (step 3) keepsDurable ofThree (alone snapshotFirst),
    x.committed.map (fun p => (p.1, p.2.index)) = [(0, 0), (1, 1)] := by
  decide +kernel

/-- In that run two entries are committed, the first under the snapshot. -/
theorem committed_durable_snapshotFirst : ∃ x ∈ Systems.runAll (step 3) keepsDurable ofThree (alone snapshotFirst),
    x.committed.map (fun p => (p.1, p.2.index)) = [(0, 0), (1, 1)] ∧
      (∀ p ∈ x.committed, x.solo.site.node.Durable p.1 p.2) ∧
        ∀ w, x.keepsDurable w → ∀ n ∈ x.solo.site.commitPoint w.input, ∀ p ∈ n.upToCommit ++ x.committed,
          n.Durable p.1 p.2 := by
  obtain ⟨x, hx, hc⟩ := snapshotFirst_committed
  exact ⟨x, hx, hc, committed_durable (Systems.Run.refl.runAll hx)⟩

/-- Node 0 is about to commit its first command. -/
def aboutToCommit : List Input := Solo.isElected ++ .clientRequest (putRequest 1 "a") :: (Solo.replicates 0).dropLast

theorem aboutToCommit_unwritten : ∃ x ∈ Systems.runAll (step 3) (fun _ _ => True) ofThree (alone aboutToCommit),
    ∃ n ∈ x.solo.site.commitPoint (.step (.client 0)), ∃ p ∈ n.upToCommit,
      n.disk.snapshotFile = .absent ∧ p.2 ∉ n.saved.logEntries := by
  decide +kernel

/-- What is committed need not be in the files: a leader commits a command that it has not written. -/
theorem committed_unwritten : ¬∀ x, Systems.Run (step 3) (fun _ _ => True) ofThree x →
    (∀ p ∈ x.committed, x.solo.site.node.Durable p.1 p.2) ∧
      ∀ w : Occurrence, ∀ n ∈ x.solo.site.commitPoint w.input, ∀ p ∈ n.upToCommit ++ x.committed, n.Durable p.1 p.2 := by
  intro h
  obtain ⟨x, hx, n, hn, p, hp, hfile, hsaved⟩ := aboutToCommit_unwritten
  rcases (h x (Systems.Run.refl.runAll hx)).2 { input := .step (.client 0), store := none } n hn p
    (List.mem_append_left _ hp) with ⟨s, hs, _⟩ | he
  · rw [hfile] at hs
    cases hs
  · exact hsaved he

end Ledger

end RaftStore
