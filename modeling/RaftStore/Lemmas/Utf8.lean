import RaftStore.Install
import RaftStore.Theorems.Base64
import RaftStore.Theorems.Wire
import RaftStore.Lemmas.Codec
import RaftStore.Lemmas.Entries
import RaftStore.Lemmas.Tables

/-!
# Valid UTF-8 under the operations on text

A text in UTF-8 stays one where it is cut before an ASCII character, and commands are cut only there. So a command in UTF-8 leaves a store in
which every key and value is valid UTF-8 with such a store, and a result that is valid UTF-8.
-/

namespace RaftStore

/-! ## Cutting a text -/

/-- An ASCII character continues nothing. -/
theorem isContinuation_of_low {c : UInt8} (h : c < 0x80) : isContinuation c = false := by
  have hlow : ¬(0x80 : UInt8) ≤ c := UInt8.not_le.mpr h
  simp [isContinuation, hlow]

/-- A text in UTF-8 may be cut before an ASCII character, and at its end. -/
theorem isUtf8_split {a b : Str} (h : isUtf8 (a ++ b) = true) (hb : ∀ c ∈ b.head?, c < 0x80) : isUtf8 a = true ∧ isUtf8 b = true := by
  have hcont {c : UInt8} {s : Str} (hs : b = c :: s) : isContinuation c = false :=
    isContinuation_of_low (hb c (by rw [hs]; rfl))
  -- a character of several bytes that ends in `b` would go on with an ASCII character
  fun_induction isUtf8 a with
  | case1 => exact ⟨rfl, h⟩
  | case2 c s hlow ih =>
    rw [List.cons_append, isUtf8.eq_def] at h
    simp only [if_pos hlow] at h
    exact ih h
  | case3 c s h1 h2 =>
    rw [List.cons_append, isUtf8.eq_def] at h
    simp only [if_neg h1, if_pos h2] at h
    cases h
  | case4 c h1 h2 h3 d s ih =>
    rw [List.cons_append, List.cons_append, isUtf8.eq_def] at h
    simp only [if_neg h1, if_neg h2, if_pos h3] at h
    rw [Bool.and_eq_true] at h
    obtain ⟨ha, hs⟩ := ih h.2
    exact ⟨by rw [h.1, ha]; rfl, hs⟩
  | case5 c h1 h2 h3 =>
    rw [List.cons_append, List.nil_append, isUtf8.eq_def] at h
    simp only [if_neg h1, if_neg h2, if_pos h3] at h
    cases b with
    | nil => cases h
    | cons d s => simp [hcont rfl] at h
  | case6 c h1 h2 h3 h4 d e s ih =>
    rw [List.cons_append, List.cons_append, List.cons_append, isUtf8.eq_def] at h
    simp only [if_neg h1, if_neg h2, if_neg h3, if_pos h4] at h
    rw [Bool.and_eq_true] at h
    obtain ⟨ha, hs⟩ := ih h.2
    exact ⟨by rw [h.1, ha]; rfl, hs⟩
  | case7 c s h1 h2 h3 h4 hshort =>
    rw [List.cons_append, isUtf8.eq_def] at h
    simp only [if_neg h1, if_neg h2, if_neg h3, if_pos h4] at h
    rcases s with _ | ⟨d, _ | ⟨e, s⟩⟩
    · cases b with
      | nil => cases h
      | cons d s => cases s <;> simp [hcont rfl] at h
    · cases b with
      | nil => cases h
      | cons e s => simp [hcont rfl] at h
    · exact absurd rfl (hshort d e s)
  | case8 c h1 h2 h3 h4 h5 d e f s ih =>
    rw [List.cons_append, List.cons_append, List.cons_append, List.cons_append, isUtf8.eq_def] at h
    simp only [if_neg h1, if_neg h2, if_neg h3, if_neg h4, if_pos h5] at h
    rw [Bool.and_eq_true] at h
    obtain ⟨ha, hs⟩ := ih h.2
    exact ⟨by rw [h.1, ha]; rfl, hs⟩
  | case9 c s h1 h2 h3 h4 h5 hshort =>
    rw [List.cons_append, isUtf8.eq_def] at h
    simp only [if_neg h1, if_neg h2, if_neg h3, if_neg h4, if_pos h5] at h
    rcases s with _ | ⟨d, _ | ⟨e, _ | ⟨f, s⟩⟩⟩
    · cases b with
      | nil => cases h
      | cons d s => rcases s with _ | ⟨e, _ | ⟨f, s⟩⟩ <;> simp [hcont rfl] at h
    · cases b with
      | nil => cases h
      | cons e s => cases s <;> simp [hcont rfl] at h
    · cases b with
      | nil => cases h
      | cons f s => simp [hcont rfl] at h
    · exact absurd rfl (hshort d e f s)
  | case10 c s h1 h2 h3 h4 h5 =>
    rw [List.cons_append, isUtf8.eq_def] at h
    simp only [if_neg h1, if_neg h2, if_neg h3, if_neg h4, if_neg h5] at h
    cases h

/-- An ASCII character in front changes nothing. -/
theorem isUtf8_cons_of_low {c : UInt8} (hc : c < 0x80) (s : Str) : isUtf8 (c :: s) = isUtf8 s := by
  rw [isUtf8.eq_def]
  simp only [if_pos hc]

/-- ASCII characters may be dropped from the front. -/
theorem isUtf8_dropWhile {p : UInt8 → Bool} (hp : ∀ c, p c = true → c < 0x80) {s : Str} (h : isUtf8 s = true) :
    isUtf8 (s.dropWhile p) = true := by
  induction s with
  | nil => rfl
  | cons c s ih =>
    rw [List.dropWhile_cons]
    split
    · next hc => exact ih (by rw [← isUtf8_cons_of_low (hp c hc)]; exact h)
    · exact h

/-- A text may be cut at the first character that is an ASCII character of some kind. -/
theorem isUtf8_span {p : UInt8 → Bool} (hp : ∀ c, p c = false → c < 0x80) {s : Str} (h : isUtf8 s = true) :
    isUtf8 (s.takeWhile p) = true ∧ isUtf8 (s.dropWhile p) = true := by
  rw [← List.takeWhile_append_dropWhile (p := p) (l := s)] at h
  refine isUtf8_split h fun c hc => hp c ?_
  have hnot := List.head?_dropWhile_not p s
  rw [Option.mem_def.mp hc] at hnot
  simpa using hnot

/-- A blank is an ASCII character. -/
theorem low_of_isSpace {c : UInt8} (h : isSpace c = true) : c < 0x80 := by
  simp only [isSpace, Bool.or_eq_true, Bool.and_eq_true, beq_iff_eq, decide_eq_true_eq, UInt8.le_iff_toNat_le] at h
  rw [UInt8.lt_iff_toNat_lt]
  rcases h with rfl | ⟨_, h⟩
  · decide
  · exact lt_of_le_of_lt h (by decide)

theorem takeToken_utf8 {s : Str} (h : isUtf8 s = true) : isUtf8 (takeToken s).1 = true ∧ isUtf8 (takeToken s).2 = true := by
  unfold takeToken
  rw [List.span_eq_takeWhile_dropWhile]
  exact isUtf8_span (fun c hc => low_of_isSpace (by simpa using hc)) (isUtf8_dropWhile (fun c hc => low_of_isSpace hc) h)

theorem getline_utf8 {s : Str} (h : isUtf8 s = true) : isUtf8 (getline s) = true :=
  (isUtf8_span (fun c hc => by
    obtain rfl : c = 10 := by simpa using hc
    decide) h).1

/-- The key and the value of a command in UTF-8. -/
theorem parseCommand_utf8 {command : Str} (h : isUtf8 command = true) :
    isUtf8 (parseCommand command).2.1 = true ∧ isUtf8 (parseCommand command).2.2 = true := by
  have htoken := takeToken_utf8 (takeToken_utf8 h).2
  have hline := getline_utf8 htoken.2
  unfold parseCommand
  refine ⟨htoken.1, ?_⟩
  simp only
  split
  · next value hvalue =>
    rw [hvalue, isUtf8_cons_of_low (by decide)] at hline
    exact hline
  · exact hline

/-! ## The store -/

/-- Every key and value is valid UTF-8: a dump accepts them. -/
def Utf8Map (m : StrMap) : Prop := m.entries.all (fun p => isUtf8 p.1 && isUtf8 p.2) = true

theorem utf8Map_empty : Utf8Map ∅ := rfl

theorem Utf8Map.insert {m : StrMap} (h : Utf8Map m) {k v : Str} (hk : isUtf8 k = true) (hv : isUtf8 v = true) :
    Utf8Map (m.insert k v) := by
  unfold Utf8Map at h ⊢
  rw [List.all_eq_true] at h ⊢
  intro p hp
  rw [AList.entries_insert] at hp
  rcases List.mem_cons.mp hp with rfl | hp
  · simp [hk, hv]
  · exact h p ((List.kerase_sublist k m.entries).subset hp)

theorem Utf8Map.erase {m : StrMap} (h : Utf8Map m) (k : Str) : Utf8Map (m.erase k) := by
  unfold Utf8Map at h ⊢
  rw [List.all_eq_true] at h ⊢
  exact fun p hp => h p ((List.kerase_sublist k m.entries).subset hp)

theorem Utf8Map.lookup {m : StrMap} (h : Utf8Map m) {k v : Str} (hk : m.lookup k = some v) : isUtf8 v = true := by
  unfold Utf8Map at h
  have hp := List.all_eq_true.mp h ⟨k, v⟩ (AList.mem_lookup_iff.mp hk)
  exact (Bool.and_eq_true_iff.mp hp).2

/-- A command in UTF-8 keeps the store in UTF-8, and so is its result. -/
theorem KVStore.applyCommand_utf8 {s : KVStore} (hs : Utf8Map s.mp) {command : Str} (h : isUtf8 command = true) :
    Utf8Map (s.applyCommand command).1.mp ∧ isUtf8 (s.applyCommand command).2 = true := by
  obtain ⟨hkey, hvalue⟩ := parseCommand_utf8 h
  unfold applyCommand
  simp only
  split
  · exact ⟨hs.insert hkey hvalue, isUtf8_of_all rfl⟩
  · split
    · split
      · next val hval => exact ⟨hs, hs.lookup hval⟩
      · exact ⟨hs, isUtf8_of_all rfl⟩
    · split
      · refine ⟨hs.erase _, ?_⟩
        split <;> exact isUtf8_of_all rfl
      · exact ⟨hs, isUtf8_of_all rfl⟩

/-! ## Nodes -/

/-- The dump of `persistMetadata` has accepted every string. -/
def Metadata.dumps (m : Metadata) : Bool :=
  m.logEntries.all (fun e => isUtf8 e.command) && m.clientLastRequest.entries.all (fun p => isUtf8 p.1) &&
    m.clientResultCache.entries.all (fun p => isUtf8 p.1 && isUtf8 p.2)

/-- The command of the entry is valid UTF-8. -/
def LogEntry.Utf8 (e : LogEntry) : Prop := isUtf8 e.command = true

namespace RaftNode

variable {n n' : RaftNode} {store : KVStore}

/-- Every string of the node and of its files is valid UTF-8. -/
structure Utf8 (n : RaftNode) : Prop where
  memory : n.dumpsMetadata = true
  metadata : ∀ m, n.disk.metadata = some m → m.dumps = true
  file : ∀ snap, n.disk.snapshotFile = .saved snap → snap.dumps = true

theorem dumpsMetadata_iff : n.dumpsMetadata = true ↔ n.Within LogEntry.Utf8 ∧
    n.clientLastRequest.entries.all (fun p => isUtf8 p.1) = true ∧ Utf8Map n.clientResultCache := by
  unfold dumpsMetadata Utf8Map
  rw [Bool.and_eq_true, Bool.and_eq_true, List.all_eq_true, and_assoc]
  rfl

/-- Another node with the same tables, whose log is in UTF-8 too. -/
theorem dumpsMetadata_congr (h : n.dumpsMetadata = true) (hl : n'.Within LogEntry.Utf8) (ht : n'.tables = n.tables) :
    n'.dumpsMetadata = true := by
  obtain ⟨_, hlast, hcache⟩ := dumpsMetadata_iff.mp h
  obtain ⟨hl', hc'⟩ := Prod.mk.inj ht
  exact dumpsMetadata_iff.mpr ⟨hl, by rw [hl']; exact hlast, by rw [hc']; exact hcache⟩

theorem Utf8.log (h : n.Utf8) : n.Within LogEntry.Utf8 := (dumpsMetadata_iff.mp h.memory).1

theorem Utf8.cache (h : n.Utf8) : Utf8Map n.clientResultCache := (dumpsMetadata_iff.mp h.memory).2.2

/-- A node with the same tables and files, whose log is in UTF-8. -/
theorem Utf8.congr (h : n.Utf8) (hl : n'.Within LogEntry.Utf8) (ht : n'.tables = n.tables) (hd : n'.disk = n.disk) :
    n'.Utf8 :=
  ⟨dumpsMetadata_congr h.memory hl ht, fun m hm => h.metadata m (by rw [← hd]; exact hm), fun s hs => h.file s (by rw [← hd]; exact hs)⟩

/-- The metadata is written. -/
theorem Utf8.persist (h : n.dumpsMetadata = true) (hf : ∀ snap, n.disk.snapshotFile = .saved snap → snap.dumps = true) :
    n.persistMetadata.Utf8 where
  memory := h
  metadata m hm := by
    obtain rfl := Option.some.inj hm
    exact h
  file := hf

/-- What is written is the log and the tables of a node that differs from this one in other fields. -/
theorem Utf8.persist_congr (h : n.Utf8) (hl : n'.Within LogEntry.Utf8) (ht : n'.tables = n.tables)
    (hd : n'.disk.snapshotFile = n.disk.snapshotFile) : n'.persistMetadata.Utf8 :=
  Utf8.persist (dumpsMetadata_congr h.memory hl ht) fun s hs => h.file s (by rw [← hd]; exact hs)

theorem Utf8.becomeFollower (h : n.Utf8) (t : ℤ) : (n.becomeFollower t).Utf8 := by
  unfold RaftNode.becomeFollower
  split
  · exact h
  · exact h.persist_congr h.log rfl rfl

theorem Utf8.seeTerm (h : n.Utf8) (t : ℤ) : (n.seeTerm t).Utf8 := by
  unfold RaftNode.seeTerm
  split
  · exact h.becomeFollower t
  · exact h

theorem Utf8.stepDown (h : n.Utf8) (m : AppendEntriesRPC) : (n.stepDown m).Utf8 := by
  unfold RaftNode.stepDown
  split
  · exact (h.becomeFollower m.term).congr (h.becomeFollower m.term).log rfl rfl
  · exact h.congr h.log rfl rfl

theorem Utf8.acceptEntries (h : n.Utf8) {m : AppendEntriesRPC} (hm : ∀ e ∈ m.entries, e.Utf8) : (n.acceptEntries m).Utf8 := by
  have hlog : (n.acceptEntries m).Within LogEntry.Utf8 := h.log.acceptEntries hm
  obtain ⟨log, heq⟩ := n.acceptEntries_eq m
  rw [heq] at hlog ⊢
  exact h.persist_congr hlog rfl rfl

/-- The snapshot of a store in UTF-8 is saved, and the log cut. -/
theorem Utf8.createSnapshot (h : n.Utf8) (hs : Utf8Map store.mp) : (n.createSnapshot store).1.Utf8 := by
  refine Utf8.persist (dumpsMetadata_congr h.memory (fun e he => ?_) ?_) fun snap hsnap => ?_
  · exact h.log e (truncateLogSafe_subset (n.saveSnapshot (n.newSnapshot store)) n.lastApplied he)
  · obtain ⟨_, heq⟩ := (n.saveSnapshot (n.newSnapshot store)).truncateLogSafe_shape (n.newSnapshot store).lastIncludedIndex
    rw [heq]
    rfl
  · obtain ⟨_, heq⟩ := (n.saveSnapshot (n.newSnapshot store)).truncateLogSafe_shape (n.newSnapshot store).lastIncludedIndex
    rw [heq] at hsnap
    obtain rfl := SnapshotFile.saved.inj hsnap
    exact hs

theorem Utf8.snapshotAtThreshold (h : n.Utf8) (hs : Utf8Map store.mp) :
    (n.snapshotAtThreshold store).1.Utf8 ∧ Utf8Map (n.snapshotAtThreshold store).2.mp := by
  unfold RaftNode.snapshotAtThreshold
  split
  · exact ⟨h.createSnapshot hs, hs⟩
  · exact ⟨h, hs⟩

/-- One turn of an apply loop keeps the store in UTF-8, and the last result. -/
theorem applyNext_utf8 {r : Applying} (hl : r.node.Within LogEntry.Utf8) (hs : Utf8Map r.store.mp)
    (hr : isUtf8 r.applyResult = true) : Utf8Map r.applyNext.store.mp ∧ isUtf8 r.applyNext.applyResult = true := by
  unfold Applying.applyNext
  simp only
  split
  · exact ⟨hs, hr⟩
  · next e he =>
    have hcmd := hl e (mem_of_entryAt he)
    unfold applyToStateMachine
    split
    · exact ⟨hs, isUtf8_of_all rfl⟩
    · exact KVStore.applyCommand_utf8 hs hcmd

theorem applyCommitted_utf8 (hl : n.Within LogEntry.Utf8) (hs : Utf8Map store.mp) :
    Utf8Map (n.applyCommitted store).store.mp ∧ isUtf8 (n.applyCommitted store).applyResult = true := by
  unfold applyCommitted
  generalize (n.commitIndex - n.lastApplied).toNat = k
  induction k with
  | zero => exact ⟨hs, rfl⟩
  | succ k ih =>
    rw [Function.iterate_succ_apply']
    refine applyNext_utf8 (fun e he => hl e ?_) ih.1 ih.2
    rw [iterate_applyNext_node] at he
    exact he

theorem Utf8.applyCommitted (h : n.Utf8) (store : KVStore) : (n.applyCommitted store).node.Utf8 := by
  rw [applyCommitted_node]
  exact h.congr h.log rfl rfl

theorem Utf8.advanceCommit (h : n.Utf8) (hs : Utf8Map store.mp) (leaderCommit : ℤ) :
    (n.advanceCommit store leaderCommit).1.Utf8 ∧ Utf8Map (n.advanceCommit store leaderCommit).2.1.mp := by
  have hn : (n.setCommitIndex (min leaderCommit (n.getLogSize - 1))).Utf8 := h.congr h.log rfl rfl
  exact (hn.applyCommitted store).snapshotAtThreshold (applyCommitted_utf8 hn.log hs).1

/-- A snapshot that a dump accepts is installed. -/
theorem Utf8.installSnapshot (h : n.Utf8) (store : KVStore) {snap : Snapshot} (hd : snap.dumps = true) :
    (n.installSnapshot store snap).1.Utf8 ∧ Utf8Map (n.installSnapshot store snap).2.mp := by
  have hmemory : ({ n with
      lastApplied := snap.lastIncludedIndex
      commitIndex := snap.lastIncludedIndex
      log := []
      latestSnapshot := some snap } : RaftNode).dumpsMetadata = true :=
    dumpsMetadata_congr h.memory (fun e he => absurd he List.not_mem_nil) rfl
  refine ⟨⟨hmemory, fun m hm => ?_, fun s hs => ?_⟩, hd⟩
  · obtain rfl := Option.some.inj hm
    exact hmemory
  · obtain rfl := SnapshotFile.saved.inj hs
    exact hd

theorem Utf8.handleRequestVote (h : n.Utf8) (store : KVStore) (m : RequestVoteRPC) :
    (n.handleRequestVote store m).node.Utf8 ∧ (n.handleRequestVote store m).store = store ∧
      (n.handleRequestVote store m).reply.toJson.dumps = true := by
  have hseen := h.seeTerm m.term
  unfold RaftNode.handleRequestVote
  simp only
  split
  · exact ⟨h, rfl, rfl⟩
  · split
    · exact ⟨hseen.persist_congr hseen.log rfl rfl, rfl, rfl⟩
    · exact ⟨hseen, rfl, rfl⟩

theorem Utf8.handleAppendEntries (h : n.Utf8) (hs : Utf8Map store.mp) {m : AppendEntriesRPC} (hm : ∀ e ∈ m.entries, e.Utf8) :
    (n.handleAppendEntries store m).node.Utf8 ∧ Utf8Map (n.handleAppendEntries store m).store.mp ∧
      (n.handleAppendEntries store m).reply.toJson.dumps = true := by
  have haccepted := (h.stepDown m).acceptEntries hm
  unfold RaftNode.handleAppendEntries
  simp only
  split
  · exact ⟨h, hs, rfl⟩
  · split
    · exact ⟨h, hs, rfl⟩
    · split
      · obtain ⟨hn, hstore⟩ := haccepted.advanceCommit hs m.leaderCommit
        exact ⟨hn, hstore, rfl⟩
      · exact ⟨haccepted, hs, rfl⟩

theorem Utf8.setBuffer (h : n.Utf8) (buffer : Str) : (n.setBuffer buffer).Utf8 := h.congr h.log rfl rfl

theorem Utf8.emptySnapshotFile (h : n.Utf8) : n.emptySnapshotFile.Utf8 :=
  ⟨h.memory, h.metadata, fun s hs => by cases hs⟩

/-- A refusal names its reason in ASCII. -/
theorem dumps_refusal (term : ℤ) {success : Bool} {error : Str} (h : isUtf8 error = true) :
    (Reply.installSnapshot term success error).toJson.dumps = true := by
  unfold Reply.toJson
  cases error with
  | nil => rfl
  | cons c s => simp [Json.dumps, Json.dumpsMembers, h]

theorem Utf8.finishTransfer (h : n.Utf8) (hs : Utf8Map store.mp) (m : InstallSnapshotRPC) :
    (n.finishTransfer store m).node.Utf8 ∧ Utf8Map (n.finishTransfer store m).store.mp ∧
      (n.finishTransfer store m).reply.toJson.dumps = true := by
  unfold RaftNode.finishTransfer
  split
  · exact ⟨h, hs, dumps_refusal _ (isUtf8_of_all rfl)⟩
  · split
    · next hd =>
      obtain ⟨hn, hstore⟩ := h.installSnapshot store hd
      exact ⟨⟨hn.memory, hn.metadata, fun s hs => by
        obtain rfl := SnapshotFile.saved.inj hs
        exact hd⟩, hstore, rfl⟩
    · exact ⟨h.emptySnapshotFile, hs, dumps_refusal _ (isUtf8_of_all rfl)⟩

theorem Utf8.handleInstallSnapshot (h : n.Utf8) (hs : Utf8Map store.mp) {m : InstallSnapshotRPC} {r : Handled}
    (hr : n.handleInstallSnapshot store m = some r) : r.node.Utf8 ∧ Utf8Map r.store.mp ∧ r.reply.toJson.dumps = true := by
  have hbuffer (b : Str) := (h.seeTerm m.term).setBuffer b
  unfold RaftNode.handleInstallSnapshot at hr
  simp only [setBuffer_snapshotBuffer, setBuffer_setBuffer] at hr
  split at hr
  · obtain rfl := Option.some.inj hr
    exact ⟨h, hs, dumps_refusal _ (isUtf8_of_all rfl)⟩
  · split at hr
    · cases hr
    · obtain rfl := Option.some.inj hr
      exact ⟨hbuffer _, hs, dumps_refusal _ (isUtf8_of_all rfl)⟩
    · next buffer _ =>
      split at hr
      · obtain rfl := Option.some.inj hr
        exact (hbuffer buffer).finishTransfer hs m
      · obtain rfl := Option.some.inj hr
        exact ⟨hbuffer buffer, hs, rfl⟩

/-- Every handler keeps the node and the store in UTF-8, and its reply can be dumped. -/
theorem Utf8.handle (h : n.Utf8) (hs : Utf8Map store.mp) {req : Request} (hreq : ∀ e ∈ req.entries, e.Utf8) {r : Handled}
    (hr : n.handle store req = some r) : r.node.Utf8 ∧ Utf8Map r.store.mp ∧ r.reply.toJson.dumps = true := by
  cases req with
  | requestVote m =>
    obtain rfl := Option.some.inj hr
    obtain ⟨hn, hstore, hreply⟩ := h.handleRequestVote store m
    exact ⟨hn, hstore.symm ▸ hs, hreply⟩
  | appendEntries m =>
    obtain rfl := Option.some.inj hr
    exact h.handleAppendEntries hs hreq
  | installSnapshot m => exact h.handleInstallSnapshot hs hr

/-- A node that is started from its files. -/
theorem Utf8.restart (h : n.Utf8) (hs : Utf8Map store.mp) {store' : KVStore} (hr : n.restart store = some (n', store')) :
    n'.Utf8 ∧ Utf8Map store'.mp := by
  have hloaded : ((create n.id n.rpcPort n.peerRpcPorts n.disk).loadMetadata).Utf8 := by
    unfold loadMetadata
    split
    · exact ⟨rfl, h.metadata, h.file⟩
    · next j hj => exact ⟨h.metadata j hj, h.metadata, h.file⟩
  have hfile : (create n.id n.rpcPort n.peerRpcPorts n.disk).loadMetadata.disk = n.disk := by
    unfold loadMetadata
    split <;> rfl
  replace hr := (restart_whole hr).2
  unfold start at hr
  rw [hfile] at hr
  split at hr
  · cases hr
    exact ⟨hloaded, hs⟩
  · cases hr
  · next snap hsnap =>
    cases hr
    exact ⟨hloaded.congr hloaded.log rfl hfile.symm, h.file snap hsnap⟩

end RaftNode

/-! ## Sites -/

/-- The strings of a request are valid UTF-8, as those of every parsed text are. -/
structure ClientRequest.Utf8 (req : ClientRequest) : Prop where
  clientId : isUtf8 req.clientId = true
  command : isUtf8 req.command = true
  key : isUtf8 req.key = true
  value : isUtf8 req.value = true

instance (req : ClientRequest) : Decidable req.Utf8 :=
  decidable_of_iff (isUtf8 req.clientId = true ∧ isUtf8 req.command = true ∧ isUtf8 req.key = true ∧ isUtf8 req.value = true)
    ⟨fun h => ⟨h.1, h.2.1, h.2.2.1, h.2.2.2⟩, fun h => ⟨h.clientId, h.command, h.key, h.value⟩⟩

/-- The command of an entry is valid UTF-8 when the request is. -/
theorem ClientRequest.Utf8.newEntry {req : ClientRequest} (h : req.Utf8) (n : RaftNode) : (Site.newEntry n req).Utf8 := by
  have hblank : isUtf8 [32] = true := isUtf8_of_all rfl
  exact isUtf8_append (isUtf8_append (isUtf8_append (isUtf8_append h.command hblank) h.key) hblank) h.value

/-- A client command: its request, and what it has returned. -/
structure ClientCall.Utf8 (call : ClientCall) : Prop where
  clientId : isUtf8 call.req.clientId = true
  result : ∀ result, call.phase = .done result → isUtf8 result = true

/-- The results that a step leaves in the history are valid UTF-8. -/
def Event.Utf8 : Event → Prop
  | .recorded _ result => isUtf8 result = true
  | .cached _ result => isUtf8 result = true
  | _ => True

/-- A site with its client commands. -/
structure Site.Utf8 (s : Site) : Prop where
  node : s.node.Utf8
  client : ∀ call ∈ s.clients, call.Utf8

namespace Site

variable {size next : ℕ} {s : Site} {store : KVStore} {i : Input} {o : Outcome}

/-- The commit section records a result in UTF-8. -/
theorem commit_utf8 {n : RaftNode} (h : n.Utf8) (hs : Utf8Map store.mp) {call : ClientCall} (hc : isUtf8 call.req.clientId = true) :
    (commit n store call).1.Utf8 ∧ Utf8Map (commit n store call).2.1.mp ∧ isUtf8 (commit n store call).2.2.1 = true ∧
      ∀ ev ∈ (commit n store call).2.2.2, ev.Utf8 := by
  have hset : (n.setCommitIndex call.newIndex).Utf8 := h.congr h.log rfl rfl
  obtain ⟨r, hr⟩ : ∃ r, applyWhileUp (n.setCommitIndex call.newIndex) store = r := ⟨_, rfl⟩
  have happlied : r.node.Utf8 ∧ Utf8Map r.store.mp ∧ isUtf8 r.applyResult = true ∧ ∀ ev ∈ r.events, ev.Utf8 := by
    subst hr
    unfold applyWhileUp
    split
    · exact ⟨hset, hs, rfl, fun ev hev => absurd hev List.not_mem_nil⟩
    · obtain ⟨hstore, hresult⟩ := RaftNode.applyCommitted_utf8 hset.log hs
      refine ⟨hset.applyCommitted store, hstore, hresult, fun ev hev => ?_⟩
      obtain ⟨_, _, rfl, _⟩ := RaftNode.applyCommitted_events hev
      trivial
  obtain ⟨hn, hstore, hresult, hevents⟩ := happlied
  obtain ⟨hn', hstore'⟩ := hn.snapshotAtThreshold hstore
  unfold commit
  simp only [hr]
  refine ⟨?_, hstore', hresult, fun ev hev => ?_⟩
  · obtain ⟨hlog, hlast, hcache⟩ := RaftNode.dumpsMetadata_iff.mp hn'.memory
    refine RaftNode.Utf8.persist (RaftNode.dumpsMetadata_iff.mpr ⟨hlog, ?_, hcache.insert hc hresult⟩) hn'.file
    rw [List.all_eq_true] at hlast ⊢
    intro p hp
    rw [AList.entries_insert] at hp
    rcases List.mem_cons.mp hp with rfl | hp
    · exact hc
    · exact hlast p ((List.kerase_sublist _ _).subset hp)
  · rcases List.mem_append.mp hev with hev | hev
    · rcases List.mem_cons.mp hev with rfl | hev
      · trivial
      · exact hevents ev hev
    · obtain rfl := List.mem_singleton.mp hev
      exact hresult

/-- A client command goes on, without a result or with one in UTF-8. -/
theorem Utf8.clientAt (h : s.Utf8) {n : RaftNode} (hn : n.Utf8) {k : ℕ} {call call' : ClientCall} (hk : s.clients[k]? = some call)
    (hr : call'.req = call.req) (hp : ∀ result, call'.phase = .done result → isUtf8 result = true) :
    Site.Utf8 ({ s with node := n }.clientAt k call') where
  node := hn
  client c hc := by
    rcases List.mem_or_eq_of_mem_set hc with hc | rfl
    · exact h.client c hc
    · exact ⟨hr ▸ (h.client call (List.mem_of_getElem? hk)).clientId, hp⟩

/-- What a step leaves in UTF-8. -/
structure StepUtf8 (o : Outcome) : Prop where
  site : o.site.Utf8
  store : Utf8Map o.store.mp
  reply : ∀ r, o.reply = some r → r.toJson.dumps = true
  events : ∀ ev ∈ o.events, ev.Utf8

/-- A step that changes neither the store nor the history. -/
theorem stepUtf8_of_site {s' : Site} (h : s'.Utf8) (hs : Utf8Map store.mp) (send : Option Send) :
    StepUtf8 { site := s', store := store, send := send, reply := none, events := [] } where
  site := h
  store := hs
  reply r hr := by cases hr
  events ev hev := absurd hev List.not_mem_nil

/-- Every step keeps the site and the store in UTF-8, when the entries and the requests that come in are. -/
theorem Step.utf8 (hst : Step size next s store i o) (h : s.Utf8) (hs : Utf8Map store.mp) (hi : ∀ e ∈ i.entries, e.Utf8)
    (hreq : ∀ req, i = .clientRequest req → req.Utf8) : StepUtf8 o := by
  have hn := h.node
  have hnone : ∀ r, (none : Option Reply) = some r → r.toJson.dumps = true := by
    intro r hr
    cases hr
  have hfollow (t : ℤ) : (s.node.followReply t).Utf8 := hn.persist_congr hn.log rfl rfl
  have hchunk (t : Transfer) (j : ℕ) (r : Option Reply) : (t.reply s.node j r).1.Utf8 := by
    obtain ⟨_, _, heq⟩ := t.reply_shape s.node j r
    rw [heq]
    exact hn.congr hn.log rfl rfl
  have hnode {n : RaftNode} (hn : n.Utf8) (election : Option Election) (heartbeat : Option Heartbeat) :
      Site.Utf8 { node := n, election := election, heartbeat := heartbeat, clients := s.clients } := ⟨hn, h.client⟩
  cases hst with
  | startElection he hl =>
    have hcand : (candidacy s.node).Utf8 := hn.persist_congr hn.log rfl rfl
    refine ⟨hnode hcand _ _, hs, hnone, fun ev hev => ?_⟩
    obtain rfl := List.mem_singleton.mp hev
    trivial
  | join el he hp hh =>
    refine stepUtf8_of_site ?_ hs _
    exact ⟨hn.persist_congr hn.log rfl rfl, h.client⟩
  | ask el p rest he hp hr => exact stepUtf8_of_site (hnode hn _ _) hs _
  | win el he hp hr hv =>
    refine ⟨?_, hs, hnone, fun ev hev => ?_⟩
    · have hp : (promoted s.node).Utf8 := hn.congr hn.log rfl rfl
      show (s.elected el).Utf8
      unfold elected
      split
      · exact ⟨hp.congr hp.log rfl rfl, h.client⟩
      · exact ⟨hp.persist_congr hp.log rfl rfl, h.client⟩
    · obtain rfl := List.mem_singleton.mp hev
      trivial
  | lose el he hp hr hv => exact stepUtf8_of_site (hnode hn _ _) hs _
  | noVote el call r he hp hr => exact stepUtf8_of_site (hnode hn _ _) hs _
  | voteLater el call r term g he hp hr ht => exact stepUtf8_of_site (hnode (hfollow term) _ _) hs _
  | vote el call r term g he hp hr ht => exact stepUtf8_of_site (hnode hn _ _) hs _
  | round hb hh hp hl => exact stepUtf8_of_site (hnode hn _ _) hs _
  | endHeartbeats hb hh hp => exact stepUtf8_of_site (hnode hn _ _) hs _
  | endRound hb j hh hp => exact stepUtf8_of_site (hnode hn _ _) hs _
  | needSnapshot hb j snap hh hp hns => exact stepUtf8_of_site (hnode hn _ _) hs _
  | sendHeartbeat hb j p hh hp hrun hi hns entries hes => exact stepUtf8_of_site (hnode hn _ _) hs _
  | sendHeartbeatChunk hb j t p hh hp hi => exact stepUtf8_of_site (hnode hn _ _) hs _
  | heartbeatStopped hb j nextIdx count call r hh hp => exact stepUtf8_of_site (hnode hn _ _) hs _
  | heartbeatLost hb j nextIdx count call r hh hp hr => exact stepUtf8_of_site (hnode hn _ _) hs _
  | heartbeatLater hb j nextIdx count call r term success hh hp hr ht =>
    refine stepUtf8_of_site ?_ hs _
    exact ⟨hn.persist_congr hn.log rfl rfl, h.client⟩
  | heartbeatReply hb j nextIdx count call r term success hh hp hr ht =>
    obtain ⟨_, _, heq⟩ := heartbeatAnswered_shape s.node j nextIdx count success
    have hanswered : (heartbeatAnswered s.node j nextIdx count success).Utf8 := by
      rw [heq]
      exact hn.congr hn.log rfl rfl
    exact stepUtf8_of_site (hnode hanswered _ _) hs _
  | heartbeatChunkReply hb j t call r hh hp phase hph => exact stepUtf8_of_site (hnode (hchunk t j r) _ _) hs _
  | refuse req hl => exact stepUtf8_of_site h hs _
  | cached req result hl hc =>
    refine ⟨h, hs, hnone, fun ev hev => ?_⟩
    obtain rfl := List.mem_singleton.mp hev
    unfold cachedResult at hc
    split at hc
    · obtain rfl := Option.some.inj hc
      show isUtf8 _ = true
      cases hlook : s.node.clientResultCache.lookup req.clientId with
      | none => rfl
      | some result => exact hn.cache.lookup hlook
    · cases hc
  | append req hl hc =>
    have hu := hreq req rfl
    refine stepUtf8_of_site ⟨?_, fun call hcall => ?_⟩ hs _
    · refine hn.congr (fun e he => ?_) rfl rfl
      rcases List.mem_append.mp he with he | he
      · exact hn.log e he
      · rw [List.mem_singleton.mp he]
        exact hu.newEntry s.node
    · rcases List.mem_append.mp hcall with hcall | hcall
      · exact h.client call hcall
      · obtain rfl := List.mem_singleton.mp hcall
        exact ⟨hu.clientId, fun result hp => by cases hp⟩
  | send k call p hk hp hi =>
    refine stepUtf8_of_site ?_ hs _
    exact h.clientAt hn hk rfl fun _ heq => absurd heq CallPhase.noConfusion
  | commit k call hk hp hi hm =>
    obtain ⟨hnode, hstore, hresult, hevents⟩ := commit_utf8 hn hs (h.client call (List.mem_of_getElem? hk)).clientId
    refine ⟨?_, hstore, hnone, hevents⟩
    exact h.clientAt hnode hk rfl fun _ heq => CallPhase.done.inj heq ▸ hresult
  | notCommitted k call hk hp hi hm =>
    refine stepUtf8_of_site ?_ hs _
    exact h.clientAt hn hk rfl fun _ heq => CallPhase.done.inj heq ▸ isUtf8_of_all rfl
  | sendChunk k call t p hk hp hi =>
    refine stepUtf8_of_site ?_ hs _
    exact h.clientAt hn hk rfl fun _ heq => absurd heq CallPhase.noConfusion
  | lost k call id r hk hp hr =>
    refine stepUtf8_of_site ?_ hs _
    exact h.clientAt hn hk rfl fun _ heq => absurd heq CallPhase.noConfusion
  | later k call id r term success hk hp hr ht =>
    refine stepUtf8_of_site ?_ hs _
    exact h.clientAt (hfollow term) hk rfl fun _ heq => CallPhase.done.inj heq ▸ isUtf8_of_all rfl
  | success k call id r term hk hp hr ht =>
    have hanswered : (clientAnswered s.node call).Utf8 := hn.congr hn.log rfl rfl
    refine stepUtf8_of_site (h.clientAt hanswered hk ?_ fun _ heq => ?_) hs _
    · rfl
    · cases heq
  | failure k call id r term hk hp hr ht call' hc' =>
    obtain ⟨_, heq⟩ := s.node.retreat_shape call.i
    have hretreat : (s.node.retreat call.i).Utf8 := by
      rw [heq]
      exact hn.congr hn.log rfl rfl
    subst hc'
    refine stepUtf8_of_site (h.clientAt hretreat hk ?_ fun _ hp => ?_) hs _
    · split <;> rfl
    · split at hp <;> cases hp
  | chunkReply k call t id r hk hp call' hc' =>
    subst hc'
    refine stepUtf8_of_site (h.clientAt (hchunk t call.i r) hk ?_ fun _ hp => ?_) hs _
    · split <;> rfl
    · split at hp <;> cases hp
  | receive req r hr =>
    obtain ⟨hnode', hstore, hreply⟩ := hn.handle hs hi hr
    refine ⟨⟨hnode', h.client⟩, hstore, fun r' hr' => ?_, fun ev hev => ?_⟩
    · obtain rfl := Option.some.inj hr'
      exact hreply
    · have hoff := (RaftNode.handle_tables hr).2 ev hev
      cases ev with
      | recorded req result => exact absurd rfl (hoff.1 req result)
      | cached req result => exact absurd rfl (hoff.2 req result)
      | _ => trivial
  | snapshotNow hl => exact ⟨hnode (hn.createSnapshot hs) _ _, hs, hnone, fun ev hev => absurd hev List.not_mem_nil⟩
  | restart n store' hr =>
    obtain ⟨hn', hs'⟩ := hn.restart hs hr
    exact stepUtf8_of_site ⟨hn', fun call hc => absurd hc List.not_mem_nil⟩ hs' _

/-! ## Messages -/

/-- Base64 is ASCII. -/
theorem base64Encode_utf8 (data : Str) : isUtf8 (base64Encode data) = true := by
  have hchars : ∀ c ∈ base64Chars, c < 0x80 := by decide +kernel
  obtain ⟨chars, heq, hmem⟩ := standardBase64_padded data
  have htext : base64Encode data = standardBase64 data := encodeFrom_standard 0 data
  rw [htext, heq]
  refine isUtf8_of_low fun c hc => ?_
  rcases List.mem_append.mp hc with hc | hc
  · exact hchars c (hmem c hc).1
  · rw [List.eq_of_mem_replicate hc]
    decide

/-- The message with a chunk can be dumped: the image of the snapshot is in Base64. -/
theorem message_dumps (t : Transfer) (n : RaftNode) (chunkNum totalChunks : ℤ) : ((t.message n).toJson chunkNum totalChunks).dumps = true := by
  have hrpc : isUtf8 (ascii "InstallSnapshot") = true := isUtf8_of_all rfl
  simp only [InstallSnapshotRPC.toJson, Json.lit, Json.dumps, Json.dumpsMembers, hrpc, Transfer.message, base64Encode_utf8, Bool.and_self]

/-- A node in UTF-8 sends messages that can be dumped. -/
theorem Step.send_dumps (hst : Step size next s store i o) (h : s.Utf8) {x : Send} (hx : o.send = some x) (t : Option Transfer) :
    (x.req.toJson t).dumps = true := by
  have hvote : isUtf8 (ascii "RequestVote") = true := isUtf8_of_all rfl
  have hentries := hst.sends h.node.log hx
  cases hst with
  | ask el p rest he hp hr =>
    obtain rfl := Option.some.inj hx
    simp only [Request.toJson, RequestVoteRPC.toJson, Json.lit, Json.dumps, Json.dumpsMembers, hvote, Bool.and_self]
  | sendHeartbeat hb j p hh hp hrun hi hns entries hes =>
    obtain rfl := Option.some.inj hx
    exact (AppendEntriesRPC.toJson_dumps _).mpr hentries
  | sendHeartbeatChunk hb j t' p hh hp hi =>
    obtain rfl := Option.some.inj hx
    exact message_dumps t' s.node _ _
  | send k call p hc hp hi =>
    obtain rfl := Option.some.inj hx
    exact (AppendEntriesRPC.toJson_dumps _).mpr hentries
  | sendChunk k call t' p hc hp hi =>
    obtain rfl := Option.some.inj hx
    exact message_dumps t' s.node _ _
  | _ => cases hx

end Site

end RaftStore
