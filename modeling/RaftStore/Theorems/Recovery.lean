import RaftStore.Crashes
import RaftStore.Lemmas.Storage
import RaftStore.Theorems.Applying

/-!
# What a crash in the middle of a compaction leaves

The snapshot file and the metadata file are written one after the other. Between the two writes the files speak of two different
cuts of the log: the entries of the metadata file are taken for those above the new snapshot. A dump that throws leaves an empty file,
and from that no node starts.
-/

namespace RaftStore

namespace RaftNode

variable {n c : RaftNode} {o : Option Snapshot} {l : List LogEntry}

/-- The node with this snapshot and this log. -/
def withStored (n : RaftNode) (o : Option Snapshot) (l : List LogEntry) : RaftNode := { n with latestSnapshot := o, log := l }

/-- What a crash leaves to the node that is started again: the snapshot of its snapshot file, and the log of its metadata file. -/
theorem recovers_iff (hf : c.disk.snapshotFile = fileOf o) (hw : c.disk.metadataEmptied = false) (hl : c.saved.logEntries = l) :
    n.Recovers c ↔ (n.withStored o l).InPlace ∧
      ∀ i, (n.withStored o l).baseIndex ≤ i → i < (n.withStored o l).getLogSize →
        (n.withStored o l).getLogTerm i = n.getLogTerm i := by
  -- only the snapshot and the log of the restarted node matter
  have hr (store : KVStore) : ∃ n' store', c.restart store = some (n', store') ∧ n'.latestSnapshot = o ∧ n'.log = l := by
    unfold restart
    rw [if_neg (by simp [hw]), loadMetadata_create]
    unfold start
    cases o with
    | none => exact ⟨_, _, by simp only [create, hf, fileOf]; exact rfl, rfl, hl⟩
    | some s => exact ⟨_, _, by simp only [create, hf, fileOf]; exact rfl, rfl, hl⟩
  have hsame {n' : RaftNode} (hs : n'.latestSnapshot = o) (hl : n'.log = l) (i : ℤ) :
      n'.baseIndex = (n.withStored o l).baseIndex ∧ n'.getLogSize = (n.withStored o l).getLogSize ∧
        n'.getLogTerm i = (n.withStored o l).getLogTerm i := by
    unfold getLogSize getLogTerm entryAt logIdx baseIndex
    rw [hs, hl]
    exact ⟨rfl, rfl, rfl⟩
  constructor
  · intro h
    obtain ⟨n', store', hn, hp, ht⟩ := h KVStore.empty
    obtain ⟨n'', store'', hn', hs, hlog⟩ := hr KVStore.empty
    obtain ⟨rfl, -⟩ := Prod.mk.inj (Option.some.inj (hn.symm.trans hn'))
    refine ⟨fun j e he => ?_, fun i hi hlt => ?_⟩
    · rw [← (hsame hs hlog 0).1]
      exact hp j e (hlog ▸ he)
    · obtain ⟨hb, hz, hterm⟩ := hsame hs hlog i
      rw [← hterm]
      exact ht i (hb ▸ hi) (hz ▸ hlt)
  · intro h store
    obtain ⟨n', store', hn, hs, hlog⟩ := hr store
    refine ⟨n', store', hn, fun j e he => ?_, fun i hi hlt => ?_⟩
    · rw [(hsame hs hlog 0).1]
      exact h.1 j e (hlog ▸ he)
    · obtain ⟨hb, hz, hterm⟩ := hsame hs hlog i
      rw [hterm]
      exact h.2 i (hb ▸ hi) (hz ▸ hlt)

/-- An empty file keeps the node from starting again. -/
theorem Recovers.filesWhole (h : n.Recovers c) : c.FilesWhole := by
  obtain ⟨n', store', hn, -⟩ := h KVStore.empty
  obtain ⟨hw, hn⟩ := restart_whole hn
  refine ⟨fun hf => ?_, hw⟩
  rw [loadMetadata_create] at hn
  simp [start, create, hf] at hn

/-- Where each entry of the metadata file is one the node has at the same global index, nothing is lost. -/
theorem InPlace.recovers (hp : n.InPlace) (hf : c.disk.snapshotFile = fileOf o) (hw : c.disk.metadataEmptied = false)
    (hl : c.saved.logEntries = l)
    (h : ∀ (j : ℕ) (e : LogEntry), l[j]? = some e → n.entryAt (n.logIdx ((n.withStored o l).baseIndex + j)) = some e) :
    n.Recovers c := by
  have hlog {j : ℕ} {e : LogEntry} (he : l[j]? = some e) : 0 ≤ n.logIdx ((n.withStored o l).baseIndex + j) ∧
      n.log[(n.logIdx ((n.withStored o l).baseIndex + j)).toNat]? = some e := by
    have he := h j e he
    have h0 := ((n.entryAt_isSome _).mp (by rw [he]; rfl)).1
    exact ⟨h0, (n.entryAt_of_nonneg h0).symm.trans he⟩
  refine (recovers_iff hf hw hl).mpr ⟨fun j e he => ?_, fun i hi hlt => ?_⟩
  · obtain ⟨h0, he⟩ := hlog he
    have hidx := hp _ e he
    rw [logIdx_eq] at h0 hidx
    omega
  · obtain ⟨j, hj⟩ : ∃ j : ℕ, i = (n.withStored o l).baseIndex + j :=
      ⟨(i - (n.withStored o l).baseIndex).toNat, by omega⟩
    have hlt : j < l.length := by
      have : i < (n.withStored o l).baseIndex + l.length := hlt
      omega
    have he := List.getElem?_eq_getElem hlt
    have hn := h j _ he
    have h0 := (hlog he).1
    have hheld : (n.withStored o l).entryAt ((n.withStored o l).logIdx i) = some l[j] := by
      rw [logIdx_eq, entryAt_of_nonneg _ (by omega), hj]
      show l[((n.withStored o l).baseIndex + j - (n.withStored o l).baseIndex).toNat]? = some l[j]
      rw [← he]
      congr 1
      omega
    rw [getLogTerm_above (by omega), getLogTerm_above (by rw [logIdx_eq] at h0; omega), hheld, hj, hn]

/-- Where the first entry of the metadata file is the first one of the log, a recovery means that the two snapshots end at the
same index. -/
theorem InPlace.base_of_recovers (hp : n.InPlace) (hf : c.disk.snapshotFile = fileOf o) (hl : c.saved.logEntries = l)
    (h : n.Recovers c) {e : LogEntry} (he : l[0]? = some e) (hn : n.log[0]? = some e) :
    (n.withStored o l).baseIndex = n.baseIndex := by
  have h1 := ((recovers_iff hf h.filesWhole.2 hl).mp h).1 0 e he
  have h2 := hp 0 e hn
  omega

/-- A crash when no file has been written yet. -/
theorem Sound.recovers_same (h : n.Sound) (hp : n.InPlace) (hc : c.disk = n.disk) : n.Recovers c ↔ n.FilesWhole := by
  constructor
  · intro hr
    have hw := hr.filesWhole
    rwa [FilesWhole, hc] at hw
  · rintro ⟨hne, hw⟩
    have hsaved : c.saved = n.saved := by rw [saved, saved, hc]
    refine hp.recovers (o := n.latestSnapshot) (l := n.saved.logEntries) (hc ▸ h.file.resolve_left hne) (hc ▸ hw) (by rw [hsaved])
      fun j e he => ?_
    obtain ⟨l, hl⟩ := h.saved_prefix
    have hb : (n.withStored n.latestSnapshot n.saved.logEntries).baseIndex = n.baseIndex := rfl
    rw [logIdx_eq, hb, entryAt_of_nonneg _ (by omega), ← hl,
      List.getElem?_append_left (by have := (List.getElem?_eq_some_iff.mp he).1; omega), ← he]
    congr 1
    omega

/-- A crash when the snapshot file has been written and the metadata file has not. -/
theorem Sound.recovers_between (h : n.Sound) (hp : n.InPlace) (hw : n.disk.metadataEmptied = false) {s : Snapshot}
    (hf : c.disk.snapshotFile = .saved s) (hm : c.disk.metadata = n.disk.metadata)
    (he : c.disk.metadataEmptied = n.disk.metadataEmptied) :
    n.Recovers c ↔ n.saved.logEntries = [] ∨ s.lastIncludedIndex + 1 = n.baseIndex := by
  have hf : c.disk.snapshotFile = fileOf (some s) := hf
  have hsaved : c.saved.logEntries = n.saved.logEntries := by rw [saved, saved, hm]
  obtain ⟨l, hl⟩ := h.saved_prefix
  constructor
  · intro hr
    cases hs : n.saved.logEntries with
    | nil => exact Or.inl rfl
    | cons e es => exact Or.inr (hp.base_of_recovers hf hsaved hr (by rw [hs]; rfl) (by rw [← hl, hs]; rfl))
  · intro hc
    refine hp.recovers hf (he.trans hw) hsaved fun j e he => ?_
    rcases hc with hnil | hb
    · rw [hnil] at he
      cases he
    · have hb : (n.withStored (some s) n.saved.logEntries).baseIndex = n.baseIndex := hb
      rw [logIdx_eq, hb, entryAt_of_nonneg _ (by omega), ← hl,
        List.getElem?_append_left (by have := (List.getElem?_eq_some_iff.mp he).1; omega), ← he]
      congr 1
      omega

/-- A crash when a snapshot has been taken and both files have been written. -/
theorem InPlace.recovers_taken (hp : n.InPlace) (hne : n.log ≠ []) (store : KVStore) :
    n.Recovers (n.createSnapshot store).1 ↔ n.baseIndex ≤ n.lastApplied + 1 ∧ n.lastApplied < n.getLogSize := by
  obtain ⟨_, hfile, hsaved, hlog⟩ := n.createSnapshot_log store
  have hf : (n.createSnapshot store).1.disk.snapshotFile = fileOf (some (n.newSnapshot store)) := hfile
  have hbase (l : List LogEntry) : (n.withStored (some (n.newSnapshot store)) l).baseIndex = n.lastApplied + 1 := rfl
  have hlen := List.length_pos_iff.mpr hne
  by_cases hlt : n.baseIndex ≤ n.lastApplied + 1 ∧ n.lastApplied < n.getLogSize
  · refine iff_of_true (hp.recovers hf rfl (hsaved.trans (hlog hlt.1 hlt.2)) fun j e he => ?_) hlt
    rw [List.getElem?_drop] at he
    rw [hbase, logIdx_eq, entryAt_of_nonneg _ (by omega), ← he]
    congr 1
    omega
  · -- the snapshot ends below the log or beyond it, and the log is left as it is
    have hkept : (n.createSnapshot store).1.log = n.log := by
      have hout : n.lastApplied + 1 < n.baseIndex ∨ n.getLogSize ≤ n.lastApplied := by omega
      show ((n.saveSnapshot (n.newSnapshot store)).truncateLogSafe n.lastApplied).log = n.log
      rw [truncateLogSafe_outside (n.saveSnapshot (n.newSnapshot store)) hout]
      rfl
    refine iff_of_false (fun hr => ?_) hlt
    have he := List.getElem?_eq_getElem hlen
    have := hp.base_of_recovers hf (hsaved.trans hkept) hr he he
    rw [hbase] at this
    unfold getLogSize at hlt
    omega

/-- The two files are written in full: the dumps accept the strings of the snapshot, and those of the node with this log. -/
def Dumps (n : RaftNode) (snap : Snapshot) (log : List LogEntry) : Prop :=
  snap.dumps = true ∧ ({ n with log := log } : RaftNode).dumpsMetadata = true

instance (n : RaftNode) (snap : Snapshot) (log : List LogEntry) : Decidable (n.Dumps snap log) := instDecidableAnd

/-- Which crashes while a snapshot is taken lose nothing: all of them, if and only if the node could be started before, both files can be
written, and the snapshot ends where the last one did, or nothing of the log is in the metadata file and what is applied is within the
log. -/
theorem Sound.snapshotSteps_recovers (h : n.Sound) (hp : n.InPlace) (hne : n.log ≠ []) (store : KVStore) :
    (∀ c ∈ n.snapshotSteps store, n.Recovers c) ↔ n.FilesWhole ∧
      n.Dumps (n.newSnapshot store) (n.log.drop (n.lastApplied + 1 - n.baseIndex).toNat) ∧ (n.lastApplied + 1 = n.baseIndex ∨
        n.saved.logEntries = [] ∧ n.baseIndex ≤ n.lastApplied + 1 ∧ n.lastApplied < n.getLogSize) := by
  have hsame := h.recovers_same hp (c := n) rfl
  have htaken := hp.recovers_taken hne store
  by_cases hd : (n.newSnapshot store).dumps = true
  · obtain ⟨between, raised, hsteps, hnew, hdisk, hraised⟩ := snapshotSteps_of_dumps hd
    -- between the two writes only the snapshot file is new
    have hbetween {c : RaftNode} (hw : n.FilesWhole) (hc : c.disk = (n.saveSnapshot (n.newSnapshot store)).disk) :
        n.Recovers c ↔ n.saved.logEntries = [] ∨ n.lastApplied + 1 = n.baseIndex :=
      h.recovers_between hp hw.2 (s := n.newSnapshot store) (by rw [hc]; rfl) (by rw [hc]; rfl) (by rw [hc]; rfl)
    -- where the snapshot ends within the log, what is written of the log is what stands above it
    have hdumps (hin : n.baseIndex ≤ n.lastApplied + 1 ∧ n.lastApplied < n.getLogSize) : raised.dumpsMetadata =
        ({ n with log := n.log.drop (n.lastApplied + 1 - n.baseIndex).toNat } : RaftNode).dumpsMetadata := by
      have heq : raised.dumpsMetadata = (n.createSnapshot store).1.dumpsMetadata := by rw [← hraised]; rfl
      rw [heq, createSnapshot_of_lt store hin.1 hin.2]
      rfl
    rw [hsteps]
    constructor
    · intro hall
      have hw := hsame.mp (hall n (by simp))
      have h1 := (hbetween hw rfl).mp (hall (n.saveSnapshot (n.newSnapshot store)) (by simp))
      have hlast := hall raised.writeMetadata (by simp)
      have hm : raised.dumpsMetadata = true := by
        by_contra hm
        rw [writeMetadata_of_not hm] at hlast
        exact absurd hlast.filesWhole.2 (by simp [emptyMetadataFile])
      rw [writeMetadata_of_dumps hm, hraised] at hlast
      have h2 := htaken.mp hlast
      exact ⟨hw, ⟨hd, hdumps h2 ▸ hm⟩, h1.symm.imp (fun h => h) fun h1 => ⟨h1, h2⟩⟩
    · rintro ⟨hw, ⟨-, hm⟩, hc⟩
      have h1 : n.saved.logEntries = [] ∨ n.lastApplied + 1 = n.baseIndex := hc.symm.imp And.left fun h => h
      have hlen := List.length_pos_iff.mpr hne
      have h2 : n.baseIndex ≤ n.lastApplied + 1 ∧ n.lastApplied < n.getLogSize :=
        hc.elim (fun hb => ⟨hb.ge, by unfold getLogSize; omega⟩) And.right
      intro c hmem
      rcases List.mem_append.mp hmem with hmem | hmem
      · rcases List.mem_cons.mp hmem with rfl | hmem
        · exact hsame.mpr hw
        · rcases List.mem_cons.mp hmem with rfl | hmem
          · exact (hbetween hw rfl).mpr h1
          · exact (hbetween hw (hnew c hmem)).mpr h1
      · obtain rfl := List.mem_singleton.mp hmem
        rw [writeMetadata_of_dumps ((hdumps h2).trans hm), hraised]
        exact htaken.mpr h2
  · refine iff_of_false (fun hall => ?_) (fun hc => hd hc.2.1.1)
    have hsteps : n.snapshotSteps store = [n, n.emptySnapshotFile] := if_neg hd
    exact absurd rfl (hall n.emptySnapshotFile (by rw [hsteps]; simp)).filesWhole.1

/-- Which crashes at the end of a transfer lose nothing: all of them, if and only if the node could be started before, both files can be
written, and the snapshot ends where the last one did or nothing of the log is in the metadata file. -/
theorem Sound.installSteps_recovers (h : n.Sound) (hp : n.InPlace) (snap : Snapshot) :
    (∀ c ∈ n.installSteps snap, n.Recovers c) ↔ n.FilesWhole ∧ n.Dumps snap [] ∧
      (n.saved.logEntries = [] ∨ snap.lastIncludedIndex + 1 = n.baseIndex) := by
  have hsame := h.recovers_same hp (c := n) rfl
  by_cases hd : snap.dumps = true
  · obtain ⟨between, taken, hsteps, hnew, hdisk, hlog, hdumps⟩ := installSteps_of_dumps (n := n) hd
    have hbetween {c : RaftNode} (hw : n.FilesWhole) (hc : c.disk = (n.saveSnapshot snap).disk) :
        n.Recovers c ↔ n.saved.logEntries = [] ∨ snap.lastIncludedIndex + 1 = n.baseIndex :=
      h.recovers_between hp hw.2 (s := snap) (by rw [hc]; rfl) (by rw [hc]; rfl) (by rw [hc]; rfl)
    -- once the metadata is written the log is empty
    have hcleared {c : RaftNode} (hc : c.disk = taken.persistMetadata.disk) : n.Recovers c := by
      refine hp.recovers (o := some snap) (l := []) ?_ (by rw [hc]; rfl) ?_ fun j e he => by cases he
      · rw [hc]
        show taken.disk.snapshotFile = _
        rw [hdisk]
        rfl
      · rw [saved, hc]
        exact hlog
    rw [hsteps]
    constructor
    · intro hall
      have hw := hsame.mp (hall n (by simp))
      have h1 := (hbetween hw rfl).mp (hall (n.saveSnapshot snap) (by simp))
      have hlast := hall taken.writeMetadata (by simp)
      have hm : taken.dumpsMetadata = true := by
        by_contra hm
        rw [writeMetadata_of_not hm] at hlast
        exact absurd hlast.filesWhole.2 (by simp [emptyMetadataFile])
      exact ⟨hw, ⟨hd, hdumps ▸ hm⟩, h1⟩
    · rintro ⟨hw, ⟨-, hm⟩, h1⟩ c hmem
      rw [if_pos (hdumps.trans hm)] at hmem
      rcases List.mem_append.mp hmem with hmem | hmem
      · rcases List.mem_cons.mp hmem with rfl | hmem
        · exact hsame.mpr hw
        · rcases List.mem_cons.mp hmem with rfl | hmem
          · exact (hbetween hw rfl).mpr h1
          · exact (hbetween hw (hnew c hmem)).mpr h1
      · rcases List.mem_cons.mp hmem with rfl | hmem
        · rw [writeMetadata_of_dumps (hdumps.trans hm)]
          exact hcleared rfl
        · obtain rfl := List.mem_singleton.mp hmem
          exact hcleared rfl
  · refine iff_of_false (fun hall => ?_) (fun hc => hd hc.2.1.1)
    have hsteps : n.installSteps snap = [n, n.emptySnapshotFile] := if_neg hd
    exact absurd rfl (hall n.emptySnapshotFile (by rw [hsteps]; simp)).filesWhole.1

/-- A crash at any point of a compaction loses nothing exactly where both files are written in full and cannot speak of different cuts of
the log: the new snapshot ends where the last one did, or nothing of the log is in the metadata file yet. -/
theorem compaction_recovers (h : n.Sound) (hp : n.InPlace) :
    (∀ store, n.log ≠ [] → ((∀ c ∈ n.snapshotSteps store, n.Recovers c) ↔ n.FilesWhole ∧
      n.Dumps (n.newSnapshot store) (n.log.drop (n.lastApplied + 1 - n.baseIndex).toNat) ∧ (n.lastApplied + 1 = n.baseIndex ∨
        n.saved.logEntries = [] ∧ n.baseIndex ≤ n.lastApplied + 1 ∧ n.lastApplied < n.getLogSize))) ∧
    ∀ snap, (∀ c ∈ n.installSteps snap, n.Recovers c) ↔ n.FilesWhole ∧ n.Dumps snap [] ∧
      (n.saved.logEntries = [] ∨ snap.lastIncludedIndex + 1 = n.baseIndex) :=
  ⟨fun store hne => h.snapshotSteps_recovers hp hne store, h.installSteps_recovers hp⟩

end RaftNode

namespace Solo

/-- Node 0 has appended its first command, and not written it. -/
def appended : List Input := isElected ++ [.clientRequest (putRequest 1 "a")]

theorem appended_unwritten : ∃ x ∈ run 3 (fun _ _ => True) ofThree appended, x.site.node.InPlace ∧ x.site.node.log ≠ [] ∧
    x.site.node.FilesWhole ∧ x.site.node.Dumps (x.site.node.newSnapshot x.store)
      (x.site.node.log.drop (x.site.node.lastApplied + 1 - x.site.node.baseIndex).toNat) ∧ x.site.node.saved.logEntries = [] ∧
      x.site.node.baseIndex ≤ x.site.node.lastApplied + 1 ∧ x.site.node.lastApplied < x.site.node.getLogSize := by
  decide +kernel

/-- There a crash while a snapshot is taken loses nothing. -/
theorem compaction_recovers_appended : ∃ x ∈ run 3 (fun _ _ => True) ofThree appended,
    ∀ c ∈ x.site.node.snapshotSteps x.store, x.site.node.Recovers c := by
  obtain ⟨x, hx, hp, hne, hf, hd, hs, hb, hlt⟩ := appended_unwritten
  have hsound : x.site.Sound := sound_of_run (Run.run .refl hx) (Site.sound_create _ _ _)
  exact ⟨x, hx, ((RaftNode.compaction_recovers hsound.node hp).1 x.store hne).mpr ⟨hf, hd, Or.inr ⟨hs, hb, hlt⟩⟩⟩

theorem inOrder_written : ∃ x ∈ run 3 (fun _ _ => True) ofThree inOrder, x.site.node.InPlace ∧ x.site.node.FilesWhole ∧
    (x.site.node.newSnapshot x.store).dumps = true ∧ x.site.node.saved.logEntries ≠ [] ∧
      x.site.node.lastApplied + 1 ≠ x.site.node.baseIndex := by
  decide +kernel

/-- A crash while a snapshot is taken can lose entries: the snapshot is written, and the metadata file still has the entries
below it. -/
theorem compaction_loses : ¬∀ (n : RaftNode) (store : KVStore), n.Sound → n.InPlace →
    ∀ c ∈ n.snapshotSteps store, n.Recovers c := by
  intro h
  obtain ⟨x, hx, hp, hw, hd, hs, hb⟩ := inOrder_written
  have hsound : x.site.Sound := sound_of_run (Run.run .refl hx) (Site.sound_create _ _ _)
  obtain ⟨between, raised, hsteps, _⟩ := RaftNode.snapshotSteps_of_dumps hd
  have hr := h x.site.node x.store hsound.node hp (x.site.node.saveSnapshot (x.site.node.newSnapshot x.store)) (by rw [hsteps]; simp)
  have hbetween := hsound.node.recovers_between hp hw.2 (c := x.site.node.saveSnapshot (x.site.node.newSnapshot x.store))
    (s := x.site.node.newSnapshot x.store) rfl rfl rfl
  exact (hbetween.mp hr).elim hs hb

end Solo

end RaftStore
