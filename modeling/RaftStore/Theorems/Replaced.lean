import RaftStore.Theorems.Transfers
import RaftStore.Theorems.Verified

/-!
# What a snapshot takes the place of

The last chunk of a transfer clears the log and sets `commitIndex` and `lastApplied` to the index of the snapshot, wherever the follower is.
What it had beyond that index is gone.
-/

namespace RaftStore

/-- The store that these entries leave of the one the process has started with. The entry at index 0 is not among those that a node
applies. -/
def KVStore.replayed (base : KVStore) (es : List LogEntry) : KVStore := (es.drop 1).foldl (fun s e => (s.applyCommand e.command).1) base

/-- The store has what the entries of a log leave, up to this index at least. -/
def KVStore.CoversLog (base s : KVStore) (log : List LogEntry) (i : ℤ) : Prop :=
  ∃ k : ℕ, i < k ∧ k ≤ log.length ∧ ∀ key, s.get key = (base.replayed (log.take k)).get key

/-- A snapshot that a leader has taken: it stands for a piece of the leader's log, and has what the entries there leave. -/
structure Snapshot.Taken (base : KVStore) (snap : Snapshot) : Prop where
  genuine : snap.Genuine
  state : ∀ key, snap.kvState.lookup key = (base.replayed snap.covered).get key

namespace RaftNode

variable {n f : RaftNode} {m : InstallSnapshotRPC} {snap s : Snapshot} {base store : KVStore} {h : Handled}

/-- The message is the last one of a transfer of this snapshot: it is not stale, and completes an image of it that can be saved. -/
structure Completes (n : RaftNode) (m : InstallSnapshotRPC) (snap : Snapshot) : Prop where
  term : n.currentTerm ≤ m.term
  assembled : ∃ s, n.assembled m = some s ∧ s.Same snap ∧ s.dumps = true
  covered : m.covered = snap.covered

/-- The log has an entry of the snapshot's term at its index, or the snapshot is not above the node's own. -/
def HoldsOrBelow (n : RaftNode) (snap : Snapshot) : Prop :=
  (∃ e ∈ n.globalEntry snap.lastIncludedIndex, e.term = snap.lastIncludedTerm) ∨
    ∃ own ∈ n.latestSnapshot, snap.lastIncludedIndex ≤ own.lastIncludedIndex

/-- What the follower had above an index it still has, and `commitIndex`, `lastApplied` and the store cover what they covered. -/
structure KeepsAbove (base : KVStore) (n : RaftNode) (store : KVStore) (index : ℤ) (n' : RaftNode) (store' : KVStore) : Prop where
  entries : ∀ i e, index < i → n.globalEntry i = some e → n'.globalEntry i = some e
  commitIndex : n.commitIndex ≤ n'.commitIndex
  lastApplied : n.lastApplied ≤ n'.lastApplied
  store : ∀ i, base.CoversLog store n.full i → base.CoversLog store' n'.full i

/-! ## The last chunk -/

/-- The last message of a transfer installs the snapshot. -/
theorem Completes.handled (hm : n.Completes m snap) (store : KVStore) :
    ∃ h, n.handleInstallSnapshot store m = some h ∧ Transfer.Installed snap n h.node h.store := by
  obtain ⟨ht, ⟨s, hs, hsame, hdumps⟩, hcov⟩ := hm
  unfold RaftNode.assembled at hs
  split at hs
  · next hdone =>
    split at hs
    · next buffer hw =>
      obtain ⟨_, _, _, _, _, heq⟩ := n.seeTerm_shape m.term
      have hbuffer : (n.seeTerm m.term).snapshotBuffer = n.snapshotBuffer := by rw [heq]
      have hhandle : n.handleInstallSnapshot store m = some (((n.seeTerm m.term).setBuffer buffer).finishTransfer store m) := by
        unfold handleInstallSnapshot
        rw [if_neg (not_lt.mpr ht)]
        simp only [hbuffer]
        rw [show ((n.seeTerm m.term).setBuffer (if m.offset = 0 then [] else n.snapshotBuffer)).snapshotBuffer =
          if m.offset = 0 then [] else n.snapshotBuffer from rfl, hw]
        simp only [hdone, if_true]
        rfl
      exact ⟨_, hhandle, Transfer.finishTransfer_installed hs hdumps hsame hcov m.term store⟩
    · cases hs
  · cases hs

/-- What an installation keeps: everything, where the log ends at or below the index of the snapshot and no more is committed. -/
theorem installed_keepsAbove_iff (hn : n.Aligned) (hsnap : snap.Taken base) {n' : RaftNode} {store' : KVStore}
    (hi : Transfer.Installed snap n n' store') : n.KeepsAbove base store snap.lastIncludedIndex n' store' ↔
      n.getLogSize - 1 ≤ snap.lastIncludedIndex ∧ n.commitIndex ≤ snap.lastIncludedIndex := by
  obtain ⟨_, _, _, _, disk, s, hsame, hcov, _, hmp, heq⟩ := hi.node
  have hindex := hsame.index
  have hfull : n'.full = snap.covered := by
    rw [heq]
    show s.covered ++ [] = _
    rw [hcov, List.append_nil]
  constructor
  · intro hk
    have hcom := hk.commitIndex
    rw [heq] at hcom
    refine ⟨?_, hindex ▸ hcom⟩
    by_contra hlt
    rw [hn.getLogSize_eq] at hlt
    have h0 := hsnap.genuine.index_nonneg
    have hin : (snap.lastIncludedIndex + 1).toNat < n.full.length := by omega
    have hheld : n.globalEntry (snap.lastIncludedIndex + 1) = some n.full[(snap.lastIncludedIndex + 1).toNat] := by
      rw [hn.globalEntry_eq (by omega), List.getElem?_eq_getElem hin]
    have hkept := hk.entries _ _ (by omega) hheld
    have hlen := hsnap.genuine.length
    have hcovered : (n'.covered.length : ℤ) = n'.baseIndex := by
      rw [heq]
      show (s.covered.length : ℤ) = s.lastIncludedIndex + 1
      rw [hcov, hindex, hlen]
    rw [globalEntry_full hcovered (by omega), hfull] at hkept
    have := (List.getElem?_eq_some_iff.mp hkept).1
    omega
  · rintro ⟨hsize, hcom⟩
    rw [hn.getLogSize_eq] at hsize
    refine ⟨fun i e hlt he => ?_, ?_, ?_, ?_⟩
    · have h0 := globalEntry_nonneg hn.baseIndex_nonneg he
      rw [hn.globalEntry_eq h0] at he
      have := (List.getElem?_eq_some_iff.mp he).1
      omega
    · rw [heq]
      exact hindex ▸ hcom
    · have h0 := hsnap.genuine.index_nonneg
      have := hn.applied_lt
      rw [heq]
      show n.lastApplied ≤ s.lastIncludedIndex
      omega
    · rintro i ⟨k, hik, hk, _⟩
      have hlen := hsnap.genuine.length
      rw [hfull]
      refine ⟨snap.covered.length, by omega, le_rfl, fun key => ?_⟩
      rw [List.take_length, ← hsnap.state key, ← hsame.lookup key, KVStore.get, hmp]

/-- Of a transfer that is handled in order, the last message is one that completes it. -/
theorem completes_of_follows {t : Transfer} (hfits : t.snap.Fits) (hdumps : t.snap.dumps = true) (himage : t.snapBytes = serializeSnapshot t.snap)
    (hlast : t.chunkNum + 1 = t.chunkCount) (hf : t.Follows f) (ht : f.currentTerm ≤ n.currentTerm) :
    f.Completes (t.message n) t.snap := by
  have hlt : t.chunkNum < t.chunkCount := by omega
  have hoff := Transfer.offset_lt hlt
  have hstop := (Transfer.stop_eq_iff hlt).mpr hlast
  have hlen : t.snapBytes.length < 2 ^ 31 := by
    rw [himage]
    exact hfits.image
  obtain ⟨s, hs, hsame, _⟩ := hfits.deserialize
  refine ⟨ht, ⟨s, ?_, hsame, by rw [hsame.dumps, hdumps]⟩, rfl⟩
  have hbuffer : (if (t.offset : ℤ) = 0 then [] else f.snapshotBuffer) = t.snapBytes.take t.offset := by
    split
    · next h0 => rw [show t.offset = 0 by omega, List.take_zero]
    · next h0 => exact hf.resolve_left fun hz => h0 (by unfold Transfer.offset; rw [hz]; rfl)
  have hwrite := writeChunk_take le_rfl (by omega : t.offset < t.stop) hstop.le hoff.le hlen
  rw [← Transfer.chunkOf_message t n, hstop, max_eq_right hoff.le, List.take_length] at hwrite
  have hbytes : deserializeSnapshot t.snapBytes = some s := by
    rw [himage]
    exact hs
  refine assembled_eq (decide_eq_true hstop) hbytes ?_
  obtain ⟨_, _, _, _, _, heq⟩ := f.seeTerm_shape (t.message n).term
  rw [heq]
  show writeChunk (if (t.offset : ℤ) = 0 then [] else f.snapshotBuffer) (t.offset : ℤ) (chunkOf (t.message n)) = _
  rw [hbuffer, hwrite]

/-- An aligned follower that holds an entry of the snapshot's term at its index, or has a snapshot as late, keeps what it has beyond the
snapshot when the last message of the transfer is handled, if and only if it has nothing there: its log ends at or below the index of the
snapshot, and so does what is committed. -/
theorem install_keeps_iff (hn : n.Aligned) (hsnap : snap.Taken base) (hm : n.Completes m snap)
    (hh : n.handleInstallSnapshot store m = some h) :
    (n.HoldsOrBelow snap → n.KeepsAbove base store snap.lastIncludedIndex h.node h.store) ↔
      (n.HoldsOrBelow snap → n.getLogSize - 1 ≤ snap.lastIncludedIndex ∧ n.commitIndex ≤ snap.lastIncludedIndex) := by
  obtain ⟨h', hh', hi⟩ := hm.handled store
  obtain rfl := Option.some.inj (hh.symm.trans hh')
  exact imp_congr_right fun _ => installed_keepsAbove_iff hn hsnap hi

/-- A snapshot of the entry at index 0, which has not been applied, and the only message in which a leader of term 2 sends it. -/
def oneEntry : Snapshot where
  lastIncludedIndex := 0
  lastIncludedTerm := 1
  kvState := ∅
  covered := [entryOf 0 "PUT a 1"]

def onlyMessage : InstallSnapshotRPC :=
  (Transfer.start oneEntry).message { create 0 5000 [5001, 5002] { metadata := none, snapshotFile := .absent } with currentTerm := 2 }

theorem oneEntry_taken : oneEntry.Taken KVStore.empty where
  genuine := ⟨le_rfl, rfl, rfl, Placed.singleton rfl le_rfl⟩
  state _ := rfl

theorem onlyMessage_completes (hf : f.currentTerm ≤ 2) : f.Completes onlyMessage oneEntry :=
  completes_of_follows (t := Transfer.start oneEntry) (by decide) (by decide) rfl (by decide) (.inl rfl) hf

/-- The follower that has just the entry at index 0 keeps what it has. -/
theorem install_keeps_behind : behind.HoldsOrBelow oneEntry ∧ ∃ h, behind.handleInstallSnapshot KVStore.empty onlyMessage = some h ∧
    (behind.HoldsOrBelow oneEntry → behind.KeepsAbove KVStore.empty KVStore.empty oneEntry.lastIncludedIndex h.node h.store) := by
  obtain ⟨h, hh, _⟩ := (onlyMessage_completes (f := behind) le_rfl).handled KVStore.empty
  exact ⟨.inl ⟨_, rfl, rfl⟩, h, hh,
    (install_keeps_iff behind_aligned oneEntry_taken (onlyMessage_completes le_rfl) hh).mpr fun _ => by decide⟩

/-- The follower that has an entry at index 1 too loses it. -/
theorem install_drops : ¬∀ (base store : KVStore) (n : RaftNode) (m : InstallSnapshotRPC) (snap : Snapshot) (h : Handled), n.Aligned →
    snap.Taken base → n.Completes m snap → n.handleInstallSnapshot store m = some h → n.HoldsOrBelow snap →
      n.KeepsAbove base store snap.lastIncludedIndex h.node h.store := by
  intro hall
  obtain ⟨h, hh, hi⟩ := (onlyMessage_completes (f := leftover) le_rfl).handled KVStore.empty
  have hkeeps := hall KVStore.empty KVStore.empty leftover onlyMessage oneEntry h leftover_aligned oneEntry_taken
    (onlyMessage_completes le_rfl) hh (.inl ⟨_, rfl, rfl⟩)
  have hsize := ((installed_keepsAbove_iff leftover_aligned oneEntry_taken hi).mp hkeeps).1
  exact absurd hsize (by decide)

end RaftNode

end RaftStore
