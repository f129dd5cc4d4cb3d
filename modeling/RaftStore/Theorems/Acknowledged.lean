import RaftStore.Lemmas.Places
import RaftStore.Theorems.Compaction

/-!
# What a positive answer to AppendEntries is worth

A follower that answers with `success` has every entry of the message exactly where the first new entry conflicts with its log or
lies at the end of it, or where it had the entries before; and where the snapshot that it takes at the threshold is not one below its
old snapshot.
-/

namespace RaftStore

/-- Two entries are the same up to what only the model has of them. -/
def LogEntry.Same (e f : LogEntry) : Prop := e.term = f.term ∧ e.index = f.index ∧ e.command = f.command

instance (e f : LogEntry) : Decidable (e.Same f) := instDecidableAnd

namespace RaftNode

variable {n x : RaftNode} {m : AppendEntriesRPC} {store : KVStore} {i : ℤ} {f : LogEntry}

/-- The log has this entry at a global index. -/
def HasEntry (n : RaftNode) (i : ℤ) (f : LogEntry) : Prop := ∃ e ∈ n.entryAt (n.logIdx i), e.Same f

instance (n : RaftNode) (i : ℤ) (f : LogEntry) : Decidable (n.HasEntry i f) :=
  inferInstanceAs (Decidable (∃ e ∈ n.entryAt (n.logIdx i), e.Same f))

/-- A global index is covered by the snapshot. -/
def Compacted (n : RaftNode) (i : ℤ) : Prop := ∃ s ∈ n.latestSnapshot, i ≤ s.lastIncludedIndex

instance (n : RaftNode) (i : ℤ) : Decidable (n.Compacted i) :=
  inferInstanceAs (Decidable (∃ s ∈ n.latestSnapshot, i ≤ s.lastIncludedIndex))

/-! ## The condition -/

/-- The length that `log` has when a message is taken over. -/
def lengthWith (n : RaftNode) (m : AppendEntriesRPC) : ℤ :=
  match n.firstMatches m with
  | some true => n.log.length
  | some false => n.logIdx (m.prevLogIndex + 1) + m.entries.length
  | none => n.log.length + max 0 (m.entries.length - max 0 (n.log.length - n.logIdx (m.prevLogIndex + 1)))

/-- The last index of the snapshot that is taken when a message is taken over, if one is. -/
def snapshotAfter (n : RaftNode) (m : AppendEntriesRPC) : Option ℤ :=
  if n.commitIndex < m.leaderCommit ∧ snapshotThreshold ≤ n.lengthWith m then
    some (max n.lastApplied (min m.leaderCommit (n.baseIndex + n.lengthWith m - 1)))
  else none

/-- The `commitIndex` that a message leaves when it is taken over. -/
def commitAfter (n : RaftNode) (m : AppendEntriesRPC) : ℤ :=
  if n.commitIndex < m.leaderCommit then min m.leaderCommit (n.baseIndex + n.lengthWith m - 1) else n.commitIndex

/-- An entry of a message stays or comes into the log: the first new entry conflicts, or the log had the entry, or the message does
not begin beyond the log and the entry is not within it. -/
def Keeps (n : RaftNode) (m : AppendEntriesRPC) (i : ℤ) (f : LogEntry) : Prop :=
  n.firstMatches m = some false ∨ n.HasEntry i f ∨
    n.firstMatches m = none ∧ n.logIdx (m.prevLogIndex + 1) ≤ n.log.length ∧ (n.log.length : ℤ) ≤ n.logIdx i

/-- A message that begins beyond the log is followed by a snapshot that makes up for the gap, which takes a snapshot of a negative
index before it. -/
def Realigns (n : RaftNode) (m : AppendEntriesRPC) (lastIncludedIndex : ℤ) : Prop :=
  n.log.length < n.logIdx (m.prevLogIndex + 1) ∧
    lastIncludedIndex + 1 = n.baseIndex + (n.logIdx (m.prevLogIndex + 1) - n.log.length) ∧
    n.getLogSize + m.entries.length ≤ lastIncludedIndex

/-- Every entry of a message is in the log after it, or covered by the snapshot. -/
def Retains (n : RaftNode) (m : AppendEntriesRPC) : Prop :=
  ∀ (j : ℕ) (f : LogEntry), m.entries[j]? = some f →
    match n.snapshotAfter m with
    | none => n.Compacted (m.prevLogIndex + 1 + j) ∨ n.Keeps m (m.prevLogIndex + 1 + j) f
    | some lastIncludedIndex => m.prevLogIndex + 1 + j ≤ lastIncludedIndex ∨
        n.baseIndex ≤ lastIncludedIndex + 1 ∧ n.Keeps m (m.prevLogIndex + 1 + j) f ∨ n.Realigns m lastIncludedIndex

/-! ## The log that a message leaves -/

/-- Of entries with consecutive indices the loop appends those beyond the log, or all where they leave a gap. -/
theorem foldl_pushEntry_log {es : List LogEntry} {q : ℤ} (he : Indexed q es) :
    (es.foldl pushEntry n).log = n.log ++ es.drop (n.log.length - n.logIdx q).toNat := by
  induction es generalizing n q with
  | nil => simp
  | cons e es ih =>
    obtain ⟨hi, hes⟩ := he.cons
    rw [List.foldl_cons]
    by_cases hle : (n.log.length : ℤ) ≤ n.logIdx q
    · have hpush : pushEntry n e = n.appendLogEntry e := if_pos (by rw [hi]; exact hle)
      have hidx : (n.appendLogEntry e).logIdx (q + 1) = n.logIdx q + 1 := by
        rw [logIdx_eq, logIdx_eq]
        show q + 1 - n.baseIndex = _
        omega
      rw [hpush, ih hes, hidx]
      show n.log ++ [e] ++ es.drop (((n.log ++ [e]).length : ℤ) - _).toNat = _
      rw [List.length_append, List.length_singleton, show (((n.log.length + 1 : ℕ) : ℤ) - (n.logIdx q + 1)).toNat = 0 by omega,
        show ((n.log.length : ℤ) - n.logIdx q).toNat = 0 by omega, List.append_assoc]
      rfl
    · have hpush : pushEntry n e = n := if_neg (by rw [hi]; exact hle)
      have hidx : n.logIdx (q + 1) = n.logIdx q + 1 := by
        rw [logIdx_eq, logIdx_eq]
        omega
      rw [hpush, ih hes, hidx]
      congr 1
      rw [show ((n.log.length : ℤ) - n.logIdx q).toNat = ((n.log.length : ℤ) - (n.logIdx q + 1)).toNat + 1 by omega,
        List.drop_succ_cons]

/-- The log that a message leaves: with a conflict, without one, and where there is nothing to compare. -/
theorem insertEntries_log (hm : Indexed (m.prevLogIndex + 1) m.entries) : (n.insertEntries m).log =
    match n.firstMatches m with
    | some true => n.log
    | some false => n.log.take (n.logIdx (m.prevLogIndex + 1)).toNat ++ m.entries
    | none => n.log ++ m.entries.drop (n.log.length - n.logIdx (m.prevLogIndex + 1)).toNat := by
  cases hf : n.firstMatches m with
  | none => rw [Aligned.insertEntries_push hf, foldl_pushEntry_log hm]
  | some b =>
    cases b with
    | true => rw [Aligned.insertEntries_skip hf]
    | false =>
      obtain ⟨e, _, _, he, _⟩ := Aligned.firstMatches_eq hf
      have hplace := (entryAt_isSome n _).mp (by rw [he]; rfl)
      rw [Aligned.insertEntries_cut hf, foldl_pushEntry_log hm]
      show n.log.take _ ++ m.entries.drop (((n.log.take _).length : ℤ) - n.logIdx (m.prevLogIndex + 1)).toNat = _
      rw [List.length_take, show (((min (n.logIdx (m.prevLogIndex + 1)).toNat n.log.length : ℕ) : ℤ) -
        n.logIdx (m.prevLogIndex + 1)).toNat = 0 by omega, List.drop_zero]

theorem insertEntries_length (hm : Indexed (m.prevLogIndex + 1) m.entries) :
    ((n.insertEntries m).log.length : ℤ) = n.lengthWith m := by
  rw [insertEntries_log hm, lengthWith]
  cases hf : n.firstMatches m with
  | none =>
    simp only [List.length_append, List.length_drop]
    omega
  | some b =>
    cases b with
    | true => rfl
    | false =>
      obtain ⟨e, _, _, he, _⟩ := Aligned.firstMatches_eq hf
      have hplace := (entryAt_isSome n _).mp (by rw [he]; rfl)
      simp only [List.length_append, List.length_take]
      omega

/-- Where the entries of the log after a message stand: at their indices, but for those of a message that begins beyond the log. -/
theorem insertEntries_index (hn : n.InPlace) (hm : Indexed (m.prevLogIndex + 1) m.entries) {k : ℤ} {e : LogEntry}
    (he : (n.insertEntries m).entryAt k = some e) : e.index = n.baseIndex + k ∨ n.log.length < n.logIdx (m.prevLogIndex + 1) ∧
      n.log.length ≤ k ∧ e.index = n.baseIndex + k + (n.logIdx (m.prevLogIndex + 1) - n.log.length) := by
  have hlog := insertEntries_log (n := n) hm
  have hk : 0 ≤ k := ((entryAt_isSome _ _).mp (by rw [he]; rfl)).1
  have hbase := n.logIdx_eq (m.prevLogIndex + 1)
  rw [entryAt_of_nonneg _ hk] at he
  cases hf : n.firstMatches m with
  | none =>
    simp only [hf] at hlog
    rw [hlog] at he
    by_cases hlt : k.toNat < n.log.length
    · rw [List.getElem?_append_left hlt] at he
      have := hn k.toNat e he
      exact .inl (by omega)
    · rw [List.getElem?_append_right (by omega), List.getElem?_drop] at he
      have := hm _ e he
      by_cases hgap : (n.log.length : ℤ) < n.logIdx (m.prevLogIndex + 1)
      · exact .inr ⟨hgap, by omega, by push_cast at this; omega⟩
      · exact .inl (by push_cast at this; omega)
  | some b =>
    cases b with
    | true =>
      simp only [hf] at hlog
      rw [hlog] at he
      have := hn k.toNat e he
      exact .inl (by omega)
    | false =>
      obtain ⟨_, _, _, hplace, _⟩ := Aligned.firstMatches_eq hf
      have hplace := (entryAt_isSome n _).mp (by rw [hplace]; rfl)
      have hlen : (n.log.take (n.logIdx (m.prevLogIndex + 1)).toNat).length = (n.logIdx (m.prevLogIndex + 1)).toNat := by
        rw [List.length_take]
        omega
      simp only [hf] at hlog
      rw [hlog] at he
      by_cases hlt : k.toNat < (n.logIdx (m.prevLogIndex + 1)).toNat
      · rw [List.getElem?_append_left (by rw [hlen]; exact hlt), List.getElem?_take_of_lt hlt] at he
        have := hn k.toNat e he
        exact .inl (by omega)
      · rw [List.getElem?_append_right (by rw [hlen]; omega), hlen] at he
        have := hm _ e he
        exact .inl (by omega)

theorem insertEntries_baseIndex (n : RaftNode) (m : AppendEntriesRPC) : (n.insertEntries m).baseIndex = n.baseIndex := by
  obtain ⟨log, heq⟩ := n.insertEntries_eq m
  rw [heq]
  rfl

/-- The log after a message has these entries of the message: those that it keeps. -/
theorem insertEntries_hasEntry (hn : n.InPlace) (hm : Indexed (m.prevLogIndex + 1) m.entries) {j : ℕ}
    (hj : m.entries[j]? = some f) :
    (n.insertEntries m).HasEntry (m.prevLogIndex + 1 + j) f ↔ n.Keeps m (m.prevLogIndex + 1 + j) f := by
  have hbase := n.logIdx_eq (m.prevLogIndex + 1)
  have hidx : (n.insertEntries m).logIdx (m.prevLogIndex + 1 + j) = n.logIdx (m.prevLogIndex + 1) + j := by
    rw [logIdx_eq, insertEntries_baseIndex]
    omega
  have hidx' : n.logIdx (m.prevLogIndex + 1 + j) = n.logIdx (m.prevLogIndex + 1) + j := by
    rw [logIdx_eq]
    omega
  have hindex := hm j f hj
  have hlog := insertEntries_log (n := n) hm
  unfold HasEntry Keeps HasEntry
  rw [hidx, hidx']
  cases hf : n.firstMatches m with
  | none =>
    simp only [hf] at hlog
    by_cases hlt : n.logIdx (m.prevLogIndex + 1) + j < n.log.length
    · -- below the end of the log it is as it was
      have hsame : (n.insertEntries m).entryAt (n.logIdx (m.prevLogIndex + 1) + j) =
          n.entryAt (n.logIdx (m.prevLogIndex + 1) + j) := by
        unfold entryAt
        split
        · rw [hlog, List.getElem?_append_left (by omega)]
        · rfl
      rw [hsame]
      refine ⟨fun h => .inr (.inl h), ?_⟩
      rintro (h | h | ⟨_, _, hge⟩)
      · cases h
      · exact h
      · omega
    · constructor
      · rintro ⟨e, he, hsame⟩
        refine .inr (.inr ⟨rfl, ?_, by omega⟩)
        -- in a log with a gap the entries do not stand at their indices
        by_contra hgap
        have := hsame.2.1
        rcases insertEntries_index hn hm he with h | h
        · rw [Option.mem_def, entryAt_of_nonneg _ (by omega), hlog, List.getElem?_append_right (by omega), List.getElem?_drop] at he
          have := hm _ e he
          push_cast at this
          omega
        · omega
      · rintro (h | ⟨e, he, _⟩ | ⟨_, hle, _⟩)
        · cases h
        · have := ((entryAt_isSome n _).mp (by rw [he]; rfl)).2
          omega
        · refine ⟨f, ?_, rfl, rfl, rfl⟩
          rw [Option.mem_def, entryAt_of_nonneg _ (by omega), hlog, List.getElem?_append_right (by omega), List.getElem?_drop, ← hj]
          congr 1
          omega
  | some b =>
    cases b with
    | true =>
      simp only [hf] at hlog
      unfold entryAt
      rw [hlog]
      simp
    | false =>
      obtain ⟨e, _, _, he, _⟩ := Aligned.firstMatches_eq hf
      have hplace := (entryAt_isSome n _).mp (by rw [he]; rfl)
      simp only [hf] at hlog
      refine ⟨fun _ => .inl rfl, fun _ => ⟨f, ?_, rfl, rfl, rfl⟩⟩
      rw [Option.mem_def, entryAt_of_nonneg _ (by omega), hlog, List.getElem?_append_right (by rw [List.length_take]; omega), ← hj]
      congr 1
      rw [List.length_take]
      omega

/-- A message that begins beyond the log has nothing to compare, and all its entries are appended. -/
theorem lengthWith_of_gap (hgap : n.log.length < n.logIdx (m.prevLogIndex + 1)) :
    n.firstMatches m = none ∧ n.lengthWith m = n.log.length + m.entries.length := by
  have hf : n.firstMatches m = none := by
    have hnone : n.entryAt (n.logIdx (m.prevLogIndex + 1)) = none := by
      rw [← Option.not_isSome_iff_eq_none, entryAt_isSome]
      omega
    unfold firstMatches
    rw [hnone]
  refine ⟨hf, ?_⟩
  unfold lengthWith
  simp only [hf]
  omega

theorem lengthWith_le (n : RaftNode) (m : AppendEntriesRPC) : n.lengthWith m ≤ n.log.length + m.entries.length := by
  unfold lengthWith
  split
  · omega
  · next hf =>
    obtain ⟨_, _, _, he, _⟩ := Aligned.firstMatches_eq hf
    have hplace := (entryAt_isSome n _).mp (by rw [he]; rfl)
    omega
  · omega

/-! ## The snapshot after it -/

/-- A snapshot within the log keeps the entries above it. -/
theorem createSnapshot_hasEntry (hb : x.baseIndex ≤ x.lastApplied + 1) (hlt : x.lastApplied < x.getLogSize)
    (hi : x.lastApplied < i) : (x.createSnapshot store).1.HasEntry i f ↔ x.HasEntry i f := by
  obtain ⟨hbase, hlog, _⟩ := x.createSnapshot_above store hb hlt
  unfold HasEntry
  rw [logIdx_eq, logIdx_eq, hbase, entryAt_of_nonneg _ (by omega), entryAt_of_nonneg _ (by omega), hlog, List.getElem?_drop,
    show (x.lastApplied + 1 - x.baseIndex).toNat + (i - (x.lastApplied + 1)).toNat = (i - x.baseIndex).toNat by omega]

/-- A snapshot below the old one, or beyond the log, leaves the log as it is, under other indices. -/
theorem createSnapshot_hasEntry_outside (h : x.lastApplied + 1 < x.baseIndex ∨ x.getLogSize ≤ x.lastApplied) :
    (x.createSnapshot store).1.HasEntry i f ↔ ∃ e ∈ x.entryAt (i - x.lastApplied - 1), e.Same f := by
  have hlog : (x.createSnapshot store).1.log = x.log := by
    show ((x.saveSnapshot (x.newSnapshot store)).truncateLogSafe x.lastApplied).log = _
    rw [truncateLogSafe_outside (x.saveSnapshot (x.newSnapshot store)) h]
    rfl
  have hidx : (x.createSnapshot store).1.logIdx i = i - x.lastApplied - 1 := rfl
  unfold HasEntry
  rw [hidx]
  unfold entryAt
  rw [hlog]

/-- The node that the entries of a message have been inserted into, before the snapshot at the threshold. -/
structure Inserted (n : RaftNode) (m : AppendEntriesRPC) (x : RaftNode) : Prop where
  log : x.log = (n.insertEntries m).log
  latestSnapshot : x.latestSnapshot = n.latestSnapshot

namespace Inserted

variable (h : Inserted n m x)

include h

theorem baseIndex : x.baseIndex = n.baseIndex := by
  unfold RaftNode.baseIndex
  rw [h.latestSnapshot]

theorem getLogSize (hm : Indexed (m.prevLogIndex + 1) m.entries) : x.getLogSize = n.baseIndex + n.lengthWith m := by
  unfold RaftNode.getLogSize
  rw [h.baseIndex, h.log, insertEntries_length hm]

theorem entryAt (i : ℤ) : x.entryAt i = (n.insertEntries m).entryAt i := by
  unfold RaftNode.entryAt
  rw [h.log]

theorem hasEntry (hn : n.InPlace) (hm : Indexed (m.prevLogIndex + 1) m.entries) {j : ℕ} (hj : m.entries[j]? = some f) :
    x.HasEntry (m.prevLogIndex + 1 + j) f ↔ n.Keeps m (m.prevLogIndex + 1 + j) f := by
  rw [← insertEntries_hasEntry hn hm hj]
  unfold HasEntry
  rw [h.entryAt, logIdx_eq, logIdx_eq, h.baseIndex, insertEntries_baseIndex]

/-- What a snapshot after the insertion leaves of an entry of the message above it. -/
theorem createSnapshot (hn : n.InPlace) (hm : Indexed (m.prevLogIndex + 1) m.entries) {j : ℕ} (hj : m.entries[j]? = some f)
    (hi : x.lastApplied < m.prevLogIndex + 1 + j) : (x.createSnapshot store).1.HasEntry (m.prevLogIndex + 1 + j) f ↔
      n.baseIndex ≤ x.lastApplied + 1 ∧ n.Keeps m (m.prevLogIndex + 1 + j) f ∨ n.Realigns m x.lastApplied := by
  have hbase := h.baseIndex
  have hsize := h.getLogSize hm
  have hidx := n.logIdx_eq (m.prevLogIndex + 1)
  have hnsize : n.getLogSize = n.baseIndex + n.log.length := rfl
  by_cases hin : x.baseIndex ≤ x.lastApplied + 1 ∧ x.lastApplied < x.getLogSize
  · have hle := n.lengthWith_le m
    have hno : ¬n.Realigns m x.lastApplied := fun hr => by
      have := hr.2.2
      omega
    rw [createSnapshot_hasEntry hin.1 hin.2 hi, h.hasEntry hn hm hj, or_iff_left hno, and_iff_right (by omega)]
  · rw [createSnapshot_hasEntry_outside (by omega)]
    constructor
    · rintro ⟨e, he, hsame⟩
      rw [h.entryAt] at he
      have hindex := hm j f hj
      have hsameIndex := hsame.2.1
      rcases insertEntries_index hn hm he with heq | ⟨hgap, _, heq⟩
      · -- at its index in the old log it cannot be at its index in the new one
        have hpos := (entryAt_isSome _ _).mp (by rw [he]; rfl)
        have hlen := insertEntries_length (n := n) hm
        omega
      · obtain ⟨_, hlen⟩ := lengthWith_of_gap hgap
        exact .inr ⟨hgap, by omega, by omega⟩
    · rintro (⟨hb, hkeeps⟩ | ⟨hgap, hre, hle⟩)
      · obtain ⟨e, he, _⟩ := (h.hasEntry hn hm hj).mpr hkeeps
        have hlt := (entryAt_isSome _ _).mp (by rw [he]; rfl)
        rw [logIdx_eq] at hlt
        unfold RaftNode.getLogSize at hin
        omega
      · obtain ⟨hf, _⟩ := lengthWith_of_gap hgap
        have hlog := insertEntries_log (n := n) hm
        simp only [hf] at hlog
        refine ⟨f, ?_, rfl, rfl, rfl⟩
        rw [h.entryAt, Option.mem_def, entryAt_of_nonneg _ (by omega), hlog, List.getElem?_append_right (by omega),
          List.getElem?_drop, ← hj]
        congr 1
        omega

end Inserted

/-! ## The answer -/

/-- The entries that a message brings to the log are the same before the step down and after it. -/
theorem stepDown_insertEntries (hm : Indexed (m.prevLogIndex + 1) m.entries) :
    ((n.stepDown m).insertEntries m).log = (n.insertEntries m).log := by
  obtain ⟨_, _, _, _, _, heq⟩ := n.stepDown_shape m
  rw [insertEntries_log hm, insertEntries_log hm, heq]
  rfl

/-- A commit section applies entries, and takes a snapshot at the threshold. -/
theorem advanceCommit_cases (x : RaftNode) (store : KVStore) (leaderCommit : ℤ) : ∃ y store', y.log = x.log ∧
    y.latestSnapshot = x.latestSnapshot ∧ y.commitIndex = min leaderCommit (x.getLogSize - 1) ∧
      y.lastApplied = max x.lastApplied (min leaderCommit (x.getLogSize - 1)) ∧
      (x.advanceCommit store leaderCommit).1 = if snapshotThreshold ≤ x.log.length then (y.createSnapshot store').1 else y := by
  unfold advanceCommit snapshotAtThreshold
  simp only [applyCommitted_node]
  refine ⟨{ x.setCommitIndex (min leaderCommit (x.getLogSize - 1)) with
    lastApplied := max x.lastApplied (min leaderCommit (x.getLogSize - 1)) },
    ((x.setCommitIndex (min leaderCommit (x.getLogSize - 1))).applyCommitted store).store, rfl, rfl, rfl, rfl, ?_⟩
  show (if snapshotThreshold ≤ x.log.length then _ else _ : RaftNode × KVStore).1 = _
  split <;> rfl

/-- A message that passes the checks: its entries are inserted, and a snapshot may follow. -/
theorem handleAppendEntries_inserted (haway : ¬n.turnsAway m) (hp : n.prevMatches m = true)
    (hm : Indexed (m.prevLogIndex + 1) m.entries) (store : KVStore) : ∃ y store', Inserted n m y ∧
      y.commitIndex = n.commitAfter m ∧ ((n.handleAppendEntries store m).node = y ∧ n.snapshotAfter m = none ∨
        (n.handleAppendEntries store m).node = (y.createSnapshot store').1 ∧ n.snapshotAfter m = some y.lastApplied) := by
  obtain ⟨log, heq⟩ := (n.stepDown m).insertEntries_eq m
  have hp' : (n.stepDown m).prevMatches m = true := by rw [(n.stepDown_checks m).1, hp]
  have hacc : (n.stepDown m).acceptEntries m = { n.stepDown m with log := log }.persistMetadata := by
    unfold acceptEntries
    rw [if_pos hp', heq]
  have hlog : log = (n.insertEntries m).log := by
    rw [← stepDown_insertEntries hm, heq]
  have hlen : (log.length : ℤ) = n.lengthWith m := by rw [hlog, insertEntries_length hm]
  have hdown : (n.stepDown m).commitIndex = n.commitIndex ∧ (n.stepDown m).lastApplied = n.lastApplied ∧
      (n.stepDown m).latestSnapshot = n.latestSnapshot := by
    obtain ⟨_, _, _, _, _, heq⟩ := n.stepDown_shape m
    rw [heq]
    exact ⟨rfl, rfl, rfl⟩
  obtain ⟨hcommit, happlied, hsnap⟩ := hdown
  obtain ⟨y, store', hylog, hysnap, hycom, hyapp, hadv⟩ :=
    ({ n.stepDown m with log := log }.persistMetadata).advanceCommit_cases store m.leaderCommit
  have hbase : ({ n.stepDown m with log := log }.persistMetadata).baseIndex = n.baseIndex := by
    have hkept : ({ n.stepDown m with log := log }.persistMetadata).latestSnapshot = n.latestSnapshot := hsnap
    unfold baseIndex
    rw [hkept]
  have hyapp' : y.lastApplied = max n.lastApplied (min m.leaderCommit (n.baseIndex + n.lengthWith m - 1)) := by
    rw [hyapp, getLogSize, hbase, ← hlen]
    exact congrArg (max · _) happlied
  have hycom' : y.commitIndex = min m.leaderCommit (n.baseIndex + n.lengthWith m - 1) := by
    rw [hycom, getLogSize, hbase, ← hlen]
    rfl
  have hinserted : Inserted n m y := ⟨hylog.trans hlog, hysnap.trans hsnap⟩
  have hcommit' : ({ n.stepDown m with log := log }.persistMetadata).commitIndex = n.commitIndex := hcommit
  have hsize : snapshotThreshold ≤ ({ n.stepDown m with log := log }.persistMetadata).log.length ↔
      (snapshotThreshold : ℤ) ≤ n.lengthWith m := by
    rw [← hlen]
    exact Int.ofNat_le.symm
  rw [handleAppendEntries_taken haway, hacc, hcommit', hadv]
  unfold snapshotAfter
  by_cases hc : n.commitIndex < m.leaderCommit
  · have hafter : y.commitIndex = n.commitAfter m := hycom'.trans (if_pos hc).symm
    rw [if_pos ⟨hp', hc⟩]
    by_cases hthr : (snapshotThreshold : ℤ) ≤ n.lengthWith m
    · rw [if_pos (hsize.mpr hthr), if_pos ⟨hc, hthr⟩]
      exact ⟨y, store', hinserted, hafter, .inr ⟨rfl, congrArg some hyapp'.symm⟩⟩
    · rw [if_neg (fun h => hthr (hsize.mp h)), if_neg (fun h => hthr h.2)]
      exact ⟨y, store', hinserted, hafter, .inl ⟨rfl, rfl⟩⟩
  · rw [if_neg (fun h => hc h.2), if_neg (fun h => hc h.1)]
    exact ⟨{ n.stepDown m with log := log }.persistMetadata, store, ⟨hlog, hsnap⟩, hcommit'.trans (if_neg hc).symm, .inl ⟨rfl, rfl⟩⟩

/-- A follower whose log is in its places, and a message with consecutive entries that is not stale: whenever it is answered with
`success`, every entry of it is in the log at its index or covered by the snapshot, exactly where the message is turned away for a
transfer, fails the check, or is one whose entries are retained. -/
theorem acknowledged_iff (hn : n.InPlace) (hm : Indexed (m.prevLogIndex + 1) m.entries) (ht : n.currentTerm ≤ m.term)
    (store : KVStore) :
    (∀ term, (n.handleAppendEntries store m).reply = .appendEntries term true → ∀ (j : ℕ) (f : LogEntry), m.entries[j]? = some f →
      (n.handleAppendEntries store m).node.Compacted (m.prevLogIndex + 1 + j) ∨
        (n.handleAppendEntries store m).node.HasEntry (m.prevLogIndex + 1 + j) f) ↔
      (n.receivingSnapshot = true ∧ n.snapshotLeaderId = m.leaderId) ∨ n.prevMatches m = false ∨ n.Retains m := by
  by_cases hr : n.receivingSnapshot = true ∧ n.snapshotLeaderId = m.leaderId
  · refine iff_of_true (fun term hreply => ?_) (.inl hr)
    rw [(handleAppendEntries_away (.inl hr) store).2, if_pos hr] at hreply
    cases hreply
  · have haway : ¬n.turnsAway m := not_or.mpr ⟨hr, by omega⟩
    have hreply := handleAppendEntries_reply haway store
    rw [(n.stepDown_checks m).1] at hreply
    cases hp : n.prevMatches m with
    | false =>
      refine iff_of_true (fun term hsucc => ?_) (.inr (.inl rfl))
      rw [hreply, hp] at hsucc
      cases hsucc
    | true =>
      rw [hp] at hreply
      obtain ⟨y, store', hy, _, hnode⟩ := handleAppendEntries_inserted haway hp hm store
      have hquant : (∀ term, (n.handleAppendEntries store m).reply = .appendEntries term true →
          ∀ (j : ℕ) (f : LogEntry), m.entries[j]? = some f →
            (n.handleAppendEntries store m).node.Compacted (m.prevLogIndex + 1 + j) ∨
              (n.handleAppendEntries store m).node.HasEntry (m.prevLogIndex + 1 + j) f) ↔
          ∀ (j : ℕ) (f : LogEntry), m.entries[j]? = some f →
            (n.handleAppendEntries store m).node.Compacted (m.prevLogIndex + 1 + j) ∨
              (n.handleAppendEntries store m).node.HasEntry (m.prevLogIndex + 1 + j) f :=
        ⟨fun h => h _ hreply, fun h _ _ => h⟩
      rw [hquant, or_iff_right hr, or_iff_right (by simp)]
      refine forall_congr' fun j => forall_congr' fun f => imp_congr_right fun hj => ?_
      rcases hnode with ⟨heq, hsnap⟩ | ⟨heq, hsnap⟩
      · rw [heq, hsnap, hy.hasEntry hn hm hj]
        unfold Compacted
        rw [hy.latestSnapshot]
      · rw [heq, hsnap]
        have hcomp : (y.createSnapshot store').1.Compacted (m.prevLogIndex + 1 + j) ↔ m.prevLogIndex + 1 + j ≤ y.lastApplied := by
          unfold Compacted
          rw [(y.createSnapshot_log store').1]
          simp [newSnapshot]
        simp only [hcomp]
        by_cases hi : m.prevLogIndex + 1 + j ≤ y.lastApplied
        · simp only [hi, true_or]
        · simp only [hi, false_or]
          exact hy.createSnapshot hn hm hj (by omega)

/-- The entry of term 1 with this index and command. -/
def entryOf (index : ℤ) (command : String) : LogEntry := { term := 1, index := index, command := ascii command, origin := ([], 0) }

/-- The first two entries of the log of a leader of term 2, in one message. -/
def firstTwo : AppendEntriesRPC where
  term := 2
  leaderId := 0
  prevLogIndex := -1
  prevLogTerm := 0
  entries := [entryOf 0 "PUT a 1", entryOf 1 "PUT b 2"]
  leaderCommit := 0

/-- A follower of that term with no entries, and one that has the first entry. -/
def newcomer : RaftNode := { create 1 5001 [5000, 5002] { metadata := none, snapshotFile := .absent } with currentTerm := 2 }
def behind : RaftNode := newcomer.appendLogEntry (entryOf 0 "PUT a 1")

theorem firstTwo_indexed : Indexed (firstTwo.prevLogIndex + 1) firstTwo.entries :=
  ((Indexed.nil 0).append_singleton (e := entryOf 0 "PUT a 1") rfl).append_singleton (e := entryOf 1 "PUT b 2") rfl

/-- The follower without entries answers with `success`, and has both of them. -/
theorem acknowledged_newcomer : (newcomer.handleAppendEntries KVStore.empty firstTwo).reply = .appendEntries 2 true ∧
    ∀ term, (newcomer.handleAppendEntries KVStore.empty firstTwo).reply = .appendEntries term true →
      ∀ (j : ℕ) (f : LogEntry), firstTwo.entries[j]? = some f →
        (newcomer.handleAppendEntries KVStore.empty firstTwo).node.Compacted (firstTwo.prevLogIndex + 1 + j) ∨
          (newcomer.handleAppendEntries KVStore.empty firstTwo).node.HasEntry (firstTwo.prevLogIndex + 1 + j) f := by
  refine ⟨by decide +kernel, (acknowledged_iff (by decide) firstTwo_indexed (by decide) KVStore.empty).mpr (.inr (.inr fun j f hj => ?_))⟩
  have hnone : newcomer.snapshotAfter firstTwo = none := by decide
  rw [hnone]
  refine .inr (.inr (.inr ⟨by decide, by decide, ?_⟩))
  show (0 : ℤ) ≤ -1 + 1 + j
  omega

/-- The follower that has the first entry answers with `success` too, and does not have the second one. -/
theorem acknowledged_without_entry : ¬∀ (n : RaftNode) (m : AppendEntriesRPC) (store : KVStore), n.InPlace →
    Indexed (m.prevLogIndex + 1) m.entries → n.currentTerm ≤ m.term →
    ∀ term, (n.handleAppendEntries store m).reply = .appendEntries term true → ∀ (j : ℕ) (f : LogEntry), m.entries[j]? = some f →
      (n.handleAppendEntries store m).node.Compacted (m.prevLogIndex + 1 + j) ∨
        (n.handleAppendEntries store m).node.HasEntry (m.prevLogIndex + 1 + j) f := by
  intro h
  have hanswer : (behind.handleAppendEntries KVStore.empty firstTwo).reply = .appendEntries 2 true := by decide +kernel
  have hsecond := h behind firstTwo KVStore.empty (by decide) firstTwo_indexed (by decide) 2 hanswer 1 (entryOf 1 "PUT b 2") rfl
  exact absurd hsecond (by decide +kernel)

end RaftNode

end RaftStore
