import RaftStore.Lemmas.Entries
import RaftStore.Theorems.Recovery

/-!
# What compaction changes for replication

A follower, and the same follower after it has taken a snapshot: its log without the first entries, over a snapshot that ends with
the last of them. The AppendEntries handler treats the two alike, but for a message that starts below the snapshot, which only the
follower without one takes over, and for what the two have below a snapshot that one of them takes at the threshold.
-/

namespace RaftStore

/-- The message is a piece of a log in which every entry stands at its index, with the term of the entry before it. -/
structure AppendEntriesRPC.PieceOf (m : AppendEntriesRPC) (l : List LogEntry) : Prop where
  placed : ∀ (j : ℕ) (e : LogEntry), l[j]? = some e → e.index = j
  prev : -1 ≤ m.prevLogIndex
  prevTerm : 0 ≤ m.prevLogIndex → (l[m.prevLogIndex.toNat]?).map (·.term) = some m.prevLogTerm
  entries : m.entries <+: l.drop (m.prevLogIndex + 1).toNat

namespace RaftNode

variable {n x y u c : RaftNode} {s : Snapshot} {m : AppendEntriesRPC} {store : KVStore} {k : ℤ}

/-- The message is turned away unread: a snapshot of its leader is coming in, or it is stale. -/
def turnsAway (n : RaftNode) (m : AppendEntriesRPC) : Prop :=
  (n.receivingSnapshot = true ∧ n.snapshotLeaderId = m.leaderId) ∨ m.term < n.currentTerm

/-! ## The answer to a message -/

/-- A message that is turned away changes nothing. -/
theorem handleAppendEntries_away (h : n.turnsAway m) (store : KVStore) : (n.handleAppendEntries store m).node = n ∧
    (n.handleAppendEntries store m).reply =
      if n.receivingSnapshot = true ∧ n.snapshotLeaderId = m.leaderId then .null else .appendEntries n.currentTerm false := by
  unfold handleAppendEntries
  split
  · exact ⟨rfl, rfl⟩
  · next hr =>
    rw [if_pos (h.resolve_left hr)]
    exact ⟨rfl, rfl⟩

/-- The answer to a message that is not turned away tells whether it joins the log. -/
theorem handleAppendEntries_reply (h : ¬n.turnsAway m) (store : KVStore) :
    (n.handleAppendEntries store m).reply = .appendEntries (n.stepDown m).currentTerm ((n.stepDown m).prevMatches m) := by
  obtain ⟨hr, ht⟩ := not_or.mp h
  have hacc : ((n.stepDown m).acceptEntries m).currentTerm = (n.stepDown m).currentTerm :=
    congrArg Role.currentTerm ((n.stepDown m).acceptEntries_role m)
  have hadv (n : RaftNode) (store : KVStore) : (n.advanceCommit store m.leaderCommit).1.currentTerm = n.currentTerm :=
    congrArg Role.currentTerm (n.advanceCommit_role store m.leaderCommit)
  unfold handleAppendEntries
  rw [if_neg hr, if_neg ht]
  simp only
  split
  · simp only [hadv, hacc]
  · simp only [hacc]

/-- What it leaves: its entries are accepted, and the commit may advance. -/
theorem handleAppendEntries_taken (h : ¬n.turnsAway m) (store : KVStore) : (n.handleAppendEntries store m).node =
    if (n.stepDown m).prevMatches m = true ∧ ((n.stepDown m).acceptEntries m).commitIndex < m.leaderCommit then
      (((n.stepDown m).acceptEntries m).advanceCommit store m.leaderCommit).1
    else (n.stepDown m).acceptEntries m := by
  obtain ⟨hr, ht⟩ := not_or.mp h
  unfold handleAppendEntries
  rw [if_neg hr, if_neg ht]
  simp only
  split <;> rfl

/-! ## Logs that are parts of each other -/

/-- Above the snapshot `getLogEntries` is a piece of `log`. -/
theorem getLogEntries_above {i : ℤ} (hi : n.baseIndex ≤ i) (j : ℤ) :
    n.getLogEntries i j = (n.log.drop (i - n.baseIndex).toNat).take (j - i).toNat := by
  unfold getLogEntries
  simp only
  rw [max_eq_right (by omega)]
  split
  · next hle =>
    symm
    rw [List.take_eq_nil_iff, List.drop_eq_nil_iff]
    omega
  · next hle =>
    rw [List.drop_take]
    rcases le_total (n.log.length : ℤ) (j - n.baseIndex) with hb | hb
    · rw [min_eq_left hb, List.take_of_length_le (by rw [List.length_drop]; omega),
        List.take_of_length_le (by rw [List.length_drop]; omega)]
    · rw [min_eq_right hb]
      congr 1
      omega

/-- Two nodes that are the same to the peers: above an index, and above the snapshot of the first one. -/
structure Agree (k : ℤ) (u c : RaftNode) : Prop where
  commitIndex : c.commitIndex = u.commitIndex
  lastApplied : c.lastApplied = u.lastApplied
  size : c.getLogSize = u.getLogSize
  term : ∀ i, k < i → u.baseIndex ≤ i → c.getLogTerm i = u.getLogTerm i
  entries : ∀ i j, k < i → u.baseIndex ≤ i → c.getLogEntries i j = u.getLogEntries i j

/-- What a node with the end of another one's log has above its own snapshot. -/
theorem drop_above {d : ℕ} (hb : y.baseIndex = x.baseIndex + d) (hl : y.log = x.log.drop d) {i : ℤ} (hi : y.baseIndex ≤ i) :
    y.getLogTerm i = x.getLogTerm i ∧ ∀ j, y.getLogEntries i j = x.getLogEntries i j := by
  have hidx : (i - x.baseIndex).toNat = d + (i - y.baseIndex).toNat := by omega
  refine ⟨?_, fun j => ?_⟩
  · rw [getLogTerm_above hi, getLogTerm_above (by omega), logIdx_eq, logIdx_eq, entryAt_of_nonneg _ (by omega),
      entryAt_of_nonneg _ (by omega), hl, List.getElem?_drop, hidx]
  · rw [getLogEntries_above hi, getLogEntries_above (by omega), hl, List.drop_drop, hidx]

theorem drop_size {d : ℕ} (hb : y.baseIndex = x.baseIndex + d) (hl : y.log = x.log.drop d) (hd : d ≤ x.log.length) :
    y.getLogSize = x.getLogSize := by
  unfold getLogSize
  rw [hb, hl, List.length_drop]
  omega

/-- What a node has when it has taken a snapshot within its log. -/
theorem createSnapshot_above (n : RaftNode) (store : KVStore) (hb : n.baseIndex ≤ n.lastApplied + 1)
    (hlt : n.lastApplied < n.getLogSize) : (n.createSnapshot store).1.baseIndex = n.lastApplied + 1 ∧
      (n.createSnapshot store).1.log = n.log.drop (n.lastApplied + 1 - n.baseIndex).toNat ∧
      (n.createSnapshot store).1.progress = n.progress := by
  obtain ⟨hs, _, _, hl⟩ := n.createSnapshot_log store
  refine ⟨?_, hl hb hlt, n.createSnapshot_progress store⟩
  unfold baseIndex
  rw [hs]
  rfl

/-! ## A snapshot in place of the first entries -/

/-- `c` is `u` with a snapshot in place of its first entries, which ends with one of them. -/
structure Compacts (s : Snapshot) (u c : RaftNode) : Prop where
  plain : u.latestSnapshot = none
  nonneg : 0 ≤ s.lastIncludedIndex
  term : (u.log[s.lastIncludedIndex.toNat]?).map (·.term) = some s.lastIncludedTerm
  eq : ∃ nextIndex disk, c = { u with
    latestSnapshot := some s
    log := u.log.drop (s.lastIncludedIndex + 1).toNat
    nextIndex := nextIndex
    disk := disk }

namespace Compacts

variable (h : Compacts s u c)

include h

theorem lt : s.lastIncludedIndex < u.log.length := by
  obtain ⟨e, he, _⟩ := Option.map_eq_some_iff.mp h.term
  have := (List.getElem?_eq_some_iff.mp he).1
  have := h.nonneg
  omega

theorem base : u.baseIndex = 0 ∧ c.baseIndex = s.lastIncludedIndex + 1 := by
  obtain ⟨_, _, rfl⟩ := h.eq
  exact ⟨by simp [baseIndex, h.plain], rfl⟩

theorem log : c.log = u.log.drop (s.lastIncludedIndex + 1).toNat := by
  obtain ⟨_, _, rfl⟩ := h.eq
  rfl

theorem shift : c.baseIndex = u.baseIndex + ((s.lastIncludedIndex + 1).toNat : ℤ) := by
  have := h.nonneg
  rw [h.base.1, h.base.2]
  omega

theorem getLogSize : c.getLogSize = u.getLogSize := by
  have := h.lt
  have := h.nonneg
  exact drop_size h.shift h.log (by omega)

/-- Above the snapshot the two have the same entries. -/
theorem entryAt {i : ℤ} (hi : s.lastIncludedIndex < i) : c.entryAt (c.logIdx i) = u.entryAt (u.logIdx i) := by
  have h0 := h.nonneg
  obtain ⟨hu, hc⟩ := h.base
  rw [logIdx_eq, logIdx_eq, hu, hc, entryAt_of_nonneg _ (by omega), entryAt_of_nonneg _ (by omega), h.log, List.getElem?_drop]
  congr 1
  omega

/-- The two are the same above the snapshot. -/
theorem agree : Agree s.lastIncludedIndex u c := by
  have h0 := h.nonneg
  have hb := h.base
  have hla : c.commitIndex = u.commitIndex ∧ c.lastApplied = u.lastApplied := by
    obtain ⟨_, _, rfl⟩ := h.eq
    exact ⟨rfl, rfl⟩
  exact ⟨hla.1, hla.2, h.getLogSize, fun i hi _ => (drop_above h.shift h.log (by omega)).1,
    fun i j hi _ => (drop_above h.shift h.log (by omega)).2 j⟩

/-! ## The handler -/

theorem persist : Compacts s u.persistMetadata c.persistMetadata := by
  obtain ⟨hp, h0, ht, _, _, rfl⟩ := h
  exact ⟨hp, h0, ht, _, _, rfl⟩

theorem stepDown (m : AppendEntriesRPC) : Compacts s (u.stepDown m) (c.stepDown m) := by
  obtain ⟨hp, h0, ht, _, _, rfl⟩ := h
  unfold RaftNode.stepDown becomeFollower
  simp only
  split
  · split
    · exact ⟨hp, h0, ht, _, _, rfl⟩
    · exact ⟨hp, h0, ht, _, _, rfl⟩
  · exact ⟨hp, h0, ht, _, _, rfl⟩

theorem prevMatches (hm : m.prevLogIndex < 0 ∨ s.lastIncludedIndex ≤ m.prevLogIndex) :
    c.prevMatches m = u.prevMatches m := by
  have hsnap : c.latestSnapshot = some s := by
    obtain ⟨_, _, rfl⟩ := h.eq
    rfl
  have h0 := h.nonneg
  unfold RaftNode.prevMatches
  rw [hsnap, h.plain]
  simp only
  split
  · rw [if_neg (by omega)]
    split
    · next heq =>
      obtain ⟨e, he, ht⟩ := Option.map_eq_some_iff.mp h.term
      rw [logIdx_eq, h.base.1, entryAt_of_nonneg _ (by omega), sub_zero, heq, he, ← ht]
      exact decide_eq_decide.mpr eq_comm
    · rw [h.entryAt (by omega)]
  · rfl

theorem firstMatches (hm : s.lastIncludedIndex ≤ m.prevLogIndex) : c.firstMatches m = u.firstMatches m := by
  unfold RaftNode.firstMatches
  rw [h.entryAt (by omega)]

theorem pushEntry (e : LogEntry) : Compacts s (u.pushEntry e) (c.pushEntry e) := by
  have h0 := h.nonneg
  have hlt := h.lt
  have hlen : c.log.length = u.log.length - (s.lastIncludedIndex + 1).toNat := by rw [h.log, List.length_drop]
  have hiff : (c.log.length : ℤ) ≤ c.logIdx e.index ↔ (u.log.length : ℤ) ≤ u.logIdx e.index := by
    rw [logIdx_eq, logIdx_eq, h.base.1, h.base.2]
    omega
  unfold RaftNode.pushEntry
  rw [if_congr hiff rfl rfl]
  split
  · obtain ⟨hp, _, ht, nextIndex, disk, rfl⟩ := h
    refine ⟨hp, h0, ?_, nextIndex, disk, ?_⟩
    · show ((u.log ++ [e])[_]?).map _ = _
      rw [List.getElem?_append_left (by omega)]
      exact ht
    · unfold appendLogEntry
      simp only
      rw [List.drop_append_of_le_length (by omega)]
  · exact h

omit h in
theorem foldl_pushEntry (es : List LogEntry) (h : Compacts s u c) :
    Compacts s (es.foldl RaftNode.pushEntry u) (es.foldl RaftNode.pushEntry c) := by
  induction es generalizing u c with
  | nil => exact h
  | cons e es ih => exact ih (h.pushEntry e)

/-- The entries of a message that does not start below the snapshot. -/
theorem insertEntries (hm : s.lastIncludedIndex ≤ m.prevLogIndex) :
    Compacts s (u.insertEntries m) (c.insertEntries m) := by
  have h0 := h.nonneg
  have hf := h.firstMatches hm
  rcases hfu : u.firstMatches m with _ | ⟨_ | _⟩
  · rw [Aligned.insertEntries_push hfu, Aligned.insertEntries_push (hf.trans hfu)]
    exact foldl_pushEntry _ h
  · rw [Aligned.insertEntries_cut hfu, Aligned.insertEntries_cut (hf.trans hfu)]
    refine foldl_pushEntry _ ?_
    have hidx : (u.logIdx (m.prevLogIndex + 1)).toNat =
        (s.lastIncludedIndex + 1).toNat + (c.logIdx (m.prevLogIndex + 1)).toNat := by
      rw [logIdx_eq, logIdx_eq, h.base.1, h.base.2]
      omega
    obtain ⟨hp, _, ht, nextIndex, disk, heq⟩ := h
    refine ⟨hp, h0, ?_, nextIndex, disk, ?_⟩
    · show ((u.log.take _)[_]?).map _ = _
      rw [List.getElem?_take_of_lt (by omega)]
      exact ht
    · rw [hidx, heq]
      simp only
      rw [List.drop_take, Nat.add_sub_cancel_left]
  · rw [Aligned.insertEntries_skip hfu, Aligned.insertEntries_skip (hf.trans hfu)]
    exact h

theorem acceptEntries (hm : s.lastIncludedIndex ≤ m.prevLogIndex) :
    Compacts s (u.acceptEntries m) (c.acceptEntries m) := by
  unfold RaftNode.acceptEntries
  rw [h.prevMatches (Or.inr hm)]
  split
  · exact (h.insertEntries hm).persist
  · exact h.persist

/-- The end of a commit section: at the threshold each takes a snapshot of its own. -/
theorem snapshotAtThreshold (hla : s.lastIncludedIndex ≤ u.lastApplied) (hlt : u.lastApplied < u.getLogSize)
    (store store' : KVStore) :
    Agree s.lastIncludedIndex (u.snapshotAtThreshold store).1 (c.snapshotAtThreshold store').1 := by
  have h0 := h.nonneg
  have hk := h.lt
  obtain ⟨hbu, hbc⟩ := h.base
  have hci : c.commitIndex = u.commitIndex := h.agree.commitIndex
  have hlac : c.lastApplied = u.lastApplied := h.agree.lastApplied
  have hlen : c.log.length = u.log.length - (s.lastIncludedIndex + 1).toNat := by rw [h.log, List.length_drop]
  have hsize := h.getLogSize
  obtain ⟨hub, hul, hup⟩ := u.createSnapshot_above store (by omega) hlt
  obtain ⟨hcb, hcl, hcp⟩ := c.createSnapshot_above store' (by omega) (by omega)
  have hsu : u.getLogSize = u.log.length := by
    unfold RaftNode.getLogSize
    omega
  have huc : (u.createSnapshot store).1.commitIndex = u.commitIndex ∧ (u.createSnapshot store).1.lastApplied = u.lastApplied :=
    ⟨congrArg Progress.commitIndex hup, congrArg Progress.lastApplied hup⟩
  have hcc : (c.createSnapshot store').1.commitIndex = c.commitIndex ∧ (c.createSnapshot store').1.lastApplied = c.lastApplied :=
    ⟨congrArg Progress.commitIndex hcp, congrArg Progress.lastApplied hcp⟩
  unfold RaftNode.snapshotAtThreshold
  by_cases hu : snapshotThreshold ≤ u.log.length
  · rw [if_pos hu]
    by_cases hc : snapshotThreshold ≤ c.log.length
    · -- both: the two have the same log above the same index
      rw [if_pos hc]
      have hb : (c.createSnapshot store').1.baseIndex = (u.createSnapshot store).1.baseIndex + (0 : ℕ) := by
        rw [hcb, hub, hlac]
        simp
      have hl : (c.createSnapshot store').1.log = (u.createSnapshot store).1.log.drop 0 := by
        rw [hcl, hul, h.log, List.drop_drop, List.drop_zero]
        congr 1
        omega
      exact ⟨hcc.1.trans (hci.trans huc.1.symm), hcc.2.trans (hlac.trans huc.2.symm), drop_size hb hl (Nat.zero_le _), fun i _ hi => (drop_above hb hl (by omega)).1,
        fun i j _ hi => (drop_above hb hl (by omega)).2 j⟩
    · -- the follower without a snapshot alone: it has less of the log
      rw [if_neg hc]
      have hb : (u.createSnapshot store).1.baseIndex =
          c.baseIndex + ((u.lastApplied - s.lastIncludedIndex).toNat : ℤ) := by omega
      have hl : (u.createSnapshot store).1.log = c.log.drop (u.lastApplied - s.lastIncludedIndex).toNat := by
        rw [hul, h.log, List.drop_drop]
        congr 1
        omega
      exact ⟨hci.trans huc.1.symm, hlac.trans huc.2.symm, (drop_size hb hl (by omega)).symm, fun i _ hi => (drop_above hb hl hi).1.symm,
        fun i j _ hi => ((drop_above hb hl hi).2 j).symm⟩
  · rw [if_neg hu, if_neg (by omega)]
    exact h.agree

/-- The commit section. -/
theorem advanceCommit (hla : s.lastIncludedIndex ≤ u.lastApplied) (hlt : u.lastApplied < u.getLogSize)
    (store store' : KVStore) (leaderCommit : ℤ) :
    Agree s.lastIncludedIndex (u.advanceCommit store leaderCommit).1 (c.advanceCommit store' leaderCommit).1 := by
  have hsize := h.getLogSize
  have happ : Compacts s ((u.setCommitIndex (min leaderCommit (u.getLogSize - 1))).applyCommitted store).node
      ((c.setCommitIndex (min leaderCommit (c.getLogSize - 1))).applyCommitted store').node := by
    rw [applyCommitted_node, applyCommitted_node, hsize]
    obtain ⟨hp, h0, ht, _, _, rfl⟩ := h
    exact ⟨hp, h0, ht, _, _, rfl⟩
  have hmax : ((u.setCommitIndex (min leaderCommit (u.getLogSize - 1))).applyCommitted store).node.lastApplied =
      max u.lastApplied (min leaderCommit (u.getLogSize - 1)) := by
    rw [applyCommitted_node]
    rfl
  have hkeep : ((u.setCommitIndex (min leaderCommit (u.getLogSize - 1))).applyCommitted store).node.getLogSize =
      u.getLogSize := by
    rw [applyCommitted_node]
    rfl
  exact happ.snapshotAtThreshold (by omega) (by omega) _ _

/-- What turns a message away is the same on the two. -/
theorem turnsAway_iff : c.turnsAway m ↔ u.turnsAway m := by
  obtain ⟨_, _, rfl⟩ := h.eq
  exact Iff.rfl

/-- A message that is turned away. -/
theorem away (haway : u.turnsAway m) (store store' : KVStore) :
    (c.handleAppendEntries store' m).reply = (u.handleAppendEntries store m).reply ∧
      Agree s.lastIncludedIndex (u.handleAppendEntries store m).node (c.handleAppendEntries store' m).node := by
  obtain ⟨hn, hrep⟩ := handleAppendEntries_away haway store
  obtain ⟨hn', hrep'⟩ := handleAppendEntries_away (h.turnsAway_iff.mpr haway) store'
  rw [hrep, hrep', hn, hn']
  refine ⟨?_, h.agree⟩
  obtain ⟨_, _, rfl⟩ := h.eq
  rfl

/-- A message that is taken over, on two nodes that stay the same up to the commit section. -/
theorem handled (haway : ¬u.turnsAway m) (hm : (c.stepDown m).prevMatches m = (u.stepDown m).prevMatches m)
    (hacc : Compacts s ((u.stepDown m).acceptEntries m) ((c.stepDown m).acceptEntries m))
    (hla : s.lastIncludedIndex ≤ u.lastApplied)
    (hlt : u.lastApplied < ((u.stepDown m).acceptEntries m).getLogSize) (store store' : KVStore) :
    (c.handleAppendEntries store' m).reply = (u.handleAppendEntries store m).reply ∧
      Agree s.lastIncludedIndex (u.handleAppendEntries store m).node (c.handleAppendEntries store' m).node := by
  have haway' := mt h.turnsAway_iff.mp haway
  have hterm : (c.stepDown m).currentTerm = (u.stepDown m).currentTerm := by
    obtain ⟨_, _, heq⟩ := (h.stepDown m).eq
    rw [heq]
  have hlau : ((u.stepDown m).acceptEntries m).lastApplied = u.lastApplied :=
    congrArg Progress.lastApplied (((u.stepDown m).acceptEntries_progress m).trans (u.stepDown_progress m))
  rw [handleAppendEntries_reply haway, handleAppendEntries_reply haway', handleAppendEntries_taken haway,
    handleAppendEntries_taken haway', hm, hterm, hacc.agree.commitIndex]
  refine ⟨rfl, ?_⟩
  split
  · exact hacc.advanceCommit (hlau ▸ hla) (hlau ▸ hlt) store store' m.leaderCommit
  · exact hacc.agree

/-- A message that joins the log of the first and not that of the second. -/
theorem refused (haway : ¬u.turnsAway m) (hu : (u.stepDown m).prevMatches m = true)
    (hc : (c.stepDown m).prevMatches m = false) (store store' : KVStore) :
    (∃ t, (u.handleAppendEntries store m).reply = .appendEntries t true ∧
      (c.handleAppendEntries store' m).reply = .appendEntries t false) ∧
      (c.handleAppendEntries store' m).node.log = c.log ∧ (c.handleAppendEntries store' m).node.progress = c.progress := by
  have haway' := mt h.turnsAway_iff.mp haway
  have hterm : (c.stepDown m).currentTerm = (u.stepDown m).currentTerm := by
    obtain ⟨_, _, heq⟩ := (h.stepDown m).eq
    rw [heq]
  have hnode : (c.handleAppendEntries store' m).node = (c.stepDown m).persistMetadata := by
    rw [handleAppendEntries_taken haway', RaftNode.acceptEntries, hc]
    rfl
  refine ⟨⟨(u.stepDown m).currentTerm, ?_, ?_⟩, ?_, ?_⟩
  · rw [handleAppendEntries_reply haway, hu]
  · rw [handleAppendEntries_reply haway', hc, hterm]
  · rw [hnode]
    obtain ⟨_, _, _, _, _, heq⟩ := c.stepDown_shape m
    rw [heq]
    rfl
  · rw [hnode]
    exact c.stepDown_progress m

end Compacts

/-- A follower without a snapshot, and what `triggerSnapshot` makes of it. -/
theorem compacts_triggerSnapshot (hs : n.latestSnapshot = none) (h0 : 0 ≤ n.lastApplied) (hlt : n.lastApplied < n.log.length)
    {r : RaftNode × KVStore} (hr : n.triggerSnapshot store = some r) : Compacts (n.newSnapshot store) n r.1 := by
  have hb : n.baseIndex = 0 := by simp [baseIndex, hs]
  have hsize : n.getLogSize = n.log.length := by
    unfold getLogSize
    omega
  obtain rfl := (triggerSnapshot_eq_some.mp hr).2
  refine ⟨hs, h0, ?_, raiseNextIndex n.lastApplied n.nextIndex, (n.createSnapshot store).1.disk, ?_⟩
  · show (n.log[n.lastApplied.toNat]?).map (·.term) = some (n.getLogTerm n.lastApplied)
    rw [getLogTerm_above (by omega), logIdx_eq, hb, entryAt_of_nonneg _ (by omega), sub_zero,
      List.getElem?_eq_getElem (by omega)]
    rfl
  · rw [createSnapshot_of_lt store (by omega) (by omega), hb, sub_zero]
    rfl

/-- Entries that end within the log are not appended. -/
theorem foldl_pushEntry_within {es : List LogEntry} (h : ∀ e ∈ es, e.index < n.getLogSize) : es.foldl pushEntry n = n := by
  induction es with
  | nil => rfl
  | cons e es ih =>
    have he := h e List.mem_cons_self
    have hpush : pushEntry n e = n := by
      unfold pushEntry
      rw [if_neg]
      rw [logIdx_eq]
      unfold getLogSize at he
      omega
    rw [List.foldl_cons, hpush]
    exact ih fun e he => h e (List.mem_cons_of_mem _ he)

namespace Compacts

/-- A message from the start of a log with which the node agrees so far, and which ends within the log of the node. -/
theorem acceptEntries_start (h : Compacts s u c) {l : List LogEntry} (hm : m.PieceOf l) (hprev : m.prevLogIndex = -1)
    (hreach : m.reach < u.getLogSize) (hfirst : l[0]? = u.log[0]?) : Compacts s (u.acceptEntries m) (c.acceptEntries m) := by
  have h0 := h.nonneg
  obtain ⟨hbu, hbc⟩ := h.base
  have hentry {j : ℕ} {e : LogEntry} (he : m.entries[j]? = some e) : l[j]? = some e := by
    obtain ⟨t, ht⟩ := hm.entries
    rw [hprev] at ht
    have ht : m.entries ++ t = l := ht
    rw [← ht, List.getElem?_append_left (List.getElem?_eq_some_iff.mp he).1]
    exact he
  have hu : u.insertEntries m = u := by
    cases hes : m.entries with
    | nil => rw [Aligned.insertEntries_push (by unfold RaftNode.firstMatches; split <;> simp_all), hes]; rfl
    | cons e es =>
      have hlog : u.log[0]? = some e := hfirst.symm.trans (hentry (by rw [hes]; rfl))
      refine Aligned.insertEntries_skip ?_
      have hplace : u.entryAt (u.logIdx (m.prevLogIndex + 1)) = some e := by
        rw [hprev, logIdx_eq, hbu, entryAt_of_nonneg _ (by omega)]
        exact hlog
      unfold RaftNode.firstMatches
      rw [hplace, hes]
      simp
  have hc : c.insertEntries m = c := by
    have hplace : c.entryAt (c.logIdx (m.prevLogIndex + 1)) = none := by
      rw [hprev, logIdx_eq, hbc]
      exact entryAt_of_neg _ (by omega)
    have hnone : c.firstMatches m = none := by
      unfold RaftNode.firstMatches
      rw [hplace]
    rw [Aligned.insertEntries_push hnone]
    refine foldl_pushEntry_within fun e he => ?_
    obtain ⟨j, hj⟩ := List.mem_iff_getElem?.mp he
    have hidx := hm.placed j e (hentry hj)
    have hlt := (List.getElem?_eq_some_iff.mp hj).1
    rw [h.getLogSize]
    unfold AppendEntriesRPC.reach at hreach
    omega
  unfold RaftNode.acceptEntries
  rw [h.prevMatches (Or.inl (by omega)), hu, hc, ite_self, ite_self]
  exact h.persist

end Compacts

/-- A message that starts below the snapshot. -/
theorem Compacts.below (h : Compacts s u c) {l : List LogEntry} (hm : m.PieceOf l) (h0 : 0 ≤ m.prevLogIndex)
    (hlt : m.prevLogIndex < s.lastIncludedIndex) (hag : l[m.prevLogIndex.toNat]? = u.log[m.prevLogIndex.toNat]?) :
    u.prevMatches m = true ∧ c.prevMatches m = false := by
  obtain ⟨e, he, ht⟩ := Option.map_eq_some_iff.mp (hm.prevTerm h0)
  have hsnap : c.latestSnapshot = some s := by
    obtain ⟨_, _, rfl⟩ := h.eq
    rfl
  unfold RaftNode.prevMatches
  rw [h.plain, hsnap]
  simp only [if_pos h0, if_pos hlt, and_true]
  rw [logIdx_eq, h.base.1, entryAt_of_nonneg _ (by omega), sub_zero, ← hag, he]
  exact decide_eq_true ht

/-- Compaction is invisible to the leader, but for a message that starts below the snapshot. A follower without a snapshot and
what `triggerSnapshot` makes of it give the same reply to a piece of a log that agrees with the follower's up to `lastApplied`, if
it is turned away, starts there or above, or starts with the log and ends within the follower's; afterwards they have the same
indices, and the same entries above `lastApplied` and above a snapshot that the first of them takes at the threshold. A message in
between is taken over by the first and refused by the second, which keeps its log and its indices. -/
theorem compaction_invisible {l : List LogEntry} {r : RaftNode × KVStore} (hs : n.latestSnapshot = none)
    (h0 : 0 ≤ n.lastApplied) (hlt : n.lastApplied < n.log.length) (hm : m.PieceOf l)
    (hag : l.take (n.lastApplied + 1).toNat = n.log.take (n.lastApplied + 1).toNat)
    (hr : n.triggerSnapshot store = some r) :
    (n.turnsAway m ∨ n.lastApplied ≤ m.prevLogIndex ∨ m.prevLogIndex = -1 ∧ m.reach < n.getLogSize →
      (r.1.handleAppendEntries r.2 m).reply = (n.handleAppendEntries store m).reply ∧
        Agree n.lastApplied (n.handleAppendEntries store m).node (r.1.handleAppendEntries r.2 m).node) ∧
    (¬n.turnsAway m → 0 ≤ m.prevLogIndex → m.prevLogIndex < n.lastApplied →
      (∃ t, (n.handleAppendEntries store m).reply = .appendEntries t true ∧
        (r.1.handleAppendEntries r.2 m).reply = .appendEntries t false) ∧
      (r.1.handleAppendEntries r.2 m).node.log = r.1.log ∧
      (r.1.handleAppendEntries r.2 m).node.progress = r.1.progress) := by
  have h := compacts_triggerSnapshot hs h0 hlt hr
  have hat {j : ℕ} (hj : j < (n.lastApplied + 1).toNat) : l[j]? = n.log[j]? := by
    rw [← List.getElem?_take_of_lt hj, hag, List.getElem?_take_of_lt hj]
  have hd := h.stepDown m
  have hlog : (n.stepDown m).log = n.log ∧ (n.stepDown m).getLogSize = n.getLogSize := by
    obtain ⟨_, _, _, _, _, heq⟩ := n.stepDown_shape m
    rw [heq]
    exact ⟨rfl, rfl⟩
  by_cases haway : n.turnsAway m
  · exact ⟨fun _ => h.away haway store r.2, fun hn => absurd haway hn⟩
  · refine ⟨fun hcase => ?_, fun _ hp0 hpk => ?_⟩
    · have hcase := hcase.resolve_left haway
      have hacc : Compacts (n.newSnapshot store) ((n.stepDown m).acceptEntries m) ((r.1.stepDown m).acceptEntries m) := by
        rcases hcase with hk | ⟨hprev, hreach⟩
        · exact hd.acceptEntries hk
        · exact hd.acceptEntries_start hm hprev (hlog.2 ▸ hreach) (hlog.1 ▸ hat (by omega))
      have hsize := hacc.lt
      have hbase := hacc.base.1
      refine h.handled haway (hd.prevMatches ?_) hacc le_rfl ?_ store r.2
      · rcases hcase with hk | ⟨hprev, _⟩
        · exact Or.inr hk
        · exact Or.inl (by omega)
      · unfold getLogSize
        rw [hbase, zero_add]
        exact hsize
    · obtain ⟨hu, hc⟩ := hd.below hm hp0 hpk (hlog.1 ▸ hat (by omega))
      exact h.refused haway hu hc store r.2

/-- A log of term 1: a command for each of the keys. -/
def termOne (keys : List String) : List LogEntry :=
  (keys.zipIdx).map fun p =>
    { term := 1, index := p.2, command := ascii ("PUT " ++ p.1 ++ " v"), origin := (ascii "client-1", p.2) }

/-- The message of the leader of term 1 with the entries of a log from `start` on. -/
def sends (l : List LogEntry) (start : ℕ) (leaderCommit : ℤ) : AppendEntriesRPC where
  term := 1
  leaderId := 0
  prevLogIndex := start - 1
  prevLogTerm := if start = 0 then 0 else 1
  entries := l.drop start
  leaderCommit := leaderCommit

/-- Node 1 has three entries of the leader's log, and has applied those up to index 1. -/
def follower : RaftNode :=
  ((create 1 5001 [5000, 5002] { metadata := none, snapshotFile := .absent }).handleAppendEntries KVStore.empty
    (sends (termOne ["a", "b", "c"]) 0 1)).node

theorem follower_log : follower.latestSnapshot = none ∧ follower.lastApplied = 1 ∧
    follower.log = termOne ["a", "b", "c"] := by
  decide +kernel

theorem follower_dumps : (follower.newSnapshot KVStore.empty).dumps = true ∧ follower.dumpsMetadata = true := by
  decide +kernel

/-- The follower takes a snapshot. -/
theorem follower_triggerSnapshot : follower.triggerSnapshot KVStore.empty = some (follower.createSnapshot KVStore.empty) :=
  triggerSnapshot_eq_some.mpr ⟨⟨by rw [follower_log.2.2]; decide, follower_dumps.1, createSnapshot_dumps follower_dumps.2 _⟩, rfl⟩

/-- A message of the log of the leader is a piece of it. -/
theorem sends_piece (keys : List String) {start : ℕ} (hs : start ≤ keys.length) (leaderCommit : ℤ) :
    (sends (termOne keys) start leaderCommit).PieceOf (termOne keys) where
  placed j e he := by
    simp only [termOne, List.getElem?_map, List.getElem?_zipIdx, Option.map_map, Option.map_eq_some_iff] at he
    obtain ⟨_, _, rfl⟩ := he
    simp
  prev := by
    show (-1 : ℤ) ≤ start - 1
    omega
  prevTerm h := by
    have h : 0 ≤ (start : ℤ) - 1 := h
    show ((termOne keys)[((start : ℤ) - 1).toNat]?).map (·.term) = some (if start = 0 then 0 else 1)
    rw [if_neg (by omega), termOne, List.getElem?_map, List.getElem?_zipIdx, List.getElem?_eq_getElem (by omega)]
    rfl
  entries := by
    show (termOne keys).drop start <+: (termOne keys).drop ((start : ℤ) - 1 + 1).toNat
    rw [show ((start : ℤ) - 1 + 1).toNat = start by omega]

/-- The next entry of the leader is taken over alike. -/
theorem compaction_invisible_next : ∃ r, follower.triggerSnapshot KVStore.empty = some r ∧
    (r.1.handleAppendEntries r.2 (sends (termOne ["a", "b", "c", "d"]) 3 2)).reply =
      (follower.handleAppendEntries KVStore.empty (sends (termOne ["a", "b", "c", "d"]) 3 2)).reply ∧
    Agree 1 (follower.handleAppendEntries KVStore.empty (sends (termOne ["a", "b", "c", "d"]) 3 2)).node
      (r.1.handleAppendEntries r.2 (sends (termOne ["a", "b", "c", "d"]) 3 2)).node := by
  obtain ⟨hs, hla, hlog⟩ := follower_log
  have hr := follower_triggerSnapshot
  refine ⟨_, hr, ?_⟩
  have hpiece : (sends (termOne ["a", "b", "c", "d"]) 3 2).PieceOf (termOne ["a", "b", "c", "d"]) :=
    sends_piece ["a", "b", "c", "d"] (by decide) 2
  have h := (compaction_invisible hs (by omega) (by rw [hla, hlog]; decide) hpiece (by rw [hla, hlog]; decide) hr).1
    (Or.inr (Or.inl (by rw [hla]; decide)))
  rwa [hla] at h

/-- A follower that has taken a snapshot can refuse a message that it takes over without one. -/
theorem compaction_refuses : ¬∀ (n : RaftNode) (store : KVStore) (l : List LogEntry) (m : AppendEntriesRPC)
    (r : RaftNode × KVStore), n.latestSnapshot = none → 0 ≤ n.lastApplied → n.lastApplied < n.log.length → m.PieceOf l →
    l.take (n.lastApplied + 1).toNat = n.log.take (n.lastApplied + 1).toNat → n.triggerSnapshot store = some r →
    (r.1.handleAppendEntries r.2 m).reply = (n.handleAppendEntries store m).reply := by
  intro h
  obtain ⟨hs, hla, hlog⟩ := follower_log
  have hr := follower_triggerSnapshot
  have heq := h follower KVStore.empty (termOne ["a", "b", "c"]) (sends (termOne ["a", "b", "c"]) 1 1) _ hs (by omega)
    (by rw [hla, hlog]; decide) (sends_piece ["a", "b", "c"] (by decide) 1) (by rw [hlog]) hr
  exact absurd heq (by decide +kernel)

/-! ## What the node itself reads -/

/-- The loop keeps the entries above the index, in their order. -/
theorem truncateLog_eq (k : ℤ) (log : List LogEntry) : truncateLog k log = log.filter fun e => k < e.index := by
  have hfold (newLog : List LogEntry) : log.foldl (fun newLog entry => if k < entry.index then newLog ++ [entry] else newLog) newLog =
      newLog ++ log.filter fun e => k < e.index := by
    induction log generalizing newLog with
    | nil => rw [List.foldl_nil, List.filter_nil, List.append_nil]
    | cons e log ih =>
      rw [List.foldl_cons, ih]
      by_cases he : k < e.index
      · rw [if_pos he, List.filter_cons_of_pos (by simpa using he), List.append_assoc, List.singleton_append]
      · rw [if_neg he, List.filter_cons_of_neg (by simpa using he)]
  exact hfold []

/-- The term at the index at which a snapshot is taken is the term of the snapshot. -/
theorem createSnapshot_getLogTerm (n : RaftNode) (store : KVStore) :
    (n.createSnapshot store).1.getLogTerm n.lastApplied = n.getLogTerm n.lastApplied := by
  have hs := (n.createSnapshot_log store).1
  have hidx : (n.newSnapshot store).lastIncludedIndex = n.lastApplied := rfl
  rw [getLogTerm, hs]
  simp only [hidx, le_refl, if_true]
  rfl

/-- Where the two dumps accept their strings, a snapshot is taken, changes nothing in what the node reads of its log from the index of the
snapshot on, and leaves each entry in its place: those that `truncateLog` would leave. -/
theorem triggerSnapshot_reads (hp : n.InPlace) (hne : n.log ≠ []) (store : KVStore) (hd : (n.newSnapshot store).dumps = true)
    (hm : n.dumpsMetadata = true) (h0 : 0 ≤ n.lastApplied)
    (hold : ∀ s ∈ n.latestSnapshot, s.lastIncludedIndex ≤ n.lastApplied) (hlt : n.lastApplied ≤ n.getLogSize - 1) :
    ∃ n' store', n.triggerSnapshot store = some (n', store') ∧ n'.latestSnapshot = some (n.newSnapshot store) ∧
      n'.getLogSize = n.getLogSize ∧
      (∀ i, n.lastApplied ≤ i → n'.getLogTerm i = n.getLogTerm i) ∧
      (∀ i j, n.lastApplied < i → i ≤ j → n'.getLogEntries i j = n.getLogEntries i j) ∧
      n'.InPlace ∧ n'.log = truncateLog n.lastApplied n.log := by
  have hb : n.baseIndex ≤ n.lastApplied + 1 := by
    unfold baseIndex
    split
    · next s hs => exact Int.add_le_add_right (hold s hs) 1
    · omega
  have htrig : n.triggerSnapshot store = some (n.createSnapshot store) :=
    triggerSnapshot_eq_some.mpr ⟨⟨hne, hd, createSnapshot_dumps hm store⟩, rfl⟩
  obtain ⟨hbase, hlog, _⟩ := n.createSnapshot_above store hb (by omega)
  have hshift : (n.createSnapshot store).1.baseIndex = n.baseIndex + ((n.lastApplied + 1 - n.baseIndex).toNat : ℤ) := by
    rw [hbase]
    omega
  refine ⟨(n.createSnapshot store).1, (n.createSnapshot store).2, htrig, rfl, ?_, fun i hi => ?_, fun i j hi _ => ?_, ?_, ?_⟩
  · refine drop_size hshift hlog ?_
    unfold getLogSize at hlt
    omega
  · rcases eq_or_lt_of_le hi with rfl | hi
    · exact n.createSnapshot_getLogTerm store
    · exact (drop_above hshift hlog (by omega)).1
  · exact (drop_above hshift hlog (by omega)).2 j
  · have hdrop := Indexed.drop hp (n.lastApplied + 1 - n.baseIndex).toNat
    rw [← hshift, ← hlog] at hdrop
    exact hdrop
  · rw [hlog, truncateLog_eq]
    exact (Indexed.filter_above hp n.lastApplied).symm

/-- The follower with three entries of which two are applied takes a snapshot. -/
theorem triggerSnapshot_reads_follower : ∃ n' store', follower.triggerSnapshot KVStore.empty = some (n', store') ∧
    n'.latestSnapshot = some (follower.newSnapshot KVStore.empty) ∧ n'.getLogSize = follower.getLogSize ∧
    (∀ i, follower.lastApplied ≤ i → n'.getLogTerm i = follower.getLogTerm i) ∧
    (∀ i j, follower.lastApplied < i → i ≤ j → n'.getLogEntries i j = follower.getLogEntries i j) ∧
    n'.InPlace ∧ n'.log = truncateLog follower.lastApplied follower.log := by
  obtain ⟨hs, hla, hlog⟩ := follower_log
  have hbase : follower.baseIndex = 0 := by rw [baseIndex, hs]
  have hplace : follower.InPlace := by
    intro j e he
    rw [hlog] at he
    rw [hbase, Int.zero_add]
    exact (sends_piece ["a", "b", "c"] (Nat.zero_le 3) 1).placed j e he
  refine triggerSnapshot_reads hplace (by rw [hlog]; decide) KVStore.empty follower_dumps.1 follower_dumps.2 (by omega) (fun s h => ?_) ?_
  · rw [hs] at h
    cases h
  · rw [getLogSize, hbase, hla, hlog]
    decide

end RaftNode

end RaftStore
