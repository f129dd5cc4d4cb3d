import RaftStore.Rpc

/-!
# The log over the snapshot, by global indices

A node is *aligned* when every entry stands at its own global index, below and above the snapshot. The functions that convert
global indices to places in `log` then read the one list `full`.
-/

namespace RaftStore

/-! ## Entries in their places -/

/-- The entries stand at the global indices from `p` on, each with the term of an election. -/
def Placed (p : ℕ) (l : List LogEntry) : Prop :=
  ∀ (i : ℕ) (e : LogEntry), l[i]? = some e → e.index = (p : ℤ) + i ∧ 1 ≤ e.term

namespace Placed

variable {p : ℕ} {l l' : List LogEntry}

theorem nil (p : ℕ) : Placed p [] := by
  intro i e h
  simp at h

theorem piece (h : Placed p l) (hp : l' <+: l) : Placed p l' := by
  intro i e he
  obtain ⟨t, rfl⟩ := hp
  exact h i e (by rw [List.getElem?_append_left (List.getElem?_eq_some_iff.mp he).1]; exact he)

theorem drop (h : Placed p l) (k : ℕ) : Placed (p + k) (l.drop k) := by
  intro i e he
  rw [List.getElem?_drop] at he
  have := h (k + i) e he
  push_cast at this ⊢
  exact ⟨by omega, this.2⟩

theorem append (h : Placed p l) (h' : Placed (p + l.length) l') : Placed p (l ++ l') := by
  intro i e he
  by_cases hi : i < l.length
  · rw [List.getElem?_append_left hi] at he
    exact h i e he
  · rw [List.getElem?_append_right (by omega)] at he
    have := h' (i - l.length) e he
    push_cast at this
    exact ⟨by omega, this.2⟩

theorem term_pos (h : Placed p l) {e : LogEntry} (he : e ∈ l) : 1 ≤ e.term := by
  obtain ⟨i, hi⟩ := List.mem_iff_getElem?.mp he
  exact (h i e hi).2

theorem singleton {e : LogEntry} (hi : e.index = p) (ht : 1 ≤ e.term) : Placed p [e] := by
  intro i x hx
  obtain ⟨rfl, rfl⟩ : i = 0 ∧ e = x := by
    cases i with
    | zero => exact ⟨rfl, by simpa using hx⟩
    | succ i => simp at hx
  exact ⟨by simpa using hi, ht⟩

end Placed

/-- The list is a piece of a log from global index 0 up to an entry with this index and this term. -/
structure Covers (l : List LogEntry) (lastIndex lastTerm : ℤ) : Prop where
  index_nonneg : 0 ≤ lastIndex
  length : (l.length : ℤ) = lastIndex + 1
  term : l.getLast?.map (·.term) = some lastTerm
  placed : Placed 0 l

/-- A snapshot that stands for a piece of a log from global index 0 up to its last entry. -/
def Snapshot.Genuine (s : Snapshot) : Prop := Covers s.covered s.lastIncludedIndex s.lastIncludedTerm

namespace RaftNode

/-- Every entry stands at its own index; what is applied and what the peers are sent next are indices of the log. -/
structure Aligned (n : RaftNode) : Prop where
  genuine : ∀ s, n.latestSnapshot = some s → s.Genuine
  placed : Placed 0 n.full
  applied_nonneg : 0 ≤ n.lastApplied
  applied_base : n.baseIndex ≤ n.lastApplied + 1
  applied_lt : n.lastApplied = 0 ∨ n.lastApplied < n.full.length
  nextIndex : ∀ i ∈ n.nextIndex, 0 ≤ i

/-- The place of a global index in `log` is its distance from `baseIndex`. -/
theorem logIdx_eq (n : RaftNode) (i : ℤ) : n.logIdx i = i - n.baseIndex := by
  unfold logIdx baseIndex
  split <;> omega

theorem entryAt_of_nonneg (n : RaftNode) {i : ℤ} (h : 0 ≤ i) : n.entryAt i = n.log[i.toNat]? := if_pos h

theorem entryAt_of_neg (n : RaftNode) {i : ℤ} (h : i < 0) : n.entryAt i = none := if_neg (by omega)

/-- A place of `log` holds an entry if and only if it is one. -/
theorem entryAt_isSome (n : RaftNode) (i : ℤ) : (n.entryAt i).isSome ↔ 0 ≤ i ∧ i < n.log.length := by
  unfold entryAt
  split
  · rw [Option.isSome_iff_ne_none, ne_eq, List.getElem?_eq_none_iff]
    omega
  · simp only [Option.isSome_none, Bool.false_eq_true, false_iff]
    omega

theorem mem_of_entryAt {n : RaftNode} {i : ℤ} {e : LogEntry} (h : n.entryAt i = some e) : e ∈ n.log := by
  unfold entryAt at h
  split at h
  · exact List.mem_of_getElem? h
  · cases h

/-- What is sent is taken from `log`. -/
theorem getLogEntries_subset (n : RaftNode) (a b : ℤ) : n.getLogEntries a b ⊆ n.log := by
  unfold getLogEntries
  simp only
  split
  · exact List.nil_subset _
  · exact fun _ he => List.mem_of_mem_take (List.mem_of_mem_drop he)

/-- What is left of `log` above a snapshot. -/
theorem truncateLogSafe_subset (n : RaftNode) (i : ℤ) : (n.truncateLogSafe i).log ⊆ n.log := by
  unfold truncateLogSafe
  simp only
  split
  · exact List.Subset.refl _
  · split
    · exact List.drop_subset _ _
    · exact List.Subset.refl _

/-- Above the snapshot `getLogTerm` reads `log`. -/
theorem getLogTerm_above {n : RaftNode} {i : ℤ} (hi : n.baseIndex ≤ i) :
    n.getLogTerm i = ((n.entryAt (n.logIdx i)).map (·.term)).getD 0 := by
  unfold getLogTerm
  split
  · next s hs =>
    have hb : n.baseIndex = s.lastIncludedIndex + 1 := by simp [baseIndex, hs]
    rw [if_neg (by omega)]
  · rfl

/-- The entry at a global index from `baseIndex` on, where the snapshot stands for as many entries as its index says. -/
theorem entryAt_full {n : RaftNode} (hc : (n.covered.length : ℤ) = n.baseIndex) {i : ℤ} (hi : n.baseIndex ≤ i) :
    n.entryAt (n.logIdx i) = n.full[i.toNat]? := by
  rw [logIdx_eq, entryAt_of_nonneg n (by omega), full, List.getElem?_append_right (by omega)]
  congr 1
  omega

/-- The entry a node has at a global index is then the one of the whole log. -/
theorem globalEntry_full {n : RaftNode} (hc : (n.covered.length : ℤ) = n.baseIndex) {i : ℤ} (hi : 0 ≤ i) :
    n.globalEntry i = n.full[i.toNat]? := by
  unfold globalEntry
  split
  · next s hs =>
    have hb : n.baseIndex = s.lastIncludedIndex + 1 := by simp [baseIndex, hs]
    split
    · have hcov : n.covered = s.covered := by simp [covered, hs]
      rw [full, hcov, List.getElem?_append_left (by rw [← hcov]; omega)]
    · exact entryAt_full hc (by omega)
  · next hs => exact entryAt_full hc (by simp [baseIndex, hs, hi])

/-- No entry has a negative index. -/
theorem globalEntry_neg {n : RaftNode} (hb : 0 ≤ n.baseIndex) {i : ℤ} (hi : i < 0) : n.globalEntry i = none := by
  have hnone : n.entryAt (n.logIdx i) = none := entryAt_of_neg n (by rw [logIdx_eq]; omega)
  unfold globalEntry
  split
  · split
    · exact if_neg (by omega)
    · exact hnone
  · exact hnone

theorem globalEntry_nonneg {n : RaftNode} (hb : 0 ≤ n.baseIndex) {i : ℤ} {e : LogEntry} (h : n.globalEntry i = some e) : 0 ≤ i := by
  by_contra hi
  rw [globalEntry_neg hb (by omega)] at h
  cases h

namespace Aligned

variable {n : RaftNode} (h : n.Aligned)

include h

/-- What the snapshot stands for ends where `log` begins. -/
theorem covered_length : (n.covered.length : ℤ) = n.baseIndex := by
  have hg := h.genuine
  unfold covered baseIndex
  split
  · next s hs => exact (hg s hs).length
  · rfl

theorem baseIndex_nonneg : 0 ≤ n.baseIndex := by
  rw [← h.covered_length]
  exact Int.natCast_nonneg _

/-- `getLogSize` is the length of the whole log. -/
theorem getLogSize_eq : n.getLogSize = n.full.length := by
  rw [getLogSize, ← h.covered_length, full, List.length_append]
  push_cast
  rfl

/-- The entry at a global index from `baseIndex` on. -/
theorem entryAt_logIdx {i : ℤ} (hi : n.baseIndex ≤ i) : n.entryAt (n.logIdx i) = n.full[i.toNat]? :=
  entryAt_full h.covered_length hi

/-- The last entry a snapshot stands for has the snapshot's term. -/
theorem term_lastIncluded {s : Snapshot} (hs : n.latestSnapshot = some s) :
    ∃ e, n.full[s.lastIncludedIndex.toNat]? = some e ∧ e.term = s.lastIncludedTerm := by
  obtain ⟨h0, hl, ht, _⟩ := h.genuine s hs
  rw [Option.map_eq_some_iff] at ht
  obtain ⟨e, he, hte⟩ := ht
  refine ⟨e, ?_, hte⟩
  rw [List.getLast?_eq_getElem?] at he
  have hcov : n.covered = s.covered := by simp [covered, hs]
  rw [full, hcov, List.getElem?_append_left (by omega), ← he]
  congr 1
  omega

/-- `getLogTerm` from the last index of the snapshot on. -/
theorem getLogTerm_eq {i : ℤ} (h0 : 0 ≤ i) (hi : n.baseIndex ≤ i + 1) :
    n.getLogTerm i = ((n.full[i.toNat]?).map (·.term)).getD 0 := by
  unfold getLogTerm
  split
  · next s hs =>
    have hb : n.baseIndex = s.lastIncludedIndex + 1 := by simp [baseIndex, hs]
    by_cases hle : i ≤ s.lastIncludedIndex
    · have heq : i = s.lastIncludedIndex := by omega
      obtain ⟨e, he, ht⟩ := h.term_lastIncluded hs
      rw [if_pos hle, if_pos heq, heq, he]
      exact ht.symm
    · rw [if_neg hle, h.entryAt_logIdx (by omega)]
  · next hs =>
    have hb : n.baseIndex = 0 := by simp [baseIndex, hs]
    rw [h.entryAt_logIdx (by omega)]

/-- Below the last index of the snapshot `getLogTerm` knows nothing. -/
theorem getLogTerm_zero {i : ℤ} (hi : i < 0 ∨ i + 1 < n.baseIndex) : n.getLogTerm i = 0 := by
  have hb0 := h.baseIndex_nonneg
  unfold getLogTerm
  split
  · next s hs =>
    have hb : n.baseIndex = s.lastIncludedIndex + 1 := by simp [baseIndex, hs]
    have := (h.genuine s hs).index_nonneg
    rw [if_pos (by omega), if_neg (by omega)]
  · next hs =>
    have hb : n.baseIndex = 0 := by simp [baseIndex, hs]
    rw [logIdx_eq, entryAt_of_neg n (by omega)]
    rfl

/-- A term other than zero is the term of an entry of the log. -/
theorem getLogTerm_ne {i : ℤ} (hne : n.getLogTerm i ≠ 0) :
    0 ≤ i ∧ n.baseIndex ≤ i + 1 ∧ ∃ e, n.full[i.toNat]? = some e ∧ e.term = n.getLogTerm i := by
  have h0 : 0 ≤ i ∧ n.baseIndex ≤ i + 1 := by
    by_contra hc
    exact hne (h.getLogTerm_zero (by omega))
  refine ⟨h0.1, h0.2, ?_⟩
  rw [h.getLogTerm_eq h0.1 h0.2] at hne ⊢
  cases he : n.full[i.toNat]? with
  | none => simp [he] at hne
  | some e => exact ⟨e, rfl, rfl⟩

/-- `getLogEntries` from `baseIndex` on is a piece of the whole log. -/
theorem getLogEntries_eq {a b : ℤ} (ha : n.baseIndex ≤ a) :
    n.getLogEntries a b = (n.full.take b.toNat).drop a.toNat := by
  have hc := h.covered_length
  unfold getLogEntries
  simp only
  have hs : max 0 (a - n.baseIndex) = a - n.baseIndex := by omega
  rw [hs]
  split
  · next hle =>
    symm
    rw [List.drop_eq_nil_iff, List.length_take, full, List.length_append]
    omega
  · next hle =>
    have hnil : (n.covered.take b.toNat).drop a.toNat = [] := List.drop_eq_nil_of_le (by rw [List.length_take]; omega)
    rw [full, List.take_append, List.drop_append, hnil, List.nil_append]
    congr 1
    · rw [List.length_take]
      omega
    · rcases le_total (n.log.length : ℤ) (b - n.baseIndex) with hb | hb
      · rw [min_eq_left hb, List.take_of_length_le (by omega), List.take_of_length_le (by omega)]
      · rw [min_eq_right hb]
        congr 1
        omega

/-- The entry a node has at a global index is the one of the whole log. -/
theorem globalEntry_eq {i : ℤ} (hi : 0 ≤ i) : n.globalEntry i = n.full[i.toNat]? := globalEntry_full h.covered_length hi

/-- With an entry in the log, what is applied is below its end. -/
theorem applied_lt_of_ne (hne : n.full ≠ []) : n.lastApplied < n.full.length := by
  have := List.length_pos_iff.mpr hne
  rcases h.applied_lt with h0 | h0 <;> omega

end Aligned

/-! ## Taking a snapshot -/

/-- The node after `truncateLogSafe`: its log without the entries up to the index. -/
theorem truncateLogSafe_log (n : RaftNode) {k : ℤ} (hb : n.baseIndex ≤ k + 1) (hk : k < n.getLogSize) :
    n.truncateLogSafe k = { n with log := n.log.drop (k + 1 - n.baseIndex).toNat } := by
  unfold getLogSize at hk
  unfold truncateLogSafe
  simp only
  split
  · have : (k + 1 - n.baseIndex).toNat = 0 := by omega
    rw [this, List.drop_zero]
  · rw [if_pos (by omega)]
    congr 2
    omega

/-- An index below the snapshot or beyond the log leaves the log as it is. -/
theorem truncateLogSafe_outside (n : RaftNode) {k : ℤ} (h : k + 1 < n.baseIndex ∨ n.getLogSize ≤ k) : n.truncateLogSafe k = n := by
  unfold getLogSize at h
  unfold truncateLogSafe
  simp only
  split
  · rfl
  · rw [if_neg (by omega)]

/-- What `createSnapshot` does to a node that has applied no more than it has in its log. -/
theorem createSnapshot_of_lt {n : RaftNode} (store : KVStore) (hb : n.baseIndex ≤ n.lastApplied + 1)
    (hl : n.lastApplied < n.getLogSize) : (n.createSnapshot store).1 = { n.saveSnapshot (n.newSnapshot store) with
      log := n.log.drop (n.lastApplied + 1 - n.baseIndex).toNat
      latestSnapshot := some (n.newSnapshot store)
      nextIndex := raiseNextIndex n.lastApplied n.nextIndex }.persistMetadata := by
  have ht : (n.saveSnapshot (n.newSnapshot store)).truncateLogSafe n.lastApplied =
      { n.saveSnapshot (n.newSnapshot store) with log := n.log.drop (n.lastApplied + 1 - n.baseIndex).toNat } :=
    truncateLogSafe_log (n.saveSnapshot (n.newSnapshot store)) hb hl
  show ({ (n.saveSnapshot (n.newSnapshot store)).truncateLogSafe n.lastApplied with
    latestSnapshot := some (n.newSnapshot store)
    nextIndex := raiseNextIndex n.lastApplied
      ((n.saveSnapshot (n.newSnapshot store)).truncateLogSafe n.lastApplied).nextIndex } : RaftNode).persistMetadata = _
  rw [ht]
  rfl

/-- What `createSnapshot` does to an aligned node. -/
theorem createSnapshot_eq {n : RaftNode} (h : n.Aligned) (store : KVStore) (hne : n.full ≠ []) :
    (n.createSnapshot store).1 = { n.saveSnapshot (n.newSnapshot store) with
      log := n.log.drop (n.lastApplied + 1 - n.baseIndex).toNat
      latestSnapshot := some (n.newSnapshot store)
      nextIndex := raiseNextIndex n.lastApplied n.nextIndex }.persistMetadata :=
  createSnapshot_of_lt store h.applied_base (h.getLogSize_eq ▸ h.applied_lt_of_ne hne)

/-- `createSnapshot` keeps the whole log. -/
theorem createSnapshot_full {n : RaftNode} (h : n.Aligned) (store : KVStore) (hne : n.full ≠ []) :
    (n.createSnapshot store).1.full = n.full := by
  have hc := h.covered_length
  have hb := h.applied_base
  rw [createSnapshot_eq h store hne]
  show n.full.take (n.lastApplied + 1).toNat ++ n.log.drop (n.lastApplied + 1 - n.baseIndex).toNat = n.full
  conv_rhs => rw [← List.take_append_drop (n.lastApplied + 1).toNat n.full]
  have hnil : n.covered.drop (n.lastApplied + 1).toNat = [] := List.drop_eq_nil_of_le (by omega)
  congr 1
  rw [full, List.drop_append, hnil, List.nil_append]
  congr 1
  omega

/-- The snapshot a node takes is genuine. -/
theorem newSnapshot_genuine {n : RaftNode} (h : n.Aligned) (store : KVStore) (hne : n.full ≠ []) :
    (n.newSnapshot store).Genuine where
  index_nonneg := h.applied_nonneg
  length := by
    have hl := h.applied_lt_of_ne hne
    have h0 := h.applied_nonneg
    show ((n.full.take (n.lastApplied + 1).toNat).length : ℤ) = n.lastApplied + 1
    rw [List.length_take]
    omega
  term := by
    have hl := h.applied_lt_of_ne hne
    have h0 := h.applied_nonneg
    show ((n.full.take (n.lastApplied + 1).toNat).getLast?).map (·.term) = some (n.getLogTerm n.lastApplied)
    rw [h.getLogTerm_eq h0 h.applied_base, List.getLast?_eq_getElem?, List.length_take,
      List.getElem?_take_of_lt (by omega)]
    have hi : min (n.lastApplied + 1).toNat n.full.length - 1 = n.lastApplied.toNat := by omega
    rw [hi, List.getElem?_eq_getElem (show n.lastApplied.toNat < n.full.length by omega)]
    rfl
  placed := h.placed.piece (List.take_prefix _ _)

end RaftNode

end RaftStore
