import RaftStore.Crashes
import RaftStore.Theorems.Applying

/-!
# Entries in their places, by their indices alone

A weaker notion than that of an aligned node: nothing is said of what a snapshot stands for. A node is *straight* when each entry
of `log` stands at its own index, and what is applied is an index of the log. Entries with consecutive indices that leave no gap
keep a node straight.
-/

namespace RaftStore

/-- The entries stand at the global indices from `q` on. -/
def Indexed (q : ℤ) (l : List LogEntry) : Prop := ∀ (j : ℕ) (e : LogEntry), l[j]? = some e → e.index = q + j

namespace Indexed

variable {q : ℤ} {l l' : List LogEntry}

theorem nil (q : ℤ) : Indexed q [] := fun _ _ h => by cases h

theorem take (h : Indexed q l) (k : ℕ) : Indexed q (l.take k) := by
  intro j e he
  rw [List.getElem?_take] at he
  split at he
  · exact h j e he
  · cases he

theorem piece (h : Indexed q l) (hl : l' <+: l) : Indexed q l' := by
  rw [List.prefix_iff_eq_take.mp hl]
  exact h.take _

theorem drop (h : Indexed q l) (k : ℕ) : Indexed (q + k) (l.drop k) := by
  intro j e he
  rw [List.getElem?_drop] at he
  have := h (k + j) e he
  push_cast at this
  omega

theorem append_singleton (h : Indexed q l) {e : LogEntry} (he : e.index = q + l.length) : Indexed q (l ++ [e]) := by
  intro j x hx
  by_cases hj : j < l.length
  · rw [List.getElem?_append_left hj] at hx
    exact h j x hx
  · rw [List.getElem?_append_right (by omega)] at hx
    obtain ⟨hlt, rfl⟩ := List.getElem?_eq_some_iff.mp hx
    obtain rfl : j = l.length := by simp at hlt; omega
    simpa using he

theorem cons {e : LogEntry} (h : Indexed q (e :: l)) : e.index = q ∧ Indexed (q + 1) l := by
  refine ⟨by simpa using h 0 e rfl, fun j x hx => ?_⟩
  have := h (j + 1) x hx
  push_cast at this
  omega

/-- The entries with a greater index than `k` are those that stand above it. -/
theorem filter_above (h : Indexed q l) (k : ℤ) : l.filter (fun e => k < e.index) = l.drop (k + 1 - q).toNat := by
  induction l generalizing q with
  | nil => rw [List.filter_nil, List.drop_nil]
  | cons e l ih =>
    obtain ⟨he, hl⟩ := h.cons
    by_cases hk : k < q
    · have hd : (k + 1 - q).toNat = 0 := by omega
      have hd' : (k + 1 - (q + 1)).toNat = 0 := by omega
      rw [List.filter_cons_of_pos (by simpa [he] using hk), ih hl, hd, hd', List.drop_zero, List.drop_zero]
    · have hd : (k + 1 - q).toNat = (k + 1 - (q + 1)).toNat + 1 := by omega
      rw [List.filter_cons_of_neg (by simpa [he] using hk), ih hl, hd, List.drop_succ_cons]

/-- Entries that leave no gap to a log reach, once appended, to their own end. -/
theorem le_pushedSize (h : Indexed q l) {size : ℤ} (hq : q ≤ size) : q + l.length ≤ pushedSize size l := by
  induction l generalizing q size with
  | nil => simpa [pushedSize] using hq
  | cons e l ih =>
    obtain ⟨he, hl⟩ := h.cons
    have hnext : q + 1 ≤ (if size ≤ e.index then size + 1 else size) := by split_ifs <;> omega
    have := ih hl hnext
    unfold pushedSize
    rw [List.length_cons]
    omega

end Indexed

namespace RaftNode

variable {n n' : RaftNode} {m : AppendEntriesRPC} {es : List LogEntry} {q : ℤ}

/-- Each entry of the log stands at its own index and has the term of an election, the snapshot ends at an index and has such a
term too, and what is applied is an index of the log. -/
structure Straight (n : RaftNode) : Prop where
  places : n.InPlace
  terms : ∀ e ∈ n.log, e.term ≠ 0
  snapshot : ∀ s, n.latestSnapshot = some s → 0 ≤ s.lastIncludedIndex ∧ s.lastIncludedTerm ≠ 0
  applied_nonneg : 0 ≤ n.lastApplied
  applied_base : n.baseIndex ≤ n.lastApplied + 1
  applied_lt : n.lastApplied = 0 ∨ n.lastApplied < n.getLogSize

/-- Being straight is a matter of the log, the snapshot and what is applied. -/
theorem Straight.congr (h : n.Straight) (hl : n'.log = n.log) (hs : n'.latestSnapshot = n.latestSnapshot)
    (ha : n'.lastApplied = n.lastApplied) : n'.Straight := by
  have hb : n'.baseIndex = n.baseIndex := by
    unfold baseIndex
    rw [hs]
  have hsize : n'.getLogSize = n.getLogSize := by
    unfold getLogSize
    rw [hb, hl]
  constructor
  · intro j e he
    rw [hb]
    exact h.places j e (hl ▸ he)
  · rw [hl]
    exact h.terms
  · rw [hs]
    exact h.snapshot
  · rw [ha]
    exact h.applied_nonneg
  · rw [ha, hb]
    exact h.applied_base
  · rw [ha, hsize]
    exact h.applied_lt

theorem Straight.baseIndex_nonneg (h : n.Straight) : 0 ≤ n.baseIndex := by
  unfold baseIndex
  split
  · next s hs =>
    have := (h.snapshot s hs).1
    omega
  · exact le_rfl

/-- A term other than zero is that of an index of the log. -/
theorem lt_of_getLogTerm_ne {i : ℤ} (h : n.getLogTerm i ≠ 0) : i < n.getLogSize ∧ (i < n.baseIndex → i + 1 = n.baseIndex) := by
  have hentry (he : ((n.entryAt (n.logIdx i)).map (·.term)).getD 0 ≠ 0) : n.baseIndex ≤ i ∧ i < n.getLogSize := by
    have hsome : (n.entryAt (n.logIdx i)).isSome := by
      cases hx : n.entryAt (n.logIdx i) with
      | none => simp [hx] at he
      | some e => rfl
    have := (n.entryAt_isSome _).mp hsome
    rw [logIdx_eq] at this
    unfold getLogSize
    omega
  unfold getLogTerm at h
  split at h
  · next s hs =>
    have hb : n.baseIndex = s.lastIncludedIndex + 1 := by simp [baseIndex, hs]
    split at h
    · split at h
      · unfold getLogSize
        omega
      · exact absurd rfl h
    · have := hentry h
      omega
  · have := hentry h
    omega

/-! ## Taking over the entries of a message -/

/-- Entries with consecutive indices that leave no gap are appended in their places. -/
theorem InPlace.foldl_pushEntry (h : n.InPlace) (he : Indexed q es) (hq : q ≤ n.getLogSize) :
    (es.foldl pushEntry n).InPlace := by
  induction es generalizing n q with
  | nil => exact h
  | cons e es ih =>
    obtain ⟨hi, hes⟩ := he.cons
    unfold getLogSize at hq
    rw [List.foldl_cons]
    unfold pushEntry
    split
    · next hle =>
      rw [logIdx_eq] at hle
      refine ih (Indexed.append_singleton h (by omega)) hes ?_
      show q + 1 ≤ n.baseIndex + (n.log ++ [e]).length
      rw [List.length_append, List.length_singleton]
      push_cast
      omega
    · next hle =>
      rw [logIdx_eq] at hle
      refine ih h hes ?_
      unfold getLogSize
      omega

/-- What the loop leaves in the log was there or comes from the message. -/
theorem foldl_pushEntry_mem {e : LogEntry} (h : e ∈ (es.foldl pushEntry n).log) : e ∈ n.log ∨ e ∈ es := by
  induction es generalizing n with
  | nil => exact Or.inl h
  | cons f es ih =>
    rcases ih h with h | h
    · unfold pushEntry at h
      split at h
      · rcases List.mem_append.mp h with h | h
        · exact Or.inl h
        · exact Or.inr (List.mem_singleton.mp h ▸ List.mem_cons_self)
      · exact Or.inl h
    · exact Or.inr (List.mem_cons_of_mem _ h)

end RaftNode

/-- What a node with its entries in their places may be sent: entries with consecutive indices that follow on the one the message
starts from, or that no such node takes over, since no entry has the term 0. -/
def Request.Straight : Request → Prop
  | .appendEntries m => (∀ e ∈ m.entries, e.term ≠ 0) ∧ ∃ q, Indexed q m.entries ∧ m.prevLogIndex + 1 ≤ q ∧
      (q ≤ max 0 (m.prevLogIndex + 1) ∨ 0 ≤ m.prevLogIndex ∧ m.prevLogTerm = 0)
  | _ => True

namespace RaftNode

variable {n n' : RaftNode} {m : AppendEntriesRPC}

/-- A check on an entry that passes finds an entry in the log, or the last one under the snapshot, with a term. -/
theorem Straight.prevMatches (h : n.Straight) (h0 : 0 ≤ m.prevLogIndex) (hm : n.prevMatches m = true) :
    m.prevLogIndex + 1 ≤ n.getLogSize ∧ m.prevLogTerm ≠ 0 := by
  have hentry (ht : ((n.entryAt (n.logIdx m.prevLogIndex)).map (fun e => decide (e.term = m.prevLogTerm))).getD false = true) :
      m.prevLogIndex + 1 ≤ n.getLogSize ∧ m.prevLogTerm ≠ 0 := by
    cases he : n.entryAt (n.logIdx m.prevLogIndex) with
    | none => simp [he] at ht
    | some e =>
      have hlt := (n.entryAt_isSome _).mp (by rw [he]; rfl)
      rw [entryAt_of_nonneg _ hlt.1] at he
      rw [logIdx_eq] at hlt
      rw [entryAt_of_nonneg _ (by rw [logIdx_eq]; omega), he] at ht
      refine ⟨by unfold getLogSize; omega, ?_⟩
      rw [← of_decide_eq_true ht]
      exact h.terms e (List.mem_of_getElem? he)
  unfold RaftNode.prevMatches at hm
  rw [if_pos h0] at hm
  split at hm
  · next s hs =>
    have hb : n.baseIndex = s.lastIncludedIndex + 1 := by simp [baseIndex, hs]
    split at hm
    · cases hm
    · split at hm
      · next heq =>
        refine ⟨by unfold getLogSize; omega, ?_⟩
        rw [of_decide_eq_true hm]
        exact (h.snapshot s hs).2
      · exact hentry hm
  · exact hentry hm

/-- Another log over the same snapshot. -/
theorem Straight.withLog (h : n.Straight) {log : List LogEntry} (hp : ({ n with log := log } : RaftNode).InPlace)
    (ht : ∀ e ∈ log, e.term ≠ 0) (ha : n.lastApplied = 0 ∨ n.lastApplied < ({ n with log := log } : RaftNode).getLogSize) :
    ({ n with log := log } : RaftNode).persistMetadata.Straight :=
  ⟨hp, ht, h.snapshot, h.applied_nonneg, h.applied_base, ha⟩

/-- The entries of an accepted message are taken over. -/
theorem Straight.acceptEntries (h : n.Straight) (hm : (Request.appendEntries m).Straight)
    (hk : n.prevMatches m = true → n.firstMatches m = some false → n.lastApplied ≤ m.reach) : (n.acceptEntries m).Straight := by
  have hb := h.baseIndex_nonneg
  unfold RaftNode.acceptEntries
  split
  · next hc =>
    obtain ⟨hterms, q, hq, hge, hcase⟩ := hm
    -- the entries start within the log, or right at its end
    have hq0 : q ≤ max 0 (m.prevLogIndex + 1) := by
      rcases hcase with hle | ⟨h0, ht⟩
      · exact hle
      · exact absurd ht (h.prevMatches h0 hc).2
    have hsize : q ≤ n.getLogSize := by
      by_cases h0 : 0 ≤ m.prevLogIndex
      · have := (h.prevMatches h0 hc).1
        omega
      · unfold getLogSize
        omega
    have happ := h.applied_lt
    rcases hf : n.firstMatches m with _ | ⟨_ | _⟩
    · rw [Aligned.insertEntries_push hf]
      have hp := h.places.foldl_pushEntry hq hsize
      have hsz := (le_pushedSize n.getLogSize m.entries).trans_eq (foldl_pushEntry_size m.entries n).symm
      have hmem {e : LogEntry} (he : e ∈ (m.entries.foldl pushEntry n).log) : e.term ≠ 0 :=
        (foldl_pushEntry_mem he).elim (h.terms e) (hterms e)
      obtain ⟨log, _, heq⟩ := foldl_pushEntry m.entries n
      rw [heq] at hp hsz hmem ⊢
      exact h.withLog hp (fun e he => hmem he) (by omega)
    · rw [Aligned.insertEntries_cut hf]
      obtain ⟨_, _, _, he, _⟩ := Aligned.firstMatches_eq hf
      have hlt := (n.entryAt_isSome _).mp (by rw [he]; rfl)
      have hcut : ({ n with log := n.log.take (n.logIdx (m.prevLogIndex + 1)).toNat } : RaftNode).getLogSize =
          m.prevLogIndex + 1 := by
        show n.baseIndex + (n.log.take _).length = _
        rw [List.length_take]
        rw [logIdx_eq] at hlt ⊢
        omega
      rw [logIdx_eq] at hlt
      have hreach := hk hc hf
      have hp := InPlace.foldl_pushEntry (n := { n with log := n.log.take (n.logIdx (m.prevLogIndex + 1)).toNat })
        (Indexed.take h.places _) hq (by omega)
      have hsz := (hq.le_pushedSize (show q ≤ _ by omega)).trans_eq
        (foldl_pushEntry_size m.entries { n with log := n.log.take (n.logIdx (m.prevLogIndex + 1)).toNat }).symm
      have hmem {e : LogEntry} (he : e ∈ (m.entries.foldl pushEntry
          { n with log := n.log.take (n.logIdx (m.prevLogIndex + 1)).toNat }).log) : e.term ≠ 0 :=
        (foldl_pushEntry_mem he).elim (fun he => h.terms e (List.mem_of_mem_take he)) (hterms e)
      obtain ⟨log, _, heq⟩ := foldl_pushEntry m.entries { n with log := n.log.take (n.logIdx (m.prevLogIndex + 1)).toNat }
      rw [heq] at hp hsz hmem ⊢
      unfold AppendEntriesRPC.reach at hreach
      exact h.withLog hp (fun e he => hmem he) (Or.inr (lt_of_lt_of_le (by omega) hsz))
    · rw [Aligned.insertEntries_skip hf]
      exact h.congr rfl rfl rfl
  · exact h.congr rfl rfl rfl

/-! ## The other operations -/

/-- More entries of the log are applied. -/
theorem Straight.withApplied (h : n.Straight) {k : ℤ} (hk : k < n.getLogSize ∨ k ≤ n.lastApplied) (commitIndex : ℤ) :
    ({ n with lastApplied := max n.lastApplied k, commitIndex := commitIndex } : RaftNode).Straight := by
  have h0 := h.applied_nonneg
  have hb := h.applied_base
  have hl := h.applied_lt
  refine ⟨h.places, h.terms, h.snapshot, ?_, ?_, ?_⟩
  · show 0 ≤ max n.lastApplied k
    omega
  · show n.baseIndex ≤ max n.lastApplied k + 1
    omega
  · show max n.lastApplied k = 0 ∨ max n.lastApplied k < n.getLogSize
    omega

/-- With an entry in the log, what is applied is an index of it. -/
theorem Straight.applied_lt_of_ne (h : n.Straight) (hne : n.log ≠ []) : n.lastApplied < n.getLogSize := by
  have hlen := List.length_pos_iff.mpr hne
  have hb := h.baseIndex_nonneg
  rcases h.applied_lt with h0 | hlt
  · unfold getLogSize
    omega
  · exact hlt

theorem Straight.createSnapshot (h : n.Straight) (store : KVStore) (hne : n.log ≠ []) : (n.createSnapshot store).1.Straight := by
  have hb := h.applied_base
  have hlt := h.applied_lt_of_ne hne
  have hlen : n.lastApplied < n.baseIndex + n.log.length := hlt
  rw [createSnapshot_of_lt store hb hlt]
  refine ⟨?_, fun e he => h.terms e (List.mem_of_mem_drop he), fun s hs => ?_, h.applied_nonneg, le_rfl, Or.inr ?_⟩
  · have hdrop := Indexed.drop h.places (n.lastApplied + 1 - n.baseIndex).toNat
    intro j e he
    have := hdrop j e he
    show e.index = n.lastApplied + 1 + j
    omega
  · obtain rfl := Option.some.inj hs
    refine ⟨h.applied_nonneg, ?_⟩
    show n.getLogTerm n.lastApplied ≠ 0
    by_cases hle : n.lastApplied < n.baseIndex
    · -- nothing was applied since the last snapshot, and the new one ends with the same entry
      unfold getLogTerm
      split
      · next s hs =>
        have hbs : n.baseIndex = s.lastIncludedIndex + 1 := by simp [baseIndex, hs]
        rw [if_pos (by omega), if_pos (by omega)]
        exact (h.snapshot s hs).2
      · next hs =>
        have hbs : n.baseIndex = 0 := by simp [baseIndex, hs]
        have := h.applied_nonneg
        omega
    · rw [getLogTerm_above (by omega), logIdx_eq, entryAt_of_nonneg _ (by omega), List.getElem?_eq_getElem (by omega)]
      exact h.terms _ (List.getElem_mem _)
  · show n.lastApplied < n.lastApplied + 1 + (n.log.drop _).length
    omega

theorem Straight.snapshotAtThreshold (h : n.Straight) (store : KVStore) : (n.snapshotAtThreshold store).1.Straight := by
  unfold RaftNode.snapshotAtThreshold
  split
  · next ht =>
    refine h.createSnapshot store ?_
    rintro hnil
    simp [hnil, snapshotThreshold] at ht
  · exact h

/-- Committed entries up to an index of the log are applied. -/
theorem Straight.applyCommitted (h : n.Straight) (store : KVStore)
    (hk : n.commitIndex < n.getLogSize ∨ n.commitIndex ≤ n.lastApplied) : (n.applyCommitted store).node.Straight := by
  rw [applyCommitted_node]
  exact h.withApplied hk n.commitIndex

theorem Straight.advanceCommit (h : n.Straight) (store : KVStore) (leaderCommit : ℤ) :
    (n.advanceCommit store leaderCommit).1.Straight := by
  have h' : (n.setCommitIndex (min leaderCommit (n.getLogSize - 1))).Straight := h.congr rfl rfl rfl
  refine (h'.applyCommitted store (Or.inl ?_)).snapshotAtThreshold _
  show min leaderCommit (n.getLogSize - 1) < n.getLogSize
  omega

/-- The commit section of a client command. -/
theorem Straight.commit (h : n.Straight) (hn : n.Sound) (store : KVStore) {call : ClientCall} (ht : 1 ≤ n.currentTerm)
    (hm : Site.mayCommit n call) : (Site.commit n store call).1.Straight := by
  have hn' : (n.setCommitIndex call.newIndex).Sound := hn.congr rfl rfl rfl rfl
  have h' : (n.setCommitIndex call.newIndex).Straight := h.congr rfl rfl rfl
  have hlt : call.newIndex < n.getLogSize := (lt_of_getLogTerm_ne (by rw [hm.1]; omega)).1
  have hs := (h'.applyCommitted store (Or.inl hlt)).snapshotAtThreshold
    ((n.setCommitIndex call.newIndex).applyCommitted store).store
  unfold Site.commit
  simp only [hn'.applyWhileUp_eq]
  exact hs.congr rfl rfl rfl

/-- A leader appends an entry at the end of its log. -/
theorem Straight.append (h : n.Straight) {e : LogEntry} (hi : e.index = n.getLogSize) (ht : e.term ≠ 0) :
    (n.appendLogEntry e).Straight := by
  have hl := h.applied_lt
  refine ⟨Indexed.append_singleton h.places hi, fun f hf => ?_, h.snapshot, h.applied_nonneg, h.applied_base, ?_⟩
  · rcases List.mem_append.mp hf with hf | hf
    · exact h.terms f hf
    · obtain rfl := List.mem_singleton.mp hf
      exact ht
  · show n.lastApplied = 0 ∨ n.lastApplied < n.baseIndex + (n.log ++ [e]).length
    unfold getLogSize at hl
    rw [List.length_append, List.length_singleton]
    push_cast
    omega

/-- A snapshot that ends at an index, with a term, takes the place of the log. -/
theorem straight_installSnapshot (n : RaftNode) (store : KVStore) {snap : Snapshot} (h0 : 0 ≤ snap.lastIncludedIndex)
    (ht : snap.lastIncludedTerm ≠ 0) : (n.installSnapshot store snap).1.Straight where
  places := Indexed.nil _
  terms _ he := absurd he List.not_mem_nil
  snapshot s hs := by
    obtain rfl := Option.some.inj hs
    exact ⟨h0, ht⟩
  applied_nonneg := h0
  applied_base := le_rfl
  applied_lt := Or.inr (by
    show snap.lastIncludedIndex < snap.lastIncludedIndex + 1 + ([] : List LogEntry).length
    simp)

/-- A node that is started again has a piece of the log it had. -/
theorem Straight.restart (h : n.Straight) (hn : n.Sound) {store store' : KVStore} (hr : n.restart store = some (n', store')) :
    n'.Straight := by
  obtain ⟨_, rfl⟩ := hn.restart_eq hr
  have hbase : n.baseIndex = 0 ∧ n.lastIncluded = 0 ∨ n.baseIndex = n.lastIncluded + 1 ∧ 0 ≤ n.lastIncluded := by
    unfold baseIndex lastIncluded
    cases hs : n.latestSnapshot with
    | none => exact Or.inl ⟨rfl, rfl⟩
    | some s => exact Or.inr ⟨rfl, (h.snapshot s hs).1⟩
  refine ⟨Indexed.piece h.places hn.saved_prefix, fun e he => h.terms e (hn.saved_prefix.subset he), h.snapshot, ?_, ?_, ?_⟩
  · show 0 ≤ n.lastIncluded
    omega
  · show n.baseIndex ≤ n.lastIncluded + 1
    omega
  · show n.lastIncluded = 0 ∨ n.lastIncluded < n.baseIndex + n.saved.logEntries.length
    omega

/-- What changes neither the log nor the snapshot nor what is applied keeps a node straight. -/
theorem Straight.retreat (h : n.Straight) (i : ℕ) : (n.retreat i).Straight := by
  obtain ⟨_, heq⟩ := n.retreat_shape i
  rw [heq]
  exact h.congr rfl rfl rfl

theorem Straight.transferReply (h : n.Straight) (t : Transfer) (i : ℕ) (r : Option Reply) : (t.reply n i r).1.Straight := by
  obtain ⟨_, _, heq⟩ := t.reply_shape n i r
  rw [heq]
  exact h.congr rfl rfl rfl

theorem Straight.heartbeatAnswered (h : n.Straight) (i : ℕ) (nextIdx : ℤ) (count : ℕ) (success : Bool) :
    (Site.heartbeatAnswered n i nextIdx count success).Straight := by
  obtain ⟨_, _, heq⟩ := Site.heartbeatAnswered_shape n i nextIdx count success
  rw [heq]
  exact h.congr rfl rfl rfl

theorem Straight.seeTerm (h : n.Straight) (t : ℤ) : (n.seeTerm t).Straight := by
  obtain ⟨_, _, _, _, _, heq⟩ := n.seeTerm_shape t
  rw [heq]
  exact h.congr rfl rfl rfl

theorem Straight.stepDown (h : n.Straight) (m : AppendEntriesRPC) : (n.stepDown m).Straight := by
  obtain ⟨_, _, _, _, _, heq⟩ := n.stepDown_shape m
  rw [heq]
  exact h.congr rfl rfl rfl

/-- The node steps down for a message, and takes its entries over. -/
theorem Straight.takeOver (h : n.Straight) (hm : (Request.appendEntries m).Straight) (ht : n.currentTerm ≤ m.term)
    (hk : n.accepts m → n.firstMatches m = some false → n.lastApplied ≤ m.reach) :
    ((n.stepDown m).acceptEntries m).Straight := by
  obtain ⟨hprev, hfirst, happ⟩ := n.stepDown_checks m
  refine (h.stepDown m).acceptEntries hm fun hpm hf => ?_
  rw [happ]
  exact hk ⟨ht, hprev ▸ hpm⟩ (hfirst ▸ hf)

/-- Every handler keeps the node straight. -/
theorem Straight.handle (h : n.Straight) {store : KVStore} {req : Request} {r : Handled} (hreq : req.Straight)
    (hk : ∀ m, req = .appendEntries m → n.accepts m → n.firstMatches m = some false → n.lastApplied ≤ m.reach)
    (hi : ∀ m, req = .installSnapshot m → n.currentTerm ≤ m.term → ∀ snap, n.assembled m = some snap → snap.dumps = true →
      0 ≤ snap.lastIncludedIndex ∧ snap.lastIncludedTerm ≠ 0) (hr : n.handle store req = some r) : r.node.Straight := by
  cases req with
  | requestVote m =>
    obtain rfl := Option.some.inj hr
    have hs := h.seeTerm m.term
    unfold handleRequestVote
    simp only
    split
    · exact h
    · split
      · exact hs.congr rfl rfl rfl
      · exact hs
  | appendEntries m =>
    obtain rfl := Option.some.inj hr
    have hacc (ht : n.currentTerm ≤ m.term) := h.takeOver hreq ht (hk m rfl)
    rcases n.handleAppendEntries_node store m with heq | ⟨ht, heq | heq⟩
    · rw [heq]
      exact h
    · rw [heq]
      exact hacc ht
    · rw [heq]
      exact (hacc ht).advanceCommit store _
  | installSnapshot m =>
    have hs (b : Str) : ((n.seeTerm m.term).setBuffer b).Straight := (h.seeTerm m.term).congr rfl rfl rfl
    rcases handleInstallSnapshot_node hr with heq | ⟨ht, b, heq | heq | ⟨hd, snap, hsnap, hdumps, hw, heq⟩⟩
    · rw [heq]
      exact h
    · rw [heq]
      exact hs b
    · rw [heq]
      exact (hs b).congr rfl rfl rfl
    · obtain ⟨h0, ht'⟩ := hi m rfl ht snap (assembled_eq hd hsnap hw) hdumps
      rw [heq]
      exact straight_installSnapshot _ store h0 ht'

/-- What a node sends to a peer: entries from its log, which begins above its snapshot. -/
theorem Straight.appendRequest (h : n.Straight) {a : ℤ} (ha : n.latestSnapshot = none ∨ 1 ≤ a ∨ n.baseIndex ≤ a) (b : ℤ) :
    (Request.appendEntries (n.appendRequest a (n.getLogEntries a b))).Straight := by
  have hb0 := h.baseIndex_nonneg
  refine ⟨fun e he => h.terms e (n.getLogEntries_subset a b he), max a n.baseIndex, ?_, ?_, ?_⟩
  · show Indexed (max a n.baseIndex) (n.getLogEntries a b)
    unfold getLogEntries
    simp only
    split
    · exact Indexed.nil _
    · have := Indexed.drop (Indexed.take h.places (min (n.log.length : ℤ) (b - n.baseIndex)).toNat)
        (max 0 (a - n.baseIndex)).toNat
      rwa [show n.baseIndex + ((max 0 (a - n.baseIndex)).toNat : ℤ) = max a n.baseIndex by omega] at this
  · show a - 1 + 1 ≤ max a n.baseIndex
    omega
  · show max a n.baseIndex ≤ max 0 (a - 1 + 1) ∨ 0 ≤ a - 1 ∧ n.getLogTerm (a - 1) = 0
    by_cases hle : n.baseIndex ≤ a
    · exact Or.inl (by omega)
    · cases hs : n.latestSnapshot with
      | none =>
        have hb : n.baseIndex = 0 := by simp [baseIndex, hs]
        exact Or.inl (by omega)
      | some s =>
        -- the entry before the first one is below the last one under the snapshot, and `getLogTerm` has no term for it
        have hb : n.baseIndex = s.lastIncludedIndex + 1 := by simp [baseIndex, hs]
        have ha : 1 ≤ a := by
          rcases ha with ha | ha | ha
          · rw [hs] at ha
            cases ha
          · exact ha
          · omega
        refine Or.inr ⟨by omega, ?_⟩
        unfold getLogTerm
        rw [hs]
        simp only
        rw [if_pos (by omega), if_neg (by omega)]

end RaftNode

end RaftStore
