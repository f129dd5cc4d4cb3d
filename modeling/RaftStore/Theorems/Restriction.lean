import RaftStore.Conditions

/-!
# Whom a voter lets be elected

The voter compares the end of a candidate's log with the end of its own, and takes the candidate's from the whole log but its own from
`log` alone. The two come to the same unless the message names an end that only the snapshot puts behind the voter's.
-/

namespace RaftStore

namespace RaftNode

variable {n : RaftNode} {m : RequestVoteRPC}

/-! ## The condition -/

/-- The voter has its vote left for the candidate. -/
def voteOpen (n : RaftNode) (m : RequestVoteRPC) : Prop :=
  n.votedFor = -1 ∨ n.votedFor = m.candidateId ∨ n.currentTerm < m.term ∧ n.shutdownRequested = false

instance (n : RaftNode) (m : RequestVoteRPC) : Decidable (n.voteOpen m) := instDecidableOr

/-- The message names an end of the candidate's log that is behind the end of the voter's only for the entries under its snapshot: as
many entries of the last term as `log` has, but fewer than there are with the snapshot, or, where `log` is empty, any end from that of
no entries up to the end of the snapshot. -/
def hidesEntries (n : RaftNode) (m : RequestVoteRPC) : Prop :=
  match n.latestSnapshot, n.log.getLast? with
  | none, _ => False
  | some s, some e =>
    m.lastLogTerm = e.term ∧ (n.log.length : ℤ) - 1 ≤ m.lastLogIndex ∧ m.lastLogIndex < s.lastIncludedIndex + n.log.length
  | some s, none =>
    (0 < m.lastLogTerm ∨ m.lastLogTerm = 0 ∧ -1 ≤ m.lastLogIndex) ∧
      (m.lastLogTerm < s.lastIncludedTerm ∨ m.lastLogTerm = s.lastIncludedTerm ∧ m.lastLogIndex < s.lastIncludedIndex)

instance (n : RaftNode) (m : RequestVoteRPC) : Decidable (n.hidesEntries m) := by
  unfold hidesEntries
  split <;> infer_instance

/-! ## The two ends of a log -/

theorem entryAt_last (n : RaftNode) : n.entryAt (n.log.length - 1) = n.log.getLast? := by
  rw [List.getLast?_eq_getElem?]
  unfold entryAt
  split
  · congr 1
    omega
  · rw [List.getElem?_eq_none (by omega)]

/-- The term of the last entry, where `log` has one. -/
theorem getLogTerm_last {e : LogEntry} (he : n.log.getLast? = some e) : n.getLogTerm (n.getLogSize - 1) = e.term := by
  have hpos : 0 < n.log.length := List.length_pos_iff.mpr fun hnil => by
    rw [hnil] at he
    cases he
  have hidx : n.logIdx (n.getLogSize - 1) = n.log.length - 1 := by
    rw [logIdx_eq, getLogSize]
    omega
  rw [getLogTerm_above (by rw [getLogSize]; omega), hidx, entryAt_last, he]
  rfl

/-- Where the check of the voter and the check on its whole log differ. -/
theorem not_upToDate_iff : n.candidateUpToDate m = true ∧ ¬n.logUpToDate m ↔ n.hidesEntries m := by
  unfold candidateUpToDate logUpToDate hidesEntries
  simp only [entryAt_last, decide_eq_true_eq]
  cases he : n.log.getLast? with
  | some e =>
    rw [getLogTerm_last he]
    unfold getLogSize baseIndex
    cases n.latestSnapshot with
    | none =>
      simp only [Option.map_some, Option.getD_some, iff_false]
      omega
    | some s =>
      simp only [Option.map_some, Option.getD_some]
      omega
  | none =>
    have hlog : n.log = [] := List.getLast?_eq_none_iff.mp he
    unfold getLogTerm getLogSize baseIndex logIdx
    rw [hlog]
    cases n.latestSnapshot with
    | none =>
      simp [entryAt]
      omega
    | some s =>
      simp
      omega

/-! ## The votes -/

/-- When the handler grants a vote. -/
theorem handleRequestVote_grants (store : KVStore) : (∃ term, (n.handleRequestVote store m).reply = .requestVote term true) ↔
    n.currentTerm ≤ m.term ∧ n.voteOpen m ∧ n.candidateUpToDate m = true := by
  have hsee : ((n.seeTerm m.term).votedFor = -1 ∨ (n.seeTerm m.term).votedFor = m.candidateId ↔ n.voteOpen m) ∧
      (n.seeTerm m.term).candidateUpToDate m = n.candidateUpToDate m := by
    unfold seeTerm voteOpen
    split
    · next ht =>
      unfold becomeFollower
      split
      · next hu => simp [hu]
      · next hu =>
        refine ⟨iff_of_true (.inl rfl) (.inr (.inr ⟨ht, by simpa using hu⟩)), rfl⟩
    · next ht => simp [ht]
  unfold handleRequestVote
  split
  · next hlt =>
    refine iff_of_false (fun ⟨_, h⟩ => ?_) (fun h => absurd h.1 (by omega))
    cases h
  · next hge =>
    simp only [hsee.1, hsee.2]
    split
    · next hc => exact iff_of_true ⟨_, rfl⟩ ⟨by omega, hc⟩
    · next hc =>
      refine iff_of_false (fun ⟨_, h⟩ => ?_) (fun h => hc h.2)
      cases h

/-- A voter grants its vote only to a candidate whose log ends no earlier than its own, exactly where the message is stale, or the vote
is given away, or the end it names is not one that the snapshot hides. -/
theorem election_restriction_iff (n : RaftNode) (store : KVStore) (m : RequestVoteRPC) :
    (∀ term, (n.handleRequestVote store m).reply = .requestVote term true → n.logUpToDate m) ↔
      m.term < n.currentTerm ∨ ¬n.voteOpen m ∨ ¬n.hidesEntries m := by
  rw [← forall_exists_index (q := fun _ => n.logUpToDate m), handleRequestVote_grants, ← not_upToDate_iff]
  by_cases ht : n.currentTerm ≤ m.term
  · have hstale : ¬m.term < n.currentTerm := by omega
    by_cases hv : n.voteOpen m
    · by_cases hu : n.logUpToDate m
      · simp [hu]
      · simp [ht, hstale, hv, hu]
    · simp [hv]
  · exact iff_of_true (fun h => absurd h.1 ht) (.inl (by omega))

/-- A node whose snapshot reaches index 4, in term 3, with nothing above it. -/
def compactedVoter : RaftNode :=
  { create 1 5001 [5000, 5002] { metadata := none, snapshotFile := .absent } with
    currentTerm := 3
    commitIndex := 4
    lastApplied := 4
    latestSnapshot := some { lastIncludedIndex := 4, lastIncludedTerm := 3, kvState := ∅, covered := [] } }

/-- A candidate of term 4 whose log is one entry of term 1 gets the vote of a node that has five entries, the last of term 3. -/
theorem election_unrestricted : ¬∀ (n : RaftNode) (store : KVStore) (m : RequestVoteRPC) (term : ℤ),
    (n.handleRequestVote store m).reply = .requestVote term true → n.logUpToDate m := by
  intro h
  have hup := h compactedVoter KVStore.empty { term := 4, candidateId := 2, lastLogIndex := 0, lastLogTerm := 1 } 4 (by decide)
  exact absurd hup (by decide)

end RaftNode

end RaftStore
