import RaftStore.Theorems.Acknowledged

/-!
# What a follower commits

The AppendEntries handler takes `commitIndex` up to the end of its log. Entries of the log that a message has neither brought nor
verified come under `commitIndex` with it.
-/

namespace RaftStore

/-- The entry that a message has for a global index. -/
def AppendEntriesRPC.entry (m : AppendEntriesRPC) (i : ℤ) : Option LogEntry :=
  if m.prevLogIndex < i then m.entries[(i - m.prevLogIndex - 1).toNat]? else none

namespace RaftNode

variable {n y : RaftNode} {m : AppendEntriesRPC} {store : KVStore} {i : ℤ} {e : LogEntry}

/-- What the log has from behind `prevLogIndex` up to `leaderCommit`, and is not committed, are the entries of the message. -/
def Verifies (n : RaftNode) (m : AppendEntriesRPC) : Prop :=
  ∀ i e, n.commitIndex < i → m.prevLogIndex < i → i ≤ m.leaderCommit → n.globalEntry i = some e → ∃ f ∈ m.entry i, e.Same f

/-- What comes under `commitIndex` from one node to the next is at or below `prevLogIndex`, or an entry of the message. -/
def CommitsVerified (n : RaftNode) (m : AppendEntriesRPC) (n' : RaftNode) : Prop :=
  n'.commitIndex ≤ max n.commitIndex m.reach ∧ ∀ i e, n.commitIndex < i → i ≤ n'.commitIndex → n'.globalEntry i = some e →
    i ≤ m.prevLogIndex ∨ ∃ f ∈ m.entry i, e.Same f

theorem entry_lt {f : LogEntry} (hf : m.entry i = some f) : m.prevLogIndex < i ∧ i ≤ m.reach := by
  unfold AppendEntriesRPC.entry at hf
  split at hf
  · next hi =>
    have := (List.getElem?_eq_some_iff.mp hf).1
    exact ⟨hi, by unfold AppendEntriesRPC.reach; omega⟩
  · cases hf

/-- A message that passes the check begins within the log. -/
theorem Aligned.prev_lt (h : n.Aligned) (hp : n.prevMatches m = true) : m.prevLogIndex + 1 ≤ n.full.length := by
  by_cases h0 : 0 ≤ m.prevLogIndex
  · obtain ⟨_, e, he, _⟩ := h.prevMatches_full h0 hp
    have := (List.getElem?_eq_some_iff.mp he).1
    omega
  · omega

namespace Inserted

variable (h : Inserted n m y)

include h

theorem covered : y.covered = n.covered := by
  unfold RaftNode.covered
  rw [h.latestSnapshot]

theorem covered_length (hn : n.Aligned) : (y.covered.length : ℤ) = y.baseIndex := by
  rw [h.covered, h.baseIndex, hn.covered_length]

theorem full_length (hn : n.Aligned) (hm : Indexed (m.prevLogIndex + 1) m.entries) : (y.full.length : ℤ) = n.baseIndex + n.lengthWith m := by
  rw [← h.getLogSize hm, RaftNode.getLogSize, ← h.covered_length hn, full, List.length_append]
  push_cast
  rfl

/-- Behind `prevLogIndex` the log has the entries of the message after a conflict; else those that it had, and where nothing was compared
then those of the message. -/
theorem full_eq (hn : n.Aligned) (hp : n.prevMatches m = true) (hm : Indexed (m.prevLogIndex + 1) m.entries) (h0 : 0 ≤ i)
    (hi : m.prevLogIndex < i) : y.full[i.toNat]? =
      match n.firstMatches m with
      | some false => m.entry i
      | some true => n.full[i.toNat]?
      | none => (n.full[i.toNat]?).or (m.entry i) := by
  have hlog := h.log.trans (insertEntries_log hm)
  have hc := hn.covered_length
  have hprev := hn.prev_lt hp
  have hlen : n.full.length = n.covered.length + n.log.length := List.length_append
  have hidx := n.logIdx_eq (m.prevLogIndex + 1)
  have hentry : m.entry i = m.entries[(i - m.prevLogIndex - 1).toNat]? := if_pos hi
  have hfull : y.full = n.covered ++ y.log := by rw [full, h.covered]
  cases hf : n.firstMatches m with
  | none =>
    simp only [hf] at hlog ⊢
    have happ : y.full = n.full ++ m.entries.drop (n.log.length - n.logIdx (m.prevLogIndex + 1)).toNat := by
      rw [hfull, hlog, full, List.append_assoc]
    rw [happ]
    by_cases hlt : i.toNat < n.full.length
    · rw [List.getElem?_append_left hlt, List.getElem?_eq_getElem hlt, Option.some_or]
    · have hnone : n.full[i.toNat]? = none := List.getElem?_eq_none (by omega)
      rw [List.getElem?_append_right (by omega), hnone, Option.none_or, List.getElem?_drop, hentry]
      congr 1
      omega
  | some b =>
    cases b with
    | true =>
      simp only [hf] at hlog ⊢
      rw [hfull, hlog, full]
    | false =>
      obtain ⟨_, _, _, he, _⟩ := Aligned.firstMatches_eq hf
      have hplace := (entryAt_isSome n _).mp (by rw [he]; rfl)
      simp only [hf] at hlog ⊢
      have hcut : (n.log.take (n.logIdx (m.prevLogIndex + 1)).toNat).length = (n.logIdx (m.prevLogIndex + 1)).toNat := by
        rw [List.length_take]
        omega
      rw [hfull, hlog, ← List.append_assoc, List.getElem?_append_right (by rw [List.length_append, hcut]; omega), List.length_append, hcut,
        hentry]
      congr 1
      omega

/-- An entry of the log is still there behind `prevLogIndex`, but for a conflict. -/
theorem full_kept (hn : n.Aligned) (hp : n.prevMatches m = true) (hm : Indexed (m.prevLogIndex + 1) m.entries) (h0 : 0 ≤ i)
    (hi : m.prevLogIndex < i) (hf : n.firstMatches m ≠ some false) (he : n.full[i.toNat]? = some e) : y.full[i.toNat]? = some e := by
  rw [h.full_eq hn hp hm h0 hi]
  split
  · next heq => exact absurd heq hf
  · exact he
  · rw [he, Option.some_or]

/-- An entry of the log behind `prevLogIndex` is one of the message, or was there before and no conflict was found. -/
theorem full_cases (hn : n.Aligned) (hp : n.prevMatches m = true) (hm : Indexed (m.prevLogIndex + 1) m.entries) (h0 : 0 ≤ i)
    (hi : m.prevLogIndex < i) (he : y.full[i.toNat]? = some e) :
    m.entry i = some e ∨ n.full[i.toNat]? = some e ∧ n.firstMatches m ≠ some false := by
  rw [h.full_eq hn hp hm h0 hi] at he
  split at he
  · exact .inl he
  · next heq => exact .inr ⟨he, by rw [heq]; simp⟩
  · next heq =>
    rcases Option.or_eq_some_iff.mp he with he | ⟨_, he⟩
    · exact .inr ⟨he, by rw [heq]; simp⟩
    · exact .inl he

end Inserted

/-- What comes under `commitIndex` of a node with the entries of a message is verified if and only if a conflict has made room for them, or
what the log had is what the message has. -/
theorem Inserted.commitsVerified_iff (h : Inserted n m y) (hn : n.Aligned) (hprev : -1 ≤ m.prevLogIndex)
    (hp : n.prevMatches m = true) (hm : Indexed (m.prevLogIndex + 1) m.entries) {n' : RaftNode} (hc : n'.commitIndex = n.commitAfter m)
    (he : ∀ i ≤ n'.commitIndex, n.commitIndex < i → n'.globalEntry i = y.globalEntry i) :
    n.CommitsVerified m n' ↔ n.firstMatches m = some false ∨ n.Verifies m := by
  have hb : 0 ≤ y.baseIndex := by
    rw [h.baseIndex]
    exact hn.baseIndex_nonneg
  have hycov := h.covered_length hn
  have hlen := h.full_length hn hm
  have hafter (hlt : n.commitIndex < n'.commitIndex) : n.commitIndex < m.leaderCommit ∧
      n'.commitIndex = min m.leaderCommit (n.baseIndex + n.lengthWith m - 1) := by
    rw [hc] at hlt ⊢
    unfold commitAfter at hlt ⊢
    split
    · next hlead => exact ⟨hlead, rfl⟩
    · next hlead =>
      rw [if_neg hlead] at hlt
      omega
  constructor
  · rintro ⟨_, hall⟩
    by_cases hf : n.firstMatches m = some false
    · exact .inl hf
    · refine .inr fun i e hlo hpi hhi hent => ?_
      have h0 := globalEntry_nonneg hn.baseIndex_nonneg hent
      rw [hn.globalEntry_eq h0] at hent
      have hkept := h.full_kept hn hp hm h0 hpi hf hent
      have hlt := (List.getElem?_eq_some_iff.mp hkept).1
      have hle : i ≤ n'.commitIndex := by
        rw [hc, commitAfter, if_pos (by omega)]
        omega
      have hglobal : n'.globalEntry i = some e := by rw [he i hle hlo, globalEntry_full hycov h0, hkept]
      exact (hall i e hlo hle hglobal).resolve_left (by omega)
  · intro hcond
    have hall : ∀ i e, n.commitIndex < i → i ≤ n'.commitIndex → n'.globalEntry i = some e →
        i ≤ m.prevLogIndex ∨ ∃ f ∈ m.entry i, e.Same f := by
      intro i e hlo hhi hent
      obtain ⟨hlead, hcom⟩ := hafter (by omega)
      rw [he i hhi hlo] at hent
      have h0 := globalEntry_nonneg hb hent
      rw [globalEntry_full hycov h0] at hent
      by_cases hpi : m.prevLogIndex < i
      · rcases h.full_cases hn hp hm h0 hpi hent with hent | ⟨hent, hf⟩
        · exact .inr ⟨e, hent, rfl, rfl, rfl⟩
        · exact .inr (hcond.resolve_left hf i e hlo hpi (by omega) ((hn.globalEntry_eq h0).trans hent))
      · exact .inl (by omega)
    refine ⟨?_, hall⟩
    -- the entry at the new `commitIndex` is there, so that it is one of those above
    by_contra hbeyond
    obtain ⟨_, hcom⟩ := hafter (by omega)
    have hreach : m.prevLogIndex ≤ m.reach := by
      unfold AppendEntriesRPC.reach
      omega
    have h0 : 0 ≤ n'.commitIndex := by omega
    have hlt : n'.commitIndex.toNat < y.full.length := by omega
    have hent : n'.globalEntry n'.commitIndex = some y.full[n'.commitIndex.toNat] := by
      rw [he _ le_rfl (by omega), globalEntry_full hycov h0, List.getElem?_eq_getElem hlt]
    rcases hall _ _ (by omega) le_rfl hent with hle | ⟨f, hf, _⟩
    · omega
    · have := (entry_lt hf).2
      omega

/-- A snapshot has the entries up to what is applied. -/
theorem createSnapshot_globalEntry (hc : (y.covered.length : ℤ) = y.baseIndex) (store : KVStore) (hi : i ≤ y.lastApplied) :
    (y.createSnapshot store).1.globalEntry i = y.globalEntry i := by
  have hleft : (y.createSnapshot store).1.globalEntry i =
      if 0 ≤ i then (y.full.take (y.lastApplied + 1).toNat)[i.toNat]? else none := by
    unfold globalEntry
    rw [(y.createSnapshot_log store).1]
    exact if_pos hi
  rw [hleft]
  split
  · next h0 => rw [globalEntry_full hc h0, List.getElem?_take_of_lt (by omega)]
  · exact (globalEntry_neg (by omega) (by omega)).symm

/-- An aligned follower and a message with consecutive entries: whenever it is answered with `success`, the new `commitIndex` is not beyond
the old one and the message, and what comes under it is at or below `prevLogIndex` or an entry of the message, exactly where the message is
turned away, fails the check, finds a conflict, or has what the log holds behind `prevLogIndex` up to `leaderCommit`. -/
theorem commits_verified_iff (hn : n.Aligned) (hprev : -1 ≤ m.prevLogIndex) (hm : Indexed (m.prevLogIndex + 1) m.entries) (store : KVStore) :
    (∀ term, (n.handleAppendEntries store m).reply = .appendEntries term true →
        n.CommitsVerified m (n.handleAppendEntries store m).node) ↔
      n.turnsAway m ∨ n.prevMatches m = false ∨ n.firstMatches m = some false ∨ n.Verifies m := by
  by_cases haway : n.turnsAway m
  · refine iff_of_true (fun term hreply => ?_) (.inl haway)
    rw [(handleAppendEntries_away haway store).2] at hreply
    split at hreply
    · cases hreply
    · cases hreply
  · have hreply := handleAppendEntries_reply haway store
    rw [(n.stepDown_checks m).1] at hreply
    rw [or_iff_right haway]
    cases hp : n.prevMatches m with
    | false =>
      refine iff_of_true (fun term hsucc => ?_) (.inl rfl)
      rw [hreply, hp] at hsucc
      cases hsucc
    | true =>
      rw [hp] at hreply
      obtain ⟨y, store', hy, hcom, hnode⟩ := handleAppendEntries_inserted haway hp hm store
      have hquant : (∀ term, (n.handleAppendEntries store m).reply = .appendEntries term true →
          n.CommitsVerified m (n.handleAppendEntries store m).node) ↔ n.CommitsVerified m (n.handleAppendEntries store m).node :=
        ⟨fun h => h _ hreply, fun h _ _ => h⟩
      rw [hquant, or_iff_right (by simp)]
      rcases hnode with ⟨heq, _⟩ | ⟨heq, hsnap⟩
      · rw [heq]
        exact hy.commitsVerified_iff hn hprev hp hm hcom fun _ _ _ => rfl
      · have hcom' : (y.createSnapshot store').1.commitIndex = n.commitAfter m :=
          (congrArg Progress.commitIndex (y.createSnapshot_progress store')).trans hcom
        have happ : (y.createSnapshot store').1.commitIndex ≤ y.lastApplied := by
          unfold snapshotAfter at hsnap
          split at hsnap
          · next hc =>
            rw [hcom', commitAfter, if_pos hc.1, ← Option.some.inj hsnap]
            exact le_max_right _ _
          · cases hsnap
        rw [heq]
        exact hy.commitsVerified_iff hn hprev hp hm hcom'
          fun i hi _ => createSnapshot_globalEntry (hy.covered_length hn) store' (hi.trans happ)

/-- A follower of term 2 with two entries of term 1. -/
def leftover : RaftNode := behind.appendLogEntry (entryOf 1 "PUT b 2")

/-- A message of the leader of term 2 that has another entry at index 1, and no entry for the follower. -/
def heartbeatOf (entries : List LogEntry) : AppendEntriesRPC where
  term := 2
  leaderId := 0
  prevLogIndex := 0
  prevLogTerm := 1
  entries := entries
  leaderCommit := 1

theorem behind_aligned : behind.Aligned where
  genuine := nofun
  placed := Placed.singleton rfl le_rfl
  applied_nonneg := le_rfl
  applied_base := zero_le_one
  applied_lt := .inl rfl
  nextIndex := by decide

theorem leftover_aligned : leftover.Aligned := behind_aligned.append rfl le_rfl

/-- The leader's entry at index 1. -/
def newEntry : LogEntry := { entryOf 1 "PUT c 3" with term := 2 }

theorem heartbeatOf_indexed : Indexed ((heartbeatOf [newEntry]).prevLogIndex + 1) (heartbeatOf [newEntry]).entries :=
  (Indexed.nil 1).append_singleton (e := newEntry) rfl

/-- With the leader's entry in the message the conflict is found, and the entry is what the follower commits. -/
theorem commits_verified_leftover : (leftover.handleAppendEntries KVStore.empty (heartbeatOf [newEntry])).reply = .appendEntries 2 true ∧
    ∀ term, (leftover.handleAppendEntries KVStore.empty (heartbeatOf [newEntry])).reply = .appendEntries term true →
      leftover.CommitsVerified (heartbeatOf [newEntry]) (leftover.handleAppendEntries KVStore.empty (heartbeatOf [newEntry])).node :=
  ⟨by decide +kernel,
    (commits_verified_iff leftover_aligned (by decide) heartbeatOf_indexed KVStore.empty).mpr (.inr (.inr (.inl (by decide))))⟩

/-- Without it the follower commits its own entry of term 1, at an index beyond the message. -/
theorem commits_unverified : ¬∀ (n : RaftNode) (m : AppendEntriesRPC) (store : KVStore), n.Aligned → -1 ≤ m.prevLogIndex →
    Indexed (m.prevLogIndex + 1) m.entries → ∀ term, (n.handleAppendEntries store m).reply = .appendEntries term true →
      n.CommitsVerified m (n.handleAppendEntries store m).node := by
  intro h
  have hanswer : (leftover.handleAppendEntries KVStore.empty (heartbeatOf [])).reply = .appendEntries 2 true := by decide +kernel
  obtain ⟨hle, _⟩ := h leftover (heartbeatOf []) KVStore.empty leftover_aligned (by decide) (Indexed.nil 1) 2 hanswer
  exact absurd hle (by decide +kernel)

end RaftNode

end RaftStore
