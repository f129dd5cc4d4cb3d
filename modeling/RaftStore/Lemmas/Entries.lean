import RaftStore.Lemmas.Places

/-!
# Where entries come from

An entry gets into a log by an append of `handleClientCommand` or by a message that carries it, and what is applied and what is
sent comes from a log. So a property that holds of all entries is kept by every step that appends no entry without it.
-/

namespace RaftStore

/-- The entries that a message carries. -/
def Request.entries : Request → List LogEntry
  | .appendEntries m => m.entries
  | _ => []

/-- The entries that an input brings. -/
def Input.entries : Input → List LogEntry
  | .receive req => req.entries
  | _ => []

namespace RaftNode

variable {n : RaftNode} {m : AppendEntriesRPC} {e : LogEntry} {Q : LogEntry → Prop}

/-- The entries of the log have the property. -/
def Within (n : RaftNode) (Q : LogEntry → Prop) : Prop := ∀ e ∈ n.log, Q e

theorem Within.createSnapshot (h : n.Within Q) (store : KVStore) : (n.createSnapshot store).1.Within Q :=
  fun e he => h e (truncateLogSafe_subset (n.saveSnapshot (n.newSnapshot store)) n.lastApplied he)

/-- What can be dumped of a node can be dumped when it has taken a snapshot. -/
theorem createSnapshot_dumps (h : n.dumpsMetadata = true) (store : KVStore) :
    (n.createSnapshot store).1.dumpsMetadata = true := by
  have hsub : (n.createSnapshot store).1.log ⊆ n.log := truncateLogSafe_subset (n.saveSnapshot (n.newSnapshot store)) n.lastApplied
  obtain ⟨log, disk, _, heq⟩ := n.createSnapshot_shape store
  rw [heq] at hsub ⊢
  unfold dumpsMetadata at h ⊢
  rw [Bool.and_eq_true, Bool.and_eq_true, List.all_eq_true] at h ⊢
  exact ⟨⟨fun e he => h.1.1 e (hsub he), h.1.2⟩, h.2⟩

theorem Within.snapshotAtThreshold (h : n.Within Q) (store : KVStore) : (n.snapshotAtThreshold store).1.Within Q := by
  unfold RaftNode.snapshotAtThreshold
  split
  · exact h.createSnapshot store
  · exact h

theorem Within.applyCommitted (h : n.Within Q) (store : KVStore) : (n.applyCommitted store).node.Within Q := by
  rw [applyCommitted_node]
  exact h

theorem Within.seeTerm (h : n.Within Q) (t : ℤ) : (n.seeTerm t).Within Q := by
  obtain ⟨_, _, _, _, _, heq⟩ := n.seeTerm_shape t
  rw [heq]
  exact h

theorem Within.stepDown (h : n.Within Q) (m : AppendEntriesRPC) : (n.stepDown m).Within Q := by
  obtain ⟨_, _, _, _, _, heq⟩ := n.stepDown_shape m
  rw [heq]
  exact h

theorem Within.acceptEntries (h : n.Within Q) (hm : ∀ e ∈ m.entries, Q e) : (n.acceptEntries m).Within Q := by
  have hpush {n' : RaftNode} (h' : n'.Within Q) : (m.entries.foldl pushEntry n').Within Q :=
    fun e he => (foldl_pushEntry_mem he).elim (h' e) (hm e)
  unfold RaftNode.acceptEntries
  split
  · rcases hf : n.firstMatches m with _ | ⟨_ | _⟩
    · rw [Aligned.insertEntries_push hf]
      exact hpush h
    · rw [Aligned.insertEntries_cut hf]
      exact hpush fun e he => h e (List.mem_of_mem_take he)
    · rw [Aligned.insertEntries_skip hf]
      exact h
  · exact h

theorem Within.handleAppendEntries (h : n.Within Q) (hm : ∀ e ∈ m.entries, Q e) (store : KVStore) :
    (n.handleAppendEntries store m).node.Within Q := by
  have ha := (h.stepDown m).acceptEntries hm
  rcases n.handleAppendEntries_node store m with heq | ⟨_, heq | heq⟩ <;> rw [heq]
  · exact h
  · exact ha
  · have hc : (((n.stepDown m).acceptEntries m).setCommitIndex
        (min m.leaderCommit (((n.stepDown m).acceptEntries m).getLogSize - 1))).Within Q := ha
    exact (hc.applyCommitted store).snapshotAtThreshold _

/-- Every handler takes entries from the message only. -/
theorem Within.handle (h : n.Within Q) {req : Request} (hreq : ∀ e ∈ req.entries, Q e) {store : KVStore} {r : Handled}
    (hr : n.handle store req = some r) : r.node.Within Q := by
  cases req with
  | requestVote m =>
    obtain rfl := Option.some.inj hr
    show (n.handleRequestVote store m).node.Within Q
    unfold RaftNode.handleRequestVote
    simp only
    split
    · exact h
    · split
      · exact h.seeTerm m.term
      · exact h.seeTerm m.term
  | appendEntries m =>
    obtain rfl := Option.some.inj hr
    exact h.handleAppendEntries hreq store
  | installSnapshot m =>
    rcases handleInstallSnapshot_node hr with heq | ⟨_, b, heq | heq | ⟨_, snap, _, _, _, heq⟩⟩ <;> rw [heq]
    · exact h
    · exact h.seeTerm m.term
    · exact h.seeTerm m.term
    · exact fun e he => absurd he List.not_mem_nil

/-- An entry that stands at the place of an index has that index. -/
theorem InPlace.index_eq (h : n.InPlace) {i : ℤ} (he : n.entryAt (n.logIdx i) = some e) : e.index = i := by
  unfold entryAt at he
  split at he
  · next h0 =>
    have := h _ _ he
    rw [logIdx_eq] at this h0
    omega
  · cases he

/-- What the AppendEntries handler applies stands in the log after the entries were taken over. -/
theorem handleAppendEntries_applied {store : KVStore} {j : ℤ}
    (h : Event.applied j e ∈ (n.handleAppendEntries store m).events) :
    n.accepts m ∧ ((n.stepDown m).acceptEntries m).entryAt (((n.stepDown m).acceptEntries m).logIdx j) = some e := by
  unfold RaftNode.handleAppendEntries at h
  simp only at h
  split at h
  · cases h
  · split at h
    · cases h
    · next ht =>
      split at h
      · next hc =>
        rcases List.mem_cons.mp h with h | h
        · cases h
        · obtain ⟨i, e', heq, _, _, he⟩ := applyCommitted_events h
          obtain ⟨rfl, rfl⟩ := Event.applied.inj heq
          exact ⟨⟨not_lt.mp ht, (n.stepDown_checks m).1 ▸ hc.1⟩, he⟩
      · cases h

end RaftNode

namespace Site

variable {size next : ℕ} {s : Site} {store : KVStore} {i : Input} {o : Outcome} {Q : LogEntry → Prop}

/-- The commit section applies what stands in the log. -/
theorem commit_applied {n : RaftNode} (h : n.Sound) {call : ClientCall} {j : ℤ} {e : LogEntry}
    (hev : Event.applied j e ∈ (commit n store call).2.2.2) : n.entryAt (n.logIdx j) = some e := by
  have h' : (n.setCommitIndex call.newIndex).Sound := h.congr rfl rfl rfl rfl
  unfold commit at hev
  simp only [h'.applyWhileUp_eq] at hev
  rcases List.mem_append.mp hev with hev | hev
  · rcases List.mem_cons.mp hev with hev | hev
    · cases hev
    · obtain ⟨i, e', heq, _, _, he⟩ := RaftNode.applyCommitted_events hev
      obtain ⟨rfl, rfl⟩ := Event.applied.inj heq
      exact he
  · cases List.mem_singleton.mp hev

/-- What a step applies stands in the log of the node, or in its log after it has taken over the entries of a message. -/
theorem Step.applied (hst : Step size next s store i o) (hs : s.Sound) {j : ℤ} {e : LogEntry}
    (hev : Event.applied j e ∈ o.events) : s.node.entryAt (s.node.logIdx j) = some e ∨
      ∃ m, i = .receive (.appendEntries m) ∧ s.node.accepts m ∧
        ((s.node.stepDown m).acceptEntries m).entryAt (((s.node.stepDown m).acceptEntries m).logIdx j) = some e := by
  cases hst with
  | startElection he hl => cases List.mem_singleton.mp hev
  | win el he hp hr hv => cases List.mem_singleton.mp hev
  | cached req result hl hc => cases List.mem_singleton.mp hev
  | commit k call hk hp hi hm => exact Or.inl (commit_applied hs.node hev)
  | receive req r hr =>
    cases req with
    | requestVote m =>
      obtain rfl := Option.some.inj hr
      exact absurd rfl ((s.node.handleRequestVote_progress store m).2 _ hev j e)
    | appendEntries m =>
      obtain rfl := Option.some.inj hr
      exact Or.inr ⟨m, rfl, RaftNode.handleAppendEntries_applied hev⟩
    | installSnapshot m =>
      rw [handleInstallSnapshot_events hr] at hev
      cases hev
  | _ => cases hev

/-- What holds of the entries of the log, of those that a message brings and of the one that is appended holds, after a step, of
the entries of the log. -/
theorem Step.within (hst : Step size next s store i o) (hs : s.Sound) (h : s.node.Within Q) (hi : ∀ e ∈ i.entries, Q e)
    (hnew : ∀ req, i = .clientRequest req → s.node.state = .leader → cachedResult s.node req = none → Q (newEntry s.node req)) :
    o.site.node.Within Q := by
  have hchunk (t : Transfer) (j : ℕ) (r : Option Reply) : (t.reply s.node j r).1.Within Q := by
    obtain ⟨_, _, heq⟩ := t.reply_shape s.node j r
    rw [heq]
    exact h
  cases hst with
  | win el he hp hr hv =>
    obtain ⟨_, _, heq⟩ := s.elected_node el
    show (s.elected el).node.Within Q
    rw [heq]
    exact h
  | heartbeatReply hb j nextIdx count call r term success hh hp hr ht =>
    obtain ⟨_, _, heq⟩ := heartbeatAnswered_shape s.node j nextIdx count success
    show (heartbeatAnswered s.node j nextIdx count success).Within Q
    rw [heq]
    exact h
  | heartbeatChunkReply hb j t call r hh hp phase hph => exact hchunk t j r
  | append req hl hc =>
    intro e he
    rcases List.mem_append.mp he with he | he
    · exact h e he
    · rw [List.mem_singleton.mp he]
      exact hnew req rfl hl hc
  | commit k call hc hp hi hm =>
    have h' : (s.node.setCommitIndex call.newIndex).Sound := hs.node.congr rfl rfl rfl rfl
    have hset : (s.node.setCommitIndex call.newIndex).Within Q := h
    show (Site.commit s.node store call).1.Within Q
    unfold Site.commit
    simp only [h'.applyWhileUp_eq]
    exact (hset.applyCommitted store).snapshotAtThreshold _
  | failure k call id r term hc hp hr ht call' hc' =>
    obtain ⟨_, heq⟩ := s.node.retreat_shape call.i
    show (s.node.retreat call.i).Within Q
    rw [heq]
    exact h
  | chunkReply k call t id r hc hp call' hc' => exact hchunk t call.i r
  | receive req r hr => exact h.handle hi hr
  | snapshotNow hl => exact h.createSnapshot store
  | restart n store' hr =>
    obtain ⟨_, rfl⟩ := hs.node.restart_eq hr
    exact fun e he => h e (hs.node.saved_prefix.subset he)
  | _ => exact h

/-- What holds of the entries of the log holds of the entries that are sent. -/
theorem Step.sends (hst : Step size next s store i o) (h : s.node.Within Q) {x : Send} (hx : o.send = some x) :
    ∀ e ∈ x.req.entries, Q e := by
  cases hst with
  | ask el p rest he hp hr =>
    obtain rfl := Option.some.inj hx
    exact fun e he => absurd he List.not_mem_nil
  | sendHeartbeat hb j p hh hp hrun hi hns entries hes =>
    obtain rfl := Option.some.inj hx
    subst hes
    exact fun e he => h e (s.node.getLogEntries_subset _ _ he)
  | sendHeartbeatChunk hb j t p hh hp hi =>
    obtain rfl := Option.some.inj hx
    exact fun e he => absurd he List.not_mem_nil
  | send k call p hc hp hi =>
    obtain rfl := Option.some.inj hx
    exact fun e he => h e (s.node.getLogEntries_subset _ _ he)
  | sendChunk k call t p hc hp hi =>
    obtain rfl := Option.some.inj hx
    exact fun e he => absurd he List.not_mem_nil
  | _ => cases hx

end Site

end RaftStore
