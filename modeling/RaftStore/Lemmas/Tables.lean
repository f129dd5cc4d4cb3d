import RaftStore.Lemmas.Progress

/-!
# Where results are recorded

The tables of a node are written at the end of a commit section, and by nothing else while the process runs; a result is taken from
them only where a client request comes in.
-/

namespace RaftStore

/-- Nothing was recorded, or answered from the tables. -/
def Event.OffTable (ev : Event) : Prop := (∀ req result, ev ≠ .recorded req result) ∧ ∀ req result, ev ≠ .cached req result

namespace RaftNode

variable {n : RaftNode}

/-- The two tables that requests are looked up in. -/
def tables (n : RaftNode) : AList (fun _ : Str => ℤ) × StrMap := (n.clientLastRequest, n.clientResultCache)

@[simp] theorem createSnapshot_tables (n : RaftNode) (store : KVStore) : (n.createSnapshot store).1.tables = n.tables := by
  obtain ⟨_, _, _, heq⟩ := n.createSnapshot_shape store
  rw [heq]
  rfl

@[simp] theorem snapshotAtThreshold_tables (n : RaftNode) (store : KVStore) :
    (n.snapshotAtThreshold store).1.tables = n.tables := by
  obtain ⟨_, _, _, _, heq⟩ := n.snapshotAtThreshold_shape store
  rw [heq]
  rfl

@[simp] theorem applyCommitted_tables (n : RaftNode) (store : KVStore) : (n.applyCommitted store).node.tables = n.tables := by
  rw [applyCommitted_node]
  rfl

@[simp] theorem seeTerm_tables (n : RaftNode) (t : ℤ) : (n.seeTerm t).tables = n.tables := by
  obtain ⟨_, _, _, _, _, heq⟩ := n.seeTerm_shape t
  rw [heq]
  rfl

@[simp] theorem stepDown_tables (n : RaftNode) (m : AppendEntriesRPC) : (n.stepDown m).tables = n.tables := by
  obtain ⟨_, _, _, _, _, heq⟩ := n.stepDown_shape m
  rw [heq]
  rfl

@[simp] theorem acceptEntries_tables (n : RaftNode) (m : AppendEntriesRPC) : (n.acceptEntries m).tables = n.tables := by
  obtain ⟨log, h⟩ := n.acceptEntries_eq m
  rw [h]
  rfl

@[simp] theorem advanceCommit_tables (n : RaftNode) (store : KVStore) (leaderCommit : ℤ) :
    (n.advanceCommit store leaderCommit).1.tables = n.tables := by
  show (snapshotAtThreshold _ _).1.tables = n.tables
  rw [snapshotAtThreshold_tables, applyCommitted_tables]
  rfl

@[simp] theorem retreat_tables (n : RaftNode) (i : ℕ) : (n.retreat i).tables = n.tables := by
  obtain ⟨_, heq⟩ := n.retreat_shape i
  rw [heq]
  rfl

@[simp] theorem setBuffer_tables (n : RaftNode) (buffer : Str) : (n.setBuffer buffer).tables = n.tables := rfl

@[simp] theorem emptySnapshotFile_tables (n : RaftNode) : n.emptySnapshotFile.tables = n.tables := rfl

@[simp] theorem installSnapshot_tables (n : RaftNode) (store : KVStore) (snap : Snapshot) :
    (n.installSnapshot store snap).1.tables = n.tables := rfl

/-- What an apply loop leaves in the history. -/
theorem applyCommitted_offTable {store : KVStore} {ev : Event} (hev : ev ∈ (n.applyCommitted store).events) : ev.OffTable := by
  obtain ⟨_, _, rfl, _⟩ := applyCommitted_events hev
  exact ⟨fun _ _ => nofun, fun _ _ => nofun⟩

/-- The handlers leave the tables alone. -/
theorem handle_tables {store : KVStore} {req : Request} {r : Handled} (hr : n.handle store req = some r) :
    r.node.tables = n.tables ∧ ∀ ev ∈ r.events, ev.OffTable := by
  have hoff {l : List Event} (h : l = []) : ∀ ev ∈ l, ev.OffTable := fun ev hev => by rw [h] at hev; cases hev
  cases req with
  | requestVote m =>
    obtain rfl := Option.some.inj hr
    have hs := n.seeTerm_tables m.term
    show (n.handleRequestVote store m).node.tables = _ ∧ ∀ ev ∈ (n.handleRequestVote store m).events, _
    unfold handleRequestVote
    simp only
    split
    · exact ⟨rfl, hoff rfl⟩
    · split
      · refine ⟨hs, fun ev hev => ?_⟩
        obtain rfl := List.mem_singleton.mp hev
        exact ⟨fun _ _ => nofun, fun _ _ => nofun⟩
      · exact ⟨hs, hoff rfl⟩
  | appendEntries m =>
    obtain rfl := Option.some.inj hr
    constructor
    · rcases n.handleAppendEntries_node store m with heq | ⟨_, heq | heq⟩
      · exact congrArg tables heq
      · exact (congrArg tables heq).trans (by simp)
      · exact (congrArg tables heq).trans (by simp)
    · show ∀ ev ∈ (n.handleAppendEntries store m).events, ev.OffTable
      unfold handleAppendEntries
      simp only
      split
      · exact hoff rfl
      · split
        · exact hoff rfl
        · split
          · intro ev hev
            rcases List.mem_cons.mp hev with rfl | hev
            · exact ⟨fun _ _ => nofun, fun _ _ => nofun⟩
            · exact applyCommitted_offTable hev
          · exact hoff rfl
  | installSnapshot m =>
    refine ⟨?_, hoff (handleInstallSnapshot_events hr)⟩
    rcases handleInstallSnapshot_node hr with heq | ⟨_, b, heq | heq | ⟨_, snap, _, _, _, heq⟩⟩
    · rw [heq]
    · rw [heq, setBuffer_tables, seeTerm_tables]
    · rw [heq, emptySnapshotFile_tables, setBuffer_tables, seeTerm_tables]
    · rw [heq, installSnapshot_tables, setBuffer_tables, seeTerm_tables]

end RaftNode

@[simp] theorem Transfer.reply_tables (t : Transfer) (n : RaftNode) (i : ℕ) (r : Option Reply) :
    (t.reply n i r).1.tables = n.tables := by
  obtain ⟨_, _, heq⟩ := t.reply_shape n i r
  rw [heq]
  rfl

namespace Site

@[simp] theorem heartbeatAnswered_tables (n : RaftNode) (i : ℕ) (nextIdx : ℤ) (count : ℕ) (success : Bool) :
    (heartbeatAnswered n i nextIdx count success).tables = n.tables := by
  obtain ⟨_, _, heq⟩ := heartbeatAnswered_shape n i nextIdx count success
  rw [heq]
  rfl

@[simp] theorem elected_tables (s : Site) (el : Election) : (s.elected el).node.tables = s.node.tables := by
  obtain ⟨_, _, heq⟩ := s.elected_node el
  rw [heq]
  rfl

variable {size next : ℕ} {s : Site} {store : KVStore} {i : Input} {o : Outcome}

/-- The commit section records the result of the last command. -/
theorem commit_tables {n : RaftNode} (h : n.Sound) (store : KVStore) (call : ClientCall) : ∃ result,
    (commit n store call).1.tables = (n.clientLastRequest.insert call.req.clientId call.req.requestId,
      n.clientResultCache.insert call.req.clientId result) ∧
    ∃ evs, (commit n store call).2.2.2 = evs ++ [.recorded call.req result] ∧ ∀ ev ∈ evs, ev.OffTable := by
  have h' : (n.setCommitIndex call.newIndex).Sound := h.congr rfl rfl rfl rfl
  have htables : (((n.setCommitIndex call.newIndex).applyCommitted store).node.snapshotAtThreshold
      ((n.setCommitIndex call.newIndex).applyCommitted store).store).1.tables = n.tables := by
    rw [RaftNode.snapshotAtThreshold_tables, RaftNode.applyCommitted_tables]
    rfl
  unfold commit
  simp only [h'.applyWhileUp_eq]
  refine ⟨_, ?_, _, rfl, fun ev hev => ?_⟩
  · obtain ⟨hlast, hcache⟩ := Prod.mk.inj htables
    unfold recordResult RaftNode.tables
    simp only [RaftNode.persistMetadata, hlast, hcache]
  · rcases List.mem_cons.mp hev with rfl | hev
    · exact ⟨fun _ _ h => (by cases h), fun _ _ h => (by cases h)⟩
    · exact RaftNode.applyCommitted_offTable hev

/-- What a step does to the tables: nothing, or a client command records its result there. A restart reads them from the file. -/
theorem Step.tables_cases (hst : Step size next s store i o) (hs : s.Sound) (hi : i ≠ .restart) :
    (o.site.node.tables = s.node.tables ∧ ∀ req result, Event.recorded req result ∉ o.events) ∨
      ∃ call ∈ s.clients, ∃ result, o.site.node.tables =
          (s.node.clientLastRequest.insert call.req.clientId call.req.requestId,
            s.node.clientResultCache.insert call.req.clientId result) ∧
        ∃ evs, o.events = evs ++ [.recorded call.req result] ∧ ∀ ev ∈ evs, ev.OffTable := by
  have hstill {n : RaftNode} (ht : n.tables = s.node.tables) {site : Site} (hn : site.node = n) {st : KVStore} :
      (Outcome.local site st).site.node.tables = s.node.tables ∧
        ∀ req result, Event.recorded req result ∉ (Outcome.local site st).events :=
    ⟨by rw [← ht, ← hn]; rfl, fun _ _ => List.not_mem_nil⟩
  have hsingle {ev : Event} (hev : ∀ req result, ev ≠ .recorded req result) (req : ClientRequest) (result : Str) :
      Event.recorded req result ∉ [ev] := fun h => hev req result (List.mem_singleton.mp h).symm
  cases hst with
  | startElection he hl => exact Or.inl ⟨rfl, hsingle fun _ _ => nofun⟩
  | win el he hp hr hv =>
    exact Or.inl ⟨s.elected_tables el, hsingle fun _ _ => nofun⟩
  | heartbeatReply hb j nextIdx count call r term success hh hp hr ht =>
    exact Or.inl (hstill (heartbeatAnswered_tables s.node j nextIdx count success) rfl)
  | heartbeatChunkReply hb j t call r hh hp phase hph => exact Or.inl (hstill (Transfer.reply_tables t s.node j r) rfl)
  | cached req result hl hc => exact Or.inl ⟨rfl, hsingle fun _ _ => nofun⟩
  | commit k call hk hp hi hm =>
    obtain ⟨result, ht, evs, hev, hoff⟩ := commit_tables hs.node store call
    exact Or.inr ⟨call, List.mem_of_getElem? hk, result, ht, evs, hev, hoff⟩
  | failure k call id r term hk hp hr ht call' hc => exact Or.inl (hstill (RaftNode.retreat_tables _ _) rfl)
  | chunkReply k call t id r hk hp call' hc => exact Or.inl (hstill (Transfer.reply_tables t s.node call.i r) rfl)
  | receive req r hr =>
    obtain ⟨ht, hoff⟩ := RaftNode.handle_tables hr
    exact Or.inl ⟨ht, fun req result hev => (hoff _ hev).1 req result rfl⟩
  | snapshotNow hl => exact Or.inl (hstill (s.node.createSnapshot_tables store) rfl)
  | restart n store' hr => exact absurd rfl hi
  | _ => exact Or.inl ⟨rfl, fun _ _ => List.not_mem_nil⟩

/-- A result is taken from the tables only for a client request that comes in. -/
theorem Step.cached_eq (hst : Step size next s store i o) (hs : s.Sound) {req : ClientRequest} {result : Str}
    (hev : Event.cached req result ∈ o.events) : i = .clientRequest req ∧ s.node.state = .leader ∧
      cachedResult s.node req = some result ∧ o.events = [.cached req result] := by
  cases hst with
  | startElection he hl => cases List.mem_singleton.mp hev
  | win el he hp hr hv => cases List.mem_singleton.mp hev
  | cached req' result' hl hc =>
    obtain ⟨rfl, rfl⟩ := Event.cached.inj (List.mem_singleton.mp hev)
    exact ⟨rfl, hl, hc, rfl⟩
  | commit k call hk hp hi hm =>
    obtain ⟨_, _, evs, heq, hoff⟩ := commit_tables hs.node store call
    have hmem : Event.cached req result ∈ evs ++ [Event.recorded call.req _] := heq ▸ hev
    rcases List.mem_append.mp hmem with hev | hev
    · exact absurd rfl ((hoff _ hev).2 req result)
    · cases List.mem_singleton.mp hev
  | receive m r hr => exact absurd rfl (((RaftNode.handle_tables hr).2 _ hev).2 req result)
  | _ => cases hev

/-- The requests of the client commands are those that were there, and the one that comes in. -/
theorem Step.requests (hst : Step size next s store i o) {call : ClientCall} (hc : call ∈ o.site.clients) :
    (∃ call₀ ∈ s.clients, call.req = call₀.req) ∨ i = .clientRequest call.req := by
  have hset {k : ℕ} {call₀ call' : ClientCall} (hk : s.clients[k]? = some call₀) (hc : call ∈ s.clients.set k call')
      (hr : call'.req = call₀.req) : ∃ c₀ ∈ s.clients, call.req = c₀.req := by
    rcases List.mem_or_eq_of_mem_set hc with hc | rfl
    · exact ⟨call, hc, rfl⟩
    · exact ⟨call₀, List.mem_of_getElem? hk, hr⟩
  cases hst with
  | win el he hp hr hv => exact Or.inl ⟨call, s.elected_clients el ▸ hc, rfl⟩
  | append req hl hcache =>
    rcases List.mem_append.mp hc with hc | hc
    · exact Or.inl ⟨call, hc, rfl⟩
    · obtain rfl := List.mem_singleton.mp hc
      exact Or.inr rfl
  | send k call₀ p hk hp hi => exact Or.inl (hset hk hc rfl)
  | commit k call₀ hk hp hi hm => exact Or.inl (hset hk hc rfl)
  | notCommitted k call₀ hk hp hi hm => exact Or.inl (hset hk hc rfl)
  | sendChunk k call₀ t p hk hp hi => exact Or.inl (hset hk hc rfl)
  | lost k call₀ id r hk hp hr => exact Or.inl (hset hk hc rfl)
  | later k call₀ id r term success hk hp hr ht => exact Or.inl (hset hk hc rfl)
  | success k call₀ id r term hk hp hr ht => exact Or.inl (hset hk hc rfl)
  | failure k call₀ id r term hk hp hr ht call' hc' =>
    refine Or.inl (hset hk hc ?_)
    rw [hc']
    split <;> rfl
  | chunkReply k call₀ t id r hk hp call' hc' =>
    refine Or.inl (hset hk hc ?_)
    rw [hc']
    split <;> rfl
  | restart n store' hr => exact absurd hc List.not_mem_nil
  | _ => exact Or.inl ⟨call, hc, rfl⟩

end Site

end RaftStore
