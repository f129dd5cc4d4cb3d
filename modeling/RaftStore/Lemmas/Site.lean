import RaftStore.Lemmas.Step

/-!
# What every step of a site keeps

Terms do not decrease, only the start of an election makes a candidate, and a node stays sound. A thread was started in a term
that is not after the node's, and before it when the node is a candidate. This holds whatever messages come in.
-/

namespace RaftStore

/-- `r'` comes after `r` on one node, without the start or the end of an election: a candidate or a leader has been it before,
in the same term. -/
structure Role.Later (r r' : Role) : Prop where
  id : r'.id = r.id
  rpcPort : r'.rpcPort = r.rpcPort
  peerRpcPorts : r'.peerRpcPorts = r.peerRpcPorts
  term : r.currentTerm ≤ r'.currentTerm
  state : r'.state ≠ .follower → r'.state = r.state ∧ r'.currentTerm = r.currentTerm

theorem Role.Later.refl (r : Role) : r.Later r := ⟨rfl, rfl, rfl, le_rfl, fun _ => ⟨rfl, rfl⟩⟩

theorem Role.Later.of_eq {r r' : Role} (h : r' = r) : r.Later r' := h ▸ Role.Later.refl r

theorem Role.Later.trans {r r' r'' : Role} (h : r.Later r') (h' : r'.Later r'') : r.Later r'' where
  id := h'.id.trans h.id
  rpcPort := h'.rpcPort.trans h.rpcPort
  peerRpcPorts := h'.peerRpcPorts.trans h.peerRpcPorts
  term := h.term.trans h'.term
  state hf := by
    obtain ⟨hs, ht⟩ := h'.state hf
    obtain ⟨hs', ht'⟩ := h.state (hs ▸ hf)
    exact ⟨hs.trans hs', ht.trans ht'⟩

/-- A later role is the role of a candidate only if the earlier one is, in the same term. -/
theorem Role.Later.candidate {r r' : Role} (h : r.Later r') (hc : r'.state = .candidate) :
    r.state = .candidate ∧ r'.currentTerm = r.currentTerm := by
  obtain ⟨hs, ht⟩ := h.state (by rw [hc]; decide)
  exact ⟨hs.symm.trans hc, ht⟩

namespace RaftNode

/-! ## Handlers -/

variable {n : RaftNode}

theorem Sound.becomeFollower_later (h : n.Sound) {t : ℤ} (ht : n.currentTerm ≤ t) :
    n.role.Later (n.becomeFollower t).role := by
  rw [h.becomeFollower_eq]
  exact ⟨rfl, rfl, rfl, ht, fun hc => absurd rfl hc⟩

theorem Sound.seeTerm_later (h : n.Sound) (t : ℤ) : n.role.Later (n.seeTerm t).role := by
  unfold RaftNode.seeTerm
  split
  · exact h.becomeFollower_later (by omega)
  · exact Role.Later.refl _

/-- After a term that is not earlier is seen, the node is in that term. -/
theorem Sound.seeTerm_term (h : n.Sound) {t : ℤ} (ht : n.currentTerm ≤ t) : (n.seeTerm t).currentTerm = t := by
  unfold RaftNode.seeTerm
  split
  · rw [h.becomeFollower_eq]
    rfl
  · omega

theorem Sound.stepDown_later (h : n.Sound) {m : AppendEntriesRPC} (hm : n.currentTerm ≤ m.term) :
    n.role.Later (n.stepDown m).role := by
  unfold RaftNode.stepDown
  split
  · exact h.becomeFollower_later hm
  · exact Role.Later.refl _

/-- After an AppendEntries message that is not stale the node is in its term, and no candidate. -/
theorem Sound.stepDown_role (h : n.Sound) {m : AppendEntriesRPC} (hm : n.currentTerm ≤ m.term) :
    (n.stepDown m).currentTerm = m.term ∧ (n.stepDown m).state ≠ .candidate := by
  unfold RaftNode.stepDown
  split
  · rw [h.becomeFollower_eq]
    exact ⟨rfl, by simp [persistMetadata]⟩
  · next hc =>
    rw [not_or] at hc
    exact ⟨by have := hc.1; simp only; omega, hc.2⟩

theorem Sound.handleRequestVote (h : n.Sound) (store : KVStore) (m : RequestVoteRPC) :
    (n.handleRequestVote store m).node.Sound ∧ n.role.Later (n.handleRequestVote store m).node.role := by
  have hs := h.seeTerm m.term
  have hl := h.seeTerm_later m.term
  unfold RaftNode.handleRequestVote
  simp only
  split
  · exact ⟨h, Role.Later.refl _⟩
  · split
    · refine ⟨sound_persist hs.up hs.idle hs.term_nonneg hs.file, hl.trans ?_⟩
      exact ⟨rfl, rfl, rfl, le_rfl, fun _ => ⟨rfl, rfl⟩⟩
    · exact ⟨hs, hl⟩

/-- What the AppendEntries handler does to the node: nothing, or the step down, the log of the message, and its commit index. -/
theorem handleAppendEntries_node (n : RaftNode) (store : KVStore) (m : AppendEntriesRPC) :
    (n.handleAppendEntries store m).node = n ∨ n.currentTerm ≤ m.term ∧
      ((n.handleAppendEntries store m).node = (n.stepDown m).acceptEntries m ∨
        (n.handleAppendEntries store m).node = (((n.stepDown m).acceptEntries m).advanceCommit store m.leaderCommit).1) := by
  unfold RaftNode.handleAppendEntries
  simp only
  split
  · exact Or.inl rfl
  · split
    · exact Or.inl rfl
    · next ht =>
      refine Or.inr ⟨by omega, ?_⟩
      split
      · exact Or.inr rfl
      · exact Or.inl rfl

theorem Sound.handleAppendEntries (h : n.Sound) (store : KVStore) (m : AppendEntriesRPC) :
    (n.handleAppendEntries store m).node.Sound ∧ n.role.Later (n.handleAppendEntries store m).node.role := by
  rcases n.handleAppendEntries_node store m with heq | ⟨ht, heq | heq⟩
  · rw [heq]
    exact ⟨h, Role.Later.refl _⟩
  · rw [heq]
    refine ⟨(h.stepDown m ht).acceptEntries m, ?_⟩
    rw [acceptEntries_role]
    exact h.stepDown_later ht
  · rw [heq]
    refine ⟨((h.stepDown m ht).acceptEntries m).advanceCommit store _, ?_⟩
    rw [advanceCommit_role, acceptEntries_role]
    exact h.stepDown_later ht

@[simp] theorem setBuffer_snapshotBuffer (n : RaftNode) (b : Str) : (n.setBuffer b).snapshotBuffer = b := rfl

@[simp] theorem setBuffer_setBuffer (n : RaftNode) (b b' : Str) : (n.setBuffer b).setBuffer b' = n.setBuffer b' := rfl

/-- What the InstallSnapshot handler does to the node: nothing, or the term seen and the buffer changed, and after the last chunk
the snapshot installed or its file emptied. -/
theorem handleInstallSnapshot_node {store : KVStore} {m : InstallSnapshotRPC} {r : Handled}
    (hr : n.handleInstallSnapshot store m = some r) : r.node = n ∨ n.currentTerm ≤ m.term ∧ ∃ b,
      (r.node = (n.seeTerm m.term).setBuffer b ∨ r.node = ((n.seeTerm m.term).setBuffer b).emptySnapshotFile ∨
        m.done = true ∧ ∃ snap, deserializeSnapshot b = some snap ∧ snap.dumps = true ∧
          writeChunk (if m.offset = 0 then [] else (n.seeTerm m.term).snapshotBuffer) m.offset (chunkOf m) = .written b ∧
          r.node = (((n.seeTerm m.term).setBuffer b).installSnapshot store { snap with covered := m.covered }).1) := by
  unfold RaftNode.handleInstallSnapshot at hr
  simp only [setBuffer_snapshotBuffer, setBuffer_setBuffer] at hr
  split at hr
  · obtain rfl := Option.some.inj hr
    exact Or.inl rfl
  · next ht =>
    refine Or.inr ⟨by omega, ?_⟩
    split at hr
    · cases hr
    · obtain rfl := Option.some.inj hr
      exact ⟨_, Or.inl rfl⟩
    · next buffer hw =>
      split at hr
      · next hd =>
        obtain rfl := Option.some.inj hr
        refine ⟨buffer, ?_⟩
        unfold finishTransfer
        rw [setBuffer_snapshotBuffer]
        split
        · exact Or.inl rfl
        · next snap hsnap =>
          split
          · next hdumps => exact Or.inr (Or.inr ⟨hd, snap, hsnap, hdumps, hw, rfl⟩)
          · exact Or.inr (Or.inl rfl)
      · obtain rfl := Option.some.inj hr
        exact ⟨buffer, Or.inl rfl⟩

/-- The end of a transfer whose image is decoded and saved. -/
theorem finishTransfer_saved {store : KVStore} {m : InstallSnapshotRPC} {s : Snapshot} (hs : deserializeSnapshot n.snapshotBuffer = some s)
    (hd : s.dumps = true) : n.finishTransfer store m =
      { node := (n.installSnapshot store { s with covered := m.covered }).1
        store := store.loadFromMap s.kvState
        reply := .installSnapshot n.currentTerm true []
        events := [] } := by
  unfold finishTransfer
  rw [hs]
  simp only [hd, if_true]
  rfl

/-- The end of a transfer leaves the role alone. -/
theorem finishTransfer_role (n : RaftNode) (store : KVStore) (m : InstallSnapshotRPC) :
    (n.finishTransfer store m).node.role = n.role := by
  unfold finishTransfer
  split
  · rfl
  · split
    · exact installSnapshot_role n store _
    · exact emptySnapshotFile_role n

/-- A message that is not stale leaves the node in the role in which its term is seen. -/
theorem handleInstallSnapshot_role {store : KVStore} {m : InstallSnapshotRPC} {r : Handled}
    (hr : n.handleInstallSnapshot store m = some r) (ht : n.currentTerm ≤ m.term) :
    r.node.role = (n.seeTerm m.term).role := by
  unfold RaftNode.handleInstallSnapshot at hr
  simp only [setBuffer_snapshotBuffer, setBuffer_setBuffer] at hr
  rw [if_neg (not_lt.mpr ht)] at hr
  split at hr
  · cases hr
  · obtain rfl := Option.some.inj hr
    exact setBuffer_role _ _
  · next buffer _ =>
    split at hr
    · obtain rfl := Option.some.inj hr
      exact (finishTransfer_role _ _ _).trans (setBuffer_role _ _)
    · obtain rfl := Option.some.inj hr
      exact setBuffer_role _ _

theorem Sound.setBuffer (h : n.Sound) (b : Str) : (n.setBuffer b).Sound := h.congr rfl rfl rfl rfl

theorem Sound.emptySnapshotFile (h : n.Sound) : n.emptySnapshotFile.Sound :=
  ⟨h.up, h.idle, h.term_nonneg, h.saved_term, h.saved_vote, h.saved_prefix, h.saved_log, Or.inl rfl⟩

theorem Sound.handleInstallSnapshot (h : n.Sound) {store : KVStore} {m : InstallSnapshotRPC} {r : Handled}
    (hr : n.handleInstallSnapshot store m = some r) : r.node.Sound ∧ n.role.Later r.node.role := by
  have hs (b : Str) := (h.seeTerm m.term).setBuffer b
  have hl := h.seeTerm_later m.term
  rcases handleInstallSnapshot_node hr with heq | ⟨_, b, heq | heq | ⟨_, snap, _, _, _, heq⟩⟩ <;> rw [heq]
  · exact ⟨h, Role.Later.refl _⟩
  · exact ⟨hs b, hl⟩
  · exact ⟨(hs b).emptySnapshotFile, hl⟩
  · refine ⟨(hs b).installSnapshot store _, ?_⟩
    rw [installSnapshot_role]
    exact hl

/-- Every handler keeps the node sound. -/
theorem Sound.handle (h : n.Sound) {store : KVStore} {req : Request} {r : Handled} (hr : n.handle store req = some r) :
    r.node.Sound ∧ n.role.Later r.node.role := by
  cases req with
  | requestVote m =>
    obtain rfl := Option.some.inj hr
    exact h.handleRequestVote store m
  | appendEntries m =>
    obtain rfl := Option.some.inj hr
    exact h.handleAppendEntries store m
  | installSnapshot m => exact h.handleInstallSnapshot hr

end RaftNode

/-! ## Sites -/

/-- The term a thread was started in is not after that of the node, and before it when the node is a candidate. -/
def ThreadTerm (r : Role) (t : ℤ) : Prop := t ≤ r.currentTerm ∧ (r.state = .candidate → t < r.currentTerm)

theorem ThreadTerm.later {r r' : Role} {t : ℤ} (h : ThreadTerm r t) (hl : r.Later r') : ThreadTerm r' t := by
  refine ⟨h.1.trans hl.term, fun hc => ?_⟩
  obtain ⟨hc, ht⟩ := hl.candidate hc
  exact ht ▸ h.2 hc

/-- A site whatever messages come in. -/
structure Site.Sound (s : Site) : Prop where
  node : s.node.Sound
  state_term : s.node.state ≠ .follower → 1 ≤ s.node.currentTerm
  election : ∀ el, s.election = some el → 1 ≤ el.term ∧ el.term ≤ s.node.currentTerm
  join : ∀ el, s.election = some el → el.phase = .join → s.node.state ≠ .candidate
  heartbeat : ∀ hb, s.heartbeat = some hb → ThreadTerm s.node.role hb.term
  client : ∀ call ∈ s.clients, ThreadTerm s.node.role call.entry.term

namespace Site

/-- A step that leaves the election and the heartbeat thread as they are, and each client command with its entry. -/
theorem Sound.mono {s s' : Site} (h : s.Sound) (hn : s'.node.Sound) (hl : s.node.role.Later s'.node.role)
    (he : ∀ el, s'.election = some el → ∃ el₀, s.election = some el₀ ∧ el.term = el₀.term ∧
      (el.phase = .join → el₀.phase = .join))
    (hh : ∀ hb, s'.heartbeat = some hb → ∃ hb₀, s.heartbeat = some hb₀ ∧ hb.term = hb₀.term)
    (hc : ∀ call ∈ s'.clients, ∃ call₀ ∈ s.clients, call.entry = call₀.entry) : s'.Sound where
  node := hn
  state_term hf := by
    obtain ⟨hs, ht⟩ := hl.state hf
    exact (h.state_term (fun hc => hf (hs.trans hc))).trans_eq ht.symm
  election el hel := by
    obtain ⟨el₀, h₀, ht, _⟩ := he el hel
    obtain ⟨h1, h2⟩ := h.election el₀ h₀
    exact ht ▸ ⟨h1, h2.trans hl.term⟩
  join el hel hj := by
    obtain ⟨el₀, h₀, _, hp⟩ := he el hel
    intro hcand
    exact h.join el₀ h₀ (hp hj) (hl.candidate hcand).1
  heartbeat hb hhb := by
    obtain ⟨hb₀, h₀, ht⟩ := hh hb hhb
    exact ht ▸ (h.heartbeat hb₀ h₀).later hl
  client call hcall := by
    obtain ⟨call₀, h₀, ht⟩ := hc call hcall
    exact ht ▸ (h.client call₀ h₀).later hl

/-- The entries of the client commands when one of them goes on. -/
theorem entry_of_mem_set {l : List ClientCall} {k : ℕ} {c call call₀ : ClientCall} (hk : l[k]? = some call₀)
    (he : call.entry = call₀.entry) (hc : c ∈ l.set k call) : ∃ c₀ ∈ l, c.entry = c₀.entry := by
  rcases List.mem_or_eq_of_mem_set hc with hc | rfl
  · exact ⟨c, hc, rfl⟩
  · exact ⟨call₀, List.mem_of_getElem? hk, he⟩

/-- A step of the election thread that leaves the node's role alone, or follows a later term. -/
theorem Sound.of_election {s : Site} (h : s.Sound) (n : RaftNode) (election : Option Election) (hn : n.Sound)
    (hl : s.node.role.Later n.role)
    (he : ∀ el, election = some el → ∃ el₀, s.election = some el₀ ∧ el.term = el₀.term ∧
      (el.phase = .join → el₀.phase = .join)) :
    Site.Sound { s with node := n, election := election } :=
  h.mono hn hl he (fun hb hhb => ⟨hb, hhb, rfl⟩) (fun call hc => ⟨call, hc, rfl⟩)

/-- A step of the heartbeat thread. -/
theorem Sound.of_heartbeat {s : Site} (h : s.Sound) (n : RaftNode) (heartbeat : Option Heartbeat) (hn : n.Sound)
    (hl : s.node.role.Later n.role)
    (hh : ∀ hb, heartbeat = some hb → ∃ hb₀, s.heartbeat = some hb₀ ∧ hb.term = hb₀.term) :
    Site.Sound { s with node := n, heartbeat := heartbeat } :=
  h.mono hn hl (fun el hel => ⟨el, hel, rfl, id⟩) hh (fun call hc => ⟨call, hc, rfl⟩)

/-- A step of a client command. -/
theorem Sound.of_client {s : Site} (h : s.Sound) (n : RaftNode) {k : ℕ} {call call₀ : ClientCall}
    (hk : s.clients[k]? = some call₀) (he : call.entry = call₀.entry) (hn : n.Sound) (hl : s.node.role.Later n.role) :
    Site.Sound { s with node := n, clients := s.clients.set k call } :=
  h.mono hn hl (fun el hel => ⟨el, hel, rfl, id⟩) (fun hb hhb => ⟨hb, hhb, rfl⟩)
    (fun _ hc => entry_of_mem_set hk he hc)

/-- A step that changes the node only. -/
theorem Sound.of_node {s : Site} (h : s.Sound) (n : RaftNode) (hn : n.Sound) (hl : s.node.role.Later n.role) :
    Site.Sound { s with node := n } :=
  h.of_election n s.election hn hl (fun el hel => ⟨el, hel, rfl, id⟩)

/-- A later term seen in a reply. -/
theorem followReply_later {n : RaftNode} {t : ℤ} (ht : n.currentTerm < t) : n.role.Later (n.followReply t).role :=
  ⟨rfl, rfl, rfl, ht.le, fun hc => absurd rfl hc⟩

theorem Sound.startElection {s : Site} (h : s.Sound) (el : Election) (ht : el.term = s.node.currentTerm + 1)
    (hp : el.phase = .ask) : Site.Sound { s with node := candidacy s.node, election := some el } where
  node := RaftNode.sound_persist h.node.up h.node.idle (by have := h.node.term_nonneg; simp only; omega) h.node.file
  state_term _ := by
    have := h.node.term_nonneg
    simp only [candidacy, RaftNode.persistMetadata]
    omega
  election el' he := by
    obtain rfl := Option.some.inj he
    have := h.node.term_nonneg
    simp only [candidacy, RaftNode.persistMetadata]
    omega
  join el' he hj := by
    obtain rfl := Option.some.inj he
    rw [hp] at hj
    cases hj
  heartbeat hb hhb := by
    have := (h.heartbeat hb hhb).1
    simp only [ThreadTerm, RaftNode.role, candidacy, RaftNode.persistMetadata] at this ⊢
    exact ⟨by omega, fun _ => by omega⟩
  client call hc := by
    have := (h.client call hc).1
    simp only [ThreadTerm, RaftNode.role, candidacy, RaftNode.persistMetadata] at this ⊢
    exact ⟨by omega, fun _ => by omega⟩

/-- The start of the heartbeat thread, on a node that is no candidate. -/
theorem Sound.startHeartbeats {s : Site} (h : s.Sound) (n : RaftNode) (hn : n.Sound) (ht : s.node.currentTerm ≤ n.currentTerm)
    (hst : n.state ≠ .follower → 1 ≤ n.currentTerm) (hc : n.state ≠ .candidate) : (s.startHeartbeats n).Sound where
  node := hn.persist
  state_term := hst
  election el he := by cases he
  join el he := by cases he
  heartbeat hb hhb := by
    simp only [Site.startHeartbeats, hn.up, Bool.false_eq_true, if_false, Option.some.injEq] at hhb
    obtain rfl := hhb
    exact ⟨le_rfl, fun hc' => absurd hc' hc⟩
  client call hcall := ⟨(h.client call hcall).1.trans ht, fun hc' => absurd hc' hc⟩

theorem Sound.elected {s : Site} (h : s.Sound) {el : Election} (he : s.election = some el) : (s.elected el).Sound := by
  obtain ⟨h1, h2⟩ := h.election el he
  have hn : (promoted s.node).Sound :=
    ⟨h.node.up, h.node.idle, h.node.term_nonneg, h.node.saved_term, h.node.saved_vote, h.node.saved_prefix,
      fun hc => absurd rfl hc, h.node.file⟩
  have hst : (promoted s.node).state ≠ .follower → 1 ≤ (promoted s.node).currentTerm := fun _ => h1.trans h2
  unfold Site.elected
  split
  · refine ⟨hn.congr rfl rfl rfl rfl, hst, ?_, ?_, fun hb hhb => ⟨(h.heartbeat hb hhb).1, fun hc => by cases hc⟩,
      fun call hc => ⟨(h.client call hc).1, fun hc => by cases hc⟩⟩
    · intro el' hel
      obtain rfl := Option.some.inj hel
      exact ⟨h1, h2⟩
    · intro _ _ _ hc
      cases hc
  · exact h.startHeartbeats _ hn le_rfl hst (fun hc => by cases hc)

/-- A node that is started again has no threads. -/
theorem Sound.restart {s : Site} (h : s.Sound) {store store' : KVStore} {n : RaftNode}
    (hr : s.node.restart store = some (n, store')) :
    Site.Sound { node := n, election := none, heartbeat := none, clients := [] } := by
  obtain ⟨hn, hrole⟩ := h.node.restart hr
  refine ⟨hn, fun hne => absurd (congrArg Role.state hrole) hne, ?_, ?_, ?_, ?_⟩
  · intro el he
    cases he
  · intro el he
    cases he
  · intro hb hhb
    cases hhb
  · intro call hc
    exact absurd hc List.not_mem_nil

/-- A leader appends the entry of a client command. -/
theorem Sound.appendEntry {s : Site} (h : s.Sound) (hl : s.node.state = .leader) (req : ClientRequest) :
    (s.appendEntry req).Sound := by
  have hn := h.node
  refine ⟨⟨hn.up, hn.idle, hn.term_nonneg, hn.saved_term, hn.saved_vote, hn.saved_prefix.trans (List.prefix_append _ _),
    fun hc => absurd hl hc, hn.file⟩, h.state_term, h.election, h.join, h.heartbeat, ?_⟩
  intro call hcall
  rcases List.mem_append.mp hcall with hcall | hcall
  · exact h.client call hcall
  · obtain rfl := List.mem_singleton.mp hcall
    exact ⟨le_rfl, fun hc => by cases hl.symm.trans hc⟩

variable {size next : ℕ} {s : Site} {store : KVStore} {i : Input} {o : Outcome}

/-- The call at a place after it has been changed. -/
theorem clientAt_getElem? {k : ℕ} {call : ClientCall} (hk : s.clients[k]? = some call) (call' : ClientCall) :
    (s.clientAt k call').clients[k]? = some call' :=
  List.getElem?_set_self (List.getElem?_eq_some_iff.mp hk).1

/-- Every step keeps a site sound. -/
theorem Sound.of_step (h : s.Sound) (hs : Step size next s store i o) : o.site.Sound := by
  have hn := h.node
  have hrefl := Role.Later.refl s.node.role
  have hfollow {t : ℤ} (ht : s.node.currentTerm < t) : (s.node.followReply t).Sound :=
    hn.followReply (by have := hn.term_nonneg; omega)
  have hask (el : Election) (he : s.election = some el) (v : ℕ) : (s.askNext el v).Sound :=
    h.of_election s.node _ hn hrefl (fun el' hel => by
      obtain rfl := Option.some.inj hel
      exact ⟨el, he, rfl, fun hp => by cases hp⟩)
  have hbeat (n : RaftNode) (hr : n.role = s.node.role) (hns : n.Sound) (hb : Heartbeat) (hh : s.heartbeat = some hb)
      (p : HeartbeatPhase) : ({ s with node := n }.heartbeatAt hb p).Sound :=
    h.of_heartbeat n _ hns (Role.Later.of_eq hr) (fun hb' hhb => by
      obtain rfl := Option.some.inj hhb
      exact ⟨hb, hh, rfl⟩)
  have hclient (n : RaftNode) (hr : n.role = s.node.role) (hns : n.Sound) (k : ℕ) (call₀ call : ClientCall)
      (hk : s.clients[k]? = some call₀) (he : call.entry = call₀.entry) : ({ s with node := n }.clientAt k call).Sound :=
    h.of_client n hk he hns (Role.Later.of_eq hr)
  cases hs with
  | startElection he hl => exact h.startElection _ rfl rfl
  | join el he hp hh =>
    exact h.startHeartbeats _ (hn.congr rfl rfl rfl rfl) le_rfl h.state_term (h.join el he hp)
  | ask el p rest he hp hr =>
    exact h.of_election s.node _ hn hrefl (fun el' hel => by
      obtain rfl := Option.some.inj hel
      exact ⟨el, he, rfl, fun hp => by cases hp⟩)
  | win el he hp hr hv => exact h.elected he
  | lose el he hp hr hv => exact h.of_election s.node none hn hrefl (fun el' hel => by cases hel)
  | noVote el call r he hp hr => exact hask el he _
  | voteLater el call r term g he hp hr ht =>
    exact h.of_election _ none (hfollow ht) (followReply_later ht) (fun el' hel => by cases hel)
  | vote el call r term g he hp hr ht => exact hask el he _
  | round hb hh hp hl => exact hbeat s.node rfl hn hb hh _
  | endHeartbeats hb hh hp => exact h.of_heartbeat s.node none hn hrefl (fun hb' hhb => by cases hhb)
  | endRound hb i hh hp => exact hbeat s.node rfl hn hb hh _
  | needSnapshot hb i snapshot hh hp hns => exact hbeat s.node rfl hn hb hh _
  | sendHeartbeat hb i p hh hp hrun hi hns entries hes => exact hbeat s.node rfl hn hb hh _
  | sendHeartbeatChunk hb i t p hh hp hi => exact hbeat s.node rfl hn hb hh _
  | heartbeatStopped hb i nextIdx count call r hh hp => exact hbeat s.node rfl hn hb hh _
  | heartbeatLost hb i nextIdx count call r hh hp hr => exact hbeat s.node rfl hn hb hh _
  | heartbeatLater hb i nextIdx count call r term success hh hp hr ht =>
    exact h.of_heartbeat _ none ((hfollow ht).congr rfl rfl rfl rfl) (followReply_later ht)
      (fun hb' hhb => by cases hhb)
  | heartbeatReply hb i nextIdx count call r term success hh hp hr ht =>
    obtain ⟨_, _, heq⟩ := heartbeatAnswered_shape s.node i nextIdx count success
    refine hbeat _ (heartbeatAnswered_role s.node i nextIdx count success) ?_ hb hh _
    rw [heq]
    exact hn.congr rfl rfl rfl rfl
  | heartbeatChunkReply hb i t call r hh hp phase hph =>
    exact hbeat _ (Transfer.reply_role t s.node i r) (hn.transferReply t i r) hb hh _
  | refuse req hl => exact h
  | cached req result hl hc => exact h
  | append req hl hc => exact h.appendEntry hl req
  | send k call p hk hp hi => exact hclient s.node rfl hn k call _ hk rfl
  | commit k call hk hp hi hm => exact hclient _ (commit_role _ _ _) (hn.commit store call) k call _ hk rfl
  | notCommitted k call hk hp hi hm => exact hclient s.node rfl hn k call _ hk rfl
  | sendChunk k call t p hk hp hi => exact hclient s.node rfl hn k call _ hk rfl
  | lost k call id r hk hp hr => exact hclient s.node rfl hn k call _ hk rfl
  | later k call id r term success hk hp hr ht =>
    exact h.of_client _ hk rfl (hfollow ht) (followReply_later ht)
  | success k call id r term hk hp hr ht =>
    exact hclient (clientAnswered s.node call) rfl (hn.congr rfl rfl rfl rfl) k call
      (nextPeer { call with successCount := call.successCount + 1 }) hk rfl
  | failure k call id r term hk hp hr ht call' hc =>
    refine hclient _ (RaftNode.retreat_role _ _) (hn.retreat _) k call call' hk ?_
    rw [hc]
    split <;> rfl
  | chunkReply k call t id r hk hp call' hc =>
    refine hclient _ (Transfer.reply_role t s.node _ r) (hn.transferReply t _ r) k call call' hk ?_
    rw [hc]
    split <;> rfl
  | receive req r hr =>
    obtain ⟨hns, hl⟩ := hn.handle hr
    exact h.of_node r.node hns hl
  | snapshotNow hl =>
    have hr := s.node.createSnapshot_role store
    exact h.of_node _ (hn.createSnapshot store) (Role.Later.of_eq hr)
  | restart n store' hr => exact h.restart hr

/-- A step keeps or follows the role of its node, starts an election, or ends one with a promotion. -/
theorem Sound.role_cases (h : s.Sound) (hs : Step size next s store i o) :
    s.node.role.Later o.site.node.role ∨
      (i = .startElection ∧ o.site.node.role = (candidacy s.node).role) ∨
      (i = .step .election ∧ (∃ el, s.election = some el ∧ el.phase = .ask ∧ el.rest = [] ∧ size / 2 < el.votes) ∧
        o.site.node.role = (promoted s.node).role ∧ o.events = [.becameLeader (promoted s.node)]) := by
  have hrole {n : RaftNode} (hr : n.role = s.node.role) : s.node.role.Later n.role := Role.Later.of_eq hr
  cases hs with
  | startElection he hl => exact Or.inr (Or.inl ⟨rfl, rfl⟩)
  | win el he hp hr hv =>
    exact Or.inr (Or.inr ⟨rfl, ⟨el, he, hp, hr, hv⟩, s.elected_role el, rfl⟩)
  | voteLater el call r term g he hp hr ht => exact Or.inl (followReply_later ht)
  | heartbeatLater hb i nextIdx count call r term success hh hp hr ht => exact Or.inl (followReply_later ht)
  | heartbeatReply hb i nextIdx count call r term success hh hp hr ht =>
    exact Or.inl (hrole (heartbeatAnswered_role s.node i nextIdx count success))
  | heartbeatChunkReply hb i t call r hh hp phase hph => exact Or.inl (hrole (Transfer.reply_role t s.node i r))
  | commit k call hk hp hi hm => exact Or.inl (hrole (commit_role s.node store call))
  | later k call id r term success hk hp hr ht => exact Or.inl (followReply_later ht)
  | failure k call id r term hk hp hr ht call' hc => exact Or.inl (hrole (RaftNode.retreat_role _ _))
  | chunkReply k call t id r hk hp call' hc => exact Or.inl (hrole (Transfer.reply_role t s.node call.i r))
  | receive req r hr => exact Or.inl (h.node.handle hr).2
  | snapshotNow hl => exact Or.inl (hrole (s.node.createSnapshot_role store))
  | restart n store' hr =>
    have hl : s.node.role.Later n.role := by
      rw [(h.node.restart hr).2]
      exact ⟨rfl, rfl, rfl, le_rfl, fun hc => absurd rfl hc⟩
    exact Or.inl hl
  | _ => exact Or.inl (Role.Later.refl _)

/-- The identity of the node of a site stays, and its term does not decrease. -/
theorem Sound.identity (h : s.Sound) (hs : Step size next s store i o) : o.site.node.id = s.node.id ∧
    o.site.node.rpcPort = s.node.rpcPort ∧ o.site.node.peerRpcPorts = s.node.peerRpcPorts ∧
    s.node.currentTerm ≤ o.site.node.currentTerm := by
  rcases h.role_cases hs with hl | ⟨_, hr⟩ | ⟨_, _, hr, _⟩
  · exact ⟨hl.id, hl.rpcPort, hl.peerRpcPorts, hl.term⟩
  · refine ⟨congrArg Role.id hr, congrArg Role.rpcPort hr, congrArg Role.peerRpcPorts hr, ?_⟩
    exact (Int.le_add_one le_rfl).trans_eq (congrArg Role.currentTerm hr).symm
  · exact ⟨congrArg Role.id hr, congrArg Role.rpcPort hr, congrArg Role.peerRpcPorts hr,
      (congrArg Role.currentTerm hr).ge⟩

/-- Every step of a sound site is one of the list, and keeps it sound. -/
theorem Sound.step (h : s.Sound) (hs : s.step size next store i = some o) :
    Step size next s store i o ∧ o.site.Sound :=
  have hi := step_inv h.node.up hs
  ⟨hi, h.of_step hi⟩

/-- A site is sound when it is started for the first time. -/
theorem sound_create (nodeId port : ℤ) (peers : List ℤ) : (Site.create nodeId port peers).Sound where
  node := ⟨rfl, rfl, le_rfl, rfl, rfl, List.prefix_rfl, fun _ => rfl, Or.inr rfl⟩
  state_term h := absurd rfl h
  election _ h := by cases h
  join _ h := by cases h
  heartbeat _ h := by cases h
  client _ h := absurd h List.not_mem_nil

end Site

end RaftStore
