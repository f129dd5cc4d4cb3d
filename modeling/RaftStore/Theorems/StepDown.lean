import RaftStore.StepDown
import RaftStore.Theorems.Replaced

/-!
# A reply with a later term

Every reply with a later term should leave a follower of that term, with its vote free, its heartbeats stopped and its metadata written,
that sends nothing more as leader. Only one of the five copies of the step down sets all the fields: `start_election` and
`handleClientCommand` leave `runningHeartbeats`, and the replies to InstallSnapshot are not looked at for a term. No copy stops a client
command that waits for a reply.
-/

namespace RaftStore

namespace RaftNode

variable {n n' n'' : RaftNode}

/-! ## What only an election raises -/

/-- The node has the same peers and is as far shut down, and it leads and runs heartbeats only if it did. -/
structure Lowers (n n' : RaftNode) : Prop where
  peerRpcPorts : n'.peerRpcPorts = n.peerRpcPorts
  shutdownRequested : n'.shutdownRequested = n.shutdownRequested
  state : n'.state = .leader → n.state = .leader
  runningHeartbeats : n'.runningHeartbeats = true → n.runningHeartbeats = true

theorem Lowers.refl (n : RaftNode) : n.Lowers n := ⟨rfl, rfl, fun h => h, fun h => h⟩

theorem Lowers.trans (h : n.Lowers n') (h' : n'.Lowers n'') : n.Lowers n'' where
  peerRpcPorts := h'.peerRpcPorts.trans h.peerRpcPorts
  shutdownRequested := h'.shutdownRequested.trans h.shutdownRequested
  state hl := h.state (h'.state hl)
  runningHeartbeats hr := h.runningHeartbeats (h'.runningHeartbeats hr)

/-- What keeps the role and the flag of the heartbeats lowers the node. -/
theorem Lowers.of_role (hr : n'.role = n.role) (hb : n'.runningHeartbeats = n.runningHeartbeats) : n.Lowers n' where
  peerRpcPorts := congrArg Role.peerRpcPorts hr
  shutdownRequested := congrArg Role.shutdownRequested hr
  state hl := (congrArg Role.state hr).symm.trans hl
  runningHeartbeats hrun := hb.symm.trans hrun

theorem lowers_becomeFollower (n : RaftNode) (t : ℤ) : n.Lowers (n.becomeFollower t) := by
  unfold becomeFollower
  split
  · exact Lowers.refl n
  · exact ⟨rfl, rfl, nofun, nofun⟩

theorem lowers_followReply (n : RaftNode) (t : ℤ) : n.Lowers (n.followReply t) := ⟨rfl, rfl, nofun, fun h => h⟩

theorem lowers_seeTerm (n : RaftNode) (t : ℤ) : n.Lowers (n.seeTerm t) := by
  unfold seeTerm
  split
  · exact n.lowers_becomeFollower t
  · exact Lowers.refl n

theorem lowers_stepDown (n : RaftNode) (m : AppendEntriesRPC) : n.Lowers (n.stepDown m) := by
  unfold stepDown
  split
  · exact (n.lowers_becomeFollower m.term).trans (Lowers.of_role rfl rfl)
  · exact Lowers.of_role rfl rfl

theorem lowers_acceptEntries (n : RaftNode) (m : AppendEntriesRPC) : n.Lowers (n.acceptEntries m) := by
  obtain ⟨log, heq⟩ := n.acceptEntries_eq m
  rw [heq]
  exact Lowers.of_role rfl rfl

theorem lowers_createSnapshot (n : RaftNode) (store : KVStore) : n.Lowers (n.createSnapshot store).1 := by
  obtain ⟨_, _, _, heq⟩ := n.createSnapshot_shape store
  rw [heq]
  exact Lowers.of_role rfl rfl

theorem lowers_snapshotAtThreshold (n : RaftNode) (store : KVStore) : n.Lowers (n.snapshotAtThreshold store).1 := by
  obtain ⟨_, _, _, _, heq⟩ := n.snapshotAtThreshold_shape store
  rw [heq]
  exact Lowers.of_role rfl rfl

theorem lowers_applyCommitted (n : RaftNode) (store : KVStore) : n.Lowers (n.applyCommitted store).node := by
  rw [applyCommitted_node]
  exact Lowers.of_role rfl rfl

theorem lowers_advanceCommit (n : RaftNode) (store : KVStore) (leaderCommit : ℤ) :
    n.Lowers (n.advanceCommit store leaderCommit).1 := by
  have happly := (n.setCommitIndex (min leaderCommit (n.getLogSize - 1))).lowers_applyCommitted store
  have hset : n.Lowers (n.setCommitIndex (min leaderCommit (n.getLogSize - 1))) := Lowers.of_role rfl rfl
  exact (hset.trans happly).trans (lowers_snapshotAtThreshold _ _)

theorem lowers_commit (n : RaftNode) (store : KVStore) (call : ClientCall) : n.Lowers (Site.commit n store call).1 := by
  have hset : n.Lowers (n.setCommitIndex call.newIndex) := Lowers.of_role rfl rfl
  have happly : n.Lowers (Site.applyWhileUp (n.setCommitIndex call.newIndex) store).node := by
    unfold Site.applyWhileUp
    split
    · exact hset
    · exact hset.trans (lowers_applyCommitted _ store)
  obtain ⟨_, _, _, heq⟩ := Site.commit_shape n store call rfl
  rw [heq]
  exact (happly.trans (lowers_snapshotAtThreshold _ _)).trans (Lowers.of_role rfl rfl)

/-! ## The handlers -/

theorem lowers_handleRequestVote (n : RaftNode) (store : KVStore) (m : RequestVoteRPC) :
    n.Lowers (n.handleRequestVote store m).node := by
  unfold handleRequestVote
  split
  · exact Lowers.refl n
  · simp only
    split
    · have hvote : (n.seeTerm m.term).Lowers { n.seeTerm m.term with votedFor := m.candidateId }.persistMetadata := by
        exact ⟨rfl, rfl, fun h => h, fun h => h⟩
      exact (n.lowers_seeTerm m.term).trans hvote
    · exact n.lowers_seeTerm m.term

theorem lowers_handleAppendEntries (n : RaftNode) (store : KVStore) (m : AppendEntriesRPC) :
    n.Lowers (n.handleAppendEntries store m).node := by
  have haccept := (n.lowers_stepDown m).trans (lowers_acceptEntries _ m)
  rcases n.handleAppendEntries_node store m with heq | ⟨_, heq | heq⟩
  · rw [heq]
    exact Lowers.refl n
  · rw [heq]
    exact haccept
  · rw [heq]
    exact haccept.trans (lowers_advanceCommit _ store _)

theorem lowers_handleInstallSnapshot {store : KVStore} {m : InstallSnapshotRPC} {h : Handled}
    (hh : n.handleInstallSnapshot store m = some h) : n.Lowers h.node := by
  rcases handleInstallSnapshot_node hh with heq | ⟨_, b, heq⟩
  · rw [heq]
    exact Lowers.refl n
  · have hbuffer : n.Lowers ((n.seeTerm m.term).setBuffer b) :=
      (n.lowers_seeTerm m.term).trans (Lowers.of_role (setBuffer_role _ b) rfl)
    rcases heq with heq | heq | ⟨_, snap, _, _, _, heq⟩
    · rw [heq]
      exact hbuffer
    · rw [heq]
      exact hbuffer.trans (Lowers.of_role (emptySnapshotFile_role _) rfl)
    · rw [heq]
      exact hbuffer.trans (Lowers.of_role (installSnapshot_role _ store _) rfl)

/-- No handler makes the node a leader or starts heartbeats. -/
theorem lowers_handle {store : KVStore} {req : Request} {h : Handled} (hh : n.handle store req = some h) : n.Lowers h.node := by
  cases req with
  | requestVote m =>
    obtain rfl := Option.some.inj hh
    exact n.lowers_handleRequestVote store m
  | appendEntries m =>
    obtain rfl := Option.some.inj hh
    exact n.lowers_handleAppendEntries store m
  | installSnapshot m => exact lowers_handleInstallSnapshot hh

end RaftNode

/-! ## A node with nothing to send stays so -/

/-- Whether a thread has something to send is a matter of the peers and of the shutdown. -/
theorem Heartbeat.silent_congr {n n' : RaftNode} (hp : n'.peerRpcPorts = n.peerRpcPorts) (hb : Heartbeat) :
    hb.Silent n' ↔ hb.Silent n := by
  unfold Heartbeat.Silent
  rw [hp]

theorem ClientCall.silent_congr {n n' : RaftNode} (hp : n'.peerRpcPorts = n.peerRpcPorts)
    (hs : n'.shutdownRequested = n.shutdownRequested) (call : ClientCall) : call.Silent n' ↔ call.Silent n := by
  unfold ClientCall.Silent
  rw [hp, hs]

theorem Heartbeat.Silent.lowers {n n' : RaftNode} {hb : Heartbeat} (h : hb.Silent n) (hl : n.Lowers n') : hb.Silent n' :=
  (hb.silent_congr hl.peerRpcPorts).mpr h

theorem ClientCall.Silent.lowers {n n' : RaftNode} {call : ClientCall} (h : call.Silent n) (hl : n.Lowers n') : call.Silent n' :=
  (call.silent_congr hl.peerRpcPorts hl.shutdownRequested).mpr h

/-- The node does not lead, its heartbeat thread is at the loop condition or has nothing to send once it is told to stop, and its client
commands have nothing to send. -/
structure Site.Calm (s : Site) : Prop where
  state : s.node.state ≠ .leader
  heartbeat : ∀ hb ∈ s.heartbeat, hb.phase = .top ∨ s.node.runningHeartbeats = false ∧ hb.Silent s.node
  clients : ∀ call ∈ s.clients, call.Silent s.node

/-- A step that leaves this sends nothing as leader, and its site is calm unless it makes the node a leader. -/
structure Outcome.Calm (o : Outcome) : Prop where
  send : ∀ m ∈ o.send, m.req.fromLeader = false
  site : o.site.node.state ≠ .leader → o.site.Calm

/-- A step that sends nothing. -/
theorem Outcome.Calm.of_site {o : Outcome} (hsend : o.send = none) (h : o.site.node.state ≠ .leader → o.site.Calm) : o.Calm where
  send m hm := by
    rw [hsend] at hm
    cases hm
  site := h

theorem Outcome.calm_local {s : Site} {store : KVStore} (h : s.Calm) : (Outcome.local s store).Calm :=
  .of_site rfl fun _ => h

/-- Without threads a node that does not lead has nothing to send. -/
theorem Site.calm_of_idle {s : Site} (hl : s.node.state ≠ .leader) (hh : s.heartbeat = none) (hc : s.clients = []) : s.Calm where
  state := hl
  heartbeat hb hhb := by
    rw [hh] at hhb
    cases hhb
  clients call hcall := by
    rw [hc] at hcall
    cases hcall

namespace Site

variable {size next k : ℕ} {s : Site} {n : RaftNode} {store : KVStore} {o : Outcome} {r : Option Reply}

theorem Calm.not_leader (h : s.Calm) (hn : s.node.Lowers n) : n.state ≠ .leader := fun hl => h.state (hn.state hl)

/-- A node that is lowered stays calm with its threads. -/
theorem Calm.lowers (h : s.Calm) (hn : s.node.Lowers n) (election : Option Election) :
    Calm { s with node := n, election := election } where
  state := h.not_leader hn
  heartbeat hb hhb := by
    refine (h.heartbeat hb hhb).imp_right fun ⟨hrun, hsilent⟩ => ⟨?_, hsilent.lowers hn⟩
    exact Bool.eq_false_iff.mpr fun hr => Bool.eq_false_iff.mp hrun (hn.runningHeartbeats hr)
  clients call hcall := (h.clients call hcall).lowers hn

/-- So it does without its heartbeat thread, or with one that has nothing to send. -/
theorem Calm.setHeartbeat (h : s.Calm) {heartbeat : Option Heartbeat}
    (hb : ∀ hb ∈ heartbeat, hb.phase = .top ∨ s.node.runningHeartbeats = false ∧ hb.Silent s.node) :
    Calm { s with heartbeat := heartbeat } := ⟨h.state, hb, h.clients⟩

theorem Calm.heartbeatAt (h : s.Calm) (hb : Heartbeat) {phase : HeartbeatPhase}
    (hp : phase = .top ∨ s.node.runningHeartbeats = false ∧ Heartbeat.Silent s.node { hb with phase := phase }) :
    (s.heartbeatAt hb phase).Calm := by
  refine h.setHeartbeat fun hb' heq => ?_
  obtain rfl := Option.some.inj heq
  exact hp

/-- A client command that goes on to where it has nothing to send. -/
theorem Calm.clientAt (h : s.Calm) (k : ℕ) {call : ClientCall} (hc : call.Silent s.node) : (s.clientAt k call).Calm := by
  refine ⟨h.state, h.heartbeat, fun c hmem => ?_⟩
  rcases List.mem_or_eq_of_mem_set hmem with hmem | rfl
  · exact h.clients c hmem
  · exact hc

/-! ### The steps of the threads -/

theorem Calm.startElection (h : s.Calm) (hs : s.startElection store = some o) : o.Calm := by
  unfold Site.startElection at hs
  split at hs
  · cases hs
  · obtain rfl := Option.some.inj hs
    have hn : s.node.Lowers { s.node with
        state := .candidate, currentTerm := s.node.currentTerm + 1, votedFor := s.node.id }.persistMetadata :=
      ⟨rfl, rfl, nofun, fun hr => hr⟩
    exact .of_site rfl fun _ => h.lowers hn _

/-- The end of the wait for an earlier heartbeat thread starts one that finds the node no leader. -/
theorem Calm.startHeartbeats (h : s.Calm) (hnone : s.heartbeat = none) :
    (s.startHeartbeats { s.node with runningHeartbeats := true }).Calm := by
  refine ⟨h.state, fun hb hhb => .inl ?_, h.clients⟩
  unfold Site.startHeartbeats at hhb
  simp only at hhb
  split at hhb
  · rw [hnone] at hhb
    cases hhb
  · obtain rfl := Option.some.inj hhb
    rfl

theorem Calm.electionStep (h : s.Calm) (hs : s.electionStep size next store = some o) : o.Calm := by
  have hsame (election : Option Election) : Calm { s with election := election } := h.lowers (.refl _) election
  unfold Site.electionStep at hs
  split at hs
  · cases hs
  · next el hel =>
    split at hs
    · cases hs
    · split at hs
      · cases hs
      · next hnone =>
        obtain rfl := Option.some.inj hs
        exact Outcome.calm_local (h.startHeartbeats (Option.not_isSome_iff_eq_none.mp hnone))
    · split at hs
      · obtain rfl := Option.some.inj hs
        exact Outcome.calm_local (hsame none)
      · split at hs
        · obtain rfl := Option.some.inj hs
          refine ⟨fun m hm => ?_, fun _ => hsame _⟩
          obtain rfl := Option.some.inj hm
          rfl
        · split at hs
          · obtain rfl := Option.some.inj hs
            -- the win makes the node a leader
            refine .of_site rfl fun hl => absurd ?_ hl
            simp only
            split <;> rfl
          · obtain rfl := Option.some.inj hs
            exact Outcome.calm_local (hsame none)

theorem Calm.electionReply (h : s.Calm) (hs : s.electionReply store r = some o) : o.Calm := by
  have hsame (election : Option Election) : Calm { s with election := election } := h.lowers (.refl _) election
  unfold Site.electionReply at hs
  split at hs
  · cases hs
  · split at hs
    · split at hs
      · obtain rfl := Option.some.inj hs
        exact Outcome.calm_local (hsame none)
      · simp only at hs
        split at hs
        · obtain rfl := Option.some.inj hs
          exact Outcome.calm_local (hsame _)
        · split at hs
          · obtain rfl := Option.some.inj hs
            exact Outcome.calm_local (h.lowers (s.node.lowers_followReply _) none)
          · obtain rfl := Option.some.inj hs
            exact Outcome.calm_local (hsame _)
    · cases hs

/-- The heartbeat thread ends, or goes to the loop condition: in a transfer it has no peer to send to. -/
theorem Calm.heartbeatStep (h : s.Calm) (hs : s.heartbeatStep next store = some o) : o.Calm := by
  have hend : Calm { s with heartbeat := none } := h.setHeartbeat nofun
  unfold Site.heartbeatStep at hs
  split at hs
  · cases hs
  · next hb hhb =>
    have hcalm := h.heartbeat hb hhb
    split at hs
    · rw [if_neg fun hc => h.state hc.2.1] at hs
      obtain rfl := Option.some.inj hs
      exact Outcome.calm_local hend
    · next i hp =>
      have hrun := (hcalm.resolve_left (by rw [hp]; nofun)).1
      split at hs
      · obtain rfl := Option.some.inj hs
        exact Outcome.calm_local hend
      · rw [if_pos (by simp [hrun])] at hs
        obtain rfl := Option.some.inj hs
        exact Outcome.calm_local (h.heartbeatAt hb (.inl rfl))
    · next i t hp =>
      have hsilent := (hcalm.resolve_left (by rw [hp]; nofun)).2
      simp only [Heartbeat.Silent, hp] at hsilent
      rw [List.getElem?_eq_none hsilent] at hs
      cases hs
    · cases hs

theorem Calm.heartbeatReply (h : s.Calm) (hs : s.heartbeatReply store r = some o) : o.Calm := by
  unfold Site.heartbeatReply at hs
  split at hs
  · cases hs
  · next hb hhb =>
    have hcalm := h.heartbeat hb hhb
    split at hs
    · next i nextIdx count call hp =>
      have hrun := (hcalm.resolve_left (by rw [hp]; nofun)).1
      split at hs
      · obtain rfl := Option.some.inj hs
        exact Outcome.calm_local (h.setHeartbeat nofun)
      · rw [if_pos (by simp [hrun])] at hs
        obtain rfl := Option.some.inj hs
        exact Outcome.calm_local (h.heartbeatAt hb (.inl rfl))
    · next i t call hp =>
      obtain ⟨hrun, hsilent⟩ := hcalm.resolve_left (by rw [hp]; nofun)
      simp only [Heartbeat.Silent, hp] at hsilent
      obtain ⟨next, matched, heq⟩ := t.reply_shape s.node i r
      have hn : s.node.Lowers (t.reply s.node i r).1 := by
        rw [heq]
        exact .of_role rfl rfl
      have hrun' : (t.reply s.node i r).1.runningHeartbeats = false := by
        rw [heq]
        exact hrun
      have hmore {t' : Transfer} (ht' : (t.reply s.node i r).2 = some t') := (Transfer.reply_rest ht').1
      generalize t.reply s.node i r = c at hs hn hrun' hmore
      obtain ⟨n, t'⟩ := c
      obtain rfl := Option.some.inj hs
      refine Outcome.calm_local ((h.lowers hn s.election).heartbeatAt hb (.inr ⟨hrun', ?_⟩))
      cases t' with
      | none => trivial
      | some t' =>
        -- the transfer goes on only to a peer that there is not
        have hlt := hmore rfl
        show n.peerRpcPorts.length ≤ i
        rw [hn.peerRpcPorts]
        exact hsilent.resolve_right (by omega)
    · cases hs

theorem Calm.clientRequest (h : s.Calm) (req : ClientRequest) : (s.clientRequest store req).Calm := by
  unfold Site.clientRequest
  rw [if_pos (Or.inr h.state)]
  exact Outcome.calm_local h

/-- A client command returns, or commits and returns: it has no peer to send to. -/
theorem Calm.clientStep (h : s.Calm) (hs : s.clientStep next k store = some o) : o.Calm := by
  unfold Site.clientStep at hs
  split at hs
  · cases hs
  · next call hk =>
    have hsilent := h.clients call (List.mem_of_getElem? hk)
    split at hs
    · next hp =>
      simp only [ClientCall.Silent, hp] at hsilent
      split at hs
      · obtain rfl := Option.some.inj hs
        exact Outcome.calm_local (h.clientAt k trivial)
      · next hup =>
        rw [List.getElem?_eq_none (hsilent.resolve_left hup)] at hs
        simp only at hs
        split at hs
        · have hn := s.node.lowers_commit store call
          generalize Site.commit s.node store call = c at hs hn
          obtain ⟨n, store', applyResult, events⟩ := c
          obtain rfl := Option.some.inj hs
          exact .of_site rfl fun _ => (h.lowers hn s.election).clientAt k trivial
        · obtain rfl := Option.some.inj hs
          exact Outcome.calm_local (h.clientAt k trivial)
    · next t hp =>
      simp only [ClientCall.Silent, hp] at hsilent
      rw [List.getElem?_eq_none hsilent] at hs
      cases hs
    · cases hs

theorem Calm.clientReply (h : s.Calm) (hs : s.clientReply k store r = some o) : o.Calm := by
  unfold Site.clientReply at hs
  split at hs
  · cases hs
  · next call hk =>
    have hsilent := h.clients call (List.mem_of_getElem? hk)
    have hat {n : RaftNode} (hn : s.node.Lowers n) {c : ClientCall} (hc : c.Silent s.node) :
        ({ s with node := n }.clientAt k c).Calm := (h.lowers hn s.election).clientAt k (hc.lowers hn)
    simp only at hs
    split at hs
    · next id hp =>
      simp only [ClientCall.Silent, hp] at hsilent
      have hnext (c : ClientCall) (hi : c.i = call.i + 1) (hph : c.phase = .ready) : c.Silent s.node := by
        simp only [ClientCall.Silent, hph]
        exact .inr (by omega)
      split at hs
      · obtain rfl := Option.some.inj hs
        exact Outcome.calm_local (h.clientAt k (hnext _ rfl rfl))
      · split at hs
        · obtain rfl := Option.some.inj hs
          exact Outcome.calm_local (hat (s.node.lowers_followReply _) trivial)
        · split at hs
          · obtain rfl := Option.some.inj hs
            have hn : s.node.Lowers (clientAnswered s.node call) := .of_role rfl rfl
            exact Outcome.calm_local (hat hn (hnext (nextPeer { call with successCount := call.successCount + 1 }) rfl rfl))
          · obtain rfl := Option.some.inj hs
            obtain ⟨nextIndex, heq⟩ := s.node.retreat_shape call.i
            have hn : s.node.Lowers (s.node.retreat call.i) := by
              rw [heq]
              exact .of_role rfl rfl
            refine Outcome.calm_local (hat hn ?_)
            split
            · exact hsilent
            · exact hnext _ rfl rfl
    · next t id hp =>
      simp only [ClientCall.Silent, hp] at hsilent
      obtain ⟨nextIndex, matched, heq⟩ := t.reply_shape s.node call.i r
      have hn : s.node.Lowers (t.reply s.node call.i r).1 := by
        rw [heq]
        exact .of_role rfl rfl
      have hmore {t' : Transfer} (ht' : (t.reply s.node call.i r).2 = some t') := (Transfer.reply_rest ht').1
      generalize t.reply s.node call.i r = c at hs hn hmore
      obtain ⟨n, t'⟩ := c
      obtain rfl := Option.some.inj hs
      refine Outcome.calm_local (hat hn ?_)
      cases t' with
      | none => exact hsilent.2
      | some t' =>
        have hlt := hmore rfl
        exact hsilent.1.resolve_right (by omega)
    · cases hs

/-- Every step from a calm site sends nothing as leader, and leaves a calm site or a leader. -/
theorem Calm.step (h : s.Calm) {i : Input} (hs : s.step size next store i = some o) : o.Calm := by
  cases i with
  | startElection => exact h.startElection hs
  | step t =>
    cases t with
    | election => exact h.electionStep hs
    | heartbeat => exact h.heartbeatStep hs
    | client k => exact h.clientStep hs
  | reply t r =>
    cases t with
    | election => exact h.electionReply hs
    | heartbeat => exact h.heartbeatReply hs
    | client k => exact h.clientReply hs
  | receive req =>
    obtain ⟨r, hr, rfl⟩ := Option.map_eq_some_iff.mp hs
    exact .of_site rfl fun _ => h.lowers (RaftNode.lowers_handle hr) s.election
  | clientRequest req =>
    obtain rfl := Option.some.inj hs
    exact h.clientRequest req
  | snapshotNow =>
    obtain ⟨⟨n, store'⟩, hr, rfl⟩ := Option.map_eq_some_iff.mp hs
    obtain rfl := congrArg Prod.fst (RaftNode.triggerSnapshot_eq_some.mp hr).2
    exact Outcome.calm_local (h.lowers (s.node.lowers_createSnapshot store) s.election)
  | restart =>
    obtain ⟨⟨n, store'⟩, hr, rfl⟩ := Option.map_eq_some_iff.mp hs
    exact .of_site rfl fun hl => calm_of_idle hl rfl rfl

/-- A calm site sends nothing as leader until it is elected again. -/
theorem Calm.sendsNothing (h : s.Calm) : s.SendsNothing size store := by
  intro x hx next i o hs
  have hcalm : x.1.Calm := by
    refine hx.invariant (I := fun x => x.1.Calm) (fun x a y hx hstay hy => ?_) h
    obtain ⟨o, ho, rfl⟩ := Option.map_eq_some_iff.mp hy
    exact (hx.step ho).site (hstay _ hy)
  exact (hcalm.step hs).send

/-! ## A thread with something to send may send it -/

/-- A message that the next step sends. -/
theorem speaks_now {i : Input} (hs : s.step size next store i = some o) {m : Send} (hm : o.send = some m)
    (hreq : m.req.fromLeader = true) : ¬s.SendsNothing size store := by
  intro h
  have hsilent := h (s, store) .refl next i o hs m hm
  rw [hreq] at hsilent
  cases hsilent

/-- One that is sent after a step that does not make the node a leader. -/
theorem speaks_later {i : Input} (hs : s.step size next store i = some o) (hl : o.site.node.state ≠ .leader)
    (h : ¬o.site.SendsNothing size o.store) : ¬s.SendsNothing size store := by
  refine fun hsilent => h fun x hx => hsilent x ?_
  have hadvance : advance size (s, store) (next, i) = some (o.site, o.store) := by
    unfold advance
    rw [hs]
    rfl
  refine (Systems.Run.single (a := (next, i)) (fun y hy => ?_) hadvance).trans hx
  obtain rfl := Option.some.inj (hadvance.symm.trans hy)
  exact hl

/-- The chunk that a heartbeat thread is about to send. -/
theorem speaks_heartbeatChunk {hb : Heartbeat} (hhb : s.heartbeat = some hb) {i : ℕ} {t : Transfer} (hp : hb.phase = .chunk i t)
    (hi : i < s.node.peerRpcPorts.length) : ¬s.SendsNothing size store := by
  have hstep : s.step size 0 store (.step .heartbeat) = some
      { site := s.heartbeatAt hb (.chunkReply i t 0)
        store := store
        send := some { port := s.node.peerRpcPorts[i], req := .installSnapshot (t.message s.node) }
        reply := none
        events := [] } := by
    show s.heartbeatStep 0 store = _
    unfold Site.heartbeatStep
    simp only [hhb, hp, List.getElem?_eq_getElem hi]
  exact speaks_now hstep rfl rfl

/-- So may a heartbeat thread that waits for the reply to a chunk, where another follows. -/
theorem speaks_heartbeatChunkReply (hl : s.node.state ≠ .leader) {hb : Heartbeat} (hhb : s.heartbeat = some hb) {i call : ℕ} {t : Transfer}
    (hp : hb.phase = .chunkReply i t call) (hi : i < s.node.peerRpcPorts.length) (hmore : t.chunkNum + 1 < t.chunkCount) :
    ¬s.SendsNothing size store := by
  obtain ⟨nextIndex, matchIndex, heq⟩ := t.reply_shape s.node i (some (.installSnapshot 0 true []))
  have hrest : (t.reply s.node i (some (.installSnapshot 0 true []))).2 = some { t with chunkNum := t.chunkNum + 1 } := by
    simp only [Transfer.reply, Reply.accepted, if_true, if_pos hmore]
  have hstep : s.step size 0 store (.reply .heartbeat (some (.installSnapshot 0 true []))) =
      some (.local ({ s with node := { s.node with nextIndex := nextIndex, matchIndex := matchIndex } }.heartbeatAt hb
        (.chunk i { t with chunkNum := t.chunkNum + 1 })) store) := by
    show s.heartbeatReply store (some (.installSnapshot 0 true [])) = _
    unfold Site.heartbeatReply
    simp only [hhb, hp, heq, hrest]
  exact speaks_later hstep hl (speaks_heartbeatChunk rfl rfl hi)

/-- The heartbeat thread of a node that does not lead speaks if it is not silent. -/
theorem speaks_heartbeat (hl : s.node.state ≠ .leader) {hb : Heartbeat} (hhb : s.heartbeat = some hb) (h : ¬hb.Silent s.node) :
    ¬s.SendsNothing size store := by
  unfold Heartbeat.Silent at h
  split at h
  · next i t hp => exact speaks_heartbeatChunk hhb hp (not_le.mp h)
  · next i t call hp =>
    obtain ⟨hi, hmore⟩ := not_or.mp h
    exact speaks_heartbeatChunkReply hl hhb hp (not_le.mp hi) (not_le.mp hmore)
  · exact absurd trivial h

/-! ### The client commands -/

/-- The chunk that a client command is about to send. -/
theorem speaks_chunk {call : ClientCall} (hk : s.clients[k]? = some call) {t : Transfer} (hp : call.phase = .chunk t)
    (hi : call.i < s.node.peerRpcPorts.length) : ¬s.SendsNothing size store := by
  have hstep : s.step size 0 store (.step (.client k)) = some
      { site := s.clientAt k { call with phase := .chunkReply t 0 }
        store := store
        send := some { port := s.node.peerRpcPorts[call.i], req := .installSnapshot (t.message s.node) }
        reply := none
        events := [] } := by
    show s.clientStep 0 k store = _
    unfold Site.clientStep
    simp only [hk, hp, List.getElem?_eq_getElem hi]
  exact speaks_now hstep rfl rfl

/-- The message to the next peer. -/
theorem speaks_ready {call : ClientCall} (hk : s.clients[k]? = some call) (hp : call.phase = .ready)
    (hup : s.node.shutdownRequested ≠ true) (hi : call.i < s.node.peerRpcPorts.length) : ¬s.SendsNothing size store := by
  have hstep : s.step size 0 store (.step (.client k)) = some
      { site := s.clientAt k { call with phase := .append 0 }
        store := store
        send := some
          { port := s.node.peerRpcPorts[call.i]
            req := .appendEntries (s.node.appendRequest (s.node.nextIndex.getD call.i 0)
              (s.node.getLogEntries (s.node.nextIndex.getD call.i 0) (call.newIndex + 1))) }
        reply := none
        events := [] } := by
    show s.clientStep 0 k store = _
    unfold Site.clientStep
    simp only [hk, hp, if_neg hup, List.getElem?_eq_getElem hi]
  exact speaks_now hstep rfl rfl

/-- The reply to a chunk may be lost, and the client command goes on to the next peer, or accepted, and the next chunk follows. -/
theorem speaks_chunkReply (hl : s.node.state ≠ .leader) {call : ClientCall} (hk : s.clients[k]? = some call) {t : Transfer} {id : ℕ}
    (hp : call.phase = .chunkReply t id) (h : ¬call.Silent s.node) : ¬s.SendsNothing size store := by
  simp only [ClientCall.Silent, hp, not_and_or, not_or, not_le] at h
  rcases h with ⟨hi, hmore⟩ | ⟨hup, hi⟩
  · obtain ⟨nextIndex, matchIndex, heq⟩ := t.reply_shape s.node call.i (some (.installSnapshot 0 true []))
    have hrest : (t.reply s.node call.i (some (.installSnapshot 0 true []))).2 = some { t with chunkNum := t.chunkNum + 1 } := by
      simp only [Transfer.reply, Reply.accepted, if_true, if_pos hmore]
    have hstep : s.step size 0 store (.reply (.client k) (some (.installSnapshot 0 true []))) =
        some (.local ({ s with node := { s.node with nextIndex := nextIndex, matchIndex := matchIndex } }.clientAt k
          { call with phase := .chunk { t with chunkNum := t.chunkNum + 1 } }) store) := by
      show s.clientReply k store (some (.installSnapshot 0 true [])) = _
      unfold Site.clientReply
      simp only [hk, hp, heq, hrest]
    exact speaks_later hstep hl (speaks_chunk (clientAt_getElem? hk _) rfl hi)
  · have hstep : s.step size 0 store (.reply (.client k) none) = some (.local (s.clientAt k (nextPeer call)) store) := by
      show s.clientReply k store none = _
      unfold Site.clientReply
      simp only [hk, hp]
      rfl
    exact speaks_later hstep hl (speaks_ready (clientAt_getElem? hk _) rfl hup hi)

/-! ### A client command that waits for a reply to AppendEntries -/

/-- A snapshot of the last index that an `int` can name. -/
def lastSnapshot : Snapshot where
  lastIncludedIndex := 2 ^ 31 - 1
  lastIncludedTerm := 0
  kvState := ∅
  covered := []

theorem lastSnapshot_completes (n : RaftNode) : n.Completes ((Transfer.start lastSnapshot).message n) lastSnapshot :=
  RaftNode.completes_of_follows (t := Transfer.start lastSnapshot) (by decide) (by decide) rfl (by decide) (.inl rfl) le_rfl

/-- A retreat leaves what the peer is sent next where it is or lower. -/
theorem retreat_getD_le (n : RaftNode) (i : ℕ) : (n.retreat i).nextIndex.getD i 0 ≤ n.nextIndex.getD i 0 := by
  unfold RaftNode.retreat
  split
  · by_cases hi : i < n.nextIndex.length
    · rw [List.getD_eq_getElem?_getD, List.getElem?_set_self hi]
      simp
    · rw [List.set_eq_of_length_le (not_lt.mp hi)]
  · exact le_rfl

/-- A reply that refuses the entries makes the client command send the snapshot, where it reaches what the peer is sent next. -/
theorem speaks_refused (hl : s.node.state ≠ .leader) {call : ClientCall} (hk : s.clients[k]? = some call) {id : ℕ}
    (hp : call.phase = .append id) (hi : call.i < s.node.peerRpcPorts.length) {snapshot : Snapshot}
    (hs : s.node.latestSnapshot = some snapshot) (hle : s.node.nextIndex.getD call.i 0 ≤ snapshot.lastIncludedIndex) :
    ¬s.SendsNothing size store := by
  obtain ⟨nextIndex, heq⟩ := s.node.retreat_shape call.i
  have hneeded : (s.node.retreat call.i).neededSnapshot call.i = some snapshot := by
    have hsame : (s.node.retreat call.i).latestSnapshot = some snapshot := by rw [heq, hs]
    unfold RaftNode.neededSnapshot
    rw [hsame]
    simpa using (retreat_getD_le s.node call.i).trans hle
  have hstep : s.step size 0 store (.reply (.client k) (some (.appendEntries s.node.currentTerm false))) =
      some (.local ({ s with node := s.node.retreat call.i }.clientAt k { call with phase := .chunk (Transfer.start snapshot) }) store) := by
    show s.clientReply k store (some (.appendEntries s.node.currentTerm false)) = _
    unfold Site.clientReply
    simp only [hk, hp, Option.bind_some, Reply.appendEntriesResponse, lt_irrefl, if_false, Bool.false_eq_true, hneeded]
  have hl' : (s.node.retreat call.i).state ≠ .leader := by
    rw [heq]
    exact hl
  have hi' : call.i < (s.node.retreat call.i).peerRpcPorts.length := by
    rw [heq]
    exact hi
  exact speaks_later hstep hl' (speaks_chunk (clientAt_getElem? (s := { s with node := s.node.retreat call.i }) hk _) rfl hi')

/-- A client command that waits for the reply to AppendEntries may still have a snapshot to send: one may come from the leader of the term,
and the entries be refused then. -/
theorem speaks_append (hl : s.node.state ≠ .leader) (hint : ∀ i ∈ s.node.nextIndex, i < 2 ^ 31) {call : ClientCall}
    (hk : s.clients[k]? = some call) {id : ℕ} (hp : call.phase = .append id) (hi : call.i < s.node.peerRpcPorts.length) :
    ¬s.SendsNothing size store := by
  obtain ⟨h, hh, hinstalled⟩ := (lastSnapshot_completes s.node).handled store
  have hlow := RaftNode.lowers_handleInstallSnapshot hh
  obtain ⟨_, _, _, _, _, snapshot, hsame, _, _, _, heq⟩ := hinstalled.node
  have hstep : s.step size 0 store (.receive (.installSnapshot ((Transfer.start lastSnapshot).message s.node))) =
      some { site := { s with node := h.node }, store := h.store, send := none, reply := some h.reply, events := h.events } := by
    show (s.node.handleInstallSnapshot store _).map _ = _
    rw [hh]
    rfl
  have hlt : s.node.nextIndex.getD call.i 0 < 2 ^ 31 := by
    rw [List.getD_eq_getElem?_getD]
    cases hget : s.node.nextIndex[call.i]? with
    | none => decide
    | some i => exact hint i (List.mem_of_getElem? hget)
  have hindex : snapshot.lastIncludedIndex = 2 ^ 31 - 1 := hsame.index
  have hl' : h.node.state ≠ .leader := fun hlead => hl (hlow.state hlead)
  have hi' : call.i < h.node.peerRpcPorts.length := by
    rw [hlow.peerRpcPorts]
    exact hi
  have hsnapshot : h.node.latestSnapshot = some snapshot := by rw [heq]
  have hle : h.node.nextIndex.getD call.i 0 ≤ snapshot.lastIncludedIndex := by
    rw [hindex, heq]
    show s.node.nextIndex.getD call.i 0 ≤ _
    omega
  exact speaks_later hstep hl' (speaks_refused (s := { s with node := h.node }) hl' hk hp hi' hsnapshot hle)

/-- A client command of a node that does not lead speaks if it is not silent. -/
theorem speaks_client (hl : s.node.state ≠ .leader) (hint : ∀ i ∈ s.node.nextIndex, i < 2 ^ 31) {call : ClientCall}
    (hk : s.clients[k]? = some call) (h : ¬call.Silent s.node) : ¬s.SendsNothing size store := by
  cases hp : call.phase with
  | ready =>
    simp only [ClientCall.Silent, hp, not_or, not_le] at h
    exact speaks_ready hk hp h.1 h.2
  | append id =>
    simp only [ClientCall.Silent, hp, not_le] at h
    exact speaks_append hl hint hk hp h
  | chunk t =>
    simp only [ClientCall.Silent, hp, not_le] at h
    exact speaks_chunk hk hp h
  | chunkReply t id => exact speaks_chunkReply hl hk hp h
  | done result => exact absurd (by simp only [ClientCall.Silent, hp]) h

/-- A node that does not lead and whose heartbeats are stopped sends nothing more as leader if and only if none of its threads has anything
to send. -/
theorem sendsNothing_iff (hl : s.node.state ≠ .leader) (hrun : s.node.runningHeartbeats = false)
    (hint : ∀ i ∈ s.node.nextIndex, i < 2 ^ 31) :
    s.SendsNothing size store ↔ s.HeartbeatSilent ∧ s.ClientsSilent fun _ => True := by
  constructor
  · intro h
    refine ⟨fun hb hhb => ?_, fun k _ call hk => ?_⟩
    · by_contra hspeaks
      exact speaks_heartbeat hl hhb hspeaks h
    · by_contra hspeaks
      exact speaks_client hl hint hk hspeaks h
  · rintro ⟨hheartbeat, hclients⟩
    refine Calm.sendsNothing ⟨hl, fun hb hhb => .inr ⟨hrun, hheartbeat hb hhb⟩, fun call hcall => ?_⟩
    obtain ⟨k, hk⟩ := List.getElem?_of_mem hcall
    exact hclients k trivial call hk

/-! ## The five paths -/

variable {term : ℤ} {reply : Reply}

/-- A node that has followed the term of a reply has stepped down if and only if its heartbeats are stopped and none of its threads has anything
to send. -/
theorem followed_iff (hnode : s.node = n.followReply term) (hint : ∀ i ∈ n.nextIndex, i < 2 ^ 31) :
    s.SteppedDown size term store ↔
      n.runningHeartbeats = false ∧ s.HeartbeatSilent ∧ s.ClientsSilent fun _ => True := by
  have hstate : s.node.state = .follower := by rw [hnode]; rfl
  have hrun : s.node.runningHeartbeats = n.runningHeartbeats := by rw [hnode]; rfl
  have hnext : s.node.nextIndex = n.nextIndex := by rw [hnode]; rfl
  have hl : s.node.state ≠ .leader := by
    rw [hstate]
    nofun
  have hsilent (hr : n.runningHeartbeats = false) :
      s.SendsNothing size store ↔ s.HeartbeatSilent ∧ s.ClientsSilent fun _ => True :=
    sendsNothing_iff hl (hrun.trans hr) (hnext ▸ hint)
  constructor
  · intro h
    have hr := hrun.symm.trans h.runningHeartbeats
    exact ⟨hr, (hsilent hr).mp h.silent⟩
  · rintro ⟨hr, hthreads⟩
    refine ⟨hstate, ?_, ?_, hrun.trans hr, ?_, (hsilent hr).mpr hthreads⟩
    · rw [hnode]
      rfl
    · rw [hnode]
      rfl
    · rw [hnode]
      exact ⟨_, rfl, rfl, rfl⟩

/-- A node whose term is not the one of the reply has not stepped down. -/
theorem not_steppedDown (h : s.node.currentTerm < term) : ¬s.SteppedDown size term store := fun hd => h.ne hd.currentTerm

theorem requestVoteResponse_of_term (h : reply.term = some term) : ∃ granted, reply.requestVoteResponse = some (term, granted) := by
  cases reply <;> simp_all [Reply.term, Reply.requestVoteResponse]

theorem appendEntriesResponse_of_term (h : reply.term = some term) : ∃ success, reply.appendEntriesResponse = some (term, success) := by
  cases reply <;> simp_all [Reply.term, Reply.appendEntriesResponse]

/-- The reply to a request for a vote. -/
theorem electionReply_iff (hint : ∀ i ∈ s.node.nextIndex, i < 2 ^ 31) (hterm : reply.term = some term)
    (hlt : s.node.currentTerm < term) (hs : s.electionReply store (some reply) = some o) :
    o.site.SteppedDown size term o.store ↔ s.HeedsTerm .election := by
  obtain ⟨granted, hresponse⟩ := requestVoteResponse_of_term hterm
  unfold Site.electionReply at hs
  split at hs
  · cases hs
  · split at hs
    · split at hs
      · next hdown =>
        obtain rfl := Option.some.inj hs
        exact iff_of_false (not_steppedDown hlt) fun h => by simp [h.1] at hdown
      · next hup =>
        simp only [Option.bind_some, hresponse, if_pos hlt] at hs
        obtain rfl := Option.some.inj hs
        have hsilent : HeartbeatSilent { s with node := s.node.followReply term, election := none } ↔ s.HeartbeatSilent :=
          forall₂_congr fun hb _ => hb.silent_congr rfl
        have hclients : ClientsSilent { s with node := s.node.followReply term, election := none } (fun _ => True) ↔
            s.ClientsSilent fun _ => True :=
          forall₂_congr fun k _ => forall₂_congr fun call _ => call.silent_congr rfl rfl
        refine (followed_iff rfl hint).trans ⟨fun h => ?_, fun h => ?_⟩
        · exact ⟨Bool.eq_false_iff.mpr hup, h.1, hsilent.mp h.2.1, hclients.mp h.2.2⟩
        · exact ⟨h.2.1, hsilent.mpr h.2.2.1, hclients.mpr h.2.2.2⟩
    · cases hs

/-- The replies in `send_heartbeats`. -/
theorem heartbeatReply_iff (hint : ∀ i ∈ s.node.nextIndex, i < 2 ^ 31) (hterm : reply.term = some term)
    (hlt : s.node.currentTerm < term) (hs : s.heartbeatReply store (some reply) = some o) :
    o.site.SteppedDown size term o.store ↔ s.HeedsTerm .heartbeat := by
  obtain ⟨success, hresponse⟩ := appendEntriesResponse_of_term hterm
  unfold Site.heartbeatReply at hs
  split at hs
  · cases hs
  · next hb hhb =>
    split at hs
    · next i nextIdx count call hp =>
      split at hs
      · next hdown =>
        obtain rfl := Option.some.inj hs
        exact iff_of_false (not_steppedDown hlt) fun h => by simp [h.2.1] at hdown
      · next hup =>
        split at hs
        · next hstopped =>
          obtain rfl := Option.some.inj hs
          exact iff_of_false (not_steppedDown hlt) fun h => hstopped h.2.2.1
        · next hrun =>
          simp only [Option.bind_some, hresponse, if_pos hlt] at hs
          obtain rfl := Option.some.inj hs
          have hclients : ClientsSilent
              { s with node := { s.node with runningHeartbeats := false }.followReply term, heartbeat := none } (fun _ => True) ↔
                s.ClientsSilent fun _ => True :=
            forall₂_congr fun k _ => forall₂_congr fun call _ => call.silent_congr rfl rfl
          refine (followed_iff (n := { s.node with runningHeartbeats := false }) rfl hint).trans ⟨fun h => ?_, fun h => ?_⟩
          · exact ⟨⟨hb, hhb, i, nextIdx, count, call, hp⟩, Bool.eq_false_iff.mpr hup, not_not.mp hrun, hclients.mp h.2.2⟩
          · exact ⟨rfl, nofun, hclients.mpr h.2.2.2⟩
    · next i t call hp =>
      obtain ⟨next, matched, heq⟩ := t.reply_shape s.node i (some reply)
      refine iff_of_false (not_steppedDown ?_) ?_
      · obtain rfl := Option.some.inj hs
        show (t.reply s.node i (some reply)).1.currentTerm < term
        rw [heq]
        exact hlt
      · rintro ⟨⟨hb', hhb', i', nextIdx, count, call', hp'⟩, _⟩
        obtain rfl := Option.some.inj (hhb.symm.trans hhb')
        rw [hp] at hp'
        cases hp'
    · cases hs

/-- The replies in `handleClientCommand`. -/
theorem clientReply_iff (hint : ∀ i ∈ s.node.nextIndex, i < 2 ^ 31) (hterm : reply.term = some term)
    (hlt : s.node.currentTerm < term) (hs : s.clientReply k store (some reply) = some o) :
    o.site.SteppedDown size term o.store ↔ s.HeedsTerm (.client k) := by
  obtain ⟨success, hresponse⟩ := appendEntriesResponse_of_term hterm
  unfold Site.clientReply at hs
  split at hs
  · cases hs
  · next call hk =>
    simp only at hs
    split at hs
    · next id hp =>
      simp only [Option.bind_some, hresponse, if_pos hlt] at hs
      obtain rfl := Option.some.inj hs
      have hsilent : HeartbeatSilent ({ s with node := s.node.followReply term }.clientAt k
          { call with phase := .done (ascii "leader step down") }) ↔ s.HeartbeatSilent :=
        forall₂_congr fun hb _ => hb.silent_congr rfl
      refine (followed_iff rfl hint).trans ⟨fun h => ?_, fun h => ?_⟩
      · refine ⟨⟨call, hk, id, hp⟩, h.1, hsilent.mp h.2.1, fun j hj c hc => ?_⟩
        refine (c.silent_congr rfl rfl).mp (h.2.2 j trivial c ?_)
        exact (List.getElem?_set_ne (Ne.symm hj)).trans hc
      · refine ⟨h.2.1, hsilent.mpr h.2.2.1, fun j _ c hc => ?_⟩
        by_cases hj : j = k
        · subst hj
          obtain rfl := Option.some.inj ((clientAt_getElem? (s := { s with node := s.node.followReply term }) hk _).symm.trans hc)
          trivial
        · exact (c.silent_congr rfl rfl).mpr (h.2.2.2 j hj c ((List.getElem?_set_ne (Ne.symm hj)).symm.trans hc))
    · next t id hp =>
      obtain ⟨next, matched, heq⟩ := t.reply_shape s.node call.i (some reply)
      refine iff_of_false (not_steppedDown ?_) ?_
      · obtain rfl := Option.some.inj hs
        show (t.reply s.node call.i (some reply)).1.currentTerm < term
        rw [heq]
        exact hlt
      · rintro ⟨⟨call', hk', id', hp'⟩, _⟩
        obtain rfl := Option.some.inj (hk.symm.trans hk')
        rw [hp] at hp'
        cases hp'
    · cases hs

/-- For every node, and every reply with a later term that one of its threads gets: the node is then a follower of that term with its vote free,
its heartbeats stopped and its metadata written, and sends nothing more as leader, if and only if the path heeds the term and no other thread
is about to send. -/
theorem steppedDown_iff {t : Thread} (hint : ∀ i ∈ s.node.nextIndex, i < 2 ^ 31) (hterm : reply.term = some term)
    (hlt : s.node.currentTerm < term) (hs : s.step size next store (.reply t (some reply)) = some o) :
    o.site.SteppedDown size term o.store ↔ s.HeedsTerm t := by
  cases t with
  | election => exact electionReply_iff hint hterm hlt hs
  | heartbeat => exact heartbeatReply_iff hint hterm hlt hs
  | client k => exact clientReply_iff hint hterm hlt hs

/-- A leader of term 1 with one peer, whose heartbeat thread is here. It has a snapshot of the entry at index 0. -/
def termOneAt (phase : HeartbeatPhase) : Site where
  node := { RaftNode.create 0 5000 [5001] { metadata := none, snapshotFile := .saved RaftNode.oneEntry } with
    state := .leader
    currentTerm := 1
    votedFor := 0
    runningHeartbeats := true
    latestSnapshot := some RaftNode.oneEntry }
  election := none
  heartbeat := some { phase := phase, term := 1 }
  clients := []

/-- Its heartbeat thread waits for the reply to AppendEntries: it steps down. -/
theorem steppedDown_heartbeat : ∃ o,
    (termOneAt (.append 0 1 0 7)).step 2 8 KVStore.empty (.reply .heartbeat (some (.appendEntries 2 false))) = some o ∧
      o.site.SteppedDown 2 2 o.store := by
  have hheeds : (termOneAt (.append 0 1 0 7)).HeedsTerm .heartbeat :=
    ⟨⟨_, rfl, 0, 1, 0, 7, rfl⟩, rfl, rfl, fun _ _ _ hc => by cases hc⟩
  have hint : ∀ i ∈ (termOneAt (.append 0 1 0 7)).node.nextIndex, i < 2 ^ 31 := by decide
  have hlt : (termOneAt (.append 0 1 0 7)).node.currentTerm < 2 := by decide
  have hterm : (Reply.appendEntries 2 false).term = some 2 := rfl
  obtain ⟨o, hs⟩ : ∃ o, (termOneAt (.append 0 1 0 7)).step 2 8 .empty (.reply .heartbeat (some (.appendEntries 2 false))) = some o :=
    ⟨_, rfl⟩
  exact ⟨o, hs, (steppedDown_iff hint hterm hlt hs).mpr hheeds⟩

/-- It waits for the reply to the only chunk of the snapshot: it goes on as leader of term 1. -/
theorem not_steppedDown_chunkReply : ¬∀ (size next : ℕ) (s : Site) (store : KVStore) (t : Thread) (reply : Reply) (term : ℤ) (o : Outcome),
    (∀ i ∈ s.node.nextIndex, i < 2 ^ 31) → reply.term = some term → s.node.currentTerm < term →
      s.step size next store (.reply t (some reply)) = some o → o.site.SteppedDown size term o.store := by
  intro hall
  have h := hall 2 8 (termOneAt (.chunkReply 0 (Transfer.start RaftNode.oneEntry) 7)) KVStore.empty .heartbeat
    (.installSnapshot 2 false (ascii "stale_term")) 2 _ (by decide) rfl (by decide) rfl
  exact absurd h.currentTerm (by decide)

end Site

end RaftStore
