import RaftStore.Refinement.Handlers

/-!
# Every step of a cluster is one of the abstract protocol

The steps of the threads of a site, and from them those of a cluster: a cluster that a run reaches under the conditions is
related to a state that the abstract protocol reaches (`Reachable.rel`).
-/

namespace RaftStore

open Consensus Cluster

variable {N : ℕ} {strict bound : Prop} {a b : Global N} {c c' : Cluster N} {v : Fin N} {n : RaftNode} {i : Input}
  {o : Outcome}

/-! ## What leaders send -/

/-- The log of a node that leads a term is the chain of the term. -/
theorem NodeRel.leads_chain (h : NodeRel bound a v n) (ha : Consistent LogEntry.term (majority (Fin N)) a) {T : ℤ}
    (hl : n.leads T) : a.winner T = some v ∧ n.full = a.chain T := by
  have hlead : (a.member v).lead := h.role.lead.mpr hl.1
  have hterm : (a.member v).term = T := h.role.term.trans hl.2
  have hw := ha.elections.lead_winner v hlead
  have hc := ha.logs.lead_chain v hlead
  rw [hterm] at hw hc
  exact ⟨hw, h.logs.log.symm.trans hc⟩

/-- The snapshot of a node that leads a term is a piece of the chain of the term. -/
theorem NodeRel.snapshot (h : NodeRel bound a v n) (ha : Consistent LogEntry.term (majority (Fin N)) a) {T : ℤ}
    (hl : n.leads T) {snap : Snapshot} (hs : n.latestSnapshot = some snap) :
    PieceRel bound a T snap.covered snap.lastIncludedIndex := by
  obtain ⟨hw, hfull⟩ := h.leads_chain ha hl
  have hcov : n.covered = snap.covered := by simp [RaftNode.covered, hs]
  have hp : snap.covered <+: n.full := by
    rw [← hcov]
    exact List.prefix_append _ _
  have hbase : n.baseIndex = snap.lastIncludedIndex + 1 := by simp [RaftNode.baseIndex, hs]
  have happ := h.aligned.applied_base
  have hlen := (h.aligned.genuine snap hs).length
  refine ⟨by rw [hw]; rfl, hfull ▸ hp, fun hb => ?_⟩
  have := (h.applied hb).settled.mono (le_of_eq hl.2) (show snap.lastIncludedIndex ≤ n.lastApplied by omega)
    (List.prefix_refl n.full)
  exact this.within hp (by omega)

/-- What a leader sends from its log. -/
theorem NodeRel.appendRequest (h : NodeRel bound a v n) (ha : Consistent LogEntry.term (majority (Fin N)) a) {T : ℤ}
    (hl : n.leads T) {x y : ℤ} (hx : 0 ≤ x) (hb : n.baseIndex ≤ x) :
    AppendRel bound a (n.appendRequest x (n.getLogEntries x y)) := by
  obtain ⟨_, hfull⟩ := h.leads_chain ha hl
  have hterm : (n.appendRequest x (n.getLogEntries x y)).term = T := hl.2
  refine ⟨⟨x.toNat, ?_, ?_, fun hne hpos => ?_⟩, fun hbound => ?_⟩
  · show x - 1 + 1 = _
    omega
  · rw [hterm, ← hfull]
    show n.getLogEntries x y <+: _
    rw [h.aligned.getLogEntries_eq hb, List.drop_take]
    exact List.take_prefix _ _
  · obtain ⟨_, _, e, he, ht⟩ := h.aligned.getLogTerm_ne hne
    rw [hterm, ← hfull, show x.toNat - 1 = (x - 1).toNat by omega]
    exact ⟨e, he, ht⟩
  · rw [hterm, ← hfull]
    exact (h.applied hbound).settled.mono (le_of_eq hl.2) (h.applied hbound).commit List.prefix_rfl

/-- A message of the winner of its term to a peer. -/
theorem sentBy_peer (hc : c.Sound) {T p : ℤ} {j : ℕ} (hw : a.winner T = some v)
    (hp : (c.sites v).node.peerRpcPorts[j]? = some p) : SentBy a T p := by
  rw [hc.peerRpcPorts v] at hp
  refine ⟨v, hw, fun heq => port_notMem_peers v ?_⟩
  rw [heq]
  exact List.mem_of_getElem? hp

/-! ## Commits -/

variable (strict) in
/-- The leader acknowledges its own log as far as its files hold it. -/
theorem follows_confirm {k : ℕ} (h : RoleRel n.role (a.member v)) (hl : n.state = .leader)
    (hk : k ≤ (a.member v).stable.length) : ∃ b, Follows strict v n n a b ∧ (v, n.currentTerm, k) ∈ b.acks := by
  have ht : (a.member v).term = n.currentTerm := h.term
  refine ⟨_, ⟨(Step.confirm v k (h.lead.mpr hl) hk).steps, fun _ _ => rfl, rfl, rfl, h, fun hl => hl⟩, ?_⟩
  rw [← ht]
  exact Set.mem_insert _ _

/-- The acknowledgements a client command has counted, with the leader's own, are a majority. -/
theorem ClientRel.committed {calls : List Call} {call : ClientCall} (h : ClientRel strict bound calls a v n call)
    (hst : strict) (hv : Acked a v call.entry.term (call.newIndex.toNat + 1)) (hcount : N / 2 < call.successCount) :
    Committed LogEntry.term (majority (Fin N)) a call.entry.term (call.newIndex.toNat + 1) := by
  obtain ⟨S, hcard, hS⟩ := h.acks hst
  refine ⟨⟨Nat.succ_pos _, call.entry, h.entry, rfl⟩, insert v S, ?_, fun u hu => ?_⟩
  · rw [majority_isQuorum_iff, Fintype.card_fin, Finset.card_insert_of_notMem (fun hm => (hS v hm).1 rfl)]
    omega
  · rcases Finset.mem_insert.mp hu with rfl | hu
    · exact hv
    · exact (hS u hu).2.2

/-- The index of a client command that may commit is in the log. -/
theorem RaftNode.Aligned.mayCommit_lt (h : n.Aligned) {call : ClientCall} (hcall : call.Aligned)
    (ht : call.entry.term ≤ n.currentTerm) (hm : Site.mayCommit n call) : call.newIndex < n.full.length := by
  obtain ⟨_, _, e, he, _⟩ := h.getLogTerm_ne (i := call.newIndex) (by have := hm.1; have := hcall.2.1; omega)
  have := (List.getElem?_eq_some_iff.mp he).1
  omega

/-- The commit section of a client command: the log is saved, and with `strict` the entry is committed. -/
theorem NodeRel.commit (h : NodeRel bound a v n) (ha : Consistent LogEntry.term (majority (Fin N)) a)
    (hbs : bound → strict) {calls : List Call} {call : ClientCall} (hcl : ClientRel strict bound calls a v n call)
    (hcall : call.Aligned) (ht : call.entry.term ≤ n.currentTerm) (hm : Site.mayCommit n call)
    (hpeers : n.peerRpcPorts = peers v) (hleads : strict → n.leads call.entry.term) (store : KVStore) :
    ∃ b, Follows strict v n (Site.commit n store call).1 a b ∧ (bound → AppliedRel b (Site.commit n store call).1) ∧
      ∀ ev ∈ (Site.commit n store call).2.2.2, EventRel strict bound b ev := by
  have hlt := h.aligned.mayCommit_lt hcall ht hm
  have hn' : (n.setCommitIndex call.newIndex).Sound := h.sound.congr rfl rfl rfl rfl
  have h' : (n.setCommitIndex call.newIndex).Aligned := h.aligned.congr rfl rfl rfl h.aligned.nextIndex
  obtain ⟨hfull, _⟩ := (h'.applyCommitted store (Or.inl hlt)).snapshotAtThreshold_kept
    ((n.setCommitIndex call.newIndex).applyCommitted store).store
  rw [RaftNode.applyCommitted_node] at hfull
  have hcommit : Site.commit n store call =
      (Site.recordResult (((n.setCommitIndex call.newIndex).applyCommitted store).node.snapshotAtThreshold
          ((n.setCommitIndex call.newIndex).applyCommitted store).store).1 call.req
          ((n.setCommitIndex call.newIndex).applyCommitted store).applyResult,
        (((n.setCommitIndex call.newIndex).applyCommitted store).node.snapshotAtThreshold
          ((n.setCommitIndex call.newIndex).applyCommitted store).store).2,
        ((n.setCommitIndex call.newIndex).applyCommitted store).applyResult,
        .committed n.currentTerm call.newIndex ((n.setCommitIndex call.newIndex).globalEntry call.newIndex) ::
          ((n.setCommitIndex call.newIndex).applyCommitted store).events ++
          [.recorded call.req ((n.setCommitIndex call.newIndex).applyCommitted store).applyResult]) := by
    unfold Site.commit
    simp only [hn'.applyWhileUp_eq]
    rfl
  have hfull' : (Site.commit n store call).1.full = n.full := by
    rw [hcommit, RaftNode.applyCommitted_node]
    exact hfull
  obtain ⟨a₁, h₁⟩ := follows_save strict h.role (Site.commit_role n store call) hfull'
    (show (Site.commit n store call).1.stable = (Site.commit n store call).1.full from rfl)
  obtain ⟨b, hf, hack⟩ : ∃ b, Follows strict v n (Site.commit n store call).1 a b ∧
      (strict → Acked b v call.entry.term (call.newIndex.toNat + 1)) := by
    by_cases hst : strict
    · have hl := hleads hst
      have hrole := Site.commit_role n store call
      obtain ⟨b, hb, hack⟩ := follows_confirm strict (k := call.newIndex.toNat + 1) h₁.role
        ((congrArg Role.state hrole).trans hl.1) (by
          rw [(h₁.logs h.logs).stable, show (Site.commit n store call).1.stable = _ from hfull']
          have := hcall.1
          omega)
      refine ⟨b, h₁.trans hb, fun _ => ⟨_, le_rfl, ?_⟩⟩
      rw [show (Site.commit n store call).1.currentTerm = call.entry.term from
        (congrArg Role.currentTerm hrole).trans hl.2] at hack
      exact hack
    · exact ⟨a₁, h₁, fun hst' => absurd hst' hst⟩
  have hg := (ha.steps hf.moves).2
  have hcount : N / 2 < call.successCount := by
    have := hm.2
    rw [hpeers, peers_length v] at this
    exact this
  have hcm (hst : strict) : Committed LogEntry.term (majority (Fin N)) b call.entry.term (call.newIndex.toNat + 1) :=
    (hcl.mono (callsKept_refl _) hg (fun h : n.leads _ => h)).committed hst (hack hst) hcount
  have hset (hb : bound) : Settled b n.currentTerm n.full call.newIndex := by
    obtain ⟨hw, hchain⟩ := h.leads_chain ha (hleads (hbs hb))
    refine Or.inr ⟨call.entry.term, call.newIndex.toNat + 1, ht, by rw [hg.winner _ _ hw]; rfl, hcm (hbs hb), by omega, ?_⟩
    rw [hchain, hf.chain]
    exact List.take_prefix _ _
  refine ⟨b, hf, fun hb => ?_, fun ev hev => ?_⟩
  · rw [hcommit]
    have := h.aligned.appliedRel_commitSection ((h.applied hb).congr hg le_rfl rfl rfl rfl) store
      ((n.setCommitIndex call.newIndex).applyCommitted store).store hlt (hset hb)
    exact ⟨this.commit, this.settled⟩
  · rw [hcommit] at hev
    rcases List.mem_append.mp hev with hev | hev
    · rcases List.mem_cons.mp hev with rfl | hev
      · have hent : (n.setCommitIndex call.newIndex).globalEntry call.newIndex = n.full[call.newIndex.toNat]? :=
          h'.globalEntry_eq hcall.1
        rw [hent]
        cases he : n.full[call.newIndex.toNat]? with
        | none => trivial
        | some e =>
          intro hst
          obtain ⟨hw, hchain⟩ := h.leads_chain ha (hleads hst)
          rw [(hleads hst).2]
          refine ⟨hcall.1, by rw [hg.winner _ _ hw]; rfl, hcm hst, ?_⟩
          rw [hf.chain, ← hchain]
          exact he
      · exact h.aligned.event_commitSection store hset hev
    · obtain rfl := List.mem_singleton.mp hev
      trivial

/-! ## Client commands -/

namespace ClientRel

variable {calls : List Call} {call : ClientCall}

/-- A client command in another phase. -/
theorem withPhase (h : ClientRel strict bound calls a v n call) (phase : CallPhase)
    (ht : n.leads call.entry.term → ∀ t, phase.transfer = some t → TransferRel bound a call.entry.term t)
    (haw : ∀ id, phase = .append id → ∃ y m, calls[id]? = some y ∧ (peers v)[call.i]? = some y.port ∧
      y.req = .appendEntries m ∧ m.term = call.entry.term ∧ (m.Vain ∨ call.newIndex ≤ m.reach)) :
    ClientRel strict bound calls a v n { call with phase := phase } :=
  ⟨h.winner, h.entry, ht, h.acks, haw⟩

/-- A client command that goes on to the next peer. -/
theorem nextPeer (h : ClientRel strict bound calls a v n call) :
    ClientRel strict bound calls a v n (Site.nextPeer call) where
  winner := h.winner
  entry := h.entry
  transfer _ t ht := by cases ht
  acks hst := by
    obtain ⟨S, hcard, hS⟩ := h.acks hst
    refine ⟨S, hcard, fun u hu => ⟨(hS u hu).1, fun hm => (hS u hu).2.1 ?_, (hS u hu).2.2⟩⟩
    exact (List.drop_sublist_drop_left (peers v) (Nat.le_succ call.i)).subset hm
  await _ hp := by cases hp

/-- A client command that has a positive answer counts one more acknowledgement. -/
theorem success (h : ClientRel strict bound calls a v n call) {u : Fin N} (hu : (peers v)[call.i]? = some (port u))
    (hack : strict → Acked a u call.entry.term (call.newIndex.toNat + 1)) :
    ClientRel strict bound calls a v n (Site.nextPeer { call with successCount := call.successCount + 1 }) where
  winner := h.winner
  entry := h.entry
  transfer _ t ht := by cases ht
  acks hst := by
    obtain ⟨S, hcard, hS⟩ := h.acks hst
    have hlt := (List.getElem?_eq_some_iff.mp hu).1
    have hdrop : (peers v).drop call.i = port u :: (peers v).drop (call.i + 1) := by
      rw [List.drop_eq_getElem_cons hlt, (List.getElem?_eq_some_iff.mp hu).2]
    have hnot : u ∉ S := fun hm => (hS u hm).2.1 (by rw [hdrop]; exact List.mem_cons_self)
    refine ⟨insert u S, by rw [Finset.card_insert_of_notMem hnot, hcard]; rfl, fun x hx => ?_⟩
    rcases Finset.mem_insert.mp hx with rfl | hx
    · refine ⟨?_, ?_, hack hst⟩
      · rintro rfl
        exact port_notMem_peers x (List.mem_of_getElem? hu)
      · have hnd := (peers_nodup v).sublist (List.drop_sublist call.i _)
        rw [hdrop] at hnd
        exact (List.nodup_cons.mp hnd).1
    · refine ⟨(hS x hx).1, fun hm => (hS x hx).2.1 ?_, (hS x hx).2.2⟩
      rw [hdrop]
      exact List.mem_cons_of_mem _ hm
  await _ hp := by cases hp

end ClientRel

/-- The reply a client command waits for is the reply to its call. -/
theorem response_client {k id : ℕ} {call : ClientCall} (hk : (c.sites v).clients[k]? = some call)
    (hp : call.phase = .append id) : c.response v (.client k) = c.calls[id]?.bind (·.resp) := by
  simp [response, Site.awaiting, hk, hp]

/-! ## Steps of a site -/

theorem Rel.nodeRel (h : Rel strict bound c a) (hc : c.Sound) (hal : c.Aligned) (v : Fin N) :
    NodeRel bound a v (c.sites v).node :=
  ⟨(hc.site v).node, (hal.site v).node, h.votes.role v, (h.site v).logs, (h.site v).applied⟩

/-- A step that the member follows. -/
theorem Rel.move (h : Rel strict bound c a) (ha : Consistent LogEntry.term (majority (Fin N)) a) (hc : c.Sound)
    (hs : SiteStep c c' v i o) (hown : Site.electsInOwnTerm N (c.sites v) i)
    (hf : Follows strict v (c.sites v).node o.site.node a b) (happlied : bound → AppliedRel b o.site.node)
    (hno : ∀ req, i ≠ .receive req)
    (hhb : ∀ hb', o.site.heartbeat = some hb' →
      (∃ hb, (c.sites v).heartbeat = some hb ∧ hb'.term = hb.term ∧
        ∀ t', hb'.phase.transfer = some t' → ∃ t, hb.phase.transfer = some t ∧ t'.snap = t.snap) ∨
      (o.site.node.leads hb'.term → ∀ t, hb'.phase.transfer = some t → TransferRel bound b hb'.term t))
    (hcl : ∀ call ∈ o.site.clients, call ∈ (c.sites v).clients ∨ ClientRel strict bound c'.calls b v o.site.node call)
    (hvotes : i.isVote = true → NewVotes b v o)
    (hsend : ∀ x, o.send = some x → CallRel strict bound b { port := x.port, req := x.req, resp := none })
    (hevent : ∀ ev ∈ o.events, EventRel strict bound b ev) : ∃ b, Moves strict a b ∧ Rel strict bound c' b := by
  have hg := (ha.steps hf.moves).2
  have hstep := ((hc.site v).step hs.outcome).1
  have hsite := (h.site v).step (hc.site v) hs.callsKept hg (fun T hT hl => (hc.site v).leads_back hstep hown hT hl)
    (hf.logs (h.site v).logs) happlied hhb hcl
  exact ⟨b, hf.moves, h.siteStep hc hs hg hf.role hf.others hvotes hsite hsend (fun y hi => absurd hi (hno _)) hevent⟩

/-- A step that leaves the log and the indices of the node. -/
theorem Rel.keep (h : Rel strict bound c a) (ha : Consistent LogEntry.term (majority (Fin N)) a) (hc : c.Sound)
    (hs : SiteStep c c' v i o) (hown : Site.electsInOwnTerm N (c.sites v) i)
    (hf : Follows strict v (c.sites v).node o.site.node a b)
    (hkept : o.site.node.full = (c.sites v).node.full ∧ o.site.node.lastApplied = (c.sites v).node.lastApplied ∧
      o.site.node.commitIndex = (c.sites v).node.commitIndex)
    (hno : ∀ req, i ≠ .receive req)
    (hhb : ∀ hb', o.site.heartbeat = some hb' →
      (∃ hb, (c.sites v).heartbeat = some hb ∧ hb'.term = hb.term ∧
        ∀ t', hb'.phase.transfer = some t' → ∃ t, hb.phase.transfer = some t ∧ t'.snap = t.snap) ∨
      (o.site.node.leads hb'.term → ∀ t, hb'.phase.transfer = some t → TransferRel bound b hb'.term t))
    (hcl : ∀ call ∈ o.site.clients, call ∈ (c.sites v).clients ∨ ClientRel strict bound c'.calls b v o.site.node call)
    (hvotes : i.isVote = true → NewVotes b v o)
    (hsend : ∀ x, o.send = some x → CallRel strict bound b { port := x.port, req := x.req, resp := none })
    (hevent : ∀ ev ∈ o.events, EventRel strict bound b ev) : ∃ b, Moves strict a b ∧ Rel strict bound c' b := by
  have hterm := ((hc.site v).identity ((hc.site v).step hs.outcome).1).2.2.2
  exact h.move ha hc hs hown hf (fun hb => ((h.site v).applied hb).congr (ha.steps hf.moves).2 hterm hkept.1 hkept.2.1
    hkept.2.2) hno hhb hcl hvotes hsend hevent

/-- The heartbeat threads that are left alone. -/
theorem heartbeat_kept {s : Site} {n : RaftNode} {hb' : Heartbeat} (h : s.heartbeat = some hb') :
    (∃ hb, s.heartbeat = some hb ∧ hb'.term = hb.term ∧
        ∀ t', hb'.phase.transfer = some t' → ∃ t, hb.phase.transfer = some t ∧ t'.snap = t.snap) ∨
      (n.leads hb'.term → ∀ t, hb'.phase.transfer = some t → TransferRel bound b hb'.term t) :=
  Or.inl ⟨hb', h, rfl, fun t ht => ⟨t, ht, rfl⟩⟩

/-- A heartbeat thread that is in no transfer. -/
theorem heartbeat_idle {s : Site} {n : RaftNode} {hb₀ hb' : Heartbeat} (hp : hb₀.phase.transfer = none)
    (h : some hb₀ = some hb') :
    (∃ hb, s.heartbeat = some hb ∧ hb'.term = hb.term ∧
        ∀ t', hb'.phase.transfer = some t' → ∃ t, hb.phase.transfer = some t ∧ t'.snap = t.snap) ∨
      (n.leads hb'.term → ∀ t, hb'.phase.transfer = some t → TransferRel bound b hb'.term t) := by
  obtain rfl := Option.some.inj h
  exact Or.inr (fun _ t ht => by cases hp.symm.trans ht)

/-- The client commands when one of them goes on. -/
theorem client_set {l : List ClientCall} {k : ℕ} {call' : ClientCall} {calls : List Call}
    (h : ClientRel strict bound calls b v n call') :
    ∀ call ∈ l.set k call', call ∈ l ∨ ClientRel strict bound calls b v n call := by
  intro call hm
  rcases List.mem_or_eq_of_mem_set hm with hm | rfl
  · exact Or.inl hm
  · exact Or.inr h

variable (strict) in
/-- A node that keeps all but what its peers are sent next. -/
theorem follows_shape (h : RoleRel n.role (a.member v)) {n' : RaftNode}
    (hn : ∃ next matched, n' = { n with nextIndex := next, matchIndex := matched }) :
    Follows strict v n n' a a ∧ n'.full = n.full ∧ n'.lastApplied = n.lastApplied ∧ n'.commitIndex = n.commitIndex := by
  obtain ⟨_, _, rfl⟩ := hn
  exact ⟨follows_of_eq h rfl rfl rfl, rfl, rfl, rfl⟩

/-! ## Elections -/

/-- The heartbeat thread of a promoted node is the one that was there, or a new one that is in no transfer. -/
theorem elected_heartbeat {s : Site} (hup : s.node.shutdownRequested = false) {el : Election} {hb' : Heartbeat}
    (h : (s.elected el).heartbeat = some hb') : s.heartbeat = some hb' ∨ hb'.phase.transfer = none := by
  have hup : (Site.promoted s.node).shutdownRequested = false := hup
  unfold Site.elected at h
  split at h
  · exact Or.inl h
  · simp only [Site.startHeartbeats, hup, Bool.false_eq_true, if_false, Option.some.injEq] at h
    rw [← h]
    exact Or.inr rfl

/-- A candidate has its log on stable storage, and so has the leader it becomes. -/
theorem NodeRel.elected_logs {s : Site} (hn : NodeRel bound a v s.node) (hcand : s.node.state = .candidate) (el : Election) :
    LogRel (s.elected el).node { a.member v with cand := False, lead := True, stable := (a.member v).log } := by
  have hsaved := hn.sound.saved_log (by rw [hcand]; decide)
  have hstable : s.node.stable = s.node.full := by
    rw [RaftNode.stable, hsaved]
    rfl
  unfold Site.elected
  split
  · exact ⟨hn.logs.log, hn.logs.log.trans hstable.symm⟩
  · exact ⟨hn.logs.log, hn.logs.log⟩

theorem NodeRel.elected_applied {s : Site} (hn : NodeRel bound a v s.node) (el : Election) (hb : bound) :
    AppliedRel a (s.elected el).node := by
  obtain ⟨_, _, heq⟩ := s.elected_node el
  rw [heq]
  exact ⟨(hn.applied hb).commit, (hn.applied hb).settled⟩

/-- The chain of a new term is the log of the node that is promoted in it. -/
theorem NodeRel.promoted_event {n : RaftNode} (hn : NodeRel bound a v n)
    (hb : b.chain = Function.update a.chain (a.member v).term (a.member v).log) :
    EventRel strict bound b (.becameLeader (Site.promoted n)) := by
  have hchain : b.chain (Site.promoted n).currentTerm = n.full := by
    rw [hb, show (Site.promoted n).currentTerm = (a.member v).term from hn.role.term.symm, Function.update_self, hn.logs.log]
  refine ⟨Site.promoted_aligned hn.aligned, ?_, fun j e hj he => ?_⟩
  · show n.full <+: b.chain (Site.promoted n).currentTerm
    rw [hchain]
  · rw [hchain] at he
    exact absurd (List.getElem?_eq_some_iff.mp he).1 (not_lt.mpr hj)

theorem Rel.electionStep (h : Rel strict bound c a) (ha : Consistent LogEntry.term (majority (Fin N)) a) (hc : c.Sound)
    (hal : c.Aligned) (hs : SiteStep c c' v i o) (hown : Site.electsInOwnTerm N (c.sites v) i)
    (hi : i = .startElection ∨ i = .step .election) : ∃ b, Moves strict a b ∧ Rel strict bound c' b := by
  have hn := h.nodeRel hc hal v
  have hno : ∀ req, i ≠ .receive req := by
    rintro req rfl
    rcases hi with hi | hi <;> cases hi
  cases ((hc.site v).step hs.outcome).1 with
  | startElection he hl =>
    obtain ⟨b, hf, hb⟩ := follows_candidacy strict hn.role (hc.id v)
    refine h.keep ha hc hs hown hf ⟨rfl, rfl, rfl⟩ hno (fun _ => heartbeat_kept) (fun _ => Or.inl) (fun _ => ?_)
      (fun _ h => by cases h) (fun ev hev => ?_)
    · refine ⟨fun t x hev => ?_, fun n hev => ?_, fun _ _ h => (by cases h)⟩
      · obtain ⟨rfl, rfl⟩ := Event.voted.inj (List.mem_singleton.mp hev)
        exact ⟨v, hc.id v, hb⟩
      · cases List.mem_singleton.mp hev
    · obtain rfl := List.mem_singleton.mp hev
      trivial
  | join el he hp hh =>
    obtain ⟨b, hf⟩ : ∃ b, Follows strict v (c.sites v).node
        (Site.startHeartbeats (c.sites v) { (c.sites v).node with runningHeartbeats := true }).node a b :=
      follows_save strict hn.role rfl rfl rfl
    refine h.keep ha hc hs hown hf ⟨rfl, rfl, rfl⟩ hno (fun hb' hhb => ?_) (fun _ => Or.inl)
      (fun _ => ⟨fun _ _ h => (by cases h), fun _ h => (by cases h), fun _ _ h => (by cases h)⟩) (fun _ h => by cases h) (fun _ h => by cases h)
    simp only [Outcome.local, Site.startHeartbeats, hn.sound.up, Bool.false_eq_true, if_false] at hhb
    exact heartbeat_idle rfl hhb
  | ask el p rest he hp hr =>
    obtain ⟨b, hf, hb⟩ := follows_ask strict hn.role
    have hL := hn.logs.log
    have hsize := hn.aligned.getLogSize_eq
    refine h.keep ha hc hs hown hf ⟨rfl, rfl, rfl⟩ hno (fun _ => heartbeat_kept) (fun _ => Or.inl) (fun _ => ?_)
      (fun x hx => ?_) (fun _ h => by cases h)
    · refine ⟨fun _ _ h => (by cases h), fun _ h => (by cases h), fun q m hq => ?_⟩
      obtain ⟨-, hreq⟩ := Send.mk.inj (Option.some.inj hq)
      obtain rfl := Request.requestVote.inj hreq
      exact ⟨v, hc.id v, _, hb⟩
    · obtain rfl := Option.some.inj hx
      refine ⟨v, _, hc.id v, hb, ?_, ?_⟩
      · show (c.sites v).node.getLogSize - 1 = _
        rw [hsize, hL]
      · show (c.sites v).node.getLogTerm _ = _
        rw [hn.aligned.lastTerm_eq, hL]
  | win el he hp hr hv =>
    obtain ⟨hcand, ht⟩ := hown rfl el he hp hr hv
    obtain ⟨Q, hQ, hb⟩ := h.votes.quorum he hp hv ht
    have hmoves := (Step.elect v Q (hn.role.cand.mpr hcand) hQ hb :
      Step LogEntry.term (majority (Fin N)) strict a _).steps
    have hg := (ha.steps hmoves).2
    have hterm : (a.member v).term = (c.sites v).node.currentTerm := hn.role.term
    have hnode := (c.sites v).elected_role el
    have hstep := ((hc.site v).step hs.outcome).1
    refine ⟨_, hmoves, h.siteStep hc hs hg ?_ (fun u hu => by simp [hu]) (fun _ => ⟨?_, ?_, fun _ _ h => (by cases h)⟩) ?_
      (fun _ h => by cases h) (fun y hi => by cases hi) (fun ev hev => ?_)⟩
    · simp only [hnode, State.put_member, if_true]
      exact elect_role hn.role
    · intro t x hev
      cases List.mem_singleton.mp hev
    · intro n hev
      obtain rfl := Event.becameLeader.inj (List.mem_singleton.mp hev)
      simp [show (a.member v).term = (Site.promoted (c.sites v).node).currentTerm from hterm]
    · refine (h.site v).step (hc.site v) hs.callsKept hg (fun T hT hl => (hc.site v).leads_back hstep hown hT hl) ?_
        (fun hb => ⟨(hn.elected_applied el hb).commit, (hn.elected_applied el hb).settled.grows hg⟩) (fun hb' hhb => ?_)
        (fun call hm => ?_)
      · simpa using hn.elected_logs hcand el
      · rcases elected_heartbeat hn.sound.up hhb with hhb | hidle
        · exact heartbeat_kept hhb
        · exact Or.inr (fun _ t ht => by cases hidle.symm.trans ht)
      · exact Or.inl ((c.sites v).elected_clients el ▸ hm)
    · obtain rfl := List.mem_singleton.mp hev
      exact hn.promoted_event rfl
  | lose el he hp hr hv =>
    exact h.keep ha hc hs hown (follows_refl hn.role) ⟨rfl, rfl, rfl⟩ hno (fun _ => heartbeat_kept) (fun _ => Or.inl)
      (fun _ => ⟨fun _ _ h => (by cases h), fun _ h => (by cases h), fun _ _ h => (by cases h)⟩) (fun _ h => by cases h) (fun _ h => by cases h)
  | _ => rcases hi with hi | hi <;> cases hi

theorem Rel.electionReply (h : Rel strict bound c a) (ha : Consistent LogEntry.term (majority (Fin N)) a) (hc : c.Sound)
    {r : Option Reply} (hs : SiteStep c c' v (.reply .election r) o) : ∃ b, Moves strict a b ∧ Rel strict bound c' b := by
  have hrole := h.votes.role v
  have hown : Site.electsInOwnTerm N (c.sites v) (.reply .election r) := nofun
  cases ((hc.site v).step hs.outcome).1 with
  | noVote | vote =>
    exact h.keep ha hc hs hown (follows_refl hrole) ⟨rfl, rfl, rfl⟩ (fun _ => nofun) (fun _ => heartbeat_kept)
      (fun _ => Or.inl) nofun (fun _ => nofun) (fun _ => nofun)
  | voteLater el call r term voteGranted he hp hr ht =>
    obtain ⟨b, hf⟩ := follows_followReply strict hrole ht
    exact h.keep ha hc hs hown hf ⟨rfl, rfl, rfl⟩ (fun _ => nofun) (fun _ => heartbeat_kept) (fun _ => Or.inl) nofun
      (fun _ => nofun) (fun _ => nofun)

end RaftStore
