import RaftStore.Refinement.Steps

/-!
# Heartbeats and client commands

The steps of the two threads that send the log: what they send are pieces of the chain of the term their node leads, and what
they count are acknowledgements.
-/

namespace RaftStore

open Consensus Cluster

variable {N : ℕ} {strict bound : Prop} {a b : Global N} {c c' : Cluster N} {v : Fin N} {i : Input} {o : Outcome}

/-- A step of a thread that changes nothing of the node but what its peers are sent next. -/
theorem Rel.thread (h : Rel strict bound c a) (ha : Consistent LogEntry.term (majority (Fin N)) a) (hc : c.Sound)
    (hs : SiteStep c c' v i o) (hown : Site.electsInOwnTerm N (c.sites v) i)
    (hshape : ∃ next matched, o.site.node = { (c.sites v).node with nextIndex := next, matchIndex := matched })
    (hvote : i.isVote = false) (hno : ∀ req, i ≠ .receive req)
    (hhb : ∀ hb', o.site.heartbeat = some hb' →
      (∃ hb, (c.sites v).heartbeat = some hb ∧ hb'.term = hb.term ∧
        ∀ t', hb'.phase.transfer = some t' → ∃ t, hb.phase.transfer = some t ∧ t'.snap = t.snap) ∨
      (o.site.node.leads hb'.term → ∀ t, hb'.phase.transfer = some t → TransferRel bound a hb'.term t))
    (hcl : ∀ call ∈ o.site.clients, call ∈ (c.sites v).clients ∨ ClientRel strict bound c'.calls a v o.site.node call)
    (hsend : ∀ x, o.send = some x → CallRel strict bound a { port := x.port, req := x.req, resp := none })
    (hevent : ∀ ev ∈ o.events, EventRel strict bound a ev) : ∃ b, Moves strict a b ∧ Rel strict bound c' b := by
  obtain ⟨hf, hkept⟩ := follows_shape strict (h.votes.role v) hshape
  exact h.keep ha hc hs hown hf hkept hno hhb hcl (fun hv => by rw [hvote] at hv; cases hv) hsend hevent

/-- AppendEntries to a peer, from the log of the leader of `T`, or from under its snapshot. -/
theorem Rel.callAppend (h : Rel strict bound c a) (ha : Consistent LogEntry.term (majority (Fin N)) a) (hc : c.Sound)
    (hal : c.Aligned) {T p : ℤ} {j : ℕ} (hl : (c.sites v).node.leads T) (hp : (c.sites v).node.peerRpcPorts[j]? = some p)
    (hn : (c.sites v).node.nextIndex.getD j 0 ≤ 0 → (c.sites v).node.baseIndex ≤ (c.sites v).node.nextIndex.getD j 0) (last : ℤ) :
    CallRel strict bound a
      { port := p
        req := .appendEntries ((c.sites v).node.appendRequest ((c.sites v).node.nextIndex.getD j 0)
          ((c.sites v).node.getLogEntries ((c.sites v).node.nextIndex.getD j 0) last))
        resp := none } := by
  have hrel := h.nodeRel hc hal v
  obtain ⟨hw, _⟩ := hrel.leads_chain ha hl
  refine ⟨?_, ?_, fun _ _ _ => nofun⟩
  · show SentBy a (c.sites v).node.currentTerm p
    rw [hl.2]
    exact sentBy_peer hc hw hp
  · by_cases hlow : (c.sites v).node.nextIndex.getD j 0 < (c.sites v).node.baseIndex
    · exact .inl (RaftNode.appendRequest_vain (by omega) hlow _)
    · exact .inr (hrel.appendRequest ha hl (hrel.aligned.nextIndex_getD j) (not_lt.mp hlow))

/-- A chunk of a snapshot to a peer, from the leader of `T`. -/
theorem Rel.callChunk (h : Rel strict bound c a) (ha : Consistent LogEntry.term (majority (Fin N)) a) (hc : c.Sound)
    (hal : c.Aligned) {T p : ℤ} {j : ℕ} (hl : (c.sites v).node.leads T)
    (hp : (c.sites v).node.peerRpcPorts[j]? = some p) {t : Transfer} (ht : TransferRel bound a T t) :
    CallRel strict bound a { port := p, req := .installSnapshot (t.message (c.sites v).node), resp := none } := by
  obtain ⟨hw, _⟩ := (h.nodeRel hc hal v).leads_chain ha hl
  obtain ⟨_, rfl⟩ := hl
  exact ⟨sentBy_peer hc hw hp, ht⟩

/-! ## Heartbeats -/

theorem Rel.heartbeatStep (h : Rel strict bound c a) (ha : Consistent LogEntry.term (majority (Fin N)) a) (hc : c.Sound)
    (hal : c.Aligned) (hs : SiteStep c c' v (.step .heartbeat) o)
    (hlead : Site.heartbeatsAsLeader (c.sites v) (.step .heartbeat)) : ∃ b, Moves strict a b ∧ Rel strict bound c' b := by
  have hown : Site.electsInOwnTerm N (c.sites v) (.step .heartbeat) := nofun
  have hsame : ∃ next matched, (c.sites v).node =
      { (c.sites v).node with nextIndex := next, matchIndex := matched } := ⟨_, _, rfl⟩
  cases ((hc.site v).step hs.outcome).1 with
  | round hb hh hp hl =>
    exact h.thread ha hc hs hown hsame rfl (fun _ => nofun) (fun _ => heartbeat_idle rfl) (fun _ => Or.inl)
      (fun _ => nofun) (fun _ => nofun)
  | endHeartbeats hb hh hp =>
    exact h.thread ha hc hs hown hsame rfl (fun _ => nofun) (fun _ => nofun) (fun _ => Or.inl) (fun _ => nofun)
      (fun _ => nofun)
  | endRound hb j hh hp =>
    exact h.thread ha hc hs hown hsame rfl (fun _ => nofun) (fun _ => heartbeat_idle rfl) (fun _ => Or.inl)
      (fun _ => nofun) (fun _ => nofun)
  | needSnapshot hb j snapshot hh hp hn =>
    refine h.thread ha hc hs hown hsame rfl (fun _ => nofun) (fun hb' hhb => Or.inr (fun hl t ht => ?_)) (fun _ => Or.inl)
      (fun _ => nofun) (fun _ => nofun)
    obtain rfl := Option.some.inj hhb
    obtain rfl := Option.some.inj ht
    exact (h.nodeRel hc hal v).snapshot ha hl (RaftNode.neededSnapshot_eq hn)
  | sendHeartbeat hb j p hh hp hrun hi hn entries hes =>
    refine h.thread ha hc hs hown hsame rfl (fun _ => nofun) (fun _ => heartbeat_idle rfl) (fun _ => Or.inl)
      (fun x hx => ?_) (fun _ => nofun)
    obtain rfl := Option.some.inj hx
    have hlt := (List.getElem?_eq_some_iff.mp hi).1
    rw [hes]
    exact h.callAppend ha hc hal (hlead rfl hb hh (by simp [Site.heartbeatSends, hp, hrun, hn, hlt])) hi
      (fun _ => ((hal.site v).node).baseIndex_le_next hn) _
  | sendHeartbeatChunk hb j t p hh hp hi =>
    refine h.thread ha hc hs hown hsame rfl (fun _ => nofun) (fun hb' hhb => ?_) (fun _ => Or.inl) (fun x hx => ?_)
      (fun _ => nofun)
    · obtain rfl := Option.some.inj hhb
      exact Or.inl ⟨hb, hh, rfl, fun t' ht' => ⟨t, by rw [hp]; rfl, by rw [Option.some.inj ht']⟩⟩
    · obtain rfl := Option.some.inj hx
      have hl := hlead rfl hb hh (by simp [Site.heartbeatSends, hp])
      exact h.callChunk ha hc hal hl hi ((h.site v).heartbeat hb hh hl t (by rw [hp]; rfl))

theorem Rel.heartbeatReply (h : Rel strict bound c a) (ha : Consistent LogEntry.term (majority (Fin N)) a) (hc : c.Sound)
    {r : Option Reply} (hs : SiteStep c c' v (.reply .heartbeat r) o) : ∃ b, Moves strict a b ∧ Rel strict bound c' b := by
  have hown : Site.electsInOwnTerm N (c.sites v) (.reply .heartbeat r) := nofun
  have hsame : ∃ next matched, (c.sites v).node =
      { (c.sites v).node with nextIndex := next, matchIndex := matched } := ⟨_, _, rfl⟩
  cases ((hc.site v).step hs.outcome).1 with
  | heartbeatStopped | heartbeatLost =>
    exact h.thread ha hc hs hown hsame rfl (fun _ => nofun) (fun _ => heartbeat_idle rfl) (fun _ => Or.inl)
      (fun _ => nofun) (fun _ => nofun)
  | heartbeatLater hb j nextIdx count call r term success hh hp hr ht =>
    obtain ⟨b, hf⟩ := follows_followReply strict
      (n := { (c.sites v).node with runningHeartbeats := false }) (h.votes.role v) ht
    have hstop : Follows strict v (c.sites v).node { (c.sites v).node with runningHeartbeats := false } a a :=
      follows_of_eq (h.votes.role v) rfl rfl rfl
    exact h.keep ha hc hs hown (hstop.trans hf) ⟨rfl, rfl, rfl⟩ (fun _ => nofun) (fun _ => nofun) (fun _ => Or.inl) nofun
      (fun _ => nofun) (fun _ => nofun)
  | heartbeatReply hb j nextIdx count call r term success hh hp hr ht =>
    exact h.thread ha hc hs hown (Site.heartbeatAnswered_shape _ j nextIdx count success) rfl (fun _ => nofun)
      (fun _ => heartbeat_idle rfl) (fun _ => Or.inl) (fun _ => nofun) (fun _ => nofun)
  | heartbeatChunkReply hb j t call r hh hp phase hph =>
    refine h.thread ha hc hs hown (t.reply_shape _ j r) rfl (fun _ => nofun) (fun hb' hhb => ?_) (fun _ => Or.inl)
      (fun _ => nofun) (fun _ => nofun)
    obtain rfl := Option.some.inj hhb
    refine Or.inl ⟨hb, hh, rfl, fun t' ht' => ⟨t, by rw [hp]; rfl, ?_⟩⟩
    simp only [hph] at ht'
    split at ht'
    · next t'' heq =>
      obtain rfl := Option.some.inj ht'
      exact Transfer.reply_snap heq
    · cases ht'

/-! ## Client commands -/

/-- The entry of a new command stands at the end of the chain of its term. -/
theorem Rel.clientRequest (h : Rel strict bound c a) (ha : Consistent LogEntry.term (majority (Fin N)) a) (hc : c.Sound)
    (hal : c.Aligned) {req : ClientRequest} (hs : SiteStep c c' v (.clientRequest req) o) :
    ∃ b, Moves strict a b ∧ Rel strict bound c' b := by
  have hn := h.nodeRel hc hal v
  have hown : Site.electsInOwnTerm N (c.sites v) (.clientRequest req) := fun h => by cases h
  have hsame : ∃ next matched, (c.sites v).node =
      { (c.sites v).node with nextIndex := next, matchIndex := matched } := ⟨_, _, rfl⟩
  have hstep := ((hc.site v).step hs.outcome).1
  cases hstep with
  | refuse _ hl =>
    exact h.thread ha hc hs hown hsame rfl (fun _ h => by cases h) (fun _ => heartbeat_kept) (fun _ => Or.inl) (fun _ h => by cases h)
      (fun _ h => by cases h)
  | cached _ result hl hcache =>
    refine h.thread ha hc hs hown hsame rfl (fun _ h => by cases h) (fun _ => heartbeat_kept) (fun _ => Or.inl) (fun _ h => by cases h)
      (fun ev hev => ?_)
    obtain rfl := List.mem_singleton.mp hev
    trivial
  | append _ hl hcache =>
    have hterm : (a.member v).term = (c.sites v).node.currentTerm := hn.role.term
    obtain ⟨hw, hchain⟩ := hn.leads_chain ha ⟨hl, rfl⟩
    have hmoves := (Step.append v (Site.newEntry (c.sites v).node req) (hn.role.lead.mpr hl) hterm.symm :
      Step LogEntry.term (majority (Fin N)) strict a _).steps
    have hg := (ha.steps hmoves).2
    have hsize := hn.aligned.getLogSize_eq
    have hfull : ((c.sites v).node.appendLogEntry (Site.newEntry (c.sites v).node req)).full =
        (c.sites v).node.full ++ [Site.newEntry (c.sites v).node req] := by
      simp [RaftNode.full, RaftNode.covered, RaftNode.appendLogEntry]
    have hstep := ((hc.site v).step hs.outcome).1
    refine ⟨_, hmoves, h.siteStep hc hs hg (by simpa using ⟨hn.role.term, hn.role.vote, hn.role.cand, hn.role.lead⟩)
      (fun u hu => by simp [hu]) (fun h => by cases h) ((h.site v).step (hc.site v) hs.callsKept hg
        (fun T hT hl => (hc.site v).leads_back hstep hown hT hl) ⟨?_, ?_⟩ (fun hb => ⟨(hn.applied hb).commit, ?_⟩)
        (fun _ => heartbeat_kept) (fun call hm => ?_)) (fun _ h => by cases h) (fun _ h => by cases h) (fun _ h => by cases h)⟩
    · simp only [State.put_member, if_true, hn.logs.log]
      exact hfull.symm
    · simp only [State.put_member, if_true]
      exact hn.logs.stable
    · refine ((hn.applied hb).settled.grows hg).mono le_rfl le_rfl ?_
      show _ <+: ((c.sites v).node.appendLogEntry (Site.newEntry (c.sites v).node req)).full
      rw [hfull]
      exact List.prefix_append _ _
    · rcases List.mem_append.mp hm with hm | hm
      · exact Or.inl hm
      · obtain rfl := List.mem_singleton.mp hm
        refine Or.inr ⟨hg.winner _ _ hw, ?_, fun _ _ h => (by cases h), fun _ => ⟨∅, rfl, fun _ h => (by cases h)⟩, fun _ h => (by cases h)⟩
        show (Function.update a.chain (a.member v).term (a.chain (a.member v).term ++ [Site.newEntry (c.sites v).node req])
          (c.sites v).node.currentTerm)[(c.sites v).node.getLogSize.toNat]? = some _
        rw [← hterm, Function.update_self, hterm, ← hchain, hsize, Int.toNat_natCast, List.getElem?_concat_length]

/-- What is sent for a command reaches its entry. -/
theorem RaftNode.Aligned.reach_le {n : RaftNode} (h : n.Aligned) {k x : ℤ} (hk : k < n.full.length) (h0 : 0 ≤ k)
    (hx : 0 ≤ x) (hb : n.baseIndex ≤ x) : k ≤ (n.appendRequest x (n.getLogEntries x (k + 1))).reach := by
  show k ≤ x - 1 + (n.getLogEntries x (k + 1)).length
  rw [h.getLogEntries_eq hb, List.length_drop, List.length_take]
  omega

theorem Rel.clientStep (h : Rel strict bound c a) (ha : Consistent LogEntry.term (majority (Fin N)) a)
    (hbs : bound → strict) (hc : c.Sound) (hal : c.Aligned) {k : ℕ} (hs : SiteStep c c' v (.step (.client k)) o)
    (hsends : Site.replicatesAsLeader (c.sites v) (.step (.client k)))
    (hfrom : Site.sendsFromFirst (c.sites v) (.step (.client k)))
    (hcommits : strict → Site.commitsAsLeader (c.sites v) (.step (.client k))) :
    ∃ b, Moves strict a b ∧ Rel strict bound c' b := by
  have hn := h.nodeRel hc hal v
  have hown : Site.electsInOwnTerm N (c.sites v) (.step (.client k)) := fun h => by cases h
  have hsame : ∃ next matched, (c.sites v).node =
      { (c.sites v).node with nextIndex := next, matchIndex := matched } := ⟨_, _, rfl⟩
  have hrel (call : ClientCall) (hk : (c.sites v).clients[k]? = some call) :
      ClientRel strict bound c'.calls a v (c.sites v).node call :=
    ((h.site v).client call (List.mem_of_getElem? hk)).mono hs.callsKept (Grows.refl a) (fun h => h)
  have hcalls : c'.calls = c.calls ++ o.calls := by
    rcases hs.calls with ⟨_, hcalls⟩ | ⟨_, _, _, hi, _⟩
    · exact hcalls
    · cases hi
  have hstep := ((hc.site v).step hs.outcome).1
  cases hstep with
  | send _ call p hk hp hi =>
    have hlt := (List.getElem?_eq_some_iff.mp hi).1
    have hsending : Site.clientSends (c.sites v) call = true := by simp [Site.clientSends, hp, hlt]
    have hl := hsends k rfl call hk (Or.inl hsending)
    have hfirst := hfrom k rfl call hk hsending
    have hcall := h.callAppend ha hc hal hl hi (fun h0 => hn.aligned.baseIndex_le_of_none (hfirst h0)) (call.newIndex + 1)
    refine h.thread ha hc hs hown hsame rfl (fun _ h => by cases h) (fun _ => heartbeat_kept) (client_set ?_) (fun x hx => ?_)
      (fun _ h => by cases h)
    · refine (hrel call hk).withPhase _ (fun _ _ h => by cases h) (fun id hid => ?_)
      obtain rfl := CallPhase.append.inj hid
      refine ⟨_, (c.sites v).node.appendRequest ((c.sites v).node.nextIndex.getD call.i 0)
        ((c.sites v).node.getLogEntries ((c.sites v).node.nextIndex.getD call.i 0) (call.newIndex + 1)),
        by rw [hcalls]; exact List.getElem?_concat_length, ?_, rfl, hl.2, ?_⟩
      · rw [← hc.peerRpcPorts v]
        exact hi
      · obtain ⟨_, hchain⟩ := hn.leads_chain ha hl
        have hlen := (List.getElem?_eq_some_iff.mp (hrel call hk).entry).1
        rw [← hchain] at hlen
        have h0 := ((hal.site v).client call (List.mem_of_getElem? hk)).1
        have hnext := hn.aligned.nextIndex_getD call.i
        by_cases hlow : (c.sites v).node.nextIndex.getD call.i 0 < (c.sites v).node.baseIndex
        · refine .inl (RaftNode.appendRequest_vain ?_ hlow _)
          by_contra hlt
          have hbase := hn.aligned.baseIndex_le_of_none (hfirst (by omega)) (i := call.i)
          omega
        · exact .inr (hn.aligned.reach_le (by omega) h0 hnext (not_lt.mp hlow))
    · obtain rfl := Option.some.inj hx
      exact hcall
  | commit _ call hk hp hi hm =>
    have hmem := List.mem_of_getElem? hk
    have hterm := ((hc.site v).client call hmem).1
    obtain ⟨b, hf, happ, hev⟩ := hn.commit ha hbs ((h.site v).client call hmem) ((hal.site v).client call hmem) hterm hm
      (hc.peerRpcPorts v) (fun hst => hcommits hst k rfl call hk hp (List.getElem?_eq_none_iff.mp hi) hm) c.store
    refine h.move ha hc hs hown hf happ (fun _ h => by cases h) (fun _ => heartbeat_kept) (client_set ?_) (fun h => by cases h) (fun _ h => by cases h) hev
    refine ((hrel call hk).mono (callsKept_refl _) (ha.steps hf.moves).2 (fun hl => ?_)).withPhase _ (fun _ _ h => by cases h)
      (fun _ h => by cases h)
    have hrole := Site.commit_role (c.sites v).node c.store call
    exact ⟨(congrArg Role.state hrole).symm.trans hl.1, (congrArg Role.currentTerm hrole).symm.trans hl.2⟩
  | notCommitted _ call hk hp hi hm =>
    exact h.thread ha hc hs hown hsame rfl (fun _ h => by cases h) (fun _ => heartbeat_kept)
      (client_set ((hrel call hk).withPhase _ (fun _ _ h => by cases h) (fun _ h => by cases h))) (fun _ h => by cases h) (fun _ h => by cases h)
  | sendChunk _ call t p hk hp hi =>
    have hl := hsends k rfl call hk (Or.inr (by simp [Site.clientSendsChunk, hp]))
    have ht := (hrel call hk).transfer hl t (by rw [hp]; rfl)
    refine h.thread ha hc hs hown hsame rfl (fun _ h => by cases h) (fun _ => heartbeat_kept)
      (client_set ((hrel call hk).withPhase _ (fun _ t' ht' => ?_) (fun _ h => by cases h))) (fun x hx => ?_) (fun _ h => by cases h)
    · obtain rfl := Option.some.inj ht'
      exact ht
    · obtain rfl := Option.some.inj hx
      exact h.callChunk ha hc hal hl hi ht

/-- A positive answer to a client command is an acknowledgement of the peer it was sent to. -/
theorem Rel.answered (h : Rel strict bound c a) (hal : c.Aligned) {k id : ℕ} {call : ClientCall} {r : Option Reply} {t : ℤ}
    (hk : (c.sites v).clients[k]? = some call) (hp : call.phase = .append id)
    (hresp : ∀ r', r = some r' → c.response v (.client k) = some r')
    (hr : r.bind Reply.appendEntriesResponse = some (t, true)) :
    ∃ u, (peers v)[call.i]? = some (port u) ∧ (strict → Acked a u call.entry.term (call.newIndex.toNat + 1)) := by
  obtain ⟨y, m, hy, hi, hreq, hm, hreach⟩ := ((h.site v).client call (List.mem_of_getElem? hk)).await id hp
  obtain ⟨u, _, hu⟩ := mem_peers (List.mem_of_getElem? hi)
  obtain ⟨r', rfl, hr'⟩ := Option.bind_eq_some_iff.mp hr
  refine ⟨u, hu ▸ hi, fun hst => ?_⟩
  have hnoted := hresp r' rfl
  rw [response_client hk hp, hy] at hnoted
  have hcall := h.call y (List.mem_of_getElem? hy)
  unfold CallRel at hcall
  rw [hreq] at hcall
  obtain ⟨hvain, hack⟩ := hcall.2.2 u t hu (by rw [show y.resp = some r' from hnoted]; exact hr')
  have hack := hack hst
  have hreach := hreach.resolve_left hvain
  rw [hm] at hack
  have h0 := ((hal.site v).client call (List.mem_of_getElem? hk)).1
  exact hack.mono (by omega)

theorem Rel.clientReply (h : Rel strict bound c a) (ha : Consistent LogEntry.term (majority (Fin N)) a) (hc : c.Sound)
    (hal : c.Aligned) {k : ℕ} {r : Option Reply} (hs : SiteStep c c' v (.reply (.client k) r) o) :
    ∃ b, Moves strict a b ∧ Rel strict bound c' b := by
  have hn := h.nodeRel hc hal v
  have hown : Site.electsInOwnTerm N (c.sites v) (.reply (.client k) r) := nofun
  have hsame : ∃ next matched, (c.sites v).node =
      { (c.sites v).node with nextIndex := next, matchIndex := matched } := ⟨_, _, rfl⟩
  have hrel (n' : RaftNode) (hn' : ∃ next matched, n' =
        { (c.sites v).node with nextIndex := next, matchIndex := matched })
      (call : ClientCall) (hk : (c.sites v).clients[k]? = some call) : ClientRel strict bound c'.calls a v n' call := by
    obtain ⟨_, _, rfl⟩ := hn'
    exact ((h.site v).client call (List.mem_of_getElem? hk)).mono hs.callsKept (Grows.refl a) (fun h => h)
  have hstep := ((hc.site v).step hs.outcome).1
  cases hstep with
  | lost _ call id _ hk hp hr =>
    exact h.thread ha hc hs hown hsame rfl (fun _ => nofun) (fun _ => heartbeat_kept)
      (client_set (hrel _ hsame call hk).nextPeer) (fun _ => nofun) (fun _ => nofun)
  | later _ call id _ term success hk hp hr ht =>
    obtain ⟨b, hf⟩ := follows_followReply strict hn.role ht
    refine h.keep ha hc hs hown hf ⟨rfl, rfl, rfl⟩ (fun _ => nofun) (fun _ => heartbeat_kept) (client_set ?_) nofun
      (fun _ => nofun) (fun _ => nofun)
    exact ((hrel _ hsame call hk).mono (callsKept_refl _) (ha.steps hf.moves).2 (fun hl => by cases hl.1)).withPhase _
      (fun _ _ => nofun) (fun _ => nofun)
  | success _ call id _ term hk hp hr ht =>
    have hshape : ∃ next matched, Site.clientAnswered (c.sites v).node call =
        { (c.sites v).node with nextIndex := next, matchIndex := matched } := ⟨_, _, rfl⟩
    obtain ⟨u, hu, hack⟩ := h.answered hal hk hp (fun r' hr' => hs.reply _ r' (by rw [hr'])) hr
    exact h.thread ha hc hs hown hshape rfl (fun _ => nofun) (fun _ => heartbeat_kept)
      (client_set ((hrel _ hshape call hk).success hu hack)) (fun _ => nofun) (fun _ => nofun)
  | failure _ call id _ term hk hp hr ht call' hcall' =>
    obtain ⟨next, heq⟩ := (c.sites v).node.retreat_shape call.i
    have hshape : ∃ next matched, (c.sites v).node.retreat call.i =
        { (c.sites v).node with nextIndex := next, matchIndex := matched } := ⟨next, _, heq⟩
    refine h.thread ha hc hs hown hshape rfl (fun _ => nofun) (fun _ => heartbeat_kept) (client_set ?_) (fun _ => nofun)
      (fun _ => nofun)
    rw [hcall']
    split
    · next snapshot hsnap =>
      refine (hrel _ hshape call hk).withPhase _ (fun hl t ht => ?_) (fun _ => nofun)
      obtain rfl := Option.some.inj ht
      have hlatest := RaftNode.neededSnapshot_eq hsnap
      change ((c.sites v).node.retreat call.i).leads _ at hl
      rw [heq] at hl hlatest
      exact hn.snapshot ha hl hlatest
    · exact (hrel _ hshape call hk).nextPeer
  | chunkReply _ call t id _ hk hp call' hcall' =>
    have hshape := t.reply_shape (c.sites v).node call.i r
    refine h.thread ha hc hs hown hshape rfl (fun _ => nofun) (fun _ => heartbeat_kept) (client_set ?_) (fun _ => nofun)
      (fun _ => nofun)
    have hcl := hrel _ hshape call hk
    rw [hcall']
    split
    · next t' heq =>
      refine hcl.withPhase _ (fun hl t'' ht'' => ?_) (fun _ => nofun)
      obtain rfl := Option.some.inj ht''
      have := hcl.transfer hl t (by rw [hp]; rfl)
      unfold TransferRel at this ⊢
      rwa [Transfer.reply_snap heq]
    · exact hcl.nextPeer

end RaftStore
