import RaftStore.Refinement.Node

/-!
# The votes of a cluster

`Votes` relates a cluster to a state of the abstract protocol by what its elections turn on: the roles of the nodes, the votes a
running election has counted, and the requests for votes and their replies. Every action leads to a cluster that is related to a
later abstract state (`Votes.refine`), so that a term has one leader (`Reachable.one_leader`). The logs play no part: the
abstract members keep theirs empty.
-/

namespace RaftStore

open Consensus Cluster

variable {N : ℕ} {strict : Prop} {a b : Global N} {c c' : Cluster N} {v : Fin N} {i : Input} {o : Outcome}

/-! ## The relation -/

/-- A running election of `v`: the peers not asked yet are the last ones of its list, and the votes counted are ballots of that
many nodes, as long as the node is in the term of the election. -/
structure ElectionVotes (calls : List Call) (a : Global N) (v : Fin N) (n : RaftNode) (el : Election) : Prop where
  rest : el.rest <:+ peers v
  votes : n.currentTerm = el.term →
    ∃ S : Finset (Fin N), S.card = el.votes ∧ ∀ u ∈ S, port u ∉ el.rest ∧ HasBallot a u el.term v
  await : ∀ id, el.phase = .await id → ∃ y m, calls[id]? = some y ∧ el.rest.head? = some y.port ∧
    y.req = .requestVote m ∧ m.candidateId = v.val ∧ (n.currentTerm = el.term → m.term = el.term)

/-- A request for a vote has been made in the abstract protocol too, and a reply that grants it is a ballot. -/
def CallVotes (a : Global N) (y : Call) : Prop :=
  ∀ m, y.req = .requestVote m → ∃ w : Fin N, m.candidateId = w.val ∧ (∃ L, (m.term, w, L) ∈ a.requests) ∧
    ∀ u t, y.port = port u → y.resp.bind Reply.requestVoteResponse = some (t, true) → HasBallot a u m.term w

/-- The cluster and the abstract state have the same roles, votes and leaders. -/
structure Votes (c : Cluster N) (a : Global N) : Prop where
  role : ∀ v, RoleRel (c.sites v).node.role (a.member v)
  election : ∀ v el, (c.sites v).election = some el → el.phase ≠ .join →
    ElectionVotes c.calls a v (c.sites v).node el
  calls : ∀ y ∈ c.calls, CallVotes a y
  led : ∀ v n, (v, Event.becameLeader n) ∈ c.events → a.winner n.currentTerm = some v

/-- What a step of the site `v` adds to the votes is in the abstract state. -/
structure NewVotes (b : Global N) (v : Fin N) (o : Outcome) : Prop where
  voted : ∀ t x, Event.voted t x ∈ o.events → ∃ w : Fin N, x = w.val ∧ HasBallot b v t w
  led : ∀ n, Event.becameLeader n ∈ o.events → b.winner n.currentTerm = some v
  asked : ∀ p m, o.send = some ⟨p, .requestVote m⟩ →
    ∃ w : Fin N, m.candidateId = w.val ∧ ∃ L, (m.term, w, L) ∈ b.requests

/-- The inputs on which a step can add to the votes. -/
def Input.isVote : Input → Bool
  | .startElection => true
  | .step .election => true
  | .receive (.requestVote _) => true
  | _ => false

/-! ## What adds nothing to the votes -/

/-- Neither a vote nor a leader. -/
def Event.Quiet (ev : Event) : Prop := (∀ t x, ev ≠ .voted t x) ∧ ∀ n, ev ≠ .becameLeader n

theorem applied_quiet {n : RaftNode} {store : KVStore} {ev : Event} (h : ev ∈ (n.applyCommitted store).events) :
    ev.Quiet := by
  obtain ⟨_, _, rfl, _⟩ := RaftNode.applyCommitted_events h
  exact ⟨fun _ _ => nofun, fun _ => nofun⟩

theorem commit_quiet (n : RaftNode) (store : KVStore) (call : ClientCall) :
    ∀ ev ∈ (Site.commit n store call).2.2.2, ev.Quiet := by
  intro ev hev
  rcases List.mem_append.mp hev with hev | hev
  · rcases List.mem_cons.mp hev with rfl | hev
    · exact ⟨fun _ _ => nofun, fun _ => nofun⟩
    · unfold Site.applyWhileUp at hev
      split at hev
      · cases hev
      · exact applied_quiet hev
  · obtain rfl := List.mem_singleton.mp hev
    exact ⟨fun _ _ => nofun, fun _ => nofun⟩

theorem handleAppendEntries_quiet (n : RaftNode) (store : KVStore) (m : AppendEntriesRPC) :
    ∀ ev ∈ (n.handleAppendEntries store m).events, ev.Quiet := by
  intro ev hev
  unfold RaftNode.handleAppendEntries at hev
  simp only at hev
  split at hev
  · cases hev
  · split at hev
    · cases hev
    · split at hev
      · rcases List.mem_cons.mp hev with rfl | hev
        · exact ⟨fun _ _ => nofun, fun _ => nofun⟩
        · exact applied_quiet hev
      · cases hev

theorem handleInstallSnapshot_events {n : RaftNode} {store : KVStore} {m : InstallSnapshotRPC} {r : Handled}
    (hr : n.handleInstallSnapshot store m = some r) : r.events = [] := by
  unfold RaftNode.handleInstallSnapshot at hr
  simp only at hr
  split at hr
  · obtain rfl := Option.some.inj hr
    rfl
  · split at hr
    · cases hr
    · obtain rfl := Option.some.inj hr
      rfl
    · split at hr
      · obtain rfl := Option.some.inj hr
        unfold RaftNode.finishTransfer
        split
        · rfl
        · split <;> rfl
      · obtain rfl := Option.some.inj hr
        rfl

/-- On the other inputs a step adds nothing to the votes. -/
theorem Site.Step.quiet {size next : ℕ} {s : Site} {store : KVStore} (hs : Site.Step size next s store i o)
    (hi : i.isVote = false) : NewVotes b v o := by
  have hq (hev : ∀ ev ∈ o.events, ev.Quiet) (hsend : ∀ p m, o.send ≠ some ⟨p, .requestVote m⟩) : NewVotes b v o :=
    ⟨fun t x h => absurd rfl ((hev _ h).1 t x), fun n h => absurd rfl ((hev _ h).2 n), fun p m h => absurd h (hsend p m)⟩
  have hnil (hev : o.events = []) (hsend : ∀ p m, o.send ≠ some ⟨p, .requestVote m⟩) : NewVotes b v o :=
    hq (fun ev h => absurd (hev ▸ h) List.not_mem_nil) hsend
  cases hs with
  | startElection | join | ask | win | lose => cases hi
  | cached req result hl hc =>
    refine hq (fun ev h => ?_) (fun _ _ => nofun)
    obtain rfl := List.mem_singleton.mp h
    exact ⟨fun _ _ => nofun, fun _ => nofun⟩
  | commit k call hk hp hi hm => exact hq (commit_quiet _ _ _) (fun _ _ => nofun)
  | receive req r hr =>
    refine hq (fun ev h => ?_) (fun _ _ => nofun)
    cases req with
    | requestVote m => cases hi
    | appendEntries m =>
      obtain rfl := Option.some.inj hr
      exact handleAppendEntries_quiet _ _ _ ev h
    | installSnapshot m =>
      rw [show r.events = [] from handleInstallSnapshot_events hr] at h
      cases h
  | _ => exact hnil rfl (fun _ _ => nofun)

/-! ## What a step keeps of the relation -/

/-- A running election that is left alone. -/
theorem ElectionVotes.mono {calls calls' : List Call} {n n' : RaftNode} {el : Election} (h : ElectionVotes calls a v n el)
    (hk : CallsKept calls calls') (hg : Grows LogEntry.term a b) (hterm : el.term ≤ n.currentTerm)
    (hle : n.currentTerm ≤ n'.currentTerm) : ElectionVotes calls' b v n' el where
  rest := h.rest
  votes ht := by
    obtain ⟨S, hcard, hS⟩ := h.votes (le_antisymm (ht ▸ hle) hterm)
    exact ⟨S, hcard, fun u hu => ⟨(hS u hu).1, (hS u hu).2.grows hg⟩⟩
  await id hp := by
    obtain ⟨y, m, hy, hhead, hreq, hm, ht⟩ := h.await id hp
    obtain ⟨y', hy', hport, hreq'⟩ := hk id y hy
    exact ⟨y', m, hy', hport ▸ hhead, hreq'.trans hreq, hm, fun h' => ht (le_antisymm (h' ▸ hle) hterm)⟩

theorem CallVotes.grows {y : Call} (h : CallVotes a y) (hg : Grows LogEntry.term a b) : CallVotes b y := by
  intro m hm
  obtain ⟨w, hw, ⟨L, hL⟩, hb⟩ := h m hm
  exact ⟨w, hw, ⟨L, hg.requests hL⟩, fun u t hp hr => (hb u t hp hr).grows hg⟩

/-- The reply the election waits for is the reply to its call. -/
theorem response_election {el : Election} {id : ℕ} (he : (c.sites v).election = some el) (hp : el.phase = .await id) :
    c.response v .election = c.calls[id]?.bind (·.resp) := by
  simp [response, Site.awaiting, he, hp]

/-- A reply that grants a vote comes with the vote. -/
theorem handleRequestVote_granted {n : RaftNode} (hn : n.Sound) {store : KVStore} {m : RequestVoteRPC} {t : ℤ}
    (h : (n.handleRequestVote store m).reply.requestVoteResponse = some (t, true)) :
    .voted m.term m.candidateId ∈ (n.handleRequestVote store m).events := by
  unfold RaftNode.handleRequestVote at h ⊢
  simp only at h ⊢
  split at h
  · simp [Reply.requestVoteResponse] at h
  · next ht =>
    split at h
    · next hc =>
      rw [if_neg ht, if_pos hc, hn.seeTerm_term (not_lt.mp ht)]
      exact List.mem_singleton.mpr rfl
    · simp [Reply.requestVoteResponse] at h

/-- The next vote of a running election. -/
theorem ElectionVotes.vote {calls : List Call} {n : RaftNode} {el : Election} (h : ElectionVotes calls a v n el)
    {id : ℕ} (hp : el.phase = .await id) (granted : Bool)
    (hgrant : granted = true → ∀ y m u, calls[id]? = some y → y.req = .requestVote m → m.candidateId = v.val →
      y.port = port u → HasBallot a u m.term v) :
    ElectionVotes calls a v n { el with
      votes := if granted then el.votes + 1 else el.votes, rest := el.rest.tail, phase := .ask } where
  rest := (List.tail_suffix _).trans h.rest
  votes ht := by
    obtain ⟨S, hcard, hS⟩ := h.votes ht
    have htail : ∀ u ∈ S, port u ∉ el.rest.tail ∧ HasBallot a u el.term v :=
      fun u hu => ⟨fun hm => (hS u hu).1 (List.mem_of_mem_tail hm), (hS u hu).2⟩
    cases granted with
    | false => exact ⟨S, hcard, htail⟩
    | true =>
      obtain ⟨y, m, hy, hhead, hreq, hm, hterm⟩ := h.await id hp
      have hmem : y.port ∈ el.rest := List.mem_of_mem_head? hhead
      obtain ⟨u, -, hu⟩ := mem_peers (h.rest.subset hmem)
      -- the port of the new voter is at the head of the rest, those of the others are not in it
      have hnot : u ∉ S := fun hmS => (hS u hmS).1 (hu ▸ hmem)
      refine ⟨insert u S, by rw [Finset.card_insert_of_notMem hnot, hcard]; rfl, fun x hx => ?_⟩
      rcases Finset.mem_insert.mp hx with rfl | hx
      · refine ⟨?_, ?_⟩
        · have hnd := (peers_nodup v).sublist h.rest.sublist
          rw [← List.cons_head?_tail hhead] at hnd
          exact hu ▸ (List.nodup_cons.mp hnd).1
        · exact hterm ht ▸ hgrant rfl y m x hy hreq hm hu
      · exact htail x hx
  await _ hph := by cases hph

/-- The elections after a step of the site `v`. -/
theorem Votes.election_step (h : Votes c a) (hc : c.Sound) (hs : SiteStep c c' v i o) (hg : Grows LogEntry.term a b)
    (hnew : NewVotes b v o) {el : Election} (he : o.site.election = some el) (hj : el.phase ≠ .join) :
    ElectionVotes c'.calls b v o.site.node el := by
  obtain ⟨hstep, hsound⟩ := (hc.site v).step hs.outcome
  have hle := ((hc.site v).identity hstep).2.2.2
  have hkeep (heq : o.site.election = (c.sites v).election) : ElectionVotes c'.calls b v o.site.node el := by
    rw [heq] at he
    exact (h.election v el he hj).mono hs.callsKept hg ((hc.site v).election el he).2 hle
  have hvote (el₀ : Election) (id : ℕ) (r : Option Reply) (x : Option (ℤ × Bool)) (granted : Bool)
      (he₀ : (c.sites v).election = some el₀) (hp : el₀.phase = .await id) (hi : i = .reply .election r)
      (hr : r.bind Reply.requestVoteResponse = x) (hx : granted = true → ∃ t, x = some (t, true))
      (hn : o.site.node = (c.sites v).node)
      (heq : el = { el₀ with votes := if granted then el₀.votes + 1 else el₀.votes, rest := el₀.rest.tail, phase := .ask }) :
      ElectionVotes c'.calls b v o.site.node el := by
    have hel := h.election v el₀ he₀ (by rw [hp]; exact nofun)
    rw [hn, heq]
    refine (hel.vote hp granted ?_).mono hs.callsKept hg ((hc.site v).election el₀ he₀).2 le_rfl
    intro hgr y m u hy hreq hm hu
    obtain ⟨t, rfl⟩ := hx hgr
    obtain ⟨r, rfl, hr⟩ := Option.bind_eq_some_iff.mp hr
    have hresp := hs.reply .election r hi
    rw [response_election he₀ hp, hy] at hresp
    obtain ⟨w, hw, _, hb⟩ := h.calls y (List.mem_of_getElem? hy) m hreq
    obtain rfl : w = v := Fin.ext (by omega)
    exact hb u t hu (by rw [show y.resp = some r from hresp]; exact hr)
  cases hstep with
  | startElection he₀ hl =>
    obtain rfl := Option.some.inj he
    refine ⟨?_, fun _ => ⟨{v}, rfl, fun u hu => ?_⟩, fun _ hp => by cases hp⟩
    · exact (hc.peerRpcPorts v).symm ▸ List.suffix_rfl
    · obtain rfl := Finset.mem_singleton.mp hu
      obtain ⟨w, hw, hb⟩ := hnew.voted _ _ (List.mem_singleton.mpr rfl)
      obtain rfl : w = u := Fin.ext (by have := hc.id u; omega)
      exact ⟨(hc.peerRpcPorts w).symm ▸ port_notMem_peers w, hb⟩
  | join el₀ he₀ hp hh => cases he
  | ask el₀ p rest he₀ hp hr =>
    obtain rfl := Option.some.inj he
    have hel := (h.election v el₀ he₀ (by rw [hp]; exact nofun)).mono hs.callsKept hg
      ((hc.site v).election el₀ he₀).2 le_rfl
    refine ⟨hel.rest, hel.votes, ?_⟩
    intro id hid
    obtain rfl := ElectionPhase.await.inj hid
    refine ⟨⟨p, .requestVote (c.sites v).node.voteRequest, none⟩, (c.sites v).node.voteRequest, ?_, by simp [hr], rfl,
      hc.id v, id⟩
    rcases hs.calls with ⟨_, hcalls⟩ | ⟨_, _, _, hi, _⟩
    · rw [hcalls]
      simp [Outcome.calls]
    · cases hi
  | win el₀ he₀ hp hr hv =>
    simp only [Site.elected] at he
    split at he
    · obtain rfl := Option.some.inj he
      exact absurd rfl hj
    · cases he
  | lose el₀ he₀ hp hr hv => cases he
  | noVote el₀ id r he₀ hp hr =>
    exact hvote el₀ id r none false he₀ hp rfl hr nofun rfl (Option.some.inj he).symm
  | voteLater el₀ id r term g he₀ hp hr ht => cases he
  | vote el₀ id r term g he₀ hp hr ht =>
    refine hvote el₀ id r _ g he₀ hp rfl hr (fun hg' => ⟨term, by rw [hg']⟩) rfl (Option.some.inj he).symm
  | restart n store' hr => cases he
  | _ => exact hkeep rfl

/-- The calls after a step of the site `v`. -/
theorem Votes.calls_step (h : Votes c a) (hc : c.Sound) (hs : SiteStep c c' v i o) (hg : Grows LogEntry.term a b)
    (hnew : NewVotes b v o) : ∀ y ∈ c'.calls, CallVotes b y := by
  have happ : ∀ y ∈ c.calls ++ o.calls, CallVotes b y := by
    intro y hy
    rcases List.mem_append.mp hy with hy | hy
    · exact (h.calls y hy).grows hg
    · obtain ⟨x, hx, rfl⟩ := List.mem_map.mp hy
      obtain ⟨p, req⟩ := x
      intro m hm
      obtain rfl : req = .requestVote m := hm
      obtain ⟨w, hw, hL⟩ := hnew.asked p m (Option.mem_toList.mp hx)
      exact ⟨w, hw, hL, fun u t _ hr => by cases hr⟩
  rcases hs.calls with ⟨_, hcalls⟩ | ⟨id, y, hy, rfl, hresp, hport, hcalls⟩
  · rwa [hcalls]
  · rw [hcalls]
    intro z hz
    rcases mem_noteReply hz with hz | ⟨z₀, hz₀, rfl⟩
    · exact happ z hz
    · have hlt := (List.getElem?_eq_some_iff.mp hy).1
      rw [List.getElem?_append_left hlt, hy] at hz₀
      obtain rfl := Option.some.inj hz₀
      intro m hm
      obtain ⟨w, hw, hL, _⟩ := happ y (List.mem_append_left _ (List.mem_of_getElem? hy)) m hm
      refine ⟨w, hw, hL, fun u t hu hr => ?_⟩
      obtain rfl : u = v := port_inj (hu.symm.trans (hport.trans (hc.rpcPort v)))
      -- the reply is that of the handler, and a vote comes with it
      have ho := hs.outcome
      simp only [outcome, Site.step, Site.receive, RaftNode.handle, show y.req = .requestVote m from hm, Option.map_some,
        Option.some.injEq] at ho
      subst ho
      obtain ⟨w', hw', hb⟩ := hnew.voted _ _ (handleRequestVote_granted (hc.site u).node hr)
      obtain rfl : w = w' := Fin.ext (by omega)
      exact hb

/-- A step of the site `v` that its member follows keeps the relation. -/
theorem Votes.siteStep (h : Votes c a) (hc : c.Sound) (hs : SiteStep c c' v i o) (hg : Grows LogEntry.term a b)
    (hrole : RoleRel o.site.node.role (b.member v)) (hothers : ∀ u, u ≠ v → b.member u = a.member u)
    (hnew : i.isVote = true → NewVotes b v o) : Votes c' b := by
  have hnew : NewVotes b v o := by
    cases hi : i.isVote with
    | true => exact hnew hi
    | false => exact ((hc.site v).step hs.outcome).1.quiet hi
  refine ⟨fun u => ?_, fun u el he hj => ?_, h.calls_step hc hs hg hnew, fun u n hev => ?_⟩
  · rw [hs.site u]
    split
    · next hu => exact hu ▸ hrole
    · next hu => exact (hothers u hu).symm ▸ h.role u
  · rw [hs.site u] at he ⊢
    split at he
    · next hu =>
      subst hu
      simp only [if_true]
      exact h.election_step hc hs hg hnew he hj
    · next hu =>
      simp only [hu, if_false]
      exact (h.election u el he hj).mono hs.callsKept hg ((hc.site u).election el he).2 le_rfl
  · rw [hs.events] at hev
    rcases List.mem_append.mp hev with hev | hev
    · exact hg.winner _ _ (h.led u n hev)
    · obtain ⟨ev, hev, heq⟩ := List.mem_map.mp hev
      obtain ⟨rfl, rfl⟩ := Prod.mk.inj heq
      exact hnew.led n hev

/-- A call that is answered without being handled gives no vote. -/
theorem Votes.garble (h : Votes c a) (hc : c.Sound) (id : ℕ) : Votes (c.answer id (some .invalid)) a where
  role := h.role
  election v el he hj := (h.election v el he hj).mono (callsKept_noteReply _ id _) (Grows.refl a)
    ((hc.site v).election el he).2 le_rfl
  calls z hz := by
    rcases mem_noteReply hz with hz | ⟨z₀, hz₀, rfl⟩
    · exact h.calls z hz
    · intro m hm
      obtain ⟨w, hw, hL, _⟩ := h.calls z₀ (List.mem_of_getElem? hz₀) m hm
      exact ⟨w, hw, hL, fun u t _ hr => by simp [Reply.requestVoteResponse] at hr⟩
  led := h.led

/-! ## Runs -/

/-- An election that counts a majority in its own term has the ballots of one. -/
theorem Votes.quorum (h : Votes c a) {el : Election} (he : (c.sites v).election = some el) (hp : el.phase = .ask)
    (hv : N / 2 < el.votes) (ht : (c.sites v).node.currentTerm = el.term) :
    ∃ Q, (majority (Fin N)).IsQuorum Q ∧ ∀ u ∈ Q, HasBallot a u (a.member v).term v := by
  obtain ⟨S, hcard, hS⟩ := (h.election v el he (by rw [hp]; exact nofun)).votes ht
  refine ⟨S, ?_, fun u hu => ?_⟩
  · rw [majority_isQuorum_iff, Fintype.card_fin, hcard]
    omega
  · rw [(h.role v).term]
    exact (show (c.sites v).node.role.currentTerm = el.term from ht) ▸ (hS u hu).2

/-- The promotion of a candidate that has the ballots of a majority. -/
theorem elect_role {n : RaftNode} (h : RoleRel n.role (a.member v)) :
    RoleRel (Site.promoted n).role { a.member v with cand := False, lead := True, stable := (a.member v).log } :=
  ⟨h.term, h.vote, by simp [RaftNode.role, Site.promoted], by simp [RaftNode.role, Site.promoted]⟩

theorem votes_init (N : ℕ) : Votes (Cluster.init N) (State.init 0) where
  role _ := ⟨rfl, rfl, by simp [State.init, Cluster.init, Site.create, RaftNode.create, RaftNode.role],
    by simp [State.init, Cluster.init, Site.create, RaftNode.create, RaftNode.role]⟩
  election _ _ he := by cases he
  calls _ h := absurd h List.not_mem_nil
  led _ _ h := absurd h List.not_mem_nil

/-- The RequestVote handler makes no leader. -/
theorem handleRequestVote_not_led (n : RaftNode) (store : KVStore) (m : RequestVoteRPC) (n' : RaftNode) :
    Event.becameLeader n' ∉ (n.handleRequestVote store m).events := by
  unfold RaftNode.handleRequestVote
  simp only
  split
  · exact List.not_mem_nil
  · split
    · intro h
      cases List.mem_singleton.mp h
    · exact List.not_mem_nil

/-- What the handlers do to a role is a run of abstract steps, with a ballot for each vote that is granted. -/
theorem RaftNode.Sound.handle_votes {n : RaftNode} (hn : n.Sound) (ha : Consistent LogEntry.term (majority (Fin N)) a)
    (h : RoleRel n.role (a.member v)) {store : KVStore} {req : Request} {r : Handled}
    (hreq : ∀ m, req = .requestVote m → ∃ w : Fin N, m.candidateId = w.val ∧ ∃ L, (m.term, w, L) ∈ a.requests)
    (hr : n.handle store req = some r) :
    ∃ b, Moves False a b ∧ (∀ u, u ≠ v → b.member u = a.member u) ∧ RoleRel r.node.role (b.member v) ∧
      (∀ t x, Event.voted t x ∈ r.events → ∃ w : Fin N, x = w.val ∧ HasBallot b v t w) ∧
      ∀ n', Event.becameLeader n' ∉ r.events := by
  have hmove {b : Global N} {n' : RaftNode} (hf : Follows False v n n' a b) (hrole : r.node.role = n'.role)
      (hq : ∀ ev ∈ r.events, ev.Quiet) : ∃ b, Moves False a b ∧ (∀ u, u ≠ v → b.member u = a.member u) ∧
        RoleRel r.node.role (b.member v) ∧
        (∀ t x, Event.voted t x ∈ r.events → ∃ w : Fin N, x = w.val ∧ HasBallot b v t w) ∧
        ∀ n', Event.becameLeader n' ∉ r.events :=
    ⟨b, hf.moves, hf.others, hrole ▸ hf.role, fun t x hev => absurd rfl ((hq _ hev).1 t x),
      fun n' hev => absurd rfl ((hq _ hev).2 n')⟩
  cases req with
  | requestVote m =>
    obtain rfl := Option.some.inj hr
    obtain ⟨w, hw, L, hL⟩ := hreq m rfl
    obtain ⟨b, hf, hb⟩ := hn.follows_handleRequestVote False ha h store hw hL False.elim
    exact ⟨b, hf.moves, hf.others, hf.role, fun t x hev => ⟨w, hb t x hev⟩, handleRequestVote_not_led n store m⟩
  | appendEntries m =>
    obtain rfl := Option.some.inj hr
    have hq := handleAppendEntries_quiet n store m
    rcases n.handleAppendEntries_node store m with heq | ⟨ht, heq | heq⟩
    · exact hmove (follows_refl h) (congrArg RaftNode.role heq) hq
    · obtain ⟨b, hf⟩ := hn.follows_stepDown False h ht
      exact hmove hf ((congrArg RaftNode.role heq).trans (RaftNode.acceptEntries_role _ m)) hq
    · obtain ⟨b, hf⟩ := hn.follows_stepDown False h ht
      exact hmove hf ((congrArg RaftNode.role heq).trans
        ((RaftNode.advanceCommit_role _ _ _).trans (RaftNode.acceptEntries_role _ m))) hq
  | installSnapshot m =>
    have hq : ∀ ev ∈ r.events, ev.Quiet := by
      rw [show r.events = [] from handleInstallSnapshot_events hr]
      exact fun _ hev => absurd hev List.not_mem_nil
    rcases RaftNode.handleInstallSnapshot_node hr with heq | ⟨_, buffer, heq⟩
    · exact hmove (follows_refl h) (congrArg RaftNode.role heq) hq
    · obtain ⟨b, hf⟩ := hn.follows_seeTerm False h m.term
      refine hmove hf ?_ hq
      rcases heq with heq | heq | ⟨_, snap, _, _, _, heq⟩
      · simpa using congrArg RaftNode.role heq
      · simpa using congrArg RaftNode.role heq
      · simpa using congrArg RaftNode.role heq

/-- Every step of a site that elects in its own term is a run of abstract steps. -/
theorem Votes.refine (h : Votes c a) (ha : Consistent LogEntry.term (majority (Fin N)) a) (hc : c.Sound)
    (hs : SiteStep c c' v i o) (hown : Site.electsInOwnTerm N (c.sites v) i) : ∃ b, Moves False a b ∧ Votes c' b := by
  have hn := (hc.site v).node
  have hrole := h.role v
  have hstay (hr : o.site.node.role = (c.sites v).node.role) (hnew : i.isVote = true → NewVotes a v o) :
      ∃ b, Moves False a b ∧ Votes c' b :=
    ⟨a, Steps.refl a, h.siteStep hc hs (Grows.refl a) (hr ▸ hrole) (fun _ _ => rfl) hnew⟩
  have hmove {b : Global N} {n' : RaftNode} (hf : Follows False v (c.sites v).node n' a b)
      (hr : o.site.node.role = n'.role) (hnew : i.isVote = true → NewVotes b v o) : ∃ b, Moves False a b ∧ Votes c' b :=
    ⟨b, hf.moves, h.siteStep hc hs (ha.steps hf.moves).2 (hr ▸ hf.role) hf.others hnew⟩
  cases ((hc.site v).step hs.outcome).1 with
  | startElection he hl =>
    obtain ⟨b, hf, hb⟩ := follows_candidacy False hrole (hc.id v)
    refine hmove hf rfl (fun _ => ⟨fun t x hev => ?_, fun n hev => ?_, fun _ _ => nofun⟩)
    · obtain ⟨rfl, rfl⟩ := Event.voted.inj (List.mem_singleton.mp hev)
      exact ⟨v, hc.id v, hb⟩
    · cases List.mem_singleton.mp hev
  | join el he hp hh => exact hstay rfl (fun _ => ⟨fun _ _ => nofun, fun _ => nofun, fun _ _ => nofun⟩)
  | ask el p rest he hp hr =>
    obtain ⟨b, hf, hb⟩ := follows_ask False hrole
    refine hmove hf rfl (fun _ => ⟨fun _ _ => nofun, fun _ => nofun, fun q m hq => ?_⟩)
    obtain ⟨-, hreq⟩ := Send.mk.inj (Option.some.inj hq)
    obtain rfl := Request.requestVote.inj hreq
    exact ⟨v, hc.id v, _, hb⟩
  | win el he hp hr hv =>
    obtain ⟨hcand, ht⟩ := hown rfl el he hp hr hv
    obtain ⟨Q, hQ, hb⟩ := h.quorum he hp hv ht
    have hstep := (Step.elect v Q (hrole.cand.mpr hcand) hQ hb : Step LogEntry.term (majority (Fin N)) False a _).steps
    have hr := (c.sites v).elected_role el
    refine ⟨_, hstep, h.siteStep hc hs (ha.steps hstep).2 ?_ (fun u hu => by simp [hu]) (fun _ => ⟨?_, ?_, fun _ _ => nofun⟩)⟩
    · simp only [hr, State.put_member, if_true]
      exact elect_role hrole
    · intro t x hev
      cases List.mem_singleton.mp hev
    · intro n hev
      obtain rfl := Event.becameLeader.inj (List.mem_singleton.mp hev)
      have hterm : (a.member v).term = (Site.promoted (c.sites v).node).currentTerm := hrole.term
      simp [hterm]
  | lose el he hp hr hv => exact hstay rfl (fun _ => ⟨fun _ _ => nofun, fun _ => nofun, fun _ _ => nofun⟩)
  | voteLater el call r term g he hp hr ht =>
    obtain ⟨b, hf⟩ := follows_followReply False hrole ht
    exact hmove hf rfl nofun
  | heartbeatLater hb i nextIdx count call r term success hh hp hr ht =>
    obtain ⟨b, hf⟩ := follows_followReply False hrole ht
    exact hmove hf rfl nofun
  | later k call id r term success hk hp hr ht =>
    obtain ⟨b, hf⟩ := follows_followReply False hrole ht
    exact hmove hf rfl nofun
  | heartbeatReply hb i nextIdx count call r term success hh hp hr ht =>
    exact hstay (Site.heartbeatAnswered_role _ i nextIdx count success) nofun
  | heartbeatChunkReply hb i t call r hh hp phase hph => exact hstay (Transfer.reply_role t _ i r) nofun
  | commit k call hk hp hi hm => exact hstay (Site.commit_role _ _ call) nofun
  | failure k call id r term hk hp hr ht call' hcall => exact hstay (RaftNode.retreat_role _ _) nofun
  | chunkReply k call t id r hk hp call' hcall => exact hstay (Transfer.reply_role t _ _ r) nofun
  | snapshotNow hl => exact hstay (RaftNode.createSnapshot_role _ _) nofun
  | restart n store' hr =>
    obtain ⟨b, hf⟩ := hn.follows_restart False hrole hr
    exact hmove hf rfl nofun
  | receive req r hr =>
    rcases hs.calls with ⟨hno, _⟩ | ⟨_, y, hy, hi, _⟩
    · exact absurd rfl (hno req)
    · obtain rfl := Input.receive.inj hi
      obtain ⟨b, hm, hothers, hrole', hvoted, hled⟩ := hn.handle_votes ha hrole (fun m hm => by
        obtain ⟨w, hw, hL, _⟩ := h.calls y (List.mem_of_getElem? hy) m hm
        exact ⟨w, hw, hL⟩) hr
      exact ⟨b, hm, h.siteStep hc hs (ha.steps hm).2 hrole' hothers
        (fun _ => ⟨hvoted, fun n hev => absurd hev (hled n), fun _ _ => nofun⟩)⟩
  | _ => exact hstay rfl nofun

/-- An action in which no election is won but in its own term leads to a cluster that is related to a later abstract state. -/
theorem Votes.action {x : Action N} (h : Votes c a) (hm : Moves False (State.init 0) a) (hc : c.Sound)
    (hP : Acts (Site.electsInOwnTerm N) c x) (hs : c.step x = some c') :
    ∃ b : Global N, Moves False (State.init 0) b ∧ Votes c' b := by
  have ha := ((safe_init 0).toConsistent.steps hm).1
  rcases step_cases hs with ⟨v, i, o, hi, hs⟩ | ⟨id, y, rfl, hy, _, rfl⟩
  · obtain ⟨b, hmb, hvb⟩ := h.refine ha hc hs (hP _ hi)
    exact ⟨b, hm.trans hmb, hvb⟩
  · exact ⟨a, hm, h.garble hc id⟩

/-- A cluster all of whose elections are won in their own term is related to a state the abstract protocol reaches. -/
theorem Cluster.Reachable.votes (h : Reachable (Acts (Site.electsInOwnTerm N)) c) :
    ∃ a : Global N, Moves False (State.init 0) a ∧ Votes c a := by
  induction h with
  | init => exact ⟨_, Steps.refl _, votes_init N⟩
  | step hreach hP hstep ih =>
    obtain ⟨a, hm, hv⟩ := ih
    exact hv.action hm hreach.sound hP hstep

end RaftStore
