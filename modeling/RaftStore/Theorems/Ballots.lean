import RaftStore.Refinement.Votes
import RaftStore.Solo

/-!
# Votes of one node

A node gives at most one vote in a term, in every run in which no AppendEntries message of its own term comes in while it is a
candidate. `becomeFollower` forgets the vote whatever the term, and the AppendEntries handler calls it for a candidate of the
message's own term too.
-/

namespace RaftStore

/-- No AppendEntries message of the node's own term comes in while the node is a candidate, and votes are asked for by nodes. -/
def Site.keepsVote (s : Site) (i : Input) : Prop :=
  (∀ m ∈ i.appendEntries, s.node.state = .candidate → m.term ≠ s.node.currentTerm) ∧
    ∀ m ∈ i.requestVote, m.candidateId ≠ -1

instance (s : Site) (i : Input) : Decidable (s.keepsVote i) :=
  inferInstanceAs (Decidable ((∀ m ∈ i.appendEntries, s.node.state = .candidate → m.term ≠ s.node.currentTerm) ∧
    ∀ m ∈ i.requestVote, m.candidateId ≠ -1))

/-- What a step does to the vote of a node: within a term the vote is given once, and what is given is what the node notes. -/
structure Ballot (r r' : Role) (events : List Event) : Prop where
  term : r.currentTerm ≤ r'.currentTerm
  vote : r'.currentTerm = r.currentTerm → r.votedFor = -1 ∨ r'.votedFor = r.votedFor
  voted : ∀ t x, Event.voted t x ∈ events → t = r'.currentTerm ∧ x = r'.votedFor ∧ x ≠ -1

namespace Ballot

variable {r r' : Role} {events : List Event}

/-- A step that leaves the role alone and gives no vote. -/
theorem of_eq (hr : r' = r) (hq : ∀ ev ∈ events, ev.Quiet) : Ballot r r' events where
  term := (congrArg Role.currentTerm hr).ge
  vote _ := Or.inr (congrArg Role.votedFor hr)
  voted t x hev := absurd rfl ((hq _ hev).1 t x)

/-- A step to a later term that gives no vote. -/
theorem of_lt (ht : r.currentTerm < r'.currentTerm) (hq : ∀ ev ∈ events, ev.Quiet) : Ballot r r' events where
  term := ht.le
  vote h := absurd h ht.ne'
  voted t x hev := absurd rfl ((hq _ hev).1 t x)

end Ballot

namespace RaftNode

variable {n : RaftNode}

/-- A term that is seen, and the vote after it. -/
theorem Sound.seeTerm_ballot (h : n.Sound) {t : ℤ} (ht : n.currentTerm ≤ t) :
    n.currentTerm < t ∧ (n.seeTerm t).votedFor = -1 ∨ n.currentTerm = t ∧ (n.seeTerm t).votedFor = n.votedFor := by
  unfold RaftNode.seeTerm
  split
  · next hlt =>
    rw [h.becomeFollower_eq]
    exact Or.inl ⟨hlt, rfl⟩
  · exact Or.inr ⟨by omega, rfl⟩

theorem Sound.handleRequestVote_ballot (h : n.Sound) (store : KVStore) {m : RequestVoteRPC} (hm : m.candidateId ≠ -1) :
    Ballot n.role (n.handleRequestVote store m).node.role (n.handleRequestVote store m).events := by
  unfold RaftNode.handleRequestVote
  simp only
  split
  · exact Ballot.of_eq rfl (by simp)
  · next ht =>
    have ht : n.currentTerm ≤ m.term := by omega
    have hterm := h.seeTerm_term ht
    have hvote := h.seeTerm_ballot ht
    split
    · next hc =>
      refine ⟨?_, ?_, ?_⟩
      · show n.currentTerm ≤ (n.seeTerm m.term).currentTerm
        omega
      · intro heq
        have heq : (n.seeTerm m.term).currentTerm = n.currentTerm := heq
        rcases hvote with ⟨hlt, _⟩ | ⟨_, hv⟩
        · omega
        · exact hc.1.imp (fun h => hv.symm.trans h) (fun h => h.symm.trans hv)
      · intro t x hev
        obtain ⟨rfl, rfl⟩ := Event.voted.inj (List.mem_singleton.mp hev)
        exact ⟨rfl, rfl, hm⟩
    · refine ⟨?_, ?_, by simp⟩
      · show n.currentTerm ≤ (n.seeTerm m.term).currentTerm
        omega
      · intro heq
        have heq : (n.seeTerm m.term).currentTerm = n.currentTerm := heq
        rcases hvote with ⟨hlt, _⟩ | ⟨_, hv⟩
        · omega
        · exact Or.inr hv

/-- A step down for a message that is not of the term the node is a candidate of. -/
theorem Sound.stepDown_ballot (h : n.Sound) {m : AppendEntriesRPC} (ht : n.currentTerm ≤ m.term)
    (hc : n.state = .candidate → m.term ≠ n.currentTerm) {events : List Event} (hq : ∀ ev ∈ events, ev.Quiet) :
    Ballot n.role (n.stepDown m).role events := by
  by_cases hlt : n.currentTerm < m.term
  · refine Ballot.of_lt ?_ hq
    exact hlt.trans_eq (h.stepDown_role ht).1.symm
  · have hstate : n.state ≠ .candidate := fun hst => hc hst (by omega)
    refine Ballot.of_eq ?_ hq
    unfold RaftNode.stepDown
    rw [if_neg (not_or.mpr ⟨hlt, hstate⟩)]
    rfl

theorem Sound.handleAppendEntries_ballot (h : n.Sound) (store : KVStore) {m : AppendEntriesRPC}
    (hc : n.state = .candidate → m.term ≠ n.currentTerm) :
    Ballot n.role (n.handleAppendEntries store m).node.role (n.handleAppendEntries store m).events := by
  have hq := handleAppendEntries_quiet n store m
  rcases n.handleAppendEntries_node store m with heq | ⟨ht, heq | heq⟩
  · rw [heq]
    exact Ballot.of_eq rfl hq
  · rw [heq, acceptEntries_role]
    exact h.stepDown_ballot ht hc hq
  · rw [heq, advanceCommit_role, acceptEntries_role]
    exact h.stepDown_ballot ht hc hq

theorem Sound.handleInstallSnapshot_ballot (h : n.Sound) {store : KVStore} {m : InstallSnapshotRPC} {r : Handled}
    (hr : n.handleInstallSnapshot store m = some r) : Ballot n.role r.node.role r.events := by
  have hq : ∀ ev ∈ r.events, ev.Quiet := by simp [handleInstallSnapshot_events hr]
  rcases handleInstallSnapshot_node hr with heq | ⟨ht, _⟩
  · exact Ballot.of_eq (by rw [heq]) hq
  · rw [handleInstallSnapshot_role hr ht]
    by_cases hlt : n.currentTerm < m.term
    · exact Ballot.of_lt (hlt.trans_eq (h.seeTerm_term ht).symm) hq
    · refine Ballot.of_eq ?_ hq
      unfold RaftNode.seeTerm
      rw [if_neg hlt]

end RaftNode

/-- What every step does to the vote of the node. -/
theorem Site.Sound.ballot {size next : ℕ} {s : Site} {store : KVStore} {i : Input} {o : Outcome} (h : s.Sound)
    (hs : Site.Step size next s store i o) (hid : s.node.id ≠ -1) (hk : s.keepsVote i) :
    Ballot s.node.role o.site.node.role o.events := by
  have hsame {n : RaftNode} (hr : n.role = s.node.role) : Ballot s.node.role n.role [] := Ballot.of_eq hr (by simp)
  have hlater {n : RaftNode} (ht : s.node.currentTerm < n.currentTerm) : Ballot s.node.role n.role [] :=
    Ballot.of_lt ht (by simp)
  cases hs with
  | startElection he hl =>
    refine ⟨(Int.le_add_one le_rfl), fun heq => ?_, fun t x hev => ?_⟩
    · have heq : s.node.currentTerm + 1 = s.node.currentTerm := heq
      omega
    · obtain ⟨rfl, rfl⟩ := Event.voted.inj (List.mem_singleton.mp hev)
      exact ⟨rfl, rfl, hid⟩
  | win el he hp hr hv =>
    have hrole := s.elected_role el
    have hvote : (s.elected el).node.votedFor = s.node.votedFor := congrArg Role.votedFor hrole
    refine ⟨?_, ?_, ?_⟩
    · exact (congrArg Role.currentTerm hrole).ge
    · exact fun _ => Or.inr hvote
    · exact fun t x hev => nomatch List.mem_singleton.mp hev
  | voteLater el call r term g he hp hr ht => exact hlater ht
  | heartbeatLater hb i nextIdx count call r term success hh hp hr ht => exact hlater ht
  | heartbeatReply hb i nextIdx count call r term success hh hp hr ht =>
    exact hsame (heartbeatAnswered_role s.node i nextIdx count success)
  | heartbeatChunkReply hb i t call r hh hp phase hph => exact hsame (Transfer.reply_role t s.node i r)
  | cached req result hl hc => exact Ballot.of_eq rfl (by simp [Event.Quiet])
  | commit k call hk hp hi hm => exact Ballot.of_eq (commit_role s.node store call) (commit_quiet _ _ _)
  | later k call id r term success hk hp hr ht => exact hlater ht
  | failure k call id r term hk hp hr ht call' hc => exact hsame (RaftNode.retreat_role _ _)
  | chunkReply k call t id r hk hp call' hc => exact hsame (Transfer.reply_role t s.node call.i r)
  | receive req r hr =>
    cases req with
    | requestVote m =>
      obtain rfl := Option.some.inj hr
      exact h.node.handleRequestVote_ballot store (hk.2 m rfl)
    | appendEntries m =>
      obtain rfl := Option.some.inj hr
      exact h.node.handleAppendEntries_ballot store (hk.1 m rfl)
    | installSnapshot m => exact h.node.handleInstallSnapshot_ballot hr
  | snapshotNow hl => exact hsame (s.node.createSnapshot_role store)
  | restart n store' hr =>
    have hrole := (h.node.restart hr).2
    have hvote : n.votedFor = s.node.votedFor := congrArg Role.votedFor hrole
    refine ⟨?_, ?_, ?_⟩
    · exact (congrArg Role.currentTerm hrole).ge
    · exact fun _ => Or.inr hvote
    · exact fun t x hev => nomatch hev
  | _ => exact hsame rfl

/-! ## Runs -/

namespace Solo

variable {size : ℕ} {x : Solo}

/-- The votes in the history are of terms that are not after the node's, and those of its term are the one it notes; two of one
term are the same. -/
structure VotedOnce (x : Solo) : Prop where
  sound : x.site.Sound
  id_ne : x.site.node.id ≠ -1
  term : ∀ t a, Event.voted t a ∈ x.events → t ≤ x.site.node.currentTerm
  vote : ∀ t a, Event.voted t a ∈ x.events → t = x.site.node.currentTerm → a = x.site.node.votedFor ∧ a ≠ -1
  once : ∀ t a b, Event.voted t a ∈ x.events → Event.voted t b ∈ x.events → a = b

theorem VotedOnce.step {y : Solo} {w : Occurrence} (h : x.VotedOnce) (hk : x.site.keepsVote w.input)
    (hs : x.step size w = some y) : y.VotedOnce := by
  obtain ⟨o, ho, hsound, rfl⟩ := step_inv h.sound hs
  obtain ⟨hterm, hvote, hvoted⟩ := h.sound.ballot ho h.id_ne hk
  have hterm : x.site.node.currentTerm ≤ o.site.node.currentTerm := hterm
  have hvote (heq : o.site.node.currentTerm = x.site.node.currentTerm) : x.site.node.votedFor = -1 ∨
      o.site.node.votedFor = x.site.node.votedFor := hvote heq
  have hvoted (t a : ℤ) (hev : Event.voted t a ∈ o.events) : t = o.site.node.currentTerm ∧ a = o.site.node.votedFor ∧
      a ≠ -1 := hvoted t a hev
  -- a vote of the node's term that was given before is the one it still notes
  have hkept (t a : ℤ) (hev : Event.voted t a ∈ x.events) (ht : t = o.site.node.currentTerm) :
      a = o.site.node.votedFor ∧ a ≠ -1 := by
    have hle := h.term t a hev
    obtain ⟨ha, hne⟩ := h.vote t a hev (by omega)
    rcases hvote (by omega) with hv | hv
    · exact absurd (ha.trans hv) hne
    · exact ⟨ha.trans hv.symm, hne⟩
  refine ⟨hsound, ?_, ?_, ?_, ?_⟩
  · rw [show o.site.node.id = x.site.node.id from (h.sound.identity ho).1]
    exact h.id_ne
  · intro t a hev
    rcases List.mem_append.mp hev with hev | hev
    · exact (h.term t a hev).trans hterm
    · exact (hvoted t a hev).1.le
  · intro t a hev ht
    rcases List.mem_append.mp hev with hev | hev
    · exact hkept t a hev ht
    · exact (hvoted t a hev).2
  · intro t a b ha hb
    rcases List.mem_append.mp ha with ha | ha <;> rcases List.mem_append.mp hb with hb | hb
    · exact h.once t a b ha hb
    · obtain ⟨ht, hb, _⟩ := hvoted t b hb
      exact (hkept t a ha ht).1.trans hb.symm
    · obtain ⟨ht, ha, _⟩ := hvoted t a ha
      exact ha.trans (hkept t b hb ht).1.symm
    · exact (hvoted t a ha).2.1.trans (hvoted t b hb).2.1.symm

theorem votedOnce_create (v : ℕ) (port : ℤ) (peers : List ℤ) : (Solo.create v port peers).VotedOnce where
  sound := Site.sound_create _ _ _
  id_ne := by
    show (v : ℤ) ≠ -1
    omega
  term _ _ h := absurd h List.not_mem_nil
  vote _ _ h := absurd h List.not_mem_nil
  once _ _ _ h := absurd h List.not_mem_nil

theorem Run.votedOnce {y : Solo} (h : Run size Site.keepsVote x y) (hx : x.VotedOnce) : y.VotedOnce :=
  h.invariant (fun _ _ _ hx hk hs => hx.step hk hs) hx

/-- One vote per term: when no AppendEntries message of the node's own term comes in while it is a candidate, two votes of the
node in one term, for itself or in replies, are for one candidate. -/
theorem one_vote_per_term {v : ℕ} {port : ℤ} {peers : List ℤ}
    (h : Run size Site.keepsVote (Solo.create v port peers) x) {t a b : ℤ}
    (ha : Event.voted t a ∈ x.events) (hb : Event.voted t b ∈ x.events) : a = b :=
  (Run.votedOnce h (votedOnce_create v port peers)).once t a b ha hb

/-- The votes a node has given: term and candidate. -/
def votes (x : Solo) : List (ℤ × ℤ) :=
  x.events.filterMap fun ev => match ev with
    | .voted t a => some (t, a)
    | _ => none

theorem mem_votes {t a : ℤ} (h : (t, a) ∈ x.votes) : Event.voted t a ∈ x.events := by
  obtain ⟨ev, hev, heq⟩ := List.mem_filterMap.mp h
  cases ev with
  | voted t' a' =>
    obtain ⟨rfl, rfl⟩ := Prod.mk.inj (Option.some.inj heq)
    exact hev
  | _ => cases heq

/-- A RequestVote message of a node with an empty log. -/
def askVote (term candidateId : ℤ) : Input :=
  .receive (.requestVote { term := term, candidateId := candidateId, lastLogIndex := -1, lastLogTerm := 0 })

/-- A heartbeat of a leader with an empty log. -/
def emptyHeartbeat (term leaderId : ℤ) : Input :=
  .receive (.appendEntries
    { term := term, leaderId := leaderId, prevLogIndex := -1, prevLogTerm := 0, entries := [], leaderCommit := 0 })

/-- Node 0 of five nodes. -/
def ofFive : Solo := create (0 : ℕ) 5000 [5001, 5002, 5003, 5004]

/-- Node 0 is a candidate in term 1, and votes in term 2 for node 3, which asks twice. -/
def votesAgain : List Input := [.startElection, askVote 2 3, emptyHeartbeat 2 3, askVote 2 3, askVote 2 4]

theorem votesAgain_votes :
    ∃ x ∈ run 5 Site.keepsVote ofFive votesAgain, x.votes = [(1, 0), (2, 3), (2, 3)] := by
  decide +kernel

/-- In that run node 0 votes in term 2 for node 3 only. -/
theorem one_vote_per_term_votesAgain : ∃ x ∈ run 5 Site.keepsVote ofFive votesAgain,
    Event.voted 2 3 ∈ x.events ∧ ∀ a, Event.voted 2 a ∈ x.events → 3 = a := by
  obtain ⟨x, hx, hvotes⟩ := votesAgain_votes
  have hm : Event.voted 2 3 ∈ x.events := mem_votes (by simp [hvotes])
  exact ⟨x, hx, hm, fun a ha => one_vote_per_term (Run.run .refl hx) hm ha⟩

/-- Node 0 is a candidate in term 1, hears of node 1, the leader of that term, and then of node 2, another candidate in it. -/
def votesTwice : List Input := [.startElection, emptyHeartbeat 1 1, askVote 1 2]

theorem votesTwice_votes : ∃ x ∈ run 5 (fun _ _ => True) ofFive votesTwice, x.votes = [(1, 0), (1, 2)] := by
  decide +kernel

/-- A node can give two votes in a term. -/
theorem two_votes_in_term : ¬∀ x, Run 5 (fun _ _ => True) ofFive x → ∀ t a b, Event.voted t a ∈ x.events →
    Event.voted t b ∈ x.events → a = b := by
  intro h
  obtain ⟨x, hx, hvotes⟩ := votesTwice_votes
  have := h x (Run.run .refl hx) 1 0 2 (mem_votes (by simp [hvotes])) (mem_votes (by simp [hvotes]))
  exact absurd this (by decide)

end Solo

end RaftStore
