import RaftStore.Conditions
import RaftStore.Consensus.Completeness

/-!
# The node and the member

What a node of the cluster is in the abstract protocol: the role of the node is the term, the vote and the flags of a member,
the log over the snapshot is the member's log, and what the two files hold is its stable log. What the code does to a node is
then a run of abstract steps of its member: `Follows`.
-/

namespace RaftStore

open Consensus

/-- The abstract protocol over the nodes of a cluster: the terms are integers, the entries those of the code. -/
abbrev Global (N : ℕ) := State (Fin N) ℤ LogEntry

/-- A run of the abstract protocol in which the majorities are the quorums. -/
abbrev Moves {N : ℕ} (strict : Prop) (a b : Global N) : Prop := Steps LogEntry.term (majority (Fin N)) strict a b

variable {N : ℕ}

/-- The value of `votedFor` for a vote. -/
def VoteOf (x : ℤ) : Option (Fin N) → Prop
  | none => x = -1
  | some w => x = w.val

/-- A value of `votedFor` stands for one vote. -/
theorem VoteOf.inj {x : ℤ} {w w' : Option (Fin N)} (h : VoteOf x w) (h' : VoteOf x w') : w = w' := by
  cases w <;> cases w' <;> simp only [VoteOf] at h h'
  · rfl
  · omega
  · omega
  · congr 1
    exact Fin.ext (by omega)

/-- The role of a node as that of a member. -/
structure RoleRel (r : Role) (m : Member (Fin N) ℤ LogEntry) : Prop where
  term : m.term = r.currentTerm
  vote : VoteOf r.votedFor m.vote
  cand : m.cand ↔ r.state = .candidate
  lead : m.lead ↔ r.state = .leader

/-- The log that a crash leaves: what the snapshot stands for, and the entries of the metadata file. -/
def RaftNode.stable (n : RaftNode) : List LogEntry := n.covered ++ n.saved.logEntries

/-- The logs of a node as those of a member. -/
structure LogRel (n : RaftNode) (m : Member (Fin N) ℤ LogEntry) : Prop where
  log : m.log = n.full
  stable : m.stable = n.stable

/-- Member `v` moves from `a` to `b` as its node moves from `n` to `n'`, and the chains stay. -/
structure Follows (strict : Prop) (v : Fin N) (n n' : RaftNode) (a b : Global N) : Prop where
  moves : Moves strict a b
  others : ∀ u, u ≠ v → b.member u = a.member u
  chain : b.chain = a.chain
  winner : b.winner = a.winner
  role : RoleRel n'.role (b.member v)
  logs : LogRel n (a.member v) → LogRel n' (b.member v)

variable {strict : Prop} {v : Fin N} {n n' n'' : RaftNode} {a b c : Global N}

theorem Follows.trans (h : Follows strict v n n' a b) (h' : Follows strict v n' n'' b c) : Follows strict v n n'' a c where
  moves := h.moves.trans h'.moves
  others u hu := (h'.others u hu).trans (h.others u hu)
  chain := h'.chain.trans h.chain
  winner := h'.winner.trans h.winner
  role := h'.role
  logs hl := h'.logs (h.logs hl)

/-- A node that keeps its role and its logs follows without a step. -/
theorem follows_of_eq (h : RoleRel n.role (a.member v)) (hr : n'.role = n.role) (hf : n'.full = n.full)
    (hs : n'.stable = n.stable) : Follows strict v n n' a a where
  moves := Steps.refl a
  others _ _ := rfl
  chain := rfl
  winner := rfl
  role := hr ▸ h
  logs hl := ⟨hl.log.trans hf.symm, hl.stable.trans hs.symm⟩

theorem follows_refl (h : RoleRel n.role (a.member v)) : Follows strict v n n a a := follows_of_eq h rfl rfl rfl

/-- One abstract step that changes the record of a member. -/
theorem follows_put {m : Member (Fin N) ℤ LogEntry} (hstep : Step LogEntry.term (majority (Fin N)) strict a (a.put v m))
    (hrole : RoleRel n'.role m) (hlog : LogRel n (a.member v) → LogRel n' m) : Follows strict v n n' a (a.put v m) where
  moves := hstep.steps
  others u hu := by simp [hu]
  chain := rfl
  winner := rfl
  role := by simpa using hrole
  logs hl := by simpa using hlog hl

variable (strict) in
/-- A node that keeps its role and its log and writes the log to its files. -/
theorem follows_save (h : RoleRel n.role (a.member v)) (hr : n'.role = n.role) (hf : n'.full = n.full)
    (hs : n'.stable = n'.full) : ∃ b, Follows strict v n n' a b := by
  refine ⟨_, follows_put (Step.save v) ?_ ?_⟩
  · rw [hr]
    exact ⟨h.term, h.vote, h.cand, h.lead⟩
  · intro hl
    exact ⟨hl.log.trans hf.symm, by rw [hs, hf]; exact hl.log⟩

/-! ## Terms and roles -/

/-- A node that becomes a follower of a later term and writes its metadata. -/
theorem follows_adopt (h : RoleRel n.role (a.member v)) {t : ℤ} (ht : n.currentTerm < t) (hterm : n'.currentTerm = t)
    (hvote : n'.votedFor = -1) (hstate : n'.state = .follower) (hf : n'.full = n.full) (hs : n'.stable = n'.full) :
    ∃ b, Follows strict v n n' a b := by
  refine ⟨_, follows_put (Step.adopt v t (by rw [h.term]; exact ht)) ?_ ?_⟩
  · exact ⟨hterm.symm, hvote, by simp [RaftNode.role, hstate], by simp [RaftNode.role, hstate]⟩
  · intro hl
    exact ⟨hl.log.trans hf.symm, by rw [hs, hf]; exact hl.log⟩

variable (strict) in
theorem RaftNode.Sound.follows_seeTerm (hn : n.Sound) (h : RoleRel n.role (a.member v)) (t : ℤ) :
    ∃ b, Follows strict v n (n.seeTerm t) a b := by
  unfold RaftNode.seeTerm
  split
  · next ht =>
    rw [hn.becomeFollower_eq]
    exact follows_adopt h ht rfl rfl rfl rfl rfl
  · exact ⟨a, follows_refl h⟩

variable (strict) in
theorem follows_followReply (h : RoleRel n.role (a.member v)) {t : ℤ} (ht : n.currentTerm < t) :
    ∃ b, Follows strict v n (n.followReply t) a b :=
  follows_adopt h ht rfl rfl rfl rfl rfl

variable (strict) in
/-- The step down for an AppendEntries message: a later term is taken, or a candidate stands back in its own term. -/
theorem RaftNode.Sound.follows_stepDown (hn : n.Sound) (h : RoleRel n.role (a.member v)) {m : AppendEntriesRPC}
    (hm : n.currentTerm ≤ m.term) : ∃ b, Follows strict v n (n.stepDown m) a b := by
  unfold RaftNode.stepDown
  split
  · next hc =>
    rw [hn.becomeFollower_eq]
    by_cases ht : n.currentTerm < m.term
    · exact follows_adopt h ht rfl rfl rfl rfl rfl
    · have hcand : n.state = .candidate := hc.resolve_left ht
      refine ⟨_, follows_put (Step.yield v (h.cand.mpr hcand)) ?_ ?_⟩
      · have hterm : (a.member v).term = m.term := by
          rw [h.term]
          exact le_antisymm hm (not_lt.mp ht)
        have hlead : ¬(a.member v).lead := by
          rw [h.lead]
          simp [RaftNode.role, hcand]
        exact ⟨hterm, rfl, by simp [RaftNode.role, RaftNode.persistMetadata],
          by simp [RaftNode.role, RaftNode.persistMetadata, hlead]⟩
      · intro hl
        exact ⟨hl.log, hl.log⟩
  · exact ⟨a, follows_of_eq h rfl rfl rfl⟩

/-- A ballot of `u` in term `t` for `w` has been cast. -/
def HasBallot (a : Global N) (u : Fin N) (t : ℤ) (w : Fin N) : Prop :=
  ∃ b ∈ a.ballots, b.voter = u ∧ b.term = t ∧ b.candidate = w

theorem HasBallot.grows (hg : Grows LogEntry.term a b) {u : Fin N} {t : ℤ} {w : Fin N} (h : HasBallot a u t w) :
    HasBallot b u t w := by
  obtain ⟨x, hx, h⟩ := h
  exact ⟨x, hg.ballots hx, h⟩

variable (strict) in
/-- The first step of an election: the node becomes a candidate of the next term and votes for itself. -/
theorem follows_candidacy (h : RoleRel n.role (a.member v)) (hid : n.id = v.val) :
    ∃ b, Follows strict v n (Site.candidacy n) a b ∧ HasBallot b v (n.currentTerm + 1) v := by
  have ht : (a.member v).term < n.currentTerm + 1 := by
    rw [h.term]
    exact Int.lt_add_one_iff.mpr le_rfl
  refine ⟨_, ⟨(Step.campaign v (n.currentTerm + 1) ht).steps, ?_, rfl, rfl, ?_, ?_⟩, ?_⟩
  · intro u hu
    simp [hu]
  · simp only [State.put_member, if_true]
    exact ⟨rfl, hid, by simp [RaftNode.role, Site.candidacy, RaftNode.persistMetadata],
      by simp [RaftNode.role, Site.candidacy, RaftNode.persistMetadata]⟩
  · intro hl
    simp only [State.put_member, if_true]
    exact ⟨hl.log, hl.log⟩
  · exact ⟨_, Set.mem_insert _ _, rfl, rfl, rfl⟩

variable (strict) in
/-- A candidate shows its log and asks for a vote. -/
theorem follows_ask (h : RoleRel n.role (a.member v)) :
    ∃ b, Follows strict v n n a b ∧ (n.currentTerm, v, (a.member v).log) ∈ b.requests := by
  refine ⟨_, ⟨(Step.ask v).steps, fun _ _ => rfl, rfl, rfl, h, id⟩, ?_⟩
  rw [← show (a.member v).term = n.currentTerm from h.term]
  exact Set.mem_insert _ _

/-- A vote is granted: the node is in the term of the request, and has no vote in it or has it with the candidate. -/
theorem follows_grant (h : RoleRel n.role (a.member v)) {w : Fin N} {L : List LogEntry} {x : ℤ} (hx : x = w.val)
    (hr : (n.currentTerm, w, L) ∈ a.requests) (hv : n.votedFor = -1 ∨ n.votedFor = x)
    (hu : strict → UpToDate LogEntry.term L (a.member v).log) :
    ∃ b, Follows strict v n { n with votedFor := x }.persistMetadata a b ∧ HasBallot b v n.currentTerm w := by
  have ht : (a.member v).term = n.currentTerm := h.term
  have hvote : (a.member v).vote = none ∨ (a.member v).vote = some w := by
    rcases hv with hv | hv
    · exact Or.inl (h.vote.inj (show VoteOf _ none from hv))
    · exact Or.inr (h.vote.inj (show VoteOf _ (some w) from hv.trans hx))
  refine ⟨_, ⟨(Step.grant v w L (by rw [ht]; exact hr) hvote hu).steps, ?_, rfl, rfl, ?_, ?_⟩, ?_⟩
  · intro u hu
    simp [hu]
  · simp only [State.put_member, if_true]
    exact ⟨h.term, hx, h.cand, h.lead⟩
  · intro hl
    simp only [State.put_member, if_true]
    exact ⟨hl.log, hl.log⟩
  · exact ⟨_, Set.mem_insert _ _, rfl, ht, rfl⟩

/-- What the RequestVote handler does before it decides: a later term is seen, and the log is not touched. -/
theorem RaftNode.Sound.seeTerm_log (hn : n.Sound) (t : ℤ) :
    (n.seeTerm t).log = n.log ∧ (n.seeTerm t).latestSnapshot = n.latestSnapshot := by
  unfold RaftNode.seeTerm
  split
  · rw [hn.becomeFollower_eq]
    exact ⟨rfl, rfl⟩
  · exact ⟨rfl, rfl⟩

/-- The check of the voter looks at `log` only. -/
theorem candidateUpToDate_congr (h : n'.log = n.log) (m : RequestVoteRPC) :
    n'.candidateUpToDate m = n.candidateUpToDate m := by
  cases n
  cases n'
  subst h
  rfl

/-- The handler grants a vote only under the conditions of `grants`. -/
theorem RaftNode.Sound.grants_of_seeTerm (hn : n.Sound) {m : RequestVoteRPC} (ht : n.currentTerm ≤ m.term)
    (hv : (n.seeTerm m.term).votedFor = -1 ∨ (n.seeTerm m.term).votedFor = m.candidateId)
    (hu : (n.seeTerm m.term).candidateUpToDate m = true) : n.grants m := by
  refine ⟨ht, ?_, ?_⟩
  · by_cases hlt : n.currentTerm < m.term
    · exact Or.inl hlt
    · rw [RaftNode.seeTerm, if_neg hlt] at hv
      exact Or.inr hv
  · rwa [candidateUpToDate_congr (hn.seeTerm_log m.term).1] at hu

variable (strict) in
/-- The RequestVote handler, for a request that has been made in the abstract protocol. -/
theorem RaftNode.Sound.follows_handleRequestVote (hn : n.Sound) (ha : Consistent LogEntry.term (majority (Fin N)) a)
    (h : RoleRel n.role (a.member v)) (store : KVStore) {m : RequestVoteRPC} {w : Fin N} {L : List LogEntry}
    (hw : m.candidateId = w.val) (hr : (m.term, w, L) ∈ a.requests)
    (hu : strict → n.grants m → LogRel n (a.member v) ∧ UpToDate LogEntry.term L n.full) :
    ∃ b, Follows strict v n (n.handleRequestVote store m).node a b ∧
      ∀ t x, Event.voted t x ∈ (n.handleRequestVote store m).events → x = w.val ∧ HasBallot b v t w := by
  unfold RaftNode.handleRequestVote
  simp only
  split
  · exact ⟨a, follows_refl h, fun _ _ hev => absurd hev List.not_mem_nil⟩
  · next ht =>
    obtain ⟨a₁, h₁⟩ := hn.follows_seeTerm strict h m.term
    have hterm := hn.seeTerm_term (not_lt.mp ht)
    split
    · next hc =>
      have hup : strict → UpToDate LogEntry.term L (a₁.member v).log := by
        intro hstrict
        obtain ⟨hl, hup⟩ := hu hstrict (hn.grants_of_seeTerm (not_lt.mp ht) hc.1 hc.2)
        rw [(h₁.logs hl).log, RaftNode.full, RaftNode.covered, (hn.seeTerm_log m.term).1, (hn.seeTerm_log m.term).2]
        exact hup
      have hr₁ := (ha.steps h₁.moves).2.requests hr
      obtain ⟨b, hb, hbal⟩ := follows_grant h₁.role hw (by rw [hterm]; exact hr₁) hc.1 hup
      refine ⟨b, h₁.trans hb, fun t x hev => ?_⟩
      obtain ⟨rfl, rfl⟩ := Event.voted.inj (List.mem_singleton.mp hev)
      exact ⟨hw, hbal⟩
    · exact ⟨a₁, h₁, fun _ _ hev => absurd hev List.not_mem_nil⟩

/-- A node that is started again has the log its files held. -/
theorem RaftNode.Sound.restart_full (hn : n.Sound) {store store' : KVStore} (hr : n.restart store = some (n', store')) :
    n'.full = n.stable ∧ n'.stable = n.stable := by
  obtain ⟨_, rfl⟩ := hn.restart_eq hr
  exact ⟨rfl, rfl⟩

variable (strict) in
/-- A crash leaves a follower with its term, its vote and its stable log. -/
theorem RaftNode.Sound.follows_restart (hn : n.Sound) (h : RoleRel n.role (a.member v)) {store store' : KVStore}
    (hr : n.restart store = some (n', store')) : ∃ b, Follows strict v n n' a b := by
  obtain ⟨hfull, hstable⟩ := hn.restart_full hr
  have hrole := (hn.restart hr).2
  refine ⟨_, follows_put (Step.crash v) ?_ ?_⟩
  · rw [hrole]
    exact ⟨h.term, h.vote, by simp, by simp⟩
  · intro hl
    exact ⟨hl.stable.trans hfull.symm, hl.stable.trans hstable.symm⟩

end RaftStore
