import RaftStore.Refinement.Append

/-!
# The handlers and the abstract protocol

Each of the three handlers is a run of abstract steps of the member that receives the message, if the conditions on the run hold
for it. A positive answer to AppendEntries is an acknowledgement.
-/

namespace RaftStore

open Consensus Cluster

variable {N : ℕ} {strict bound : Prop} {a b : Global N} {v : Fin N} {n : RaftNode}

/-- The conditions under which a step is one of the abstract protocol: logs match, with `strict` committed entries stay, and with
`bound` they are what is applied. -/
structure Site.Refines (strict bound : Prop) (size : ℕ) (s : Site) (i : Input) : Prop where
  logs : Site.matchesLogs size s i
  votes : strict → Site.votesOnWholeLog s i
  skips : strict → Site.skipsHeld s i
  drops : strict → Site.dropsNothing s i
  commits : strict → Site.commitsAsLeader s i
  verified : bound → Site.commitsVerified s i

/-- A node and its member. -/
structure NodeRel (bound : Prop) (a : Global N) (v : Fin N) (n : RaftNode) : Prop where
  sound : n.Sound
  aligned : n.Aligned
  role : RoleRel n.role (a.member v)
  logs : LogRel n (a.member v)
  applied : bound → AppliedRel a n

/-- What a handler leaves, in the abstract protocol. -/
structure Answers (strict bound : Prop) (v : Fin N) (a b : Global N) (r : Handled) : Prop where
  moves : Moves strict a b
  others : ∀ u, u ≠ v → b.member u = a.member u
  role : RoleRel r.node.role (b.member v)
  logs : LogRel r.node (b.member v)
  applied : bound → AppliedRel b r.node
  event : ∀ ev ∈ r.events, EventRel strict bound b ev

/-- The committed part of a node that follows with the same log and the same indices. -/
theorem AppliedRel.congr {n n' : RaftNode} (h : AppliedRel a n) (hg : Grows LogEntry.term a b)
    (hterm : n.currentTerm ≤ n'.currentTerm) (hf : n'.full = n.full) (hl : n'.lastApplied = n.lastApplied)
    (hc : n'.commitIndex = n.commitIndex) : AppliedRel b n' where
  commit := by
    rw [hl, hc]
    exact h.commit
  settled := by
    rw [hl, hf]
    exact (h.settled.grows hg).mono hterm le_rfl List.prefix_rfl

/-- A handler that leaves the log and the indices of the node. -/
theorem Follows.answers {r : Handled} (hf : Follows strict v n r.node a b)
    (ha : Consistent LogEntry.term (majority (Fin N)) a) (h : NodeRel bound a v n)
    (hterm : n.currentTerm ≤ r.node.currentTerm) (hfull : r.node.full = n.full) (hl : r.node.lastApplied = n.lastApplied)
    (hc : r.node.commitIndex = n.commitIndex) (hev : ∀ ev ∈ r.events, EventRel strict bound b ev) :
    Answers strict bound v a b r :=
  ⟨hf.moves, hf.others, hf.role, hf.logs h.logs,
    fun hb => (h.applied hb).congr (ha.steps hf.moves).2 hterm hfull hl hc, hev⟩

/-! ## RequestVote -/

/-- The last index and the last term of an aligned node are those of its whole log. -/
theorem RaftNode.Aligned.lastTerm_eq (h : n.Aligned) : n.getLogTerm (n.getLogSize - 1) = lastTerm n.full := by
  have hs := h.getLogSize_eq
  have hc := h.covered_length
  have hlen : n.full.length = n.covered.length + n.log.length := List.length_append
  unfold lastTerm
  rw [List.getLast?_eq_getElem?]
  cases hl : n.full with
  | nil =>
    rw [hl] at hs
    rw [h.getLogTerm_zero (Or.inl (by simp at hs; omega))]
    rfl
  | cons e es =>
    rw [h.getLogTerm_eq (by rw [hs, hl]; simp) (by omega), ← hl]
    congr 3
    omega

/-- A candidate whose last term and last index pass the check on the whole log is up to date with it. -/
theorem RaftNode.Aligned.upToDate (h : n.Aligned) {m : RequestVoteRPC} {L : List LogEntry}
    (hi : m.lastLogIndex = L.length - 1) (ht : m.lastLogTerm = lastTerm L) (hu : n.logUpToDate m) :
    UpToDate LogEntry.term L n.full := by
  have hs := h.getLogSize_eq
  rcases List.eq_nil_or_concat n.full with hnil | ⟨l, e', hcat⟩
  · exact Or.inl hnil
  · right
    have hlast : n.full.getLast? = some e' := by simp [hcat]
    have hpos := h.placed.term_pos (List.mem_of_getLast? hlast)
    have hterm : lastTerm n.full = e'.term := by simp [lastTerm, hlast]
    unfold RaftNode.logUpToDate at hu
    rw [h.lastTerm_eq, hterm, ht, hi, hs] at hu
    cases hL : L.getLast? with
    | none =>
      have : lastTerm L = 0 := by simp [lastTerm, hL]
      omega
    | some e =>
      have hLe : lastTerm L = e.term := by simp [lastTerm, hL]
      rw [hLe] at hu
      exact ⟨e, e', rfl, hlast, by omega⟩

variable (strict) in
/-- The RequestVote handler. -/
theorem NodeRel.handleRequestVote (h : NodeRel bound a v n) (ha : Consistent LogEntry.term (majority (Fin N)) a)
    {m : RequestVoteRPC} (hm : VoteRel a m) (hvote : strict → n.grants m → n.logUpToDate m) (store : KVStore) :
    ∃ b, Answers strict bound v a b (n.handleRequestVote store m) ∧
      ∀ t x, Event.voted t x ∈ (n.handleRequestVote store m).events → ∃ w : Fin N, x = w.val ∧ HasBallot b v t w := by
  obtain ⟨w, L, hw, hL, hi, ht⟩ := hm
  obtain ⟨b, hf, hb⟩ := h.sound.follows_handleRequestVote strict ha h.role store hw hL
    (fun hst hgr => ⟨h.logs, h.aligned.upToDate hi ht (hvote hst hgr)⟩)
  obtain ⟨_, hlater⟩ := h.sound.handleRequestVote store m
  have hkept : (n.handleRequestVote store m).node.full = n.full ∧
      (n.handleRequestVote store m).node.lastApplied = n.lastApplied ∧
      (n.handleRequestVote store m).node.commitIndex = n.commitIndex ∧
      ∀ ev ∈ (n.handleRequestVote store m).events, EventRel strict bound b ev := by
    obtain ⟨_, _, _, _, _, hsee⟩ := n.seeTerm_shape m.term
    unfold RaftNode.handleRequestVote
    simp only
    split
    · exact ⟨rfl, rfl, rfl, fun _ hev => absurd hev List.not_mem_nil⟩
    · rw [hsee]
      split
      · refine ⟨rfl, rfl, rfl, fun ev hev => ?_⟩
        obtain rfl := List.mem_singleton.mp hev
        trivial
      · exact ⟨rfl, rfl, rfl, fun _ hev => absurd hev List.not_mem_nil⟩
  exact ⟨b, hf.answers ha h hlater.term hkept.1 hkept.2.1 hkept.2.2.1 hkept.2.2.2, fun t x hev => ⟨w, hb t x hev⟩⟩

/-! ## AppendEntries -/

variable (strict) in
/-- The step down, as a node that is related. -/
theorem NodeRel.stepDown (h : NodeRel bound a v n) (ha : Consistent LogEntry.term (majority (Fin N)) a)
    {m : AppendEntriesRPC} (ht : n.currentTerm ≤ m.term) :
    ∃ b, Follows strict v n (n.stepDown m) a b ∧ NodeRel bound b v (n.stepDown m) := by
  obtain ⟨b, hf⟩ := h.sound.follows_stepDown strict h.role ht
  refine ⟨b, hf, h.sound.stepDown m ht, h.aligned.stepDown m, hf.role, hf.logs h.logs, fun hb => ?_⟩
  have hterm := (h.sound.stepDown_later ht).term
  have hg := (ha.steps hf.moves).2
  obtain ⟨_, _, _, _, _, heq⟩ := n.stepDown_shape m
  rw [heq] at hterm ⊢
  exact (h.applied hb).congr hg hterm rfl rfl rfl

/-- What is applied after the log of an accepted message is taken over. -/
theorem AppliedRel.acceptEntries {m : AppendEntriesRPC} {p q : ℕ} (h : AppliedRel a n)
    (ha : Safe LogEntry.term (majority (Fin N)) a) (hg : Grows LogEntry.term a b) (hterm : n.currentTerm = m.term)
    (hw : (a.winner m.term).isSome) (hacc : RaftNode.Accepted (a.chain m.term) n m p q)
    (hcut : n.firstMatches m = some false → n.lastApplied ≤ m.reach)
    (hfull : (n.acceptEntries m).full = n.full ∨ (n.acceptEntries m).full = (a.chain m.term).take q ∧
      (n.firstMatches m = some false ∨ n.full <+: (a.chain m.term).take q)) :
    AppliedRel b (n.acceptEntries m) := by
  have hset : Settled a m.term (n.acceptEntries m).full n.lastApplied := by
    rcases hfull with hf | ⟨hf, hf' | hf'⟩ <;> rw [hf]
    · rw [← hterm]
      exact h.settled
    · have hle := hcut hf'
      have hlast := hacc.last
      refine ((h.settled.chain ha hterm.le hw).mono hterm.le le_rfl List.prefix_rfl).within (List.take_prefix _ _) ?_
      rw [List.length_take, Nat.min_eq_left hacc.le]
      omega
    · exact h.settled.mono hterm.le le_rfl hf'
  obtain ⟨log, heq⟩ := n.acceptEntries_eq m
  rw [heq] at hset ⊢
  refine ⟨h.commit, ?_⟩
  show Settled b n.currentTerm _ n.lastApplied
  rw [hterm]
  exact hset.grows hg

/-- What a follower commits is settled: the message has brought or verified it. -/
theorem settled_leaderCommit {m : AppendEntriesRPC} {p q : ℕ} {n' : RaftNode}
    (hacc : RaftNode.Accepted (a.chain m.term) n m p q) (hn : n.Aligned) (hn' : n'.Aligned)
    (hs : Settled a m.term (a.chain m.term) m.leaderCommit)
    (hagree : n'.full.take q = (a.chain m.term).take q)
    (hfull : n'.full = n.full ∨ n'.full = (a.chain m.term).take q)
    (hver : m.leaderCommit ≤ m.reach ∨ n.getLogSize ≤ m.reach + 1 ∨ n.firstMatches m = some false)
    (hfirst : n.firstMatches m = some false → n'.full = (a.chain m.term).take q) :
    Settled a m.term n'.full (min m.leaderCommit (n'.getLogSize - 1)) := by
  have hsize := hn.getLogSize_eq
  have hsize' := hn'.getLogSize_eq
  have hlast := hacc.last
  have hle := hacc.le
  have htake : ((a.chain m.term).take q).length = q := by
    rw [List.length_take, Nat.min_eq_left hle]
  have hshort : n'.full = (a.chain m.term).take q → n'.full.length ≤ q := fun hf => by rw [hf, htake]
  have hk : min m.leaderCommit (n'.getLogSize - 1) < q := by
    rcases hver with hv | hv | hv
    · omega
    · rcases hfull with hf | hf
      · rw [hf] at hsize'
        omega
      · have := hshort hf
        omega
    · have := hshort (hfirst hv)
      omega
  have hpre : Settled a m.term ((a.chain m.term).take q) (min m.leaderCommit (n'.getLogSize - 1)) :=
    (hs.mono le_rfl (min_le_left _ _) List.prefix_rfl).within (List.take_prefix _ _) (by rw [htake]; exact hk)
  exact hpre.mono le_rfl le_rfl (hagree ▸ List.take_prefix _ _)

/-- What an accepted message leaves: the log is as it was, or the chain up to the end of the message, and with `strict` all the
message reaches is acknowledged. -/
structure Took (strict : Prop) (v : Fin N) (a b : Global N) (n : RaftNode) (m : AppendEntriesRPC) (p q : ℕ) : Prop where
  accepted : RaftNode.Accepted (a.chain m.term) n m p q
  acked : strict → Acked b v m.term q
  agree : strict → (n.acceptEntries m).full.take q = (a.chain m.term).take q
  full : (n.acceptEntries m).full = n.full ∨ (n.acceptEntries m).full = (a.chain m.term).take q
  conflict : n.firstMatches m = some false → (n.acceptEntries m).full = (a.chain m.term).take q

variable (strict) in
/-- The log of a message is taken over, on a node that is in the term of the message. -/
theorem NodeRel.acceptEntries (h : NodeRel bound a v n) (ha : Consistent LogEntry.term (majority (Fin N)) a)
    (hsafe : bound → Safe LogEntry.term (majority (Fin N)) a) {m : AppendEntriesRPC} (hterm : n.currentTerm = m.term)
    (hm : m.Vain ∨ AppendRel bound a m) (hs : SentBy a m.term (port v)) (hpl : (Request.appendEntries m).Aligned)
    (hjoin : n.prevMatches m = true → m.prevLogIndex < 0 → n.latestSnapshot ≠ none → n.getLogSize ≤ m.reach →
      ∀ e ∈ m.entries[(n.getLogSize - 1).toNat]?, n.getLogTerm (n.getLogSize - 1) = e.term)
    (hcut : n.prevMatches m = true → n.firstMatches m = some false → n.lastApplied ≤ m.reach)
    (hskip : strict → n.prevMatches m = true → n.firstMatches m ≠ some false →
      n.firstMatches m = some true ∨ m.reach < n.getLogSize → n.holdsLast m) :
    ∃ b, Follows strict v n (n.acceptEntries m) a b ∧ NodeRel bound b v (n.acceptEntries m) ∧
      (n.prevMatches m = true → ∃ p q, Took strict v a b n m p q) := by
  have hsound := h.sound.acceptEntries m
  by_cases hprev : n.prevMatches m = true
  · have hvain : ¬m.Vain := fun hv => by simp [h.aligned.prevMatches_vain hv] at hprev
    obtain ⟨p, q, hacc⟩ := h.aligned.accepted (hm.resolve_left hvain) hprev
    obtain ⟨p', hp', hplaced⟩ := hpl.resolve_left hvain
    obtain rfl : p' = p := by
      have := hacc.first
      omega
    obtain ⟨b, hf, hack, hfull⟩ := RaftNode.follows_acceptEntries strict ha h.role h.logs h.aligned hterm hs
      hacc hplaced hprev (hjoin hprev) (fun hst => hskip hst hprev)
    have hal := h.aligned.acceptEntries hp' hplaced hcut
    refine ⟨b, hf, ⟨hsound, hal, hf.role, hf.logs h.logs, fun hb => ?_⟩, fun _ => ⟨p', q, hacc, fun hst => (hack hst).1,
      fun hst => (hack hst).2, hfull.imp (·.1) (·.1), fun hc => ?_⟩⟩
    · exact (h.applied hb).acceptEntries (hsafe hb) (ha.steps hf.moves).2 hterm hs.winner hacc (hcut hprev)
        (hfull.imp_left (·.1))
    · rcases hfull with ⟨_, hnot⟩ | ⟨hfull, _⟩
      · exact absurd hc hnot
      · exact hfull
  · have heq : n.acceptEntries m = n.persistMetadata := by
      unfold RaftNode.acceptEntries
      rw [if_neg hprev]
    rw [heq] at hsound ⊢
    obtain ⟨b, hf⟩ : ∃ b, Follows strict v n n.persistMetadata a b := follows_save strict h.role rfl rfl rfl
    exact ⟨b, hf, ⟨hsound, h.aligned.congr rfl rfl rfl h.aligned.nextIndex, hf.role, hf.logs h.logs,
      fun hb => (h.applied hb).congr (ha.steps hf.moves).2 le_rfl rfl rfl rfl⟩, fun hc => absurd hc hprev⟩

variable (strict) in
/-- A commit section on a node whose commit index is settled. -/
theorem NodeRel.commitSection (h : NodeRel bound a v n) (ha : Consistent LogEntry.term (majority (Fin N)) a)
    {k : ℤ} (hk : k < n.full.length) (hs : bound → Settled a n.currentTerm n.full k) (store store' : KVStore) :
    ∃ b, Follows strict v n (((n.setCommitIndex k).applyCommitted store).node.snapshotAtThreshold store').1 a b ∧
      NodeRel bound b v (((n.setCommitIndex k).applyCommitted store).node.snapshotAtThreshold store').1 ∧
      ∀ ev ∈ ((n.setCommitIndex k).applyCommitted store).events, EventRel strict bound b ev := by
  obtain ⟨b, hf⟩ := h.aligned.follows_commitSection strict h.role store store' hk
  have hg := (ha.steps hf.moves).2
  have hn' : (n.setCommitIndex k).Sound := h.sound.congr rfl rfl rfl rfl
  have h' : (n.setCommitIndex k).Aligned := h.aligned.congr rfl rfl rfl h.aligned.nextIndex
  refine ⟨b, hf, ⟨(hn'.applyCommitted store).snapshotAtThreshold _,
    (h'.applyCommitted store (Or.inl hk)).snapshotAtThreshold _, hf.role, hf.logs h.logs, fun hb => ?_⟩, fun ev hev => ?_⟩
  · exact h.aligned.appliedRel_commitSection ((h.applied hb).congr hg le_rfl rfl rfl rfl) store store' hk
      ((hs hb).grows hg)
  · exact h.aligned.event_commitSection store (fun hb => (hs hb).grows hg) hev

/-- The AppendEntries handler. A positive answer is an acknowledgement. -/
theorem NodeRel.handleAppendEntries (h : NodeRel bound a v n) (ha : Consistent LogEntry.term (majority (Fin N)) a)
    (hsafe : bound → strict ∧ Safe LogEntry.term (majority (Fin N)) a) {m : AppendEntriesRPC}
    (hm : m.Vain ∨ AppendRel bound a m) (hs : SentBy a m.term (port v)) (hpl : (Request.appendEntries m).Aligned)
    (hjoin : n.accepts m → m.prevLogIndex < 0 → n.latestSnapshot ≠ none → n.getLogSize ≤ m.reach →
      ∀ e ∈ m.entries[(n.getLogSize - 1).toNat]?, n.getLogTerm (n.getLogSize - 1) = e.term)
    (hcut : n.accepts m → n.firstMatches m = some false → n.lastApplied ≤ m.reach)
    (hskip : strict → n.accepts m → n.firstMatches m ≠ some false →
      n.firstMatches m = some true ∨ m.reach < n.getLogSize → n.holdsLast m)
    (hver : bound → n.accepts m → n.commitIndex < m.leaderCommit →
      m.leaderCommit ≤ m.reach ∨ n.getLogSize ≤ m.reach + 1 ∨ n.firstMatches m = some false) (store : KVStore) :
    ∃ b, Answers strict bound v a b (n.handleAppendEntries store m) ∧
      ∀ t, (n.handleAppendEntries store m).reply.appendEntriesResponse = some (t, true) →
        ¬m.Vain ∧ (strict → Acked b v m.term (m.reach + 1).toNat) := by
  unfold RaftNode.handleAppendEntries
  simp only
  rw [if_neg (by simp [h.sound.idle])]
  split
  · next ht =>
    refine ⟨a, ⟨Steps.refl a, fun _ _ => rfl, h.role, h.logs, h.applied, fun _ hev => absurd hev List.not_mem_nil⟩, ?_⟩
    intro t hr
    cases hr
  · next ht =>
    have ht : n.currentTerm ≤ m.term := not_lt.mp ht
    obtain ⟨a₁, h₁, hn₁⟩ := h.stepDown strict ha ht
    have ha₁ := ha.steps h₁.moves
    have hterm₁ := (h.sound.stepDown_role ht).1
    obtain ⟨_, _, _, _, _, hshape⟩ := n.stepDown_shape m
    -- the conditions are about the node before the step down, which leaves the log alone
    have hprev₁ : (n.stepDown m).prevMatches m = true → n.accepts m := fun hp => ⟨ht, by rwa [hshape] at hp⟩
    obtain ⟨a₂, h₂, hn₂, htook⟩ := hn₁.acceptEntries strict ha₁.1
      (fun hb => by
        obtain ⟨hst, hsa⟩ := hsafe hb
        obtain rfl : strict = True := eq_true hst
        exact hsa.steps h₁.moves)
      hterm₁ (hm.imp_right (·.grows ha₁.2 hs.winner)) (hs.grows ha₁.2) hpl
      (fun hp => by
        have := hjoin (hprev₁ hp)
        rw [hshape]
        exact this)
      (fun hp => by
        have := hcut (hprev₁ hp)
        rw [hshape]
        exact this)
      (fun hst hp => by
        have := hskip hst (hprev₁ hp)
        rw [hshape]
        exact this)
    have ha₂ := ha₁.1.steps h₂.moves
    have hf := h₁.trans h₂
    have hvain (hp : (n.stepDown m).prevMatches m = true) : ¬m.Vain := fun hv => by simp [hn₁.aligned.prevMatches_vain hv] at hp
    have hack {b : Global N} (hg : Grows LogEntry.term a₂ b) {t : ℤ}
        (hr : (Reply.appendEntries t ((n.stepDown m).prevMatches m)).appendEntriesResponse = some (t, true)) :
        ¬m.Vain ∧ (strict → Acked b v m.term (m.reach + 1).toNat) := by
      have hprev : (n.stepDown m).prevMatches m = true := by simpa [Reply.appendEntriesResponse] using hr
      obtain ⟨p, q, htook⟩ := htook hprev
      refine ⟨hvain hprev, fun hst => ?_⟩
      rw [htook.accepted.last]
      exact (htook.acked hst).grows hg
    split
    · next hc =>
      obtain ⟨hp, hlt⟩ := hc
      obtain ⟨p, q, htook⟩ := htook hp
      have hsize := hn₂.aligned.getLogSize_eq
      have hterm₂ : ((n.stepDown m).acceptEntries m).currentTerm = m.term :=
        (congrArg Role.currentTerm (RaftNode.acceptEntries_role _ m)).trans hterm₁
      have hset (hb : bound) : Settled a₂ ((n.stepDown m).acceptEntries m).currentTerm
          ((n.stepDown m).acceptEntries m).full
          (min m.leaderCommit (((n.stepDown m).acceptEntries m).getLogSize - 1)) := by
        rw [hterm₂]
        refine Settled.grows ha₂.2 (settled_leaderCommit htook.accepted hn₁.aligned hn₂.aligned
          (((hm.resolve_left (hvain hp)).grows ha₁.2 hs.winner).settled hb) (htook.agree (hsafe hb).1) htook.full ?_ htook.conflict)
        have hcommit : ((n.stepDown m).acceptEntries m).commitIndex = n.commitIndex := by
          obtain ⟨log, heq⟩ := (n.stepDown m).acceptEntries_eq m
          rw [heq, hshape]
          rfl
        have := hver hb (hprev₁ hp) (hcommit ▸ hlt)
        rw [hshape]
        exact this
      obtain ⟨a₃, h₃, hn₃, hev₃⟩ := hn₂.commitSection strict ha₂.1
        (k := min m.leaderCommit (((n.stepDown m).acceptEntries m).getLogSize - 1)) (by omega) hset store
        (((n.stepDown m).acceptEntries m).setCommitIndex
          (min m.leaderCommit (((n.stepDown m).acceptEntries m).getLogSize - 1)) |>.applyCommitted store).store
      refine ⟨a₃, ⟨(hf.trans h₃).moves, (hf.trans h₃).others, hn₃.role, hn₃.logs, hn₃.applied, fun ev hev => ?_⟩,
        fun t hr => ?_⟩
      · rcases List.mem_cons.mp hev with rfl | hev
        · trivial
        · exact hev₃ ev hev
      · obtain rfl : _ = t := (Prod.mk.inj (Option.some.inj hr)).1
        exact hack (ha₂.1.steps h₃.moves).2 hr
    · refine ⟨a₂, ⟨hf.moves, hf.others, hn₂.role, hn₂.logs, hn₂.applied, fun _ hev => absurd hev List.not_mem_nil⟩,
        fun t hr => ?_⟩
      obtain rfl : _ = t := (Prod.mk.inj (Option.some.inj hr)).1
      exact hack (Grows.refl a₂) hr

/-! ## InstallSnapshot -/

/-- What a snapshot drops of the log, if the conditions on the run hold: nothing, or the log differs from the chain. -/
theorem RaftNode.Aligned.dropped (h : n.Aligned) {C l : List LogEntry} {lastIndex lastTerm : ℤ} (hl : Covers l lastIndex lastTerm)
    (hC : l <+: C) (hd : n.getLogSize ≤ lastIndex + 1 ∨ n.baseIndex ≤ lastIndex + 1 ∧ n.getLogTerm lastIndex ≠ lastTerm) :
    n.full.length ≤ (lastIndex + 1).toNat ∨ ¬SameTermAt LogEntry.term n.full C (lastIndex + 1).toNat := by
  have hsize := h.getLogSize_eq
  have h0 := hl.index_nonneg
  have hlen := hl.length
  rcases hd with hd | ⟨hb, hne⟩
  · left
    omega
  · refine Or.inr (fun hk => hne ?_)
    have hlast := hl.term
    rw [List.getLast?_eq_getElem?] at hlast
    obtain ⟨x, hx, hxt⟩ := Option.map_eq_some_iff.mp hlast
    rcases hk with hk | ⟨e, e', he, he', ht⟩
    · omega
    · rw [prefix_getElem? hC (by omega), show l.length - 1 = (lastIndex + 1).toNat - 1 by omega, he'] at hx
      obtain rfl := Option.some.inj hx
      rw [h.getLogTerm_eq h0 hb, show lastIndex.toNat = (lastIndex + 1).toNat - 1 by omega, he]
      exact ht.trans hxt

variable (strict) in
/-- The InstallSnapshot handler. -/
theorem NodeRel.handleInstallSnapshot (h : NodeRel bound a v n) (ha : Consistent LogEntry.term (majority (Fin N)) a)
    {m : InstallSnapshotRPC} (hm : PieceRel bound a m.term m.covered m.lastIncludedIndex) (hs : SentBy a m.term (port v))
    (hpl : Covers m.covered m.lastIncludedIndex m.lastIncludedTerm)
    (himage : n.currentTerm ≤ m.term → ∀ snap ∈ n.assembled m, snap.dumps = true →
      snap.lastIncludedIndex = m.lastIncludedIndex ∧ snap.lastIncludedTerm = m.lastIncludedTerm)
    (hdrop : strict → n.currentTerm ≤ m.term → ∀ snap ∈ n.assembled m, snap.dumps = true →
      n.getLogSize ≤ m.lastIncludedIndex + 1 ∨
        n.baseIndex ≤ m.lastIncludedIndex + 1 ∧ n.getLogTerm m.lastIncludedIndex ≠ m.lastIncludedTerm)
    {store : KVStore} {r : Handled} (hr : n.handleInstallSnapshot store m = some r) :
    ∃ b, Answers strict bound v a b r := by
  have hev : ∀ (b : Global N), ∀ ev ∈ r.events, EventRel strict bound b ev := by
    intro b ev hev
    rw [handleInstallSnapshot_events hr] at hev
    cases hev
  have hterm := (h.sound.handleInstallSnapshot hr).2.term
  obtain ⟨_, _, _, _, _, hshape⟩ := n.seeTerm_shape m.term
  rcases RaftNode.handleInstallSnapshot_node hr with heq | ⟨ht, buffer, hcase⟩
  · refine ⟨a, Follows.answers (n := n) ?_ ha h hterm ?_ ?_ ?_ (hev a)⟩ <;> rw [heq]
    exact follows_refl h.role
  · obtain ⟨a₁, h₁⟩ := h.sound.follows_seeTerm strict h.role m.term
    have ha₁ := ha.steps h₁.moves
    rcases hcase with heq | heq | ⟨hd, snap, hsnap, hdumps, hw, heq⟩
    · refine ⟨a₁, Follows.answers (n := n) ?_ ha h hterm ?_ ?_ ?_ (hev a₁)⟩ <;> rw [heq]
      · exact h₁.trans (follows_of_eq h₁.role rfl rfl rfl)
      all_goals
        rw [hshape]
        rfl
    · refine ⟨a₁, Follows.answers (n := n) ?_ ha h hterm ?_ ?_ ?_ (hev a₁)⟩ <;> rw [heq]
      · exact h₁.trans (follows_of_eq h₁.role rfl rfl rfl)
      all_goals
        rw [hshape]
        rfl
    · have hass := RaftNode.assembled_eq hd hsnap hw
      obtain ⟨hidx, _⟩ := himage ht snap hass hdumps
      have hm₁ := hm.grows ha₁.2
      obtain ⟨w, hwin, hport⟩ := hs.grows ha₁.2
      have hne : w ≠ v := by
        rintro rfl
        exact hport rfl
      have hterm₁ : ((n.seeTerm m.term).setBuffer buffer).currentTerm = m.term := h.sound.seeTerm_term ht
      have hlen := hpl.length
      have hcov : m.covered = (a₁.chain m.term).take (m.lastIncludedIndex + 1).toNat := by
        rw [List.prefix_iff_eq_take.mp hm₁.covered]
        congr 1
        omega
      have hle : (m.lastIncludedIndex + 1).toNat ≤ (a₁.chain m.term).length := by
        have := hm₁.covered.length_le
        omega
      obtain ⟨b, hb, _⟩ : ∃ b, Follows strict v ((n.seeTerm m.term).setBuffer buffer)
          (((n.seeTerm m.term).setBuffer buffer).installSnapshot store { snap with covered := m.covered }).1 a₁ b ∧
            (v, ((n.seeTerm m.term).setBuffer buffer).currentTerm, (m.lastIncludedIndex + 1).toNat) ∈ b.acks :=
        RaftNode.follows_replace strict h₁.role (RaftNode.installSnapshot_role _ _ _) (by rw [hterm₁]; exact hwin) hne
        (by rw [hterm₁]; exact hle)
        (fun hst => by
          have := h.aligned.dropped hpl hm₁.covered (hdrop hst ht snap hass hdumps)
          rw [(h₁.logs h.logs).log, hterm₁, hshape]
          exact this)
        (by rw [hterm₁, ← hcov]; exact List.append_nil _) rfl
      have hg := (ha₁.1.steps hb.moves).2
      rw [← heq] at hb
      refine ⟨b, (h₁.moves.trans hb.moves), fun u hu => (hb.others u hu).trans (h₁.others u hu), hb.role,
        hb.logs ?_, fun hbound => ?_, hev b⟩
      · exact ⟨(h₁.logs h.logs).log, (h₁.logs h.logs).stable⟩
      · rw [heq]
        refine ⟨le_rfl, ?_⟩
        have hfull : (((n.seeTerm m.term).setBuffer buffer).installSnapshot store
            { snap with covered := m.covered }).1.full = m.covered := List.append_nil _
        rw [hfull]
        show Settled b ((n.seeTerm m.term).setBuffer buffer).currentTerm m.covered snap.lastIncludedIndex
        rw [hterm₁, hidx]
        exact (hm₁.settled hbound).grows hg

/-! ## All handlers -/

/-- Every handler, for a call of the cluster. -/
theorem NodeRel.handle (h : NodeRel bound a v n) (ha : Consistent LogEntry.term (majority (Fin N)) a)
    (hsafe : bound → strict ∧ Safe LogEntry.term (majority (Fin N)) a) {size : ℕ} {s : Site} (hn : s.node = n) {y : Call}
    (hy : CallRel strict bound a y) (hport : y.port = port v) (hpl : y.req.Aligned)
    (href : Site.Refines strict bound size s (.receive y.req)) {store : KVStore} {r : Handled}
    (hr : n.handle store y.req = some r) :
    ∃ b, Answers strict bound v a b r ∧ CallRel strict bound b { y with resp := some r.reply } ∧
      ((Input.receive y.req).isVote = true → ∀ (t x : ℤ), Event.voted t x ∈ r.events →
        ∃ w : Fin N, x = w.val ∧ HasBallot b v t w) := by
  subst hn
  obtain ⟨_, hheart, hrepl, hjoin, _, hcut, himage⟩ := href.logs
  obtain ⟨p, req, resp⟩ := y
  obtain rfl : p = port v := hport
  cases req with
  | requestVote m =>
    obtain rfl := Option.some.inj hr
    obtain ⟨b, hb, hvoted⟩ := h.handleRequestVote strict ha (m := m) hy
      (fun hst hgr => href.votes hst m rfl hgr) store
    have hg := (ha.steps hb.moves).2
    refine ⟨b, hb, ?_, fun _ => hvoted⟩
    obtain ⟨w, L, hw, hL, hrest⟩ := (show VoteRel a m from hy)
    exact ⟨w, L, hw, hg.requests hL, hrest⟩
  | appendEntries m =>
    obtain rfl := Option.some.inj hr
    obtain ⟨hs, hm, _⟩ := hy
    obtain ⟨b, hb, hack⟩ := h.handleAppendEntries ha hsafe hm hs hpl (fun hacc => hjoin m rfl hacc)
      (fun hacc => hcut m rfl hacc) (fun hst hacc => href.skips hst m rfl hacc)
      (fun hbd hacc => href.verified hbd m rfl hacc) store
    have hg := (ha.steps hb.moves).2
    refine ⟨b, hb, ⟨hs.grows hg, hm.imp_right (·.grows hg hs.winner), fun u t hp hresp => ?_⟩, nofun⟩
    obtain rfl : v = u := port_inj hp
    exact hack t hresp
  | installSnapshot m =>
    obtain ⟨hs, hm⟩ := hy
    obtain ⟨b, hb⟩ := h.handleInstallSnapshot strict ha hm hs hpl (fun ht => himage m rfl ht)
      (fun hst ht => href.drops hst m rfl ht) hr
    have hg := (ha.steps hb.moves).2
    exact ⟨b, hb, ⟨hs.grows hg, hm.grows hg⟩, nofun⟩

end RaftStore
