import RaftStore.Lemmas.Terms
import RaftStore.Systems.Runs
import RaftStore.Theorems.Matching
import RaftStore.Timer

/-!
# When elections are started

A leader whose AppendEntries messages come in less than two seconds apart stays the leader, whatever else happens. A node that hears
nothing for four seconds starts an election, unless it has led and nobody has told its timer that it does so no more: the step down on the
reply to a client command calls no `cv.notify_all`. An election that fails is followed by the next one without a pause.

A handler is one step here, as everywhere in the model: what is said about the thread of the timer takes `mtx` for re-entrant. With the
`std::mutex` of the sources a thread that calls `becomeFollower` with `mtx` in its hands never gives it back, and the timer of its node
waits for it.
-/

namespace RaftStore

open Systems (Run)

/-! ## What becomes of an election -/

/-- The inputs that can end an election: what its own thread does, and a restart. -/
def Input.OfElection : Input → Prop
  | .step .election => True
  | .reply .election _ => True
  | .restart => True
  | _ => False

/-- An input that can end an election is a restart, or comes while an election is under way. -/
theorem Site.Step.ofElection {size next : ℕ} {s : Site} {store : KVStore} {i : Input} {o : Outcome}
    (hs : Site.Step size next s store i o) (hi : i.OfElection) :
    i = .restart ∨ s.election.isSome = true ∧ (i = .step .election ∨ ∃ r, i = .reply .election r) := by
  cases hs with
  | join el he hp hh => exact .inr ⟨he ▸ rfl, .inl rfl⟩
  | ask el p rest he hp hr => exact .inr ⟨he ▸ rfl, .inl rfl⟩
  | win el he hp hr hv => exact .inr ⟨he ▸ rfl, .inl rfl⟩
  | lose el he hp hr hv => exact .inr ⟨he ▸ rfl, .inl rfl⟩
  | noVote el call r he hp hr => exact .inr ⟨he ▸ rfl, .inr ⟨r, rfl⟩⟩
  | voteLater el call r term g he hp hr hl => exact .inr ⟨he ▸ rfl, .inr ⟨r, rfl⟩⟩
  | vote el call r term g he hp hr hl => exact .inr ⟨he ▸ rfl, .inr ⟨r, rfl⟩⟩
  | restart n store' hr => exact .inl rfl
  | _ => exact absurd hi not_false

/-- The other inputs leave an election as it is. -/
theorem Site.Step.election_eq {size next : ℕ} {s : Site} {store : KVStore} {i : Input} {o : Outcome}
    (hs : Site.Step size next s store i o) (hi : i ≠ .startElection) (hof : ¬i.OfElection) : o.site.election = s.election := by
  cases hs with
  | startElection he hl => exact absurd rfl hi
  | join el he hp hh => exact absurd trivial hof
  | ask el p rest he hp hr => exact absurd trivial hof
  | win el he hp hr hv => exact absurd trivial hof
  | lose el he hp hr hv => exact absurd trivial hof
  | noVote el call r he hp hr => exact absurd trivial hof
  | voteLater el call r term g he hp hr hl => exact absurd trivial hof
  | vote el call r term g he hp hr hl => exact absurd trivial hof
  | restart n store' hr => exact absurd trivial hof
  | _ => rfl

/-! ## What ends a leadership -/

/-- The reply to AppendEntries that a client command waits for carries a later term. -/
def Site.clientLater (s : Site) (k : ℕ) (r : Option Reply) : Bool :=
  match s.clients[k]?, r.bind Reply.appendEntriesResponse with
  | some { phase := .append _, .. }, some (term, _) => decide (s.node.currentTerm < term)
  | _, _ => false

/-- An input ends a leadership and calls no `cv.notify_all`. -/
def Site.untold (s : Site) : Input → Bool
  | .reply (.client k) r => s.clientLater k r
  | _ => false

/-- An input calls `cv.notify_all` outside `start_election`. -/
def Site.notified (s : Site) : Input → Bool
  | .receive req => s.node.notifies req
  | .reply .heartbeat r => s.hearsLater r
  | _ => false

/-- An input wakes the thread of the timer, or starts it anew. -/
def Site.wakes (s : Site) (i : Input) : Bool := decide (i = .restart) || s.notified i

/-- An input sets `lastHeartbeatTimePoint` anew. -/
def Site.resets (size : ℕ) (s : Site) : Input → Bool
  | .receive (.appendEntries m) => s.node.hears m
  | .reply .heartbeat r => s.hearsLater r
  | .step .election => s.wins size
  | .restart => true
  | _ => false

/-- A handler that ends a leadership notifies the timer. -/
theorem RaftNode.handle_notifies {n : RaftNode} {store : KVStore} {req : Request} {h : Handled} (hh : n.handle store req = some h)
    (hl : n.state = .leader) (hl' : h.node.state ≠ .leader) : n.notifies req = true := by
  have hterm : n.currentTerm < req.term := by
    by_contra hle
    exact hl' ((n.handle_state hh (by rw [hl]; decide) (not_lt.mp hle)).trans hl)
  cases req with
  | requestVote m => exact decide_eq_true hterm
  | installSnapshot m => exact decide_eq_true hterm
  | appendEntries m =>
    have hne : ¬(n.receivingSnapshot = true ∧ n.snapshotLeaderId = m.leaderId) := by
      intro hr
      obtain rfl := Option.some.inj hh
      refine hl' ?_
      unfold RaftNode.handleAppendEntries
      rw [if_pos hr]
      exact hl
    have hle : n.currentTerm ≤ m.term := le_of_lt hterm
    have hfree : n.receivingSnapshot = false ∨ ¬n.snapshotLeaderId = m.leaderId := by
      rw [← Bool.not_eq_true]
      exact not_and_or.mp hne
    simpa [RaftNode.notifies, RaftNode.hears, hle] using hfree

/-- A heartbeat thread that has been told to end looks at no reply. -/
theorem Site.heartbeatReply_running {s : Site} {store : KVStore} {r : Option Reply} {o : Outcome} {hb : Heartbeat} {j : ℕ} {nextIdx : ℤ}
    {count call : ℕ} (h : s.heartbeatReply store r = some o) (hh : s.heartbeat = some hb)
    (hp : hb.phase = .append j nextIdx count call) (hne : o.site.node ≠ s.node) : s.node.runningHeartbeats = true := by
  by_contra hrun
  simp only [heartbeatReply, hh, hp] at h
  split at h
  · obtain rfl := Option.some.inj h
    exact hne rfl
  · obtain rfl := Option.some.inj h
    exact hne rfl

/-- What can end a leadership. -/
theorem Site.Sound.falls {size next : ℕ} {s : Site} {store : KVStore} {i : Input} {o : Outcome} (h : s.Sound)
    (ho : s.step size next store i = some o) (hl : s.node.state = .leader) (hl' : o.site.node.state ≠ .leader) :
    i = .restart ∨ s.notified i = true ∨ s.untold i = true ∨ s.election.isSome = true := by
  have hrole {n : RaftNode} (hr : n.role = s.node.role) : n.state = .leader := (congrArg Role.state hr).trans hl
  have hup : s.node.shutdownRequested = false := h.node.up
  cases (h.step ho).1 with
  | startElection he hne => exact absurd hl hne
  | win el he hp hr hv => exact absurd (congrArg Role.state (s.elected_role el)) hl'
  | voteLater el call r term g he hp hr ht => exact .inr (.inr (.inr (he ▸ rfl)))
  | heartbeatLater hb j nextIdx count call r term success hh hp hr ht =>
    have hrun : s.node.runningHeartbeats = true := s.heartbeatReply_running ho hh hp fun heq => hl' ((congrArg RaftNode.state heq).trans hl)
    obtain ⟨phase, hbTerm⟩ := hb
    subst hp
    exact .inr (.inl (by simp [Site.notified, Site.hearsLater, hh, hr, hrun, hup, ht]))
  | later k call id r term success hk hp hr ht =>
    obtain ⟨req, entry, newIndex, successCount, j, phase⟩ := call
    subst hp
    exact .inr (.inr (.inl (by simp [Site.untold, Site.clientLater, hk, hr, ht])))
  | heartbeatReply hb j nextIdx count call r term success hh hp hr ht =>
    exact absurd (hrole (heartbeatAnswered_role s.node j nextIdx count success)) hl'
  | heartbeatChunkReply hb j t call r hh hp phase hph => exact absurd (hrole (Transfer.reply_role t s.node j r)) hl'
  | commit k call hk hp hi' hm => exact absurd (hrole (commit_role s.node store call)) hl'
  | failure k call id r term hk hp hr ht call' hc => exact absurd (hrole (RaftNode.retreat_role _ _)) hl'
  | chunkReply k call t id r hk hp call' hc => exact absurd (hrole (Transfer.reply_role t s.node call.i r)) hl'
  | receive req h' hh => exact .inr (.inl (RaftNode.handle_notifies hh hl hl'))
  | snapshotNow hl'' => exact absurd (hrole (s.node.createSnapshot_role store)) hl'
  | restart n store' hr => exact .inl rfl
  | _ => exact absurd hl hl'

namespace Timer

variable {t t' : Timer} {size now random : ℕ} {s s' : Site} {i : Input} {n : RaftNode}

/-! ## What happens to a timer -/

@[simp] theorem notify_last (t : Timer) : t.notify.lastHeartbeatTimePoint = t.lastHeartbeatTimePoint := rfl

@[simp] theorem notify_timeout (t : Timer) : t.notify.electionTimeout = t.electionTimeout := rfl

@[simp] theorem returned_last (t : Timer) (b : Bool) : (t.returned b).lastHeartbeatTimePoint = t.lastHeartbeatTimePoint := by
  cases b <;> rfl

@[simp] theorem returned_timeout (t : Timer) (b : Bool) : (t.returned b).electionTimeout = t.electionTimeout := by
  cases b <;> rfl

/-- A notification moves no thread that does not wait. -/
theorem notify_place_iff (hp : ∀ b, p ≠ .leading b) (hw : ∀ w b, p ≠ .sleeping w b) : t.notify.place = p ↔ t.place = p := by
  unfold notify
  cases ht : t.place with
  | leading b => exact ⟨fun h => absurd h.symm (hp true), fun h => absurd h.symm (hp b)⟩
  | sleeping w b => exact ⟨fun h => absurd h.symm (hw w true), fun h => absurd h.symm (hw w b)⟩
  | _ => exact Iff.rfl

theorem notify_electing : t.notify.place = .electing ↔ t.place = .electing :=
  notify_place_iff (fun _ => by simp) (fun _ _ => by simp)

theorem notify_sleeping {wake : ℕ} {b : Bool} (h : t.notify.place = .sleeping wake b) : ∃ b', t.place = .sleeping wake b' := by
  unfold notify at h
  cases hp : t.place <;> simp [hp] at h
  exact ⟨_, by rw [h.1]⟩

/-- A timeout is two seconds or longer, and shorter than four. -/
theorem timeout_range (random : ℕ) : 2000 ≤ timeout random ∧ timeout random < 4000 := by
  unfold timeout
  omega

/-- The timeout of a timer has been chosen by the node. -/
def Chosen (t : Timer) : Prop := 2000 ≤ t.electionTimeout ∧ t.electionTimeout < 4000

/-- An input sets the time of the last heartbeat to now, or leaves it. -/
theorem after_last (t : Timer) (size now random : ℕ) (s s' : Site) (i : Input) :
    (t.after size now random s s' i).lastHeartbeatTimePoint = t.lastHeartbeatTimePoint ∨
      (t.after size now random s s' i).lastHeartbeatTimePoint = now := by
  unfold after
  split
  · split
    · exact .inr rfl
    · exact .inl rfl
  · split <;> exact .inl rfl
  · split
    · exact .inr rfl
    · exact .inl rfl
  · rw [returned_last]
    split
    · exact .inr rfl
    · exact .inl rfl
  · exact .inl (returned_last _ _)
  · exact .inr rfl
  · exact .inl rfl

theorem Chosen.after (h : t.Chosen) : (t.after size now random s s' i).Chosen := by
  have hnew : 2000 ≤ timeout random ∧ timeout random < 4000 := timeout_range random
  unfold Chosen Timer.after
  split
  · split
    · exact hnew
    · exact h
  · split <;> exact h
  · split <;> exact h
  · rw [returned_timeout]
    split
    · exact hnew
    · exact h
  · rw [returned_timeout]
    exact h
  · exact hnew
  · exact h

/-- The other inputs at most notify the thread of the timer. -/
theorem after_place (hi : ¬i.OfElection) :
    (t.after size now random s s' i).place = t.place ∨ (t.after size now random s s' i).place = t.notify.place := by
  unfold after
  split
  · split
    · exact .inr rfl
    · exact .inl rfl
  · split
    · exact .inr rfl
    · exact .inl rfl
  · split
    · exact .inr rfl
    · exact .inl rfl
  · exact absurd trivial hi
  · exact absurd trivial hi
  · exact absurd trivial hi
  · exact .inl rfl

variable (t now random s') in
/-- An input that does not set the timeout anew leaves it. -/
theorem after_of_unset (h : s.resets size i = false) :
    (t.after size now random s s' i).lastHeartbeatTimePoint = t.lastHeartbeatTimePoint ∧
      (t.after size now random s s' i).electionTimeout = t.electionTimeout := by
  unfold after
  split
  · next m =>
    rw [if_neg (by simpa [Site.resets] using h)]
    exact ⟨rfl, rfl⟩
  · split <;> exact ⟨rfl, rfl⟩
  · next r =>
    rw [if_neg (by simpa [Site.resets] using h)]
    exact ⟨rfl, rfl⟩
  · rw [if_neg (by simpa [Site.resets] using h)]
    exact ⟨returned_last _ _, returned_timeout _ _⟩
  · exact ⟨returned_last _ _, returned_timeout _ _⟩
  · cases h
  · exact ⟨rfl, rfl⟩

/-- The other inputs leave a timer that they do not notify. -/
theorem after_of_quiet (hi : ¬i.OfElection) (hq : s.notified i = false) : t.after size now random s s' i = t := by
  unfold after
  split
  · next m => exact if_neg (by simpa [Site.notified, RaftNode.notifies] using hq)
  · next req _ => exact if_neg (by simpa [Site.notified] using hq)
  · next r => exact if_neg (by simpa [Site.notified] using hq)
  · exact absurd trivial hi
  · exact absurd trivial hi
  · exact absurd trivial hi
  · rfl

/-- An input that notifies the timer notifies its thread. -/
theorem after_of_notified (hq : s.notified i = true) : (t.after size now random s s' i).place = t.notify.place := by
  cases i with
  | receive req =>
    cases req with
    | appendEntries m =>
      have hm : s.node.hears m = true := hq
      simp only [after, hm, if_true]
      rfl
    | requestVote m =>
      have hm : s.node.notifies (.requestVote m) = true := hq
      simp only [after, hm, if_true]
    | installSnapshot m =>
      have hm : s.node.notifies (.installSnapshot m) = true := hq
      simp only [after, hm, if_true]
  | reply th r =>
    cases th with
    | heartbeat =>
      have hm : s.hearsLater r = true := hq
      simp only [after, hm, if_true]
      rfl
    | _ => cases hq
  | _ => cases hq

/-- The thread of the timer is in `start_election` as long as an election is under way. -/
theorem after_electing (ht : t.place = .electing ↔ s.election.isSome = true) {next : ℕ} {store : KVStore} {o : Outcome}
    (hs : Site.Step size next s store i o) (hi : i ≠ .startElection) :
    (t.after size now random s o.site i).place = .electing ↔ o.site.election.isSome = true := by
  have hreturned (t' : Timer) (hp : t'.place = .electing ↔ t.place = .electing) (he : s.election.isSome = true) :
      (t'.returned o.site.election.isSome).place = .electing ↔ o.site.election.isSome = true := by
    have hp := hp.mpr (ht.mpr he)
    cases o.site.election.isSome <;> simp [returned, hp]
  by_cases hof : i.OfElection
  · rcases hs.ofElection hof with rfl | ⟨he, rfl | ⟨r, rfl⟩⟩
    · cases hs
      simp [Timer.after, Timer.start, Outcome.local]
    · refine hreturned _ ?_ he
      split
      · exact notify_electing
      · exact Iff.rfl
    · exact hreturned t Iff.rfl he
  · rw [hs.election_eq hi hof, ← ht]
    rcases t.after_place hof with hp | hp <;> rw [hp]
    exact notify_electing

/-- The steps of the thread of the timer on a node that is running. -/
inductive Goes (t : Timer) (now : ℕ) (n : RaftNode) : Timer → Prop where
  | lead (hp : t.place = .head) (hl : n.state = .leader) : Goes t now n { t with place := .leading false }
  | expire (hp : t.place = .head) (hl : n.state ≠ .leader) (he : t.electionTimeout ≤ now - t.lastHeartbeatTimePoint) :
      Goes t now n { t with place := .due }
  | sleep (hp : t.place = .head) (hl : n.state ≠ .leader) (he : ¬t.electionTimeout ≤ now - t.lastHeartbeatTimePoint) :
      Goes t now n { t with place := .sleeping (t.lastHeartbeatTimePoint + t.electionTimeout) false }
  | yield (hp : t.place = .leading true) (hl : n.state ≠ .leader) : Goes t now n { t with place := .head }
  | stay (hp : t.place = .leading true) (hl : n.state = .leader) : Goes t now n { t with place := .leading false }
  | wake (wake : ℕ) (b : Bool) (hp : t.place = .sleeping wake b) (hw : wake ≤ now) : Goes t now n { t with place := .head }
  | promoted (wake : ℕ) (hp : t.place = .sleeping wake true) (hw : ¬wake ≤ now) (hl : n.state = .leader) :
      Goes t now n { t with place := .head }
  | again (wake : ℕ) (hp : t.place = .sleeping wake true) (hw : ¬wake ≤ now) (hl : n.state ≠ .leader) :
      Goes t now n { t with place := .sleeping wake false }
  | call (hp : t.place = .due) : Goes t now n { t with place := .electing }

theorem go_goes (hup : n.shutdownRequested = false) (h : t.go now n = some t') : t.Goes now n t' := by
  unfold go at h
  simp only [hup, Bool.false_eq_true, if_false, or_false] at h
  split at h
  · next hp =>
    split at h
    · next hl =>
      obtain rfl := Option.some.inj h
      exact .lead hp hl
    · next hl =>
      split at h
      · next he =>
        obtain rfl := Option.some.inj h
        exact .expire hp hl he
      · next he =>
        obtain rfl := Option.some.inj h
        exact .sleep hp hl he
  · next b hp =>
    split at h
    · next hb =>
      subst hb
      split at h
      · next hl =>
        obtain rfl := Option.some.inj h
        exact .yield hp hl
      · next hl =>
        obtain rfl := Option.some.inj h
        exact .stay hp (not_not.mp hl)
    · cases h
  · next wake b hp =>
    split at h
    · next hw =>
      obtain rfl := Option.some.inj h
      exact .wake wake b hp hw
    · next hw =>
      split at h
      · next hb =>
        subst hb
        split at h
        · next hl =>
          obtain rfl := Option.some.inj h
          exact .promoted wake hp hw hl
        · next hl =>
          obtain rfl := Option.some.inj h
          exact .again wake hp hw hl
      · cases h
  · next hp =>
    obtain rfl := Option.some.inj h
    exact .call hp
  · cases h
  · cases h

/-- A thread that sleeps or is past the test of its timeout. -/
def Waits (t : Timer) : Prop := t.place = .due ∨ ∃ wake notified, t.place = .sleeping wake notified

theorem waits_notify : t.notify.Waits ↔ t.Waits := by
  unfold Waits notify
  cases t.place <;> simp

variable (now random) in
/-- After an input that can end an election, the thread is in `start_election` or at the head of its loop. -/
theorem after_ofElection (ht : t.place = .electing ↔ s.election.isSome = true) {next : ℕ} {store : KVStore} {o : Outcome}
    (hs : Site.Step size next s store i o) (hof : i.OfElection) :
    (t.after size now random s o.site i).place = .electing ∨ (t.after size now random s o.site i).place = .head := by
  have hreturned (t' : Timer) (b : Bool) (hp : t'.place = .electing) :
      (t'.returned b).place = .electing ∨ (t'.returned b).place = .head := by
    cases b
    · exact .inr rfl
    · exact .inl hp
  rcases hs.ofElection hof with rfl | ⟨he, rfl | ⟨r, rfl⟩⟩
  · exact .inr rfl
  · refine hreturned _ _ ?_
    split
    · exact notify_electing.mpr (ht.mpr he)
    · exact ht.mpr he
  · exact hreturned t _ (ht.mpr he)

/-- A thread that waits after an input has waited before it. -/
theorem waits_of_after (ht : t.place = .electing ↔ s.election.isSome = true) {next : ℕ} {store : KVStore} {o : Outcome}
    (hs : Site.Step size next s store i o) (h : (t.after size now random s o.site i).Waits) : ¬i.OfElection ∧ t.Waits := by
  by_cases hof : i.OfElection
  · rcases after_ofElection now random ht hs hof with hp | hp <;> simp [Waits, hp] at h
  · refine ⟨hof, ?_⟩
    rcases t.after_place hof with hp | hp
    · rwa [Waits, hp] at h
    · rw [Waits, hp] at h
      exact waits_notify.mp h

/-- No input takes a thread past the test of its timeout. -/
theorem due_of_after (ht : t.place = .electing ↔ s.election.isSome = true) {next : ℕ} {store : KVStore} {o : Outcome}
    (hs : Site.Step size next s store i o) (h : (t.after size now random s o.site i).place = .due) : t.place = .due := by
  obtain ⟨hof, -⟩ := waits_of_after ht hs (.inl h)
  rcases t.after_place hof with hp | hp <;> rw [hp] at h
  · exact h
  · exact (notify_place_iff (by simp) (by simp)).mp h

/-- A thread that sleeps after an input has slept before it, up to the same time. -/
theorem sleeping_of_after (ht : t.place = .electing ↔ s.election.isSome = true) {next : ℕ} {store : KVStore} {o : Outcome}
    (hs : Site.Step size next s store i o) {wake : ℕ} {b : Bool}
    (h : (t.after size now random s o.site i).place = .sleeping wake b) : ∃ b', t.place = .sleeping wake b' := by
  obtain ⟨hof, -⟩ := waits_of_after ht hs (.inr ⟨wake, b, h⟩)
  rcases t.after_place hof with hp | hp <;> rw [hp] at h
  · exact ⟨b, h⟩
  · exact notify_sleeping h

/-! ## Sound timers -/

/-- A timer beside its site, whatever happens. -/
structure Sound (t : Timer) (now : ℕ) (s : Site) : Prop where
  past : t.lastHeartbeatTimePoint ≤ now
  chosen : t.Chosen
  electing : t.place = .electing ↔ s.election.isSome = true
  waits : t.Waits → s.node.state ≠ .leader
  wake : ∀ wake b, t.place = .sleeping wake b → wake < t.lastHeartbeatTimePoint + 4000
  running : t.place ≠ .ended

theorem sound_start (random : ℕ) (he : s.election = none) : (start now random).Sound now s where
  past := le_rfl
  chosen := timeout_range random
  electing := by simp [start, he]
  waits h := by simp [Waits, start] at h
  wake _ _ h := by cases h
  running := by simp [start]

theorem Sound.notify (h : t.Sound now s) : t.notify.Sound now s where
  past := h.past
  chosen := h.chosen
  electing := notify_electing.trans h.electing
  waits hw := h.waits (waits_notify.mp hw)
  wake wake b hp := by
    obtain ⟨b', hp⟩ := notify_sleeping hp
    exact h.wake wake b' hp
  running := (notify_place_iff (by simp) (by simp)).not.mpr h.running

theorem Sound.tick (h : t.Sound now s) (d : ℕ) : t.Sound (now + d) s :=
  ⟨h.past.trans (Nat.le_add_right now d), h.chosen, h.electing, h.waits, h.wake, h.running⟩

/-- Only a thread in `start_election` makes the node a leader. -/
theorem Sound.after (h : t.Sound now s) (hsite : s.Sound) {next : ℕ} {store : KVStore} {o : Outcome}
    (hs : Site.Step size next s store i o) (hi : i ≠ .startElection) : (t.after size now random s o.site i).Sound now o.site where
  past := by
    rcases t.after_last size now random s o.site i with hl | hl <;> rw [hl]
    exact h.past
  chosen := h.chosen.after
  electing := after_electing h.electing hs hi
  waits hw := by
    obtain ⟨hof, hw⟩ := waits_of_after h.electing hs hw
    rcases hsite.role_cases hs with hl | ⟨rfl, _⟩ | ⟨rfl, _⟩
    · intro hlead
      have hne : o.site.node.role.state ≠ .follower := fun hf => by cases hlead.symm.trans hf
      exact h.waits hw ((hl.state hne).1.symm.trans hlead)
    · exact absurd rfl hi
    · exact absurd trivial hof
  wake wake b hp := by
    obtain ⟨b', hp⟩ := sleeping_of_after h.electing hs hp
    have hwake := h.wake wake b' hp
    have hpast := h.past
    rcases t.after_last size now random s o.site i with hl | hl <;> rw [hl] <;> omega
  running := by
    by_cases hof : i.OfElection
    · rcases after_ofElection now random h.electing hs hof with hp | hp <;> simp [hp]
    · rcases t.after_place hof with hp | hp <;> rw [hp]
      · exact h.running
      · exact (notify_place_iff (by simp) (by simp)).not.mpr h.running

/-- A thread that is in no election goes to the head of its loop, or to the `wait` of a leader. -/
theorem Sound.free (h : t.Sound now s) (hne : t.place ≠ .electing) {place : TimerPlace} (hp : place = .head ∨ ∃ b, place = .leading b) :
    Sound { t with place := place } now s := by
  have he : s.election.isSome ≠ true := fun hs => hne (h.electing.mpr hs)
  rcases hp with rfl | ⟨b, rfl⟩
  · exact ⟨h.past, h.chosen, iff_of_false (by simp) he, fun hw => by simp [Waits] at hw, fun _ _ hs => (by cases hs), by simp⟩
  · exact ⟨h.past, h.chosen, iff_of_false (by simp) he, fun hw => by simp [Waits] at hw, fun _ _ hs => (by cases hs), by simp⟩

/-- A step of the thread by itself, other than a call of `start_election`. -/
theorem Sound.goes (h : t.Sound now s) (hg : t.Goes now s.node t') (ht : t'.place ≠ .electing) : t'.Sound now s := by
  have hchosen := h.chosen.2
  have he (hp : t.place ≠ .electing) (hp' : t'.place ≠ .electing) : t'.place = .electing ↔ s.election.isSome = true :=
    iff_of_false hp' (fun hs => hp (h.electing.mpr hs))
  cases hg with
  | expire hp hl hexp => exact ⟨h.past, h.chosen, he (by simp [hp]) ht, fun _ => hl, fun _ _ hs => (by cases hs), by simp⟩
  | sleep hp hl hexp =>
    refine ⟨h.past, h.chosen, he (by simp [hp]) ht, fun _ => hl, fun wake b hs => ?_, by simp⟩
    cases hs
    simp only
    omega
  | again wake hp hw hl =>
    refine ⟨h.past, h.chosen, he (by simp [hp]) ht, fun _ => hl, fun wake' b hs => ?_, by simp⟩
    cases hs
    exact h.wake wake true hp
  | call hp => exact absurd rfl ht
  | lead hp hl => exact h.free (by simp [hp]) (.inr ⟨false, rfl⟩)
  | yield hp hl => exact h.free (by simp [hp]) (.inl rfl)
  | stay hp hl => exact h.free (by simp [hp]) (.inr ⟨false, rfl⟩)
  | wake wake b hp hw => exact h.free (by simp [hp]) (.inl rfl)
  | promoted wake hp hw hl => exact h.free (by simp [hp]) (.inl rfl)

/-- The call of `start_election`. -/
theorem Sound.call (h : t.Sound now s) (hg : t.Goes now s.node t') (ht : t'.place = .electing) {next : ℕ} {store : KVStore} {o : Outcome}
    (hs : Site.Step size next s store .startElection o) : t'.Sound now o.site := by
  cases hs with
  | startElection he hl =>
    cases hg with
    | call hp => exact ⟨h.past, h.chosen, iff_of_true rfl rfl, fun hw => by simp [Waits] at hw, fun _ _ hs => (by cases hs), by simp⟩
    | _ => cases ht

end Timer

namespace TimedCluster

variable {N : ℕ} {x y : TimedCluster N} {a : TimedAction N} {v : Fin N}

/-! ## What can happen in a cluster with timers -/

/-- What an action does: a step of a site with what it does to its timer, an answer to a call that came in cut off, a step of a timer by
itself, the start of an election by a timer, a waking without a reason, or the passing of time. -/
inductive Occurs (x : TimedCluster N) : TimedAction N → TimedCluster N → Prop where
  | site (b : Action N) (random : ℕ) (v : Fin N) (i : Input) (o : Outcome) (c : Cluster N) (hi : x.cluster.input b = some (v, i))
      (hne : i ≠ .startElection) (hs : Cluster.SiteStep x.cluster c v i o) :
      Occurs x (.act b random)
        { cluster := c
          now := x.now
          timers := Function.update x.timers v ((x.timers v).after N x.now random (x.cluster.sites v) o.site i) }
  | garble (id random : ℕ) (call : Call) (hc : x.cluster.calls[id]? = some call) :
      Occurs x (.act (.garble id) random) { x with cluster := x.cluster.answer id (some .invalid) }
  | wait (v : Fin N) (t : Timer) (hg : (x.timers v).go x.now (x.cluster.sites v).node = some t) (ht : t.place ≠ .electing) :
      Occurs x (.timer v) { x with timers := Function.update x.timers v t }
  | start (v : Fin N) (t : Timer) (o : Outcome) (c : Cluster N) (hg : (x.timers v).go x.now (x.cluster.sites v).node = some t)
      (ht : t.place = .electing) (hs : Cluster.SiteStep x.cluster c v .startElection o) :
      Occurs x (.timer v) { x with cluster := c, timers := Function.update x.timers v t }
  | spurious (v : Fin N) : Occurs x (.spurious v) { x with timers := Function.update x.timers v (x.timers v).notify }
  | tick (d : ℕ) : Occurs x (.tick d) { x with now := x.now + d }

theorem act_occurs {b : Action N} {random : ℕ} {c : Cluster N} (hb : ∀ v, b ≠ .startElection v) (hc : x.cluster.step b = some c) :
    Occurs x (.act b random) { x with cluster := c, timers := x.timersAfter b random c } := by
  rcases Cluster.step_cases hc with ⟨v, i, o, hi, hs⟩ | ⟨id, call, rfl, hcall, _, rfl⟩
  · have hsite : c.sites v = o.site := by rw [hs.site v, if_pos rfl]
    have hne : i ≠ .startElection := by
      rintro rfl
      exact hb v (Cluster.input_startElection hi)
    unfold timersAfter
    rw [hi]
    simp only [hsite]
    exact .site b random v i o c hi hne hs
  · exact .garble id random call hcall

/-- Every action is one of these. -/
theorem step_occurs (h : x.step a = some y) : Occurs x a y := by
  cases a with
  | act b random =>
    cases b with
    | startElection v => cases h
    | _ =>
      simp only [step] at h
      obtain ⟨c, hc, rfl⟩ := Option.map_eq_some_iff.mp h
      exact act_occurs (fun _ => by simp) hc
  | timer v =>
    obtain ⟨t, hg, h⟩ := Option.bind_eq_some_iff.mp h
    simp only at h
    split at h
    · next ht =>
      obtain ⟨c, hc, rfl⟩ := Option.map_eq_some_iff.mp h
      rcases Cluster.step_cases hc with ⟨u, i, o, hi, hs⟩ | ⟨_, _, he, _⟩
      · obtain ⟨rfl, rfl⟩ : v = u ∧ Input.startElection = i := by simpa [Cluster.input] using hi
        exact .start v t o c hg ht hs
      · cases he
    · next ht =>
      obtain rfl := Option.some.inj h
      exact .wait v t hg ht
  | spurious v =>
    obtain rfl := Option.some.inj h
    exact .spurious v
  | tick d =>
    obtain rfl := Option.some.inj h
    exact .tick d

/-- A cluster with its timers, whatever happens in it. -/
structure Sound (x : TimedCluster N) : Prop where
  cluster : x.cluster.Sound
  timer : ∀ v, (x.timers v).Sound x.now (x.cluster.sites v)

theorem sound_init (N : ℕ) (random : Fin N → ℕ) : (init N random).Sound where
  cluster := Cluster.sound_init N
  timer v := Timer.sound_start (random v) rfl

/-- Every action keeps the timers sound. -/
theorem Sound.step (h : x.Sound) (hs : x.step a = some y) : y.Sound := by
  have hupdate {c : Cluster N} {v : Fin N} {o : Site} {t : Timer} (hsite : ∀ u, c.sites u = if u = v then o else x.cluster.sites u)
      (ht : t.Sound x.now o) (u : Fin N) : (Function.update x.timers v t u).Sound x.now (c.sites u) := by
    rw [hsite u, Function.update_apply]
    split
    · exact ht
    · exact h.timer u
  have hsame {v : Fin N} {t : Timer} (ht : t.Sound x.now (x.cluster.sites v)) (u : Fin N) :
      (Function.update x.timers v t u).Sound x.now (x.cluster.sites u) := by
    refine hupdate (o := x.cluster.sites v) (fun u => ?_) ht u
    split
    · next hu => rw [hu]
    · rfl
  cases step_occurs hs with
  | site b random v i o c hi hne hst =>
    have hstep := ((h.cluster.site v).step hst.outcome).1
    exact ⟨h.cluster.siteStep hst, hupdate hst.site ((h.timer v).after (h.cluster.site v) hstep hne)⟩
  | garble id random call hc => exact ⟨⟨h.cluster.site, h.cluster.id, h.cluster.rpcPort, h.cluster.peerRpcPorts⟩, h.timer⟩
  | wait v t hg ht =>
    exact ⟨h.cluster, hsame ((h.timer v).goes (Timer.go_goes (h.cluster.site v).node.up hg) ht)⟩
  | start v t o c hg ht hst =>
    have hstep := ((h.cluster.site v).step hst.outcome).1
    exact ⟨h.cluster.siteStep hst, hupdate hst.site ((h.timer v).call (Timer.go_goes (h.cluster.site v).node.up hg) ht hstep)⟩
  | spurious v => exact ⟨h.cluster, hsame (h.timer v).notify⟩
  | tick d => exact ⟨h.cluster, fun v => (h.timer v).tick d⟩

/-- What an action does at one node: nothing but that time may pass, a step of the site and what it does to the timer, a step of the timer
by itself, the start of an election by the timer, or a waking without a reason. -/
inductive Seen (x : TimedCluster N) (v : Fin N) (a : TimedAction N) (y : TimedCluster N) : Prop where
  | same (ht : y.timers v = x.timers v) (hs : y.cluster.sites v = x.cluster.sites v) (hn : x.now ≤ y.now)
  | input (b : Action N) (random : ℕ) (i : Input) (o : Outcome) (ha : a = .act b random) (hi : x.cluster.input b = some (v, i))
      (hne : i ≠ .startElection) (hst : Cluster.SiteStep x.cluster y.cluster v i o)
      (ht : y.timers v = (x.timers v).after N x.now random (x.cluster.sites v) o.site i) (hs : y.cluster.sites v = o.site)
      (hn : y.now = x.now)
  | wait (t : Timer) (hg : (x.timers v).Goes x.now (x.cluster.sites v).node t) (hp : t.place ≠ .electing) (ht : y.timers v = t)
      (hs : y.cluster.sites v = x.cluster.sites v) (hn : y.now = x.now)
  | start (t : Timer) (o : Outcome) (hg : (x.timers v).Goes x.now (x.cluster.sites v).node t) (hp : t.place = .electing)
      (hst : Cluster.SiteStep x.cluster y.cluster v .startElection o) (ht : y.timers v = t) (hs : y.cluster.sites v = o.site)
      (hn : y.now = x.now)
  | spurious (ha : a = .spurious v) (ht : y.timers v = (x.timers v).notify) (hs : y.cluster.sites v = x.cluster.sites v)
      (hn : y.now = x.now)

theorem step_seen (hx : x.Sound) (h : x.step a = some y) (v : Fin N) : Seen x v a y := by
  have hself (u : Fin N) (t : Timer) : Function.update x.timers u t u = t := Function.update_self u t x.timers
  have hother {u : Fin N} (t : Timer) (huv : v ≠ u) : Function.update x.timers u t v = x.timers v := Function.update_of_ne huv t x.timers
  cases step_occurs h with
  | site b random u i o c hi hne hst =>
    by_cases huv : v = u
    · subst huv
      exact .input b random i o rfl hi hne hst (hself v _) (by rw [hst.site v, if_pos rfl]) rfl
    · exact .same (hother _ huv) (by rw [hst.site v, if_neg huv]) le_rfl
  | garble id random call hc => exact .same rfl rfl le_rfl
  | wait u t hg hp =>
    by_cases huv : v = u
    · subst huv
      exact .wait t (Timer.go_goes (hx.cluster.site v).node.up hg) hp (hself v t) rfl rfl
    · exact .same (hother t huv) rfl le_rfl
  | start u t o c hg hp hst =>
    by_cases huv : v = u
    · subst huv
      exact .start t o (Timer.go_goes (hx.cluster.site v).node.up hg) hp hst (hself v t) (by rw [hst.site v, if_pos rfl]) rfl
    · exact .same (hother t huv) (by rw [hst.site v, if_neg huv]) le_rfl
  | spurious u =>
    by_cases huv : v = u
    · subst huv
      exact .spurious rfl (hself v _) rfl rfl
    · exact .same (hother _ huv) rfl le_rfl
  | tick d => exact .same rfl rfl (Nat.le_add_right _ d)

/-! ## A leader that is heard stays -/

/-- The leader is not restarted, and no time passes in which another node would have heard nothing for two seconds. -/
def Timely (l : Fin N) (x : TimedCluster N) : TimedAction N → Prop
  | .act (.restart v) _ => v ≠ l
  | .tick d => ∀ v, v ≠ l → x.now + d < (x.timers v).lastHeartbeatTimePoint + 2000
  | _ => True

/-- Neither the message of a call nor the reply to it carries a later term than `T`. -/
def CallUpTo (T : ℤ) (y : Call) : Prop := y.req.term ≤ T ∧ ∀ t ∈ y.resp.bind Reply.term, t ≤ T

/-- The node `l` leads in the term `T`, nobody knows of a later one, and the others follow. -/
structure Led (l : Fin N) (T : ℤ) (x : TimedCluster N) : Prop where
  leads : (x.cluster.sites l).node.state = .leader
  term : (x.cluster.sites l).node.currentTerm = T
  follows : ∀ v, v ≠ l → (x.cluster.sites v).node.state = .follower ∧ (x.cluster.sites v).election = none
  terms : ∀ v, (x.cluster.sites v).node.currentTerm ≤ T
  calls : ∀ y ∈ x.cluster.calls, CallUpTo T y
  awake : ∀ v, v ≠ l → (x.timers v).place ≠ .due ∧ x.now < (x.timers v).lastHeartbeatTimePoint + 2000

variable {l : Fin N} {T : ℤ} {i : Input} {o : Outcome} {c : Cluster N}

/-- What comes in carries no later term than the calls do. -/
theorem input_upTo (hcalls : ∀ y ∈ x.cluster.calls, CallUpTo T y) (hs : Cluster.SiteStep x.cluster c v i o) : i.UpTo T := by
  cases i with
  | receive req =>
    rcases hs.calls with ⟨hne, _⟩ | ⟨id, y, hy, hreq, _⟩
    · exact absurd rfl (hne req)
    · obtain rfl := Input.receive.inj hreq
      exact (hcalls y (List.mem_of_getElem? hy)).1
  | reply t r =>
    cases r with
    | none => trivial
    | some r =>
      obtain ⟨id, _, hresp⟩ := Option.bind_eq_some_iff.mp (hs.reply t r rfl)
      obtain ⟨y, hy, hr⟩ := Option.bind_eq_some_iff.mp hresp
      intro term hterm
      exact (hcalls y (List.mem_of_getElem? hy)).2 term (by rw [hr]; exact hterm)
  | _ => trivial

/-- The calls after a step carry no later term, if the node is in none. -/
theorem calls_upTo (hx : x.Sound) (hcalls : ∀ y ∈ x.cluster.calls, CallUpTo T y) (hs : Cluster.SiteStep x.cluster c v i o)
    (hv : (x.cluster.sites v).node.currentTerm ≤ T) (ho : o.site.node.currentTerm ≤ T) : ∀ y ∈ c.calls, CallUpTo T y := by
  have hstep := ((hx.cluster.site v).step hs.outcome).1
  have hsent : ∀ y ∈ x.cluster.calls ++ o.calls, CallUpTo T y := by
    intro y hy
    rcases List.mem_append.mp hy with hy | hy
    · exact hcalls y hy
    · obtain ⟨m, hm, rfl⟩ := List.mem_map.mp hy
      exact ⟨(hstep.send_term (Option.mem_toList.mp hm)).trans_le hv, fun _ ht => by cases ht⟩
  rcases hs.calls with ⟨_, hc⟩ | ⟨id, _, _, _, _, _, hc⟩ <;> rw [hc]
  · exact hsent
  · intro y hy
    rcases Cluster.mem_noteReply hy with hy | ⟨y₀, hy₀, rfl⟩
    · exact hsent y hy
    · refine ⟨(hsent y₀ (List.mem_of_getElem? hy₀)).1, fun term hterm => ?_⟩
      obtain ⟨r, hr, hterm⟩ := Option.bind_eq_some_iff.mp hterm
      exact (hstep.reply_term hr hterm).trans_le ho

/-- A follower that no election is under way at still is one after a step other than the call of `start_election`. -/
theorem follower_stays (hx : x.Sound) (hs : Cluster.SiteStep x.cluster c v i o) (hi : i ≠ .startElection)
    (hf : (x.cluster.sites v).node.state = .follower ∧ (x.cluster.sites v).election = none) :
    o.site.node.state = .follower ∧ o.site.election = none := by
  have hstep := ((hx.cluster.site v).step hs.outcome).1
  constructor
  · rcases (hx.cluster.site v).role_cases hstep with hl | ⟨rfl, _⟩ | ⟨_, ⟨el, hel, _⟩, _⟩
    · by_contra hne
      exact hne ((hl.state hne).1.trans hf.1)
    · exact absurd rfl hi
    · cases hf.2.symm.trans hel
  · by_cases hof : i.OfElection
    · rcases hstep.ofElection hof with rfl | ⟨he, _⟩
      · cases hstep
        rfl
      · rw [hf.2] at he
        cases he
    · exact (hstep.election_eq hi hof).trans hf.2

/-- Every timely action leaves the leader where it is. -/
theorem Led.step (h : Led l T x) (hx : x.Sound) (ha : Timely l x a) (hs : x.step a = some y) : Led l T y := by
  have hsame {v : Fin N} {t : Timer} (ht : v ≠ l → t.place ≠ .due ∧ x.now < t.lastHeartbeatTimePoint + 2000) (u : Fin N) (hu : u ≠ l) :
      (Function.update x.timers v t u).place ≠ .due ∧ x.now < (Function.update x.timers v t u).lastHeartbeatTimePoint + 2000 := by
    rw [Function.update_apply]
    split
    · next huv => exact ht (huv ▸ hu)
    · exact h.awake u hu
  cases step_occurs hs with
  | site b random v i o c hi hne hst =>
    have hstep := ((hx.cluster.site v).step hst.outcome).1
    have hin := input_upTo h.calls hst
    have hT := (hx.cluster.site v).term_le hstep hne (h.terms v) hin
    refine ⟨?_, ?_, fun u hu => ?_, fun u => ?_, calls_upTo hx h.calls hst (h.terms v) hT, hsame fun hv => ?_⟩
    · rw [hst.site l]
      split
      · next hlv =>
        subst hlv
        refine (hx.cluster.site l).leader_stays hstep ?_ h.leads (by rwa [h.term])
        rintro rfl
        obtain rfl := Cluster.input_restart hi
        exact ha rfl
      · exact h.leads
    · rw [hst.site l]
      split
      · next hlv =>
        subst hlv
        exact le_antisymm hT (h.term.symm.trans_le ((hx.cluster.site l).identity hstep).2.2.2)
      · exact h.term
    · rw [hst.site u]
      split
      · next huv => exact follower_stays hx hst hne (h.follows v (huv ▸ hu))
      · exact h.follows u hu
    · rw [hst.site u]
      split
      · exact hT
      · exact h.terms u
    · obtain ⟨hdue, hnow⟩ := h.awake v hv
      refine ⟨fun hp => hdue (Timer.due_of_after (hx.timer v).electing hstep hp), ?_⟩
      rcases (x.timers v).after_last N x.now random (x.cluster.sites v) o.site i with hl | hl <;> rw [hl]
      · exact hnow
      · omega
  | garble id random call hc =>
    refine ⟨h.leads, h.term, h.follows, h.terms, fun y hy => ?_, h.awake⟩
    rcases Cluster.mem_noteReply hy with hy | ⟨y₀, hy₀, rfl⟩
    · exact h.calls y hy
    · exact ⟨(h.calls y₀ (List.mem_of_getElem? hy₀)).1, fun _ ht => by cases ht⟩
  | wait v t hg ht =>
    refine ⟨h.leads, h.term, h.follows, h.terms, h.calls, hsame fun hv => ?_⟩
    obtain ⟨_, hnow⟩ := h.awake v hv
    have hchosen := (hx.timer v).chosen.1
    cases Timer.go_goes (hx.cluster.site v).node.up hg with
    | expire hp hl hexp => omega
    | call hp => exact absurd rfl ht
    | _ => exact ⟨by simp, hnow⟩
  | start v t o c hg ht hst =>
    have hdue : (x.timers v).place = .due := by
      cases Timer.go_goes (hx.cluster.site v).node.up hg with
      | call hp => exact hp
      | _ => cases ht
    by_cases hv : v = l
    · exact absurd h.leads (hv ▸ (hx.timer v).waits (.inl hdue))
    · exact absurd hdue (h.awake v hv).1
  | spurious v =>
    refine ⟨h.leads, h.term, h.follows, h.terms, h.calls, hsame fun hv => ?_⟩
    exact ⟨fun hp => (h.awake v hv).1 ((Timer.notify_place_iff (by simp) (by simp)).mp hp), (h.awake v hv).2⟩
  | tick d => exact ⟨h.leads, h.term, h.follows, h.terms, h.calls, fun v hv => ⟨(h.awake v hv).1, ha v hv⟩⟩

/-- Any action. -/
def anyAction (_ : TimedCluster N) (_ : TimedAction N) : Prop := True

instance (x : TimedCluster N) (a : TimedAction N) : Decidable (anyAction x a) := instDecidableTrue

/-- Every cluster with timers that a run reaches is sound. -/
theorem sound_of_run {P : TimedCluster N → TimedAction N → Prop} {random : Fin N → ℕ} (h : Run step P (init N random) x) : x.Sound :=
  h.invariant (fun _ _ _ hx _ hs => hx.step hs) (sound_init N random)

instance (T : ℤ) (y : Call) : Decidable (CallUpTo T y) := instDecidableAnd

instance (l : Fin N) (x : TimedCluster N) (a : TimedAction N) : Decidable (Timely l x a) :=
  match a with
  | .act (.restart v) _ => inferInstanceAs (Decidable (v ≠ l))
  | .tick d => inferInstanceAs (Decidable (∀ v, v ≠ l → x.now + d < (x.timers v).lastHeartbeatTimePoint + 2000))
  | .act (.startElection _) _ | .act (.step _ _) _ | .act (.reply _ _ _) _ | .act (.deliver _ _) _ | .act (.garble _) _
  | .act (.clientRequest _ _) _ | .act (.snapshotNow _) _ | .timer _ | .spurious _ => instDecidableTrue

theorem led_iff : ((x.cluster.sites l).node.state = .leader ∧ (x.cluster.sites l).node.currentTerm = T ∧
    (∀ v, v ≠ l → (x.cluster.sites v).node.state = .follower ∧ (x.cluster.sites v).election.isNone = true) ∧
    (∀ v, (x.cluster.sites v).node.currentTerm ≤ T) ∧ (∀ y ∈ x.cluster.calls, CallUpTo T y) ∧
    ∀ v, v ≠ l → (x.timers v).place ≠ .due ∧ x.now < (x.timers v).lastHeartbeatTimePoint + 2000) ↔ Led l T x := by
  constructor
  · rintro ⟨hl, ht, hf, hterms, hcalls, ha⟩
    exact ⟨hl, ht, fun v hv => ⟨(hf v hv).1, Option.isNone_iff_eq_none.mp (hf v hv).2⟩, hterms, hcalls, ha⟩
  · intro h
    exact ⟨h.leads, h.term, fun v hv => ⟨(h.follows v hv).1, Option.isNone_iff_eq_none.mpr (h.follows v hv).2⟩, h.terms, h.calls, h.awake⟩

instance (l : Fin N) (T : ℤ) (x : TimedCluster N) : Decidable (Led l T x) := decidable_of_iff _ led_iff

/-- Three nodes, of which node 0 waits two seconds and the others almost four. -/
def started : TimedCluster 3 := init 3 fun v => if v = 0 then 0 else 1999

/-- Nothing is heard, the timeout of node 0 is over first, and it is elected with the vote of node 1; the one of node 2 gets lost. -/
def elects : List (TimedAction 3) :=
  [.timer 0, .timer 1, .timer 2, .tick 2000, .timer 0, .timer 0, .timer 0, .act (.step 0 .election) 0, .act (.deliver 1 0) 0,
    .act (.reply 0 .election false) 0, .act (.step 0 .election) 0, .act (.deliver 2 1) 0, .act (.reply 0 .election true) 0,
    .act (.step 0 .election) 0]

/-- The heartbeat thread sends to both peers, which hear it. -/
def isHeard (call : ℕ) : List (TimedAction 3) :=
  [.act (.step 0 .heartbeat) 0, .act (.step 0 .heartbeat) 0, .act (.deliver 1 call) 0, .act (.reply 0 .heartbeat false) 0,
    .act (.step 0 .heartbeat) 0, .act (.deliver 2 (call + 1)) 0, .act (.reply 0 .heartbeat false) 0, .act (.step 0 .heartbeat) 0]

/-- A client command fails, and the timers wake up for nothing in between. -/
def goesOn : List (TimedAction 3) :=
  [.timer 0, .timer 2, .tick 1999, .timer 1, .act (.clientRequest 0 (putRequest 1 "a")) 0,
    .act (.step 0 (.client 0)) 0] ++ isHeard 5 ++ [.tick 1999, .timer 1, .spurious 2, .timer 2]

/-- No input of `v` is one that `f` names. -/
def Without (x : TimedCluster N) (v : Fin N) (f : Site → Input → Bool) : TimedAction N → Prop
  | .act b _ => ∀ p ∈ x.cluster.input b, p.1 = v → f (x.cluster.sites v) p.2 = false
  | .timer _ | .spurious _ | .tick _ => True

instance (x : TimedCluster N) (v : Fin N) (f : Site → Input → Bool) (a : TimedAction N) : Decidable (x.Without v f a) :=
  match a with
  | .act b _ => inferInstanceAs (Decidable (∀ p ∈ x.cluster.input b, p.1 = v → f (x.cluster.sites v) p.2 = false))
  | .timer _ | .spurious _ | .tick _ => instDecidableTrue

/-- At most `k` steps of the timer of `v`, in which no time passes and nothing else happens, start an election. -/
def Calls (v : Fin N) (k : ℕ) (x : TimedCluster N) : Prop :=
  ∃ j ≤ k, ∃ y ∈ Systems.runAll step anyAction x (List.replicate j (.timer v)), y.now = x.now ∧
    (y.cluster.sites v).node.state = .candidate ∧
    (y.cluster.sites v).node.currentTerm = (x.cluster.sites v).node.currentTerm + 1 ∧ (y.cluster.sites v).election.isSome = true

/-- A thread past the test of its timeout calls `start_election`. -/
theorem calls_of_due (hx : x.Sound) (hp : (x.timers v).place = .due) (he : (x.cluster.sites v).election = none) : Calls v 1 x := by
  have hup : (x.cluster.sites v).node.shutdownRequested = false := (hx.cluster.site v).node.up
  have hl : (x.cluster.sites v).node.state ≠ .leader := (hx.timer v).waits (.inl hp)
  have hgo : (x.timers v).go x.now (x.cluster.sites v).node = some { x.timers v with place := .electing } := by
    simp [Timer.go, hp, hup]
  obtain ⟨o, ho, hstate, hterm, hel⟩ : ∃ o, x.cluster.outcome v .startElection = some o ∧ o.site.node.state = .candidate ∧
      o.site.node.currentTerm = (x.cluster.sites v).node.currentTerm + 1 ∧ o.site.election.isSome = true := by
    obtain ⟨o, ho⟩ : ∃ o, x.cluster.outcome v .startElection = some o := by
      simp [Cluster.outcome, Site.step, Site.startElection, he, hup, hl]
    refine ⟨o, ho, ?_⟩
    cases ((hx.cluster.site v).step ho).1
    exact ⟨rfl, rfl, rfl⟩
  have hstep : x.step (.timer v) = some
      { x with cluster := x.cluster.update v o, timers := Function.update x.timers v { x.timers v with place := .electing } } := by
    simp [step, timerStep, hgo, Cluster.step, ho]
  refine ⟨1, le_rfl, { x with
      cluster := x.cluster.update v o, timers := Function.update x.timers v { x.timers v with place := .electing } }, ?_, rfl, ?_⟩
  · simp [Systems.runAll, anyAction, hstep]
  · simpa [Cluster.update] using ⟨hstate, hterm, hel⟩

/-- A step of the thread before it comes to the call. -/
theorem Calls.succ {k : ℕ} {t : Timer} (hgo : (x.timers v).go x.now (x.cluster.sites v).node = some t) (ht : t.place ≠ .electing)
    (h : Calls v k { x with timers := Function.update x.timers v t }) : Calls v (k + 1) x := by
  have hstep : x.step (.timer v) = some { x with timers := Function.update x.timers v t } := by
    simp [step, timerStep, hgo, ht]
  obtain ⟨j, hj, y, hy, hrest⟩ := h
  refine ⟨j + 1, Nat.succ_le_succ hj, y, ?_, hrest⟩
  rw [List.replicate_succ, Systems.runAll, if_pos (show x.anyAction (.timer v) from trivial), hstep]
  exact hy

theorem Calls.mono {k k' : ℕ} (h : Calls v k x) (hk : k ≤ k') : Calls v k' x := by
  obtain ⟨j, hj, hrest⟩ := h
  exact ⟨j, hj.trans hk, hrest⟩

/-- A thread of a node that is no leader, at the head of its loop, finds the timeout over. -/
theorem calls_of_head (hx : x.Sound) (hp : (x.timers v).place = .head) (hl : (x.cluster.sites v).node.state ≠ .leader)
    (he : (x.cluster.sites v).election = none)
    (hexp : (x.timers v).electionTimeout ≤ x.now - (x.timers v).lastHeartbeatTimePoint) : Calls v 2 x := by
  have hup : (x.cluster.sites v).node.shutdownRequested = false := (hx.cluster.site v).node.up
  have hgo : (x.timers v).go x.now (x.cluster.sites v).node = some { x.timers v with place := .due } := by
    simp [Timer.go, hp, hup, hl, hexp]
  have hstep : x.step (.timer v) = some { x with timers := Function.update x.timers v { x.timers v with place := .due } } := by
    simp [step, timerStep, hgo]
  refine Calls.succ hgo (by simp) (calls_of_due (hx.step hstep) ?_ he)
  simp

/-- A waiting thread goes back to the head of its loop. -/
theorem calls_of_waiting (hx : x.Sound)
    (hgo : (x.timers v).go x.now (x.cluster.sites v).node = some { x.timers v with place := .head })
    (hl : (x.cluster.sites v).node.state ≠ .leader) (he : (x.cluster.sites v).election = none)
    (hexp : (x.timers v).electionTimeout ≤ x.now - (x.timers v).lastHeartbeatTimePoint) : Calls v 3 x := by
  have hstep : x.step (.timer v) = some { x with timers := Function.update x.timers v { x.timers v with place := .head } } := by
    simp [step, timerStep, hgo]
  refine Calls.succ hgo (by simp) (calls_of_head (hx.step hstep) ?_ hl he ?_)
  · simp
  · simpa using hexp

/-- A thread that waits as that of a leader is one, where its timer is always told. -/
theorem leading_step (hx : x.Sound) (h : (x.timers v).place = .leading false → (x.cluster.sites v).node.state = .leader)
    (ha : x.Without v Site.untold a) (hs : x.step a = some y) :
    (y.timers v).place = .leading false → (y.cluster.sites v).node.state = .leader := by
  intro hp
  cases step_seen hx hs v with
  | same ht hsite hn =>
    rw [hsite]
    exact h (ht ▸ hp)
  | input b random i o hb hi hne hst ht hsite hn =>
    subst hb
    have hstep := ((hx.cluster.site v).step hst.outcome).1
    rw [ht] at hp
    rw [hsite]
    have hof : ¬i.OfElection := by
      intro hof
      rcases Timer.after_ofElection x.now random (hx.timer v).electing hstep hof with hq | hq <;> simp [hq] at hp
    cases hq : (x.cluster.sites v).notified i with
    | true =>
      rw [Timer.after_of_notified hq, Timer.notify] at hp
      cases hplace : (x.timers v).place <;> simp [hplace] at hp
    | false =>
      rw [Timer.after_of_quiet hof hq] at hp
      by_contra hl
      rcases (hx.cluster.site v).falls hst.outcome (h hp) hl with rfl | hn | hk | he
      · exact hof trivial
      · exact absurd (hn.symm.trans hq) (by simp)
      · exact absurd (hk.symm.trans (ha _ hi rfl)) (by simp)
      · exact absurd (hp.symm.trans ((hx.timer v).electing.mpr he)) (by simp)
  | wait t hg hne ht hsite hn =>
    rw [ht] at hp
    rw [hsite]
    cases hg with
    | lead _ hl => exact hl
    | stay _ hl => exact hl
    | _ => cases hp
  | start t o hg he hst ht hsite hn => exact absurd (he.symm.trans (ht ▸ hp)) (by simp)
  | spurious hb ht hsite hn =>
    rw [ht, Timer.notify] at hp
    cases hplace : (x.timers v).place <;> simp [hplace] at hp

/-- A node that does not lead and has heard nothing for four seconds is in an election, or the next three steps of its timer start one,
where its client commands have seen no later term. -/
theorem overdue_elects {random : Fin N → ℕ} (h : Run step (fun z => z.Without v Site.untold) (init N random) x)
    (hl : (x.cluster.sites v).node.state ≠ .leader)
    (ht : (x.timers v).lastHeartbeatTimePoint + 4000 ≤ x.now) : (x.cluster.sites v).election.isSome = true ∨ Calls v 3 x := by
  have hx : x.Sound := sound_of_run h
  have hlead : (x.timers v).place = .leading false → (x.cluster.sites v).node.state = .leader := by
    have hinv := h.invariant (I := fun z => z.Sound ∧ ((z.timers v).place = .leading false → (z.cluster.sites v).node.state = .leader))
      (fun _ _ _ hz ha hs => ⟨hz.1.step hs, leading_step hz.1 hz.2 ha hs⟩) ⟨sound_init N random, fun hp => by cases hp⟩
    exact hinv.2
  have hup : (x.cluster.sites v).node.shutdownRequested = false := (hx.cluster.site v).node.up
  have hexp : (x.timers v).electionTimeout ≤ x.now - (x.timers v).lastHeartbeatTimePoint := by
    have := (hx.timer v).chosen.2
    omega
  cases he : (x.cluster.sites v).election with
  | some el => exact .inl rfl
  | none =>
    right
    cases hp : (x.timers v).place with
    | head => exact (calls_of_head hx hp hl he hexp).mono (by omega)
    | leading b =>
      cases b with
      | false => exact absurd (hlead hp) hl
      | true => exact calls_of_waiting hx (by simp [Timer.go, hp, hl]) hl he hexp
    | sleeping wake b =>
      have hwake := (hx.timer v).wake wake b hp
      exact calls_of_waiting hx (by simp [Timer.go, hp, show wake ≤ x.now by omega]) hl he hexp
    | due => exact (calls_of_due hx hp he).mono (by omega)
    | electing =>
      have := (hx.timer v).electing.mp hp
      rw [he] at this
      cases this
    | ended => exact absurd hp (hx.timer v).running

theorem overdue_of_elects : ∃ x ∈ Systems.runAll step (fun z => z.Without 1 Site.untold) started (elects ++ isHeard 2 ++ [.tick 4000]),
    (x.cluster.sites 1).node.state ≠ .leader ∧ (x.timers 1).lastHeartbeatTimePoint + 4000 ≤ x.now ∧
      (x.cluster.sites 1).election.isNone = true := by
  decide +kernel

/-- Node 1 has heard of the leader, and nothing for four seconds after that. -/
theorem overdue_elects_elects : ∃ x ∈ Systems.runAll step (fun z => z.Without 1 Site.untold) started
    (elects ++ isHeard 2 ++ [.tick 4000]), (x.cluster.sites 1).election.isNone = true ∧
      ((x.cluster.sites 1).election.isSome = true ∨ Calls 1 3 x) := by
  obtain ⟨x, hx, hl, ht, he⟩ := overdue_of_elects
  exact ⟨x, hx, he, overdue_elects (Run.refl.runAll hx) hl ht⟩

/-! ## A leader that is deposed by a reply to a client command -/

/-- Nothing wakes the thread of the timer of `v`. -/
def Unwoken (v : Fin N) (x : TimedCluster N) : TimedAction N → Prop
  | .spurious u => u ≠ v
  | .act b random => x.Without v Site.wakes (.act b random)
  | .timer _ | .tick _ => True

instance (v : Fin N) (x : TimedCluster N) (a : TimedAction N) : Decidable (Unwoken v x a) :=
  match a with
  | .spurious u => inferInstanceAs (Decidable (u ≠ v))
  | .act b random => inferInstanceAs (Decidable (x.Without v Site.wakes (.act b random)))
  | .timer _ | .tick _ => instDecidableTrue

/-- The thread of the timer of `v` waits as that of a leader, which `v` is not. -/
structure Stuck (v : Fin N) (x : TimedCluster N) : Prop where
  waits : (x.timers v).place = .leading false
  deposed : (x.cluster.sites v).node.state ≠ .leader

theorem Stuck.idle (h : Stuck v x) (hx : x.Sound) : (x.cluster.sites v).election = none := by
  cases he : (x.cluster.sites v).election with
  | none => rfl
  | some el => exact absurd (h.waits.symm.trans ((hx.timer v).electing.mpr (by rw [he]; rfl))) (by simp)

/-- A site outside an election becomes a leader by no step. -/
theorem deposed_step {i : Input} {o : Outcome} {c : Cluster N} (hx : x.Sound) (hs : Cluster.SiteStep x.cluster c v i o)
    (hi : i ≠ .startElection) (he : (x.cluster.sites v).election = none) (hl : (x.cluster.sites v).node.state ≠ .leader) :
    o.site.node.state ≠ .leader := by
  intro hl'
  have hstep := ((hx.cluster.site v).step hs.outcome).1
  rcases (hx.cluster.site v).role_cases hstep with hlater | ⟨rfl, _⟩ | ⟨_, ⟨el, hel, _⟩, _⟩
  · have hne : o.site.node.role.state ≠ .follower := fun hf => by cases hl'.symm.trans hf
    exact hl ((hlater.state hne).1.symm.trans hl')
  · exact hi rfl
  · cases he.symm.trans hel

theorem Stuck.step (h : Stuck v x) (hx : x.Sound) (ha : Unwoken v x a) (hs : x.step a = some y) : Stuck v y := by
  have hblocked {t : Timer} (hg : (x.timers v).Goes x.now (x.cluster.sites v).node t) : False := by
    cases hg <;> simp_all [h.waits]
  cases step_seen hx hs v with
  | same ht hsite hn => exact ⟨ht ▸ h.waits, hsite ▸ h.deposed⟩
  | input b random i o hb hi hne hst ht hsite hn =>
    subst hb
    have hwakes : (x.cluster.sites v).wakes i = false := ha _ hi rfl
    obtain ⟨hrestart, hquiet⟩ : i ≠ .restart ∧ (x.cluster.sites v).notified i = false := by simpa [Site.wakes] using hwakes
    have hof : ¬i.OfElection := by
      intro hof
      rcases ((hx.cluster.site v).step hst.outcome).1.ofElection hof with hr | ⟨he, _⟩
      · exact hrestart hr
      · rw [h.idle hx] at he
        cases he
    refine ⟨?_, hsite ▸ deposed_step hx hst hne (h.idle hx) h.deposed⟩
    rw [ht, Timer.after_of_quiet hof hquiet]
    exact h.waits
  | wait t hg hne ht hsite hn => exact (hblocked hg).elim
  | start t o hg he hst ht hsite hn => exact (hblocked hg).elim
  | spurious hb ht hsite hn =>
    subst hb
    exact absurd rfl ha

/-- A leader whose timer waits when it is deposed starts no election again, however long it hears nothing: until AppendEntries of a leader
or a later term wakes the timer, or a restart. -/
theorem deposed_waits {random : Fin N → ℕ} (hx : Run step anyAction (init N random) x) (hp : (x.timers v).place = .leading false)
    (hl : (x.cluster.sites v).node.state ≠ .leader) (hr : Run step (Unwoken v) x y) :
    (y.timers v).place = .leading false ∧ (y.cluster.sites v).node.state ≠ .leader ∧ (y.cluster.sites v).election = none := by
  obtain ⟨hy, hstuck⟩ := hr.invariant (I := fun z => z.Sound ∧ Stuck v z)
    (fun _ _ _ hz ha hs => ⟨hz.1.step hs, hz.2.step hz.1 ha hs⟩) ⟨sound_of_run hx, hp, hl⟩
  exact ⟨hstuck.waits, hstuck.deposed, hstuck.idle hy⟩

/-- Node 2 hears nothing of the leader and starts an election. Node 0 does not get its request, node 1 does, and answers the message of a
client command of node 0 with the later term. -/
def isDeposed : List (TimedAction 3) :=
  elects ++ [.timer 0, .act (.clientRequest 0 (putRequest 1 "a")) 0, .act (.step 0 (.client 0)) 0, .tick 4000,
    .timer 2, .timer 2, .timer 2,
    .act (.step 2 .election) 0, .act (.reply 2 .election true) 0, .act (.step 2 .election) 0, .act (.deliver 1 4) 0,
    .act (.deliver 1 2) 0, .act (.reply 0 (.client 0) false) 0]

theorem waits_of_isDeposed : ∃ x ∈ Systems.runAll step anyAction started isDeposed,
    (x.timers 0).place = .leading false ∧ (x.cluster.sites 0).node.state ≠ .leader ∧
      ∃ y ∈ Systems.runAll step (Unwoken 0) x [.act (.reply 2 .election true) 0, .tick 1000000], y.now = 1006000 := by
  decide +kernel

/-- Node 0 hears nothing for a quarter of an hour, and starts no election. -/
theorem deposed_waits_isDeposed : ∃ x ∈ Systems.runAll step anyAction started isDeposed,
    ∃ y ∈ Systems.runAll step (Unwoken 0) x [.act (.reply 2 .election true) 0, .tick 1000000], y.now = 1006000 ∧
      (y.timers 0).place = .leading false ∧ (y.cluster.sites 0).node.state ≠ .leader ∧ (y.cluster.sites 0).election = none := by
  obtain ⟨x, hx, hp, hl, y, hy, hnow⟩ := waits_of_isDeposed
  exact ⟨x, hx, y, hy, hnow, deposed_waits (Run.refl.runAll hx) hp hl (Run.refl.runAll hy)⟩

/-! ## Elections without a pause -/

/-- The timeout of `v` is over, and its thread is on its way to `start_election` or in it. -/
structure Pressing (v : Fin N) (x : TimedCluster N) : Prop where
  expired : (x.timers v).electionTimeout ≤ x.now - (x.timers v).lastHeartbeatTimePoint
  place : (x.timers v).place = .head ∨ (x.timers v).place = .due ∨ (x.timers v).place = .electing
  follows : (x.cluster.sites v).node.state ≠ .leader

theorem Pressing.step (h : Pressing v x) (hx : x.Sound) (ha : x.Without v (Site.resets N) a) (hs : x.step a = some y) :
    Pressing v y := by
  have hexp := h.expired
  cases step_seen hx hs v with
  | same ht hsite hn =>
    refine ⟨?_, ht ▸ h.place, hsite ▸ h.follows⟩
    rw [ht]
    omega
  | input b random i o hb hi hne hst ht hsite hn =>
    subst hb
    have hstep := ((hx.cluster.site v).step hst.outcome).1
    have hunset : (x.cluster.sites v).resets N i = false := ha _ hi rfl
    obtain ⟨hlast, htimeout⟩ := Timer.after_of_unset (x.timers v) x.now random o.site hunset
    refine ⟨by rw [ht, hlast, htimeout, hn]; exact hexp, ?_, ?_⟩
    · rw [ht]
      by_cases hof : i.OfElection
      · rcases Timer.after_ofElection x.now random (hx.timer v).electing hstep hof with hp | hp
        · exact .inr (.inr hp)
        · exact .inl hp
      · rcases (x.timers v).after_place hof with hp | hp <;> rw [hp]
        · exact h.place
        · rcases h.place with hq | hq | hq <;> simp [Timer.notify, hq]
    · rw [hsite]
      intro hl
      rcases (hx.cluster.site v).role_cases hstep with hlater | ⟨rfl, _⟩ | ⟨rfl, ⟨el, hel, hphase, hrest, hvotes⟩, _⟩
      · have hne : o.site.node.role.state ≠ .follower := fun hf => by cases hl.symm.trans hf
        exact h.follows ((hlater.state hne).1.symm.trans hl)
      · exact hne rfl
      · have hup : (x.cluster.sites v).node.shutdownRequested = false := (hx.cluster.site v).node.up
        simp [Site.resets, Site.wins, hel, hphase, hrest, hvotes, hup] at hunset
  | wait t hg hp ht hsite hn =>
    have hplace := h.place
    have hfollows := h.follows
    refine ⟨?_, ?_, hsite ▸ h.follows⟩
    · rw [ht, hn]
      cases hg <;> exact hexp
    · rw [ht]
      cases hg <;> simp_all
  | start t o hg hp hst ht hsite hn =>
    have hstep := ((hx.cluster.site v).step hst.outcome).1
    refine ⟨?_, .inr (.inr (ht ▸ hp)), ?_⟩
    · rw [ht, hn]
      cases hg <;> exact hexp
    · rw [hsite]
      cases hstep
      exact fun hl => by cases hl
  | spurious hb ht hsite hn =>
    refine ⟨by rw [ht, hn]; exact hexp, ?_, hsite ▸ h.follows⟩
    rcases h.place with hq | hq | hq <;> simp [ht, Timer.notify, hq]

/-- A failed election leaves the timeout over: as long as nothing sets it anew, the timer never waits again, and each election is followed
by the next one after two steps in which no time passes. -/
theorem elections_press {random : Fin N → ℕ} (hx : Run step anyAction (init N random) x)
    (hp : (x.timers v).place = .electing) (hl : (x.cluster.sites v).node.state ≠ .leader)
    (hexp : (x.timers v).electionTimeout ≤ x.now - (x.timers v).lastHeartbeatTimePoint)
    (hr : Run step (fun z => z.Without v (Site.resets N)) x y) :
    (∀ wake b, (y.timers v).place ≠ .sleeping wake b) ∧ ((y.cluster.sites v).election.isSome = true ∨ Calls v 2 y) := by
  obtain ⟨hy, h⟩ := hr.invariant (I := fun z => z.Sound ∧ Pressing v z)
    (fun _ _ _ hz ha hs => ⟨hz.1.step hs, hz.2.step hz.1 ha hs⟩) ⟨sound_of_run hx, hexp, .inr (.inr hp), hl⟩
  refine ⟨fun wake b hq => ?_, ?_⟩
  · rcases h.place with hp | hp | hp <;> simp [hp] at hq
  · cases he : (y.cluster.sites v).election with
    | some el => exact .inl rfl
    | none =>
      right
      rcases h.place with hp | hp | hp
      · exact calls_of_head hy hp h.follows he h.expired
      · exact (calls_of_due hy hp he).mono (by omega)
      · have := (hy.timer v).electing.mp hp
        rw [he] at this
        cases this

/-- The timeout of node 0 is over, and it starts an election. -/
def firstElection : List (TimedAction 3) := [.timer 0, .tick 2000, .timer 0, .timer 0, .timer 0]

/-- No peer answers, and the election is lost. -/
def isLost : List (TimedAction 3) :=
  [.act (.step 0 .election) 0, .act (.reply 0 .election true) 0, .act (.step 0 .election) 0, .act (.reply 0 .election true) 0,
    .act (.step 0 .election) 0]

theorem lost_of_firstElection : ∃ x ∈ Systems.runAll step anyAction started firstElection, (x.timers 0).place = .electing ∧
    (x.cluster.sites 0).node.state ≠ .leader ∧ (x.timers 0).electionTimeout ≤ x.now - (x.timers 0).lastHeartbeatTimePoint ∧
    ∃ y ∈ Systems.runAll step (fun z => z.Without 0 (Site.resets 3)) x (isLost ++ [.timer 0, .timer 0] ++ isLost),
      (y.cluster.sites 0).node.currentTerm = 2 ∧ (y.cluster.sites 0).election.isNone = true := by
  decide +kernel

/-- Node 0 loses two elections one after the other, and its timer does not wait. -/
theorem elections_press_firstElection : ∃ x ∈ Systems.runAll step anyAction started firstElection,
    ∃ y ∈ Systems.runAll step (fun z => z.Without 0 (Site.resets 3)) x (isLost ++ [.timer 0, .timer 0] ++ isLost),
      (y.cluster.sites 0).node.currentTerm = 2 ∧ (∀ wake b, (y.timers 0).place ≠ .sleeping wake b) ∧
        ((y.cluster.sites 0).election.isSome = true ∨ Calls 0 2 y) := by
  obtain ⟨x, hx, hp, hl, hexp, y, hy, hterm, _⟩ := lost_of_firstElection
  exact ⟨x, hx, y, hy, hterm, elections_press (Run.refl.runAll hx) hp hl hexp (Run.refl.runAll hy)⟩

end TimedCluster

end RaftStore
