import RaftStore.StepDown
import RaftStore.Theorems.Terms

/-!
# The terms that a step deals with

A node sends its own term, and answers with the term that it is left in. Apart from the start of an election, a step leads to no later
term than that of the node, of the message that is handled, or of the reply that is seen.
-/

namespace RaftStore

/-! ## Replies -/

/-- The term of a response is that of the reply, or the default. -/
theorem Reply.term_of_requestVoteResponse {r : Reply} {term : ℤ} {granted : Bool} (h : r.requestVoteResponse = some (term, granted)) :
    r.term = some term ∨ term = 0 := by
  cases r with
  | null => cases h
  | _ => simp_all [Reply.requestVoteResponse, Reply.term]

theorem Reply.term_of_appendEntriesResponse {r : Reply} {term : ℤ} {success : Bool}
    (h : r.appendEntriesResponse = some (term, success)) : r.term = some term ∨ term = 0 := by
  cases r with
  | null => cases h
  | _ => simp_all [Reply.appendEntriesResponse, Reply.term]

/-- The term of a reply is that of the node beside it. -/
def Handled.Dated (h : Handled) : Prop := ∀ t, h.reply.term = some t → t = h.node.currentTerm

theorem Handled.dated_of_eq {h : Handled} (hr : h.reply.term = some h.node.currentTerm) : h.Dated :=
  fun _ ht => Option.some.inj (ht.symm.trans hr)

namespace RaftNode

theorem finishTransfer_dated (n : RaftNode) (store : KVStore) (m : InstallSnapshotRPC) : Handled.Dated (n.finishTransfer store m) := by
  unfold finishTransfer
  split
  · exact Handled.dated_of_eq rfl
  · split <;> exact Handled.dated_of_eq rfl

/-- A handler answers with the term that it leaves the node in. -/
theorem handle_dated {n : RaftNode} {store : KVStore} {req : Request} {h : Handled} (hh : n.handle store req = some h) :
    Handled.Dated h := by
  cases req with
  | requestVote m =>
    obtain rfl := Option.some.inj hh
    unfold handleRequestVote
    split
    · exact Handled.dated_of_eq rfl
    · simp only
      split <;> exact Handled.dated_of_eq rfl
  | appendEntries m =>
    obtain rfl := Option.some.inj hh
    unfold handleAppendEntries
    split
    · exact fun _ ht => by cases ht
    · split
      · exact Handled.dated_of_eq rfl
      · simp only
        split <;> exact Handled.dated_of_eq rfl
  | installSnapshot m =>
    simp only [handle, handleInstallSnapshot] at hh
    split at hh
    · obtain rfl := Option.some.inj hh
      exact Handled.dated_of_eq rfl
    · split at hh
      · cases hh
      · obtain rfl := Option.some.inj hh
        exact Handled.dated_of_eq rfl
      · split at hh
        · obtain rfl := Option.some.inj hh
          exact finishTransfer_dated _ store m
        · obtain rfl := Option.some.inj hh
          exact Handled.dated_of_eq rfl

theorem seeTerm_of_le {n : RaftNode} {t : ℤ} (ht : t ≤ n.currentTerm) : n.seeTerm t = n := if_neg (not_lt.mpr ht)

/-- A message without a later term leaves the state of a node that is no candidate. -/
theorem handle_state {n : RaftNode} {store : KVStore} {req : Request} {h : Handled} (hh : n.handle store req = some h)
    (hc : n.state ≠ .candidate) (ht : req.term ≤ n.currentTerm) : h.node.state = n.state := by
  cases req with
  | requestVote m =>
    obtain rfl := Option.some.inj hh
    have hle : m.term ≤ n.currentTerm := ht
    unfold handleRequestVote
    rw [seeTerm_of_le hle]
    split
    · rfl
    · simp only
      split <;> rfl
  | appendEntries m =>
    obtain rfl := Option.some.inj hh
    have hno : ¬(n.currentTerm < m.term ∨ n.state = .candidate) := not_or.mpr ⟨not_lt.mpr ht, hc⟩
    have hstep : (n.stepDown m).state = n.state := by
      simp only [stepDown, if_neg hno]
    rcases n.handleAppendEntries_node store m with heq | ⟨_, heq | heq⟩ <;> rw [heq]
    · exact (congrArg Role.state (acceptEntries_role _ m)).trans hstep
    · exact (congrArg Role.state ((advanceCommit_role _ store _).trans (acceptEntries_role _ m))).trans hstep
  | installSnapshot m =>
    by_cases hle : n.currentTerm ≤ m.term
    · rw [← seeTerm_of_le ht]
      exact congrArg Role.state (handleInstallSnapshot_role hh hle)
    · rcases handleInstallSnapshot_node hh with heq | ⟨hle', _⟩
      · rw [heq]
      · exact absurd hle' hle

end RaftNode

namespace Site

variable {size next : ℕ} {s : Site} {store : KVStore} {i : Input} {o : Outcome} {T : ℤ}

/-! ## Steps -/

/-- A message carries the term of its sender. -/
theorem Step.send_term (hs : Step size next s store i o) {x : Send} (hx : o.send = some x) : x.req.term = s.node.currentTerm := by
  cases hs with
  | ask el p rest he hp hr => obtain rfl := Option.some.inj hx; rfl
  | sendHeartbeat hb j p hh hp hrun hi hns entries hes => obtain rfl := Option.some.inj hx; rfl
  | sendHeartbeatChunk hb j t p hh hp hi => obtain rfl := Option.some.inj hx; rfl
  | send k call p hc hp hi => obtain rfl := Option.some.inj hx; rfl
  | sendChunk k call t p hc hp hi => obtain rfl := Option.some.inj hx; rfl
  | _ => cases hx

/-- A handler's reply carries the term that the node is left in. -/
theorem Step.reply_term (hs : Step size next s store i o) {r : Reply} (hr : o.reply = some r) {t : ℤ} (ht : r.term = some t) :
    t = o.site.node.currentTerm := by
  cases hs with
  | receive req h hh =>
    obtain rfl := Option.some.inj hr
    exact RaftNode.handle_dated hh t ht
  | _ => cases hr

end Site

/-- An input brings no later term than `T`. -/
def Input.UpTo (T : ℤ) : Input → Prop
  | .receive req => req.term ≤ T
  | .reply _ (some r) => ∀ t, r.term = some t → t ≤ T
  | _ => True

namespace Site

variable {size next : ℕ} {s : Site} {store : KVStore} {i : Input} {o : Outcome} {T : ℤ} {t : Thread} {r : Option Reply} {term : ℤ}
  {b : Bool}

/-- A later term in a vote has come in with the reply. -/
theorem Sound.voteTerm_le (h : s.Sound) (hin : Input.UpTo T (.reply t r)) (hr : r.bind Reply.requestVoteResponse = some (term, b))
    (ht : s.node.currentTerm < term) : term ≤ T := by
  obtain ⟨reply, rfl, hr⟩ := Option.bind_eq_some_iff.mp hr
  rcases Reply.term_of_requestVoteResponse hr with hterm | rfl
  · exact hin term hterm
  · exact absurd ht (not_lt.mpr h.node.term_nonneg)

/-- A later term in the answer to AppendEntries has come in with the reply. -/
theorem Sound.appendTerm_le (h : s.Sound) (hin : Input.UpTo T (.reply t r)) (hr : r.bind Reply.appendEntriesResponse = some (term, b))
    (ht : s.node.currentTerm < term) : term ≤ T := by
  obtain ⟨reply, rfl, hr⟩ := Option.bind_eq_some_iff.mp hr
  rcases Reply.term_of_appendEntriesResponse hr with hterm | rfl
  · exact hin term hterm
  · exact absurd ht (not_lt.mpr h.node.term_nonneg)

/-- No step but the start of an election leads to a later term than those of the node and of what comes in. -/
theorem Sound.term_le (h : s.Sound) (hs : Step size next s store i o) (hi : i ≠ .startElection) (hT : s.node.currentTerm ≤ T)
    (hin : i.UpTo T) : o.site.node.currentTerm ≤ T := by
  have hrole {n : RaftNode} (hr : n.role = s.node.role) : n.currentTerm ≤ T := (congrArg Role.currentTerm hr).trans_le hT
  cases hs with
  | startElection he hl => exact absurd rfl hi
  | win el he hp hr hv => exact (congrArg Role.currentTerm (s.elected_role el)).trans_le hT
  | voteLater el call r term g he hp hr ht => exact h.voteTerm_le hin hr ht
  | heartbeatLater hb j nextIdx count call r term success hh hp hr ht => exact h.appendTerm_le hin hr ht
  | later k call id r term success hk hp hr ht => exact h.appendTerm_le hin hr ht
  | heartbeatReply hb j nextIdx count call r term success hh hp hr ht =>
    exact hrole (heartbeatAnswered_role s.node j nextIdx count success)
  | heartbeatChunkReply hb j t call r hh hp phase hph => exact hrole (Transfer.reply_role t s.node j r)
  | commit k call hk hp hi' hm => exact hrole (commit_role s.node store call)
  | failure k call id r term hk hp hr ht call' hc => exact hrole (RaftNode.retreat_role _ _)
  | chunkReply k call t id r hk hp call' hc => exact hrole (Transfer.reply_role t s.node call.i r)
  | receive req h' hh => exact (h.node.handle_term hh).trans_le (max_le hT hin)
  | snapshotNow hl => exact hrole (s.node.createSnapshot_role store)
  | restart n store' hr => exact (congrArg Role.currentTerm (h.node.restart hr).2).trans_le hT
  | _ => exact hT

/-- A leader that no later term comes in at stays a leader. -/
theorem Sound.leader_stays (h : s.Sound) (hs : Step size next s store i o) (hi : i ≠ .restart) (hl : s.node.state = .leader)
    (hin : i.UpTo s.node.currentTerm) : o.site.node.state = .leader := by
  have hrole {n : RaftNode} (hr : n.role = s.node.role) : n.state = .leader := (congrArg Role.state hr).trans hl
  cases hs with
  | startElection he hne => exact absurd hl hne
  | win el he hp hr hv => exact congrArg Role.state (s.elected_role el)
  | voteLater el call r term g he hp hr ht => exact absurd ht (not_lt.mpr (h.voteTerm_le hin hr ht))
  | heartbeatLater hb j nextIdx count call r term success hh hp hr ht => exact absurd ht (not_lt.mpr (h.appendTerm_le hin hr ht))
  | later k call id r term success hk hp hr ht => exact absurd ht (not_lt.mpr (h.appendTerm_le hin hr ht))
  | heartbeatReply hb j nextIdx count call r term success hh hp hr ht =>
    exact hrole (heartbeatAnswered_role s.node j nextIdx count success)
  | heartbeatChunkReply hb j t call r hh hp phase hph => exact hrole (Transfer.reply_role t s.node j r)
  | commit k call hk hp hi' hm => exact hrole (commit_role s.node store call)
  | failure k call id r term hk hp hr ht call' hc => exact hrole (RaftNode.retreat_role _ _)
  | chunkReply k call t id r hk hp call' hc => exact hrole (Transfer.reply_role t s.node call.i r)
  | receive req h' hh => exact (RaftNode.handle_state hh (by rw [hl]; decide) hin).trans hl
  | snapshotNow hl' => exact hrole (s.node.createSnapshot_role store)
  | restart n store' hr => exact absurd rfl hi
  | _ => exact hl

end Site

end RaftStore
