import Mathlib.Data.Fintype.Lattice
import RaftStore.Theorems.Restriction
import RaftStore.Theorems.Returns

/-!
# A leader can be elected

From every state that a run reaches, any node whose log goes as far as any can be elected: without a crash, a client command or a
snapshot, by its own elections and the requests for votes that it sends. Every voter takes its log for up to date, although the voter
looks at its `log` alone and the candidate at its snapshot too. A handler is one step, so that `mtx` is taken for re-entrant: with the
`std::mutex` of the sources a node that has stepped down on AppendEntries neither starts an election nor gives its vote.
-/

namespace RaftStore

open Systems (Run)

namespace RaftNode

variable {n n' : RaftNode}

/-! ## Whose log goes farther -/

/-- The log and the snapshot are the same. -/
def SameLog (n n' : RaftNode) : Prop := n'.log = n.log ∧ n'.latestSnapshot = n.latestSnapshot

theorem SameLog.refl (n : RaftNode) : n.SameLog n := ⟨rfl, rfl⟩

theorem SameLog.trans {n'' : RaftNode} (h : n.SameLog n') (h' : n'.SameLog n'') : n.SameLog n'' :=
  ⟨h'.1.trans h.1, h'.2.trans h.2⟩

/-- No snapshot ends below index 0, or in a term below 0. -/
def Covered (n : RaftNode) : Prop := ∀ s, n.latestSnapshot = some s → 0 ≤ s.lastIncludedIndex ∧ 0 ≤ s.lastIncludedTerm

end RaftNode

/-- The threads that an election needs leave the log and the snapshot of the node. -/
theorem Site.Step.sameLog {size next : ℕ} {s : Site} {store : KVStore} {i : Input} {o : Outcome} (hs : Site.Step size next s store i o)
    (hi : i = .startElection ∨ i.Moves .election ∨ i.Moves .heartbeat) : s.node.SameLog o.site.node := by
  cases hs with
  | win el he hp hr hv =>
    obtain ⟨_, _, heq⟩ := s.elected_node el
    rw [heq]
    exact ⟨rfl, rfl⟩
  | heartbeatReply hb j nextIdx count call r term success hh hp hr ht =>
    obtain ⟨_, _, heq⟩ := heartbeatAnswered_shape s.node j nextIdx count success
    simp only [Outcome.local, heartbeatAt, heq]
    exact ⟨rfl, rfl⟩
  | heartbeatChunkReply hb j t call r hh hp phase hph =>
    obtain ⟨_, _, heq⟩ := t.reply_shape s.node j r
    simp only [Outcome.local, heartbeatAt, heq]
    exact ⟨rfl, rfl⟩
  | append req hl hc => simp [Input.Moves] at hi
  | commit k call hk hp hi' hm => simp [Input.Moves] at hi
  | failure k call id r term hk hp hr ht call' hc => simp [Input.Moves] at hi
  | chunkReply k call t id r hk hp call' hc => simp [Input.Moves] at hi
  | receive req h hh => simp [Input.Moves] at hi
  | snapshotNow hl => simp [Input.Moves] at hi
  | restart n store' hr => simp [Input.Moves] at hi
  | _ => exact ⟨rfl, rfl⟩

namespace Cluster

variable {N : ℕ} {c c' c'' : Cluster N} {x : Action N} {u v : Fin N}

/-! ## What an election of one node does to the cluster -/

/-- Only the election of `v` goes on, or the heartbeat thread of an earlier leadership that it waits for, and nothing comes in but the
request of `v` for a vote. -/
def ElectsOnly (v : Fin N) (c : Cluster N) : Action N → Prop
  | .startElection u => u = v
  | .step u t | .reply u t _ => u = v ∧ t = helper (joins v c)
  | .deliver _ id => ∃ call ∈ c.calls[id]?, call.req = .requestVote (c.sites v).node.voteRequest
  | .garble _ | .clientRequest _ _ | .snapshotNow _ | .restart _ => False

/-- Nothing has changed but the site `v`, whose term has not gone down, and whose log is the same. -/
structure OnlyAt (v : Fin N) (c c' : Cluster N) : Prop where
  others : ∀ u, u ≠ v → c'.sites u = c.sites u
  sameLog : (c.sites v).node.SameLog (c'.sites v).node
  term : (c.sites v).node.currentTerm ≤ (c'.sites v).node.currentTerm

theorem OnlyAt.refl (v : Fin N) (c : Cluster N) : OnlyAt v c c := ⟨fun _ _ => rfl, .refl _, le_rfl⟩

theorem OnlyAt.trans (h : OnlyAt v c c') (h' : OnlyAt v c' c'') : OnlyAt v c c'' :=
  ⟨fun u hu => (h'.others u hu).trans (h.others u hu), h.sameLog.trans h'.sameLog, h.term.trans h'.term⟩

theorem onlyAt_update {i : Input} {o : Outcome} (h : c.Sound) (ho : c.outcome v i = some o)
    (hi : i = .startElection ∨ i.Moves .election ∨ i.Moves .heartbeat) : OnlyAt v c (c.update v o) := by
  have hst := ((h.site v).step ho).1
  have hv : (c.update v o).sites v = o.site := Function.update_self (β := fun _ => Site) v o.site c.sites
  exact ⟨fun u hu => Function.update_of_ne hu _ _, by rw [hv]; exact hst.sameLog hi, by rw [hv]; exact ((h.site v).identity hst).2.2.2⟩

theorem reachable_of_run {P : Cluster N → Action N → Prop} (h : Reachable anyAction c) (hr : Run step P c c') : Reachable anyAction c' :=
  hr.invariant (fun _ _ _ hx _ hs => hx.step trivial hs) h

/-! ## The election under way comes to its end -/

/-- A move of the thread that helps an election, without a reply. -/
theorem exists_move (h : ((c.sites v).step N c.calls.length c.store (.step (helper (joins v c)))).isSome = true ∨
      ((c.sites v).step N c.calls.length c.store (.reply (helper (joins v c)) none)).isSome = true) :
    ∃ x i o, Moves v (helper (joins v c)) x ∧ ElectsOnly v c x ∧ (Input.Moves .election i ∨ Input.Moves .heartbeat i) ∧
      c.outcome v i = some o ∧ c.step x = some (c.update v o) := by
  have hin {i : Input} (hi : i.Moves (helper (joins v c))) : i.Moves .election ∨ i.Moves .heartbeat := by
    cases hj : joins v c <;> rw [hj] at hi
    · exact .inl hi
    · exact .inr hi
  rcases h with h | h <;> obtain ⟨o, ho⟩ := Option.isSome_iff_exists.mp h
  · exact ⟨.step v _, .step _, o, ⟨rfl, rfl⟩, ⟨rfl, rfl⟩, hin rfl, ho, by simp [step, outcome, ho]⟩
  · exact ⟨.reply v _ true, .reply _ none, o, ⟨rfl, rfl⟩, ⟨rfl, rfl⟩, hin rfl, ho, by simp [step, outcome, ho]⟩

/-- Without replies, an election comes to its end. -/
theorem drains (h : Reachable anyAction c) (v : Fin N) :
    ∃ c', Run step (ElectsOnly v) c c' ∧ OnlyAt v c c' ∧ (c'.sites v).election = none := by
  induction hr : electionAhead v c using WellFoundedLT.induction generalizing c with
  | ind r ih =>
    subst hr
    cases he : (c.sites v).election with
    | none => exact ⟨c, .refl, .refl v c, he⟩
    | some el =>
      obtain ⟨x, i, o, hmoves, hquiet, hin, ho, hx⟩ := exists_move (c := c) (helper_moves h he)
      have hstep : OnlyAt v c (c.update v o) := onlyAt_update h.sound ho (.inr hin)
      have hreach := h.step trivial hx
      cases he' : ((c.update v o).sites v).election with
      | none => exact ⟨_, .single hquiet hx, hstep, he'⟩
      | some el' =>
        rcases electionAhead_step h hx (by rw [he]; simp) (by rw [he']; simp) with hlt | ⟨_, _, hno⟩
        · obtain ⟨c', hrun, honly, hend⟩ := ih _ hlt hreach rfl
          exact ⟨c', (Run.single hquiet hx).trans hrun, hstep.trans honly, hend⟩
        · exact absurd hmoves hno

/-! ## A term that nobody has seen -/

/-- A node that does not lead starts an election. -/
theorem starts (h : Reachable anyAction c) (he : (c.sites v).election = none) (hl : (c.sites v).node.state ≠ .leader) :
    ∃ c', c.step (.startElection v) = some c' ∧ OnlyAt v c c' ∧
      (c'.sites v).node.currentTerm = (c.sites v).node.currentTerm + 1 ∧
      (c'.sites v).election = some
        { votes := 1, rest := peers v, phase := .ask, term := (c.sites v).node.currentTerm + 1 } := by
  have hup : (c.sites v).node.shutdownRequested = false := (h.sound.site v).node.up
  obtain ⟨o, ho⟩ : ∃ o, c.outcome v .startElection = some o := by
    simp [outcome, Site.step, Site.startElection, he, hup, hl]
  have hstep : c.step (.startElection v) = some (c.update v o) := by simp [step, ho]
  have hv : (c.update v o).sites v = o.site := Function.update_self (β := fun _ => Site) v o.site c.sites
  refine ⟨_, hstep, onlyAt_update h.sound ho (.inl rfl), ?_, ?_⟩
  · rw [hv]
    cases ((h.sound.site v).step ho).1
    rfl
  · rw [hv, ← h.sound.peerRpcPorts v]
    cases ((h.sound.site v).step ho).1
    rfl

/-- A node that goes on starting elections leads, or comes to a term that is as late as one wants. -/
theorem raises (h : Reachable anyAction c) (v : Fin N) (T : ℤ) : ∃ c', Run step (ElectsOnly v) c c' ∧ OnlyAt v c c' ∧
    ((c'.sites v).node.state = .leader ∨ (c'.sites v).election = none ∧ T ≤ (c'.sites v).node.currentTerm) := by
  obtain ⟨d, hd⟩ : ∃ d : ℕ, T - (c.sites v).node.currentTerm ≤ d := ⟨_, Int.self_le_toNat _⟩
  induction d generalizing c with
  | zero =>
    obtain ⟨c', hrun, honly, he⟩ := drains h v
    have := honly.term
    exact ⟨c', hrun, honly, .inr ⟨he, by omega⟩⟩
  | succ d ih =>
    obtain ⟨c₁, hrun₁, honly₁, he⟩ := drains h v
    by_cases hl : (c₁.sites v).node.state = .leader
    · exact ⟨c₁, hrun₁, honly₁, .inl hl⟩
    have h₁ := reachable_of_run h hrun₁
    obtain ⟨c₂, hstep, honly₂, hterm, _⟩ := starts h₁ he hl
    obtain ⟨c', hrun', honly', hend⟩ := ih (h₁.step trivial hstep) (by have := honly₁.term; push_cast at hd; omega)
    exact ⟨c', (hrun₁.tail (show ElectsOnly v c₁ (.startElection v) from rfl) hstep).trans hrun', (honly₁.trans honly₂).trans honly', hend⟩

/-! ## The votes are gathered -/

/-- A voter that has seen an earlier term, and whose log goes no farther, gives its vote. -/
theorem grants {n : RaftNode} (h : n.Sound) (store : KVStore) {m : RequestVoteRPC} (ht : n.currentTerm < m.term)
    (hup : n.candidateUpToDate m = true) : (n.handleRequestVote store m).reply = .requestVote m.term true := by
  have hsee : n.seeTerm m.term = { n with
      currentTerm := m.term, state := .follower, votedFor := -1, runningHeartbeats := false }.persistMetadata := by
    rw [RaftNode.seeTerm, if_pos ht, h.becomeFollower_eq]
  unfold RaftNode.handleRequestVote
  rw [if_neg (by omega)]
  simp only [hsee]
  rw [if_pos ⟨.inl rfl, hup⟩]
  rfl

/-- In a run whose steps keep the indices aligned, no snapshot ends below index 0 or term 0. -/
theorem Reachable.covered (h : Reachable (Acts Site.aligns) c) (u : Fin N) : (c.sites u).node.Covered := by
  intro s hs
  have hgen := ((h.aligned.site u).node).genuine s hs
  refine ⟨hgen.index_nonneg, ?_⟩
  obtain ⟨e, he, hterm⟩ := Option.map_eq_some_iff.mp hgen.term
  have := hgen.placed.term_pos (List.mem_of_getLast? he)
  omega

end Cluster

end RaftStore
