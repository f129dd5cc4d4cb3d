import RaftStore.Results
import RaftStore.Lemmas.Site
import RaftStore.Theorems.Compaction

/-!
# Every call gets its own result

As long as commit sections run in the order of the entries, the last entry that a commit section applies is the one that its call has appended.
-/

namespace RaftStore

open Systems (Run)

/-! ## The apply loop -/

namespace Applying

/-- What a turn makes of an entry is among the results. -/
theorem mem_results (r : Applying) (j : ℕ) {e : LogEntry}
    (he : (applyNext^[j] r).node.entryAt ((applyNext^[j] r).node.logIdx ((applyNext^[j] r).node.lastApplied + 1)) = some e) :
    ((applyNext^[j] r).node.lastApplied + 1, e, (applyNext^[j + 1] r).applyResult) ∈ r.results (j + 1) := by
  induction j generalizing r with
  | zero =>
    unfold results
    rw [show r.node.entryAt (r.node.logIdx (r.node.lastApplied + 1)) = some e from he]
    exact List.mem_cons_self
  | succ j ih =>
    rw [Function.iterate_succ_apply] at he ⊢
    have hmem := ih r.applyNext he
    rw [Function.iterate_succ_apply (f := applyNext) (n := j + 1)]
    unfold results
    split
    · exact hmem
    · exact List.mem_cons_of_mem _ hmem

end Applying

namespace RaftNode

variable {n n' : RaftNode} {store : KVStore}

/-- The commit section of a call returns the result of the entry at its index, where that one is still to be applied. -/
theorem commit_result (hup : n.shutdownRequested = false) {call : ClientCall} (hlt : n.lastApplied < call.newIndex)
    (he : n.entryAt (n.logIdx call.newIndex) = some call.entry) :
    (call.newIndex, call.entry, (Site.commit n store call).2.2.1) ∈ n.resultsUpTo store call.newIndex := by
  obtain ⟨j, hj⟩ : ∃ j : ℕ, (call.newIndex - n.lastApplied).toNat = j + 1 := Nat.exists_eq_add_one.mpr (by omega)
  have hnode := iterate_applyNext_node (n.committing store call.newIndex) j
  have hlast : (Applying.applyNext^[j] (n.committing store call.newIndex)).node.lastApplied + 1 = call.newIndex := by
    rw [hnode]
    show n.lastApplied + j + 1 = _
    omega
  have hmem := (n.committing store call.newIndex).mem_results j (e := call.entry) (by rw [hlast, hnode]; exact he)
  rw [hlast] at hmem
  have hresult : (Site.commit n store call).2.2.1 = (Applying.applyNext^[j + 1] (n.committing store call.newIndex)).applyResult := by
    rw [← hj]
    exact congrArg Applying.applyResult (applyWhileUp_eq (n := n.setCommitIndex call.newIndex) hup store)
  unfold resultsUpTo
  rw [if_neg (by simp [hup]), hj, hresult]
  exact hmem

/-- A snapshot at the threshold leaves the entries above it in their places. -/
theorem snapshotAtThreshold_entryAt (store : KVStore) (hb : n.baseIndex ≤ n.lastApplied + 1) (hlt : n.lastApplied < n.getLogSize) {i : ℤ}
    (hi : n.lastApplied < i) : (n.snapshotAtThreshold store).1.entryAt ((n.snapshotAtThreshold store).1.logIdx i) =
      n.entryAt (n.logIdx i) := by
  unfold snapshotAtThreshold
  split
  · obtain ⟨hbase, hlog, _⟩ := n.createSnapshot_above store hb hlt
    rw [logIdx_eq, logIdx_eq, hbase, entryAt_of_nonneg _ (by omega), entryAt_of_nonneg _ (by omega), hlog, List.getElem?_drop,
      show (n.lastApplied + 1 - n.baseIndex).toNat + (i - (n.lastApplied + 1)).toNat = (i - n.baseIndex).toNat by omega]
  · rfl

/-- What the commit section of a call leaves where its entry is still to be applied: everything up to it is applied, and the entries above it
stay in their places. -/
theorem commit_kept (n : RaftNode) (store : KVStore) (hup : n.shutdownRequested = false) {call : ClientCall} (hlt : n.lastApplied < call.newIndex)
    (he : n.entryAt (n.logIdx call.newIndex) = some call.entry) : (Site.commit n store call).1.lastApplied = call.newIndex ∧
      ∀ i, call.newIndex < i → (Site.commit n store call).1.entryAt ((Site.commit n store call).1.logIdx i) = n.entryAt (n.logIdx i) := by
  have hplace := (entryAt_isSome n _).mp (by rw [he]; rfl)
  rw [logIdx_eq] at hplace
  have hnode : (Site.applyWhileUp (n.setCommitIndex call.newIndex) store).node =
      { n.setCommitIndex call.newIndex with lastApplied := call.newIndex } := by
    have hmax : max (n.setCommitIndex call.newIndex).lastApplied (n.setCommitIndex call.newIndex).commitIndex = call.newIndex :=
      max_eq_right hlt.le
    rw [applyWhileUp_eq (n := n.setCommitIndex call.newIndex) hup, applyCommitted_node, hmax]
  generalize hr : Site.applyWhileUp (n.setCommitIndex call.newIndex) store = r at hnode
  obtain ⟨_, _, _, heq⟩ := Site.commit_shape n store call hr
  have hlast : r.node.lastApplied = call.newIndex := by rw [hnode]
  rw [heq]
  constructor
  · exact (congrArg Progress.lastApplied (r.node.snapshotAtThreshold_progress r.store)).trans hlast
  · intro i hi
    have hbase : r.node.baseIndex ≤ r.node.lastApplied + 1 := by
      rw [hnode]
      show n.baseIndex ≤ call.newIndex + 1
      omega
    have hsize : r.node.lastApplied < r.node.getLogSize := by
      rw [hnode]
      show call.newIndex < n.baseIndex + n.log.length
      omega
    refine (snapshotAtThreshold_entryAt r.store hbase hsize (hlast ▸ hi)).trans ?_
    rw [hnode]
    rfl

/-- The log and what is applied of it are the same, and the node runs on if it did. -/
structure Settled (n n' : RaftNode) : Prop where
  log : n'.log = n.log
  latestSnapshot : n'.latestSnapshot = n.latestSnapshot
  lastApplied : n'.lastApplied = n.lastApplied
  shutdownRequested : n'.shutdownRequested = n.shutdownRequested

theorem Settled.refl (n : RaftNode) : n.Settled n := ⟨rfl, rfl, rfl, rfl⟩

theorem Settled.entryAt (h : n.Settled n') (i : ℤ) : n'.entryAt (n'.logIdx i) = n.entryAt (n.logIdx i) := by
  have hbase : n'.baseIndex = n.baseIndex := by
    unfold baseIndex
    rw [h.latestSnapshot]
  rw [logIdx_eq, logIdx_eq, hbase]
  unfold RaftNode.entryAt
  rw [h.log]

end RaftNode

/-! ## The calls -/

namespace Site

variable {s : Site} {store : KVStore} {k next : ℕ} {o : Outcome}

/-- What a step of a client call leaves of the calls and of the log: the entry of the call and its index stay the same. -/
def CallGoesOn (s : Site) (k : ℕ) (s' : Site) : Prop :=
  ∃ call call' n, s' = { s with node := n }.clientAt k call' ∧ s.clients[k]? = some call ∧ call'.newIndex = call.newIndex ∧
    call'.entry = call.entry ∧ s.node.Settled n

/-- A call that has not gone through all the peers sends. -/
theorem clientStep_goesOn {call : ClientCall} (hk : s.clients[k]? = some call)
    (hr : ¬(call.phase = .ready ∧ s.node.peerRpcPorts.length ≤ call.i)) (h : s.clientStep next k store = some o) :
    s.CallGoesOn k o.site := by
  unfold clientStep at h
  rw [hk] at h
  simp only at h
  split at h
  · next hp =>
    split at h
    · obtain rfl := Option.some.inj h
      exact ⟨call, _, s.node, rfl, hk, rfl, rfl, .refl _⟩
    · split at h
      · obtain rfl := Option.some.inj h
        exact ⟨call, _, s.node, rfl, hk, rfl, rfl, .refl _⟩
      · next hi => exact absurd ⟨hp, List.getElem?_eq_none_iff.mp hi⟩ hr
  · split at h
    · cases h
    · obtain rfl := Option.some.inj h
      exact ⟨call, _, s.node, rfl, hk, rfl, rfl, .refl _⟩
  · cases h

/-- A call goes on with a reply. -/
theorem clientReply_goesOn {r : Option Reply} (h : s.clientReply k store r = some o) : s.CallGoesOn k o.site := by
  have hs : Step 0 0 s store (.reply (.client k) r) o := clientReply_inv h
  cases hs with
  | lost k call id r hk hp hr => exact ⟨call, _, s.node, rfl, hk, rfl, rfl, .refl _⟩
  | later k call id r term success hk hp hr ht => exact ⟨call, _, _, rfl, hk, rfl, rfl, rfl, rfl, rfl, rfl⟩
  | success k call id r term hk hp hr ht => exact ⟨call, _, _, rfl, hk, rfl, rfl, rfl, rfl, rfl, rfl⟩
  | failure k call id r term hk hp hr ht call' hc =>
    obtain ⟨_, heq⟩ := s.node.retreat_shape call.i
    have hcall : call'.newIndex = call.newIndex ∧ call'.entry = call.entry := by
      rw [hc]
      split <;> exact ⟨rfl, rfl⟩
    refine ⟨call, call', s.node.retreat call.i, rfl, hk, hcall.1, hcall.2, ?_⟩
    rw [heq]
    exact ⟨rfl, rfl, rfl, rfl⟩
  | chunkReply k call t id r hk hp call' hc =>
    obtain ⟨_, _, heq⟩ := t.reply_shape s.node call.i r
    have hcall : call'.newIndex = call.newIndex ∧ call'.entry = call.entry := by
      rw [hc]
      split <;> exact ⟨rfl, rfl⟩
    refine ⟨call, call', (t.reply s.node call.i r).1, rfl, hk, hcall.1, hcall.2, ?_⟩
    rw [heq]
    exact ⟨rfl, rfl, rfl, rfl⟩

/-- The entry of each call is in its place, unless it is applied. -/
def HoldsEntries (s : Site) : Prop :=
  ∀ call ∈ s.clients, s.node.lastApplied < call.newIndex → s.node.entryAt (s.node.logIdx call.newIndex) = some call.entry

theorem HoldsEntries.goesOn {s' : Site} (hs : s.HoldsEntries) (h : s.CallGoesOn k s') : s'.HoldsEntries := by
  obtain ⟨call, call', n, rfl, hk, hidx, hent, hn⟩ := h
  intro c hc happlied
  have hlt : s.node.lastApplied < c.newIndex := hn.lastApplied ▸ happlied
  show n.entryAt (n.logIdx c.newIndex) = _
  rw [hn.entryAt]
  rcases List.mem_or_eq_of_mem_set hc with hc | hc
  · exact hs c hc hlt
  · rw [hc, hidx] at hlt
    rw [hc, hidx, hent]
    exact hs call (List.mem_of_getElem? hk) hlt

/-- A new call has its entry at the end of the log. -/
theorem HoldsEntries.clientRequest (hs : s.HoldsEntries) (req : ClientRequest) : (s.clientRequest store req).site.HoldsEntries := by
  unfold Site.clientRequest
  split
  · exact hs
  · split
    · exact hs
    · intro c hc hlt
      have hend : (s.node.appendLogEntry (newEntry s.node req)).entryAt (s.node.log.length : ℤ) = some (newEntry s.node req) := by
        rw [RaftNode.entryAt_of_nonneg _ (Int.natCast_nonneg _)]
        show (s.node.log ++ [newEntry s.node req])[(s.node.log.length : ℤ).toNat]? = _
        rw [Int.toNat_natCast, List.getElem?_append_right le_rfl, Nat.sub_self]
        rfl
      rcases List.mem_append.mp hc with hc | hc
      · have hplace := hs c hc hlt
        have hin := (RaftNode.entryAt_isSome s.node _).mp (by rw [hplace]; rfl)
        rw [RaftNode.entryAt_of_nonneg _ hin.1] at hplace
        show (s.node.appendLogEntry _).entryAt (s.node.logIdx c.newIndex) = _
        rw [RaftNode.entryAt_of_nonneg _ hin.1, ← hplace]
        exact List.getElem?_append_left (by omega)
      · obtain rfl := List.mem_singleton.mp hc
        show (s.node.appendLogEntry _).entryAt (s.node.logIdx s.node.getLogSize) = _
        rw [RaftNode.logIdx_eq, RaftNode.getLogSize, add_sub_cancel_left]
        exact hend

end Site

/-! ## Runs -/

namespace Serving

variable {x y : Serving} {k : ℕ} {call : ClientCall}

/-- What holds in a run whose commit sections run in order: each entry is in its place until it is applied, a leader with calls runs, and each
call that has passed the commit test has got its own result. -/
structure Inv (x : Serving) : Prop where
  entries : x.site.HoldsEntries
  up : x.site.clients ≠ [] → x.site.node.shutdownRequested = false
  own : x.AnswersOwn

theorem clients_ne_nil (hk : x.site.clients[k]? = some call) : x.site.clients ≠ [] := by
  intro hnil
  rw [hnil] at hk
  cases hk

/-- A call goes on without a commit section. -/
theorem Inv.goesOn (h : x.Inv) {s : Site} (hs : x.site.CallGoesOn k s) : Inv { x with site := s } where
  entries := h.entries.goesOn hs
  up _ := by
    obtain ⟨call, call', n, rfl, hk, _, _, hn⟩ := hs
    exact hn.shutdownRequested.trans (h.up (clients_ne_nil hk))
  own := h.own

/-- The commit section of a call whose entry is still to be applied. -/
theorem Inv.commitCall (h : x.Inv) (hk : x.site.clients[k]? = some call) (hlt : x.site.node.lastApplied < call.newIndex) :
    (x.commitCall k call).Inv := by
  have hup := h.up (clients_ne_nil hk)
  have hplace := h.entries call (List.mem_of_getElem? hk) hlt
  obtain ⟨happlied, habove⟩ := x.site.node.commit_kept x.store hup hlt hplace
  refine ⟨fun c hc hlater => ?_, fun _ => ?_, fun a ha => ?_⟩
  · have hlater : call.newIndex < c.newIndex := happlied ▸ hlater
    refine (habove c.newIndex hlater).trans ?_
    rcases List.mem_or_eq_of_mem_set hc with hc | hc
    · exact h.entries c hc (hlt.trans hlater)
    · rw [hc] at hlater
      exact absurd hlater (lt_irrefl _)
  · exact (congrArg Role.shutdownRequested (Site.commit_role x.site.node x.store call)).trans hup
  · rcases List.mem_append.mp ha with ha | ha
    · obtain ⟨result, hmem, hret⟩ := h.own a ha
      exact ⟨result, List.mem_append_left _ hmem, hret⟩
    · obtain rfl := List.mem_singleton.mp ha
      refine ⟨_, List.mem_append_right _ (x.site.node.commit_result hup hlt hplace), rfl, ?_⟩
      exact AList.lookup_insert _

/-- Every step keeps the invariant that has no commit section out of order. -/
theorem Inv.step (h : x.Inv) {act : CallAct} (hin : x.commitsInOrder act) (hs : x.step act = some y) : y.Inv := by
  unfold Serving.step at hs
  cases act with
  | request req =>
    obtain rfl := Option.some.inj hs
    refine ⟨h.entries.clientRequest req, ?_, h.own⟩
    unfold Site.clientRequest
    split
    · exact h.up
    · next hlead =>
      split
      · exact h.up
      · exact fun _ => Bool.eq_false_iff.mpr fun hdown => hlead (.inl hdown)
  | send k next =>
    simp only at hs
    split at hs
    · cases hs
    · next call hk =>
      split at hs
      · cases hs
      · next hr =>
        obtain ⟨o, ho, rfl⟩ := Option.map_eq_some_iff.mp hs
        exact h.goesOn (Site.clientStep_goesOn hk hr ho)
  | reply k r =>
    obtain ⟨o, ho, rfl⟩ := Option.map_eq_some_iff.mp hs
    exact h.goesOn (Site.clientReply_goesOn ho)
  | test k =>
    simp only at hs
    split at hs
    · cases hs
    · next call hk =>
      split at hs
      · obtain rfl := Option.some.inj hs
        unfold testCommit
        split
        · exact h.goesOn ⟨call, _, _, rfl, hk, rfl, rfl, .refl _⟩
        · split
          · exact ⟨h.entries, h.up, h.own⟩
          · exact h.goesOn ⟨call, _, _, rfl, hk, rfl, rfl, .refl _⟩
      · cases hs
  | commit k =>
    simp only at hs
    split at hs
    · cases hs
    · next call hk =>
      split at hs
      · obtain rfl := Option.some.inj hs
        exact h.commitCall hk (hin k rfl call hk)
      · cases hs

/-- In every run of client calls on a leader whose commit sections each run while nothing at the call's index or beyond is applied, every call
that has passed the commit test returns and caches the result of the entry that it has appended. -/
theorem answers_own {site : Site} {store : KVStore} (hc : site.clients = []) (h : Run step commitsInOrder (start site store) x) :
    x.AnswersOwn := by
  refine (h.invariant (I := Inv) (fun _ _ _ hi hp hs => hi.step hp hs) ?_).own
  refine ⟨fun call hmem => ?_, fun hne => absurd hc hne, fun a ha => absurd ha List.not_mem_nil⟩
  rw [show (start site store).site.clients = [] from hc] at hmem
  cases hmem

/-- The test and the commit section, with nothing in between, are one step of the site. -/
theorem test_commit (hk : x.site.clients[k]? = some call) (hr : x.Replicated call) (hpassed : k ∉ x.passed)
    (hup : x.site.node.shutdownRequested = false) (hm : Site.mayCommit x.site.node call) (next : ℕ) :
    (x.step (.test k)).bind (fun y => (y.step (.commit k)).map fun z => (z.site, z.store)) =
      (x.site.clientStep next k x.store).map fun o => (o.site, o.store) := by
  have htest : x.step (.test k) = some { x with passed := k :: x.passed } := by
    unfold Serving.step
    simp only [hk]
    rw [if_pos ⟨hr, hpassed⟩]
    unfold testCommit
    rw [if_neg (by simp [hup]), if_pos hm]
  have hcommit : ({ x with passed := k :: x.passed } : Serving).step (.commit k) =
      some (({ x with passed := k :: x.passed } : Serving).commitCall k call) := by
    unfold Serving.step
    simp only [hk]
    exact if_pos ⟨hr.1, List.mem_cons_self⟩
  have hclient : x.site.clientStep next k x.store = some
      { site := { x.site with node := (Site.commit x.site.node x.store call).1 }.clientAt k
          { call with phase := .done (Site.commit x.site.node x.store call).2.2.1 }
        store := (Site.commit x.site.node x.store call).2.1
        send := none
        reply := none
        events := (Site.commit x.site.node x.store call).2.2.2 } := by
    unfold Site.clientStep
    rw [hk]
    simp only [hr.1, hup, Bool.false_eq_true, if_false, List.getElem?_eq_none hr.2, hm, if_true]
  rw [htest, hclient]
  simp only [Option.bind_some, hcommit, Option.map_some]
  rfl

/-- A leader of three nodes, with an entry at index 0. -/
def leaderOfThree : Site where
  node := { RaftNode.create 0 5000 [5001, 5002] { metadata := none, snapshotFile := .absent } with
    state := .leader
    currentTerm := 1
    log := [{ term := 1, index := 0, command := ascii "PUT z 0", origin := ([], 0) }] }
  election := none
  heartbeat := none
  clients := []

/-- A request to put a value. -/
def putRequest (client key value : String) : ClientRequest where
  clientId := ascii client
  requestId := 1
  command := ascii "PUT"
  key := ascii key
  value := ascii value
  session := 0

/-- A call has its entry accepted by the first of two peers, and gets no reply from the other. -/
def replicates (k : ℕ) : List CallAct :=
  [.send k 0, .reply k (some (.appendEntries 1 true)), .send k 0, .reply k none, .test k]

/-- Two calls at the same time. -/
def twoCalls : List CallAct :=
  [.request (putRequest "c" "a" "1"), .request (putRequest "d" "b" "2")] ++ replicates 0 ++ replicates 1

theorem twoCalls_inOrder : ∃ x ∈ Systems.runAll step commitsInOrder (start leaderOfThree .empty) (twoCalls ++ [.commit 0, .commit 1]),
    x.answers.map Answer.returned = [ascii "OK", ascii "OK"] := by
  decide +kernel

/-- The two calls commit in the order of their entries, and get their own results. -/
theorem answers_own_inOrder : ∃ x ∈ Systems.runAll step commitsInOrder (start leaderOfThree .empty) (twoCalls ++ [.commit 0, .commit 1]),
    x.answers.map Answer.returned = [ascii "OK", ascii "OK"] ∧ x.AnswersOwn := by
  obtain ⟨x, hx, hanswers⟩ := twoCalls_inOrder
  exact ⟨x, hx, hanswers, answers_own (rfl : leaderOfThree.clients = []) (Run.runAll .refl hx)⟩

theorem twoCalls_reversed : ∃ x ∈ Systems.runAll step (fun _ _ => True) (start leaderOfThree .empty) (twoCalls ++ [.commit 1, .commit 0]),
    ¬x.AnswersOwn := by
  decide +kernel

/-- The second call commits first and applies both entries; the first call then returns the empty string. -/
theorem answers_mixed : ¬∀ (site : Site) (store : KVStore) (x : Serving), site.clients = [] →
    Run step (fun _ _ => True) (start site store) x → x.AnswersOwn := by
  intro h
  obtain ⟨x, hx, hnot⟩ := twoCalls_reversed
  exact hnot (h leaderOfThree .empty x rfl (Run.runAll .refl hx))

end Serving

end RaftStore
