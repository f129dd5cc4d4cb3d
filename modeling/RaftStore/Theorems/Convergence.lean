import RaftStore.Lemmas.Incoming
import RaftStore.Systems.CatchUp
import RaftStore.Theorems.Acknowledged
import RaftStore.Theorems.Transfers

/-!
# Replication brings a follower up to its leader

A leader without client traffic and a follower whose log matches the leader's. Each round of `send_heartbeats` is a step of a copy that
catches up with the leader's log: `nextIndex` goes back where the follower refuses, and forward with a batch or a snapshot. A batch may
take away entries that the follower has applied; a snapshot at the threshold is then still one of the leader's log, since the follower
has applied fewer entries above its snapshot than make another one.
-/

namespace RaftStore

open Systems (CatchUp MatchAt steps)

/-- Two entries count as the same to the check on `prevLogTerm`. -/
def SameTerm (e f : LogEntry) : Prop := e.term = f.term

/-- Log matching: up to an index at which the terms are the same, the logs are the same. -/
def LogsMatch (f l : List LogEntry) : Prop := ∀ j, MatchAt SameTerm f l j → f.take (j + 1) = l.take (j + 1)

theorem logsMatch_take (l : List LogEntry) (j : ℕ) : LogsMatch (l.take j) l := by
  intro k h
  obtain ⟨_, _, hx, _⟩ := h
  have hlt := (List.getElem?_eq_some_iff.mp hx).1
  rw [List.length_take] at hlt
  rw [List.take_take, min_eq_left (by omega)]

namespace RaftNode

variable {n : RaftNode} {m : AppendEntriesRPC} {p : ℕ}

/-! ## The follower -/

/-- The check passes where the log has the entry that the message starts from. -/
theorem Aligned.prevMatches_of_entry (h : n.Aligned) (hprev : m.prevLogIndex + 1 = p) (hb : n.baseIndex ≤ p) {e : LogEntry}
    (hp : 0 < p) (he : n.full[p - 1]? = some e) (ht : e.term = m.prevLogTerm) : n.prevMatches m = true := by
  have hidx : m.prevLogIndex.toNat = p - 1 := by omega
  have hentry (hb : n.baseIndex ≤ m.prevLogIndex) :
      ((n.entryAt (n.logIdx m.prevLogIndex)).map (fun e => decide (e.term = m.prevLogTerm))).getD false = true := by
    rw [h.entryAt_logIdx hb, hidx, he]
    exact decide_eq_true ht
  unfold prevMatches
  rw [if_pos (by omega)]
  split
  · next s hs =>
    have hbase : n.baseIndex = s.lastIncludedIndex + 1 := by simp [baseIndex, hs]
    rw [if_neg (by omega)]
    split
    · next heq =>
      obtain ⟨e', he', hte⟩ := h.term_lastIncluded hs
      rw [← heq, hidx, he] at he'
      obtain rfl := Option.some.inj he'
      exact decide_eq_true (ht.symm.trans hte)
    · exact hentry (by omega)
  · next hs =>
    have hbase : n.baseIndex = 0 := by simp [baseIndex, hs]
    exact hentry (by omega)

/-- Entries that follow on a common beginning, the first of which the log does not have, take the place of what comes after it. -/
theorem Aligned.acceptEntries_full (h : n.Aligned) (hprev : m.prevLogIndex + 1 = p) (hm : Placed p m.entries) (hb : n.baseIndex ≤ p)
    (hp : n.prevMatches m = true) (hne : m.entries ≠ []) (hf : n.firstMatches m ≠ some true) :
    (n.acceptEntries m).full = n.full.take p ++ m.entries := by
  have hfull : (n.acceptEntries m).full = (n.insertEntries m).full := by
    unfold RaftNode.acceptEntries
    rw [if_pos hp]
    rfl
  rw [hfull]
  cases hfirst : n.firstMatches m with
  | some b =>
    obtain rfl : b = false := by
      cases b with
      | true => exact absurd hfirst hf
      | false => rfl
    exact h.insertEntries_conflict hprev hm hfirst
  | none =>
    obtain ⟨hle, _⟩ := h.prevMatches_place hprev hp
    have hnone : n.full[p]? = none := by
      obtain ⟨e, es, hes⟩ := List.exists_cons_of_ne_nil hne
      have hentry : n.entryAt (n.logIdx (m.prevLogIndex + 1)) = none := by
        unfold firstMatches at hfirst
        split at hfirst
        · cases hfirst
        · next hno =>
          cases he : n.entryAt (n.logIdx (m.prevLogIndex + 1)) with
          | none => rfl
          | some e' => exact absurd hes (hno e' e es he)
      rw [hprev, h.entryAt_logIdx hb] at hentry
      exact hentry
    have hlen : n.full.length = p := by
      have := List.getElem?_eq_none_iff.mp hnone
      omega
    rw [h.insertEntries_join hm hle hfirst, hlen, Nat.sub_self, List.drop_zero, List.take_of_length_le hlen.le]

/-! ## Where `lastApplied` is -/

/-- Fewer entries are applied above the snapshot than make another one. -/
def Roomy (n : RaftNode) : Prop := n.lastApplied < n.baseIndex + snapshotThreshold

instance (n : RaftNode) : Decidable n.Roomy := Int.decLt _ _

/-- An aligned node, but that `lastApplied` may lie beyond the log, below the index at which the log makes a snapshot. -/
structure LogAligned (n : RaftNode) : Prop where
  genuine : ∀ s, n.latestSnapshot = some s → s.Genuine
  placed : Placed 0 n.full
  applied_nonneg : 0 ≤ n.lastApplied
  applied_base : n.baseIndex ≤ n.lastApplied + 1
  applied_lt : n.lastApplied < n.baseIndex + snapshotThreshold ∨ n.lastApplied < n.full.length
  nextIndex : ∀ i ∈ n.nextIndex, 0 ≤ i

/-- The node with nothing applied above its snapshot. -/
def rewound (n : RaftNode) : RaftNode := { n with lastApplied := max (n.baseIndex - 1) 0 }

theorem Aligned.logAligned (h : n.Aligned) : n.LogAligned where
  genuine := h.genuine
  placed := h.placed
  applied_nonneg := h.applied_nonneg
  applied_base := h.applied_base
  applied_lt := by
    have hb := h.baseIndex_nonneg
    unfold snapshotThreshold
    rcases h.applied_lt with hz | hlt
    · left
      omega
    · exact .inr hlt
  nextIndex := h.nextIndex

/-- Such a node is aligned where `lastApplied` is in the log. -/
theorem LogAligned.aligned (h : n.LogAligned) (hlt : n.lastApplied < n.full.length) : n.Aligned :=
  ⟨h.genuine, h.placed, h.applied_nonneg, h.applied_base, .inr hlt, h.nextIndex⟩

theorem LogAligned.rewound (h : n.LogAligned) : n.rewound.Aligned where
  genuine := h.genuine
  placed := h.placed
  applied_nonneg := le_max_right _ _
  applied_base := by
    show n.baseIndex ≤ max (n.baseIndex - 1) 0 + 1
    omega
  applied_lt := by
    have hc : (n.covered.length : ℤ) = n.baseIndex := by
      have hg := h.genuine
      unfold covered baseIndex
      split
      · next s hs => exact (hg s hs).length
      · rfl
    show max (n.baseIndex - 1) 0 = 0 ∨ max (n.baseIndex - 1) 0 < ((n.covered ++ n.log).length : ℕ)
    rw [List.length_append]
    omega
  nextIndex := h.nextIndex

theorem LogAligned.getLogTerm_eq (h : n.LogAligned) {i : ℤ} (h0 : 0 ≤ i) (hi : n.baseIndex ≤ i + 1) :
    n.getLogTerm i = ((n.full[i.toNat]?).map (·.term)).getD 0 := h.rewound.getLogTerm_eq h0 hi

theorem LogAligned.entryAt_logIdx (h : n.LogAligned) {i : ℤ} (hi : n.baseIndex ≤ i) : n.entryAt (n.logIdx i) = n.full[i.toNat]? :=
  h.rewound.entryAt_logIdx hi

theorem LogAligned.congr (h : n.LogAligned) {n' : RaftNode} (hl : n'.log = n.log) (hs : n'.latestSnapshot = n.latestSnapshot)
    (ha : n'.lastApplied = n.lastApplied) (hn : n'.nextIndex = n.nextIndex) : n'.LogAligned := by
  have hf : n'.full = n.full := by rw [full, full, covered, covered, hl, hs]
  have hb : n'.baseIndex = n.baseIndex := by rw [baseIndex, baseIndex, hs]
  exact ⟨by rw [hs]; exact h.genuine, by rw [hf]; exact h.placed, by rw [ha]; exact h.applied_nonneg,
    by rw [ha, hb]; exact h.applied_base, by rw [ha, hb, hf]; exact h.applied_lt, by rw [hn]; exact h.nextIndex⟩

theorem LogAligned.stepDown (h : n.LogAligned) (m : AppendEntriesRPC) : (n.stepDown m).LogAligned := by
  obtain ⟨_, _, _, _, _, heq⟩ := n.stepDown_shape m
  rw [heq]
  exact h.congr rfl rfl rfl rfl

theorem foldl_pushEntry_applied (es : List LogEntry) (n : RaftNode) (c : ℤ) :
    es.foldl pushEntry { n with lastApplied := c } = { es.foldl pushEntry n with lastApplied := c } := by
  induction es generalizing n with
  | nil => rfl
  | cons e es ih =>
    have hpush : pushEntry { n with lastApplied := c } e = { pushEntry n e with lastApplied := c } := by
      unfold pushEntry
      show (if (n.log.length : ℤ) ≤ n.logIdx e.index then _ else _) = _
      by_cases hle : (n.log.length : ℤ) ≤ n.logIdx e.index
      · rw [if_pos hle, if_pos hle]
        rfl
      · rw [if_neg hle, if_neg hle]
    rw [List.foldl_cons, List.foldl_cons, hpush, ih]

/-- What is applied takes no part in the insertion of entries. -/
theorem insertEntries_applied (n : RaftNode) (m : AppendEntriesRPC) (c : ℤ) :
    { n with lastApplied := c }.insertEntries m = { n.insertEntries m with lastApplied := c } := by
  cases hf : n.firstMatches m with
  | none =>
    have hf' : ({ n with lastApplied := c } : RaftNode).firstMatches m = none := hf
    rw [Aligned.insertEntries_push hf, Aligned.insertEntries_push hf', foldl_pushEntry_applied]
  | some b =>
    cases b with
    | true =>
      have hf' : ({ n with lastApplied := c } : RaftNode).firstMatches m = some true := hf
      rw [Aligned.insertEntries_skip hf, Aligned.insertEntries_skip hf']
    | false =>
      have hf' : ({ n with lastApplied := c } : RaftNode).firstMatches m = some false := hf
      rw [Aligned.insertEntries_cut hf, Aligned.insertEntries_cut hf']
      exact foldl_pushEntry_applied m.entries { n with log := n.log.take (n.logIdx (m.prevLogIndex + 1)).toNat } c

/-- The entries of a message that is taken over follow on the beginning of the log. -/
theorem LogAligned.acceptEntries_full (h : n.LogAligned) (hprev : m.prevLogIndex + 1 = p) (hm : Placed p m.entries) (hb : n.baseIndex ≤ p)
    (hp : n.prevMatches m = true) (hne : m.entries ≠ []) (hf : n.firstMatches m ≠ some true) :
    (n.acceptEntries m).full = n.full.take p ++ m.entries := by
  have hfull := h.rewound.acceptEntries_full hprev hm hb hp hne hf
  unfold acceptEntries at hfull ⊢
  rw [if_pos hp]
  rw [if_pos (show n.rewound.prevMatches m = true from hp), RaftNode.rewound, insertEntries_applied] at hfull
  exact hfull

/-- The commit section keeps the log, and applies no more than the log has or makes a snapshot. -/
theorem LogAligned.advanceCommit (h : n.LogAligned) (store : KVStore) (leaderCommit : ℤ) :
    (n.advanceCommit store leaderCommit).1.LogAligned ∧ (n.advanceCommit store leaderCommit).1.full = n.full := by
  have hs : n.getLogSize = n.full.length := h.rewound.getLogSize_eq
  have hsize : n.getLogSize = n.baseIndex + n.log.length := rfl
  have h0 := h.applied_nonneg
  have hb := h.applied_base
  have hlt := h.applied_lt
  obtain ⟨k, hk⟩ : ∃ k, k = min leaderCommit (n.getLogSize - 1) := ⟨_, rfl⟩
  obtain ⟨y, hy⟩ : ∃ y, y = ((n.setCommitIndex k).applyCommitted store).node := ⟨_, rfl⟩
  have hnode : y = { n with lastApplied := max n.lastApplied k, commitIndex := k } := by
    rw [hy, applyCommitted_node]
    rfl
  have hfull : y.full = n.full := by
    rw [hnode]
    rfl
  have hlogged : y.LogAligned := by
    rw [hnode]
    refine ⟨h.genuine, h.placed, ?_, ?_, ?_, h.nextIndex⟩
    · show 0 ≤ max n.lastApplied k
      omega
    · show n.baseIndex ≤ max n.lastApplied k + 1
      omega
    · show max n.lastApplied k < n.baseIndex + snapshotThreshold ∨ max n.lastApplied k < n.full.length
      omega
  have hadvance : (n.advanceCommit store leaderCommit).1 =
      (y.snapshotAtThreshold ((n.setCommitIndex k).applyCommitted store).store).1 := by
    rw [hy, hk]
    rfl
  have hlog : y.log = n.log := by rw [hnode]
  have happ : y.lastApplied = max n.lastApplied k := by rw [hnode]
  rw [hadvance]
  unfold snapshotAtThreshold
  split
  · next ht =>
    -- the log makes a snapshot, and what is applied lies in it
    rw [hlog] at ht
    have haligned := hlogged.aligned (by rw [hfull, happ]; omega)
    have hne : y.full ≠ [] := full_ne_nil fun hnil => by
      rw [← hlog, hnil] at ht
      simp [snapshotThreshold] at ht
    exact ⟨(haligned.createSnapshot _ hne).logAligned, (createSnapshot_full haligned _ hne).trans hfull⟩
  · exact ⟨hlogged, hfull⟩

/-- After the step down a node is in a term that is not after the message's. -/
theorem stepDown_le (h : n.currentTerm ≤ m.term) : (n.stepDown m).currentTerm ≤ m.term := by
  unfold stepDown
  simp only
  split
  · unfold becomeFollower
    split
    · exact h
    · exact le_refl m.term
  · exact h

/-- The handler leaves the node in a term that is not after the message's, and what it has of an incoming snapshot. -/
theorem handleAppendEntries_rest (h : n.currentTerm ≤ m.term) (store : KVStore) :
    (n.handleAppendEntries store m).node.currentTerm ≤ m.term ∧ (n.handleAppendEntries store m).node.incoming = n.incoming := by
  have hr : n.handle store (.appendEntries m) = some (n.handleAppendEntries store m) := rfl
  refine ⟨?_, handle_incoming (fun _ hreq => by cases hreq) hr⟩
  rcases n.handleAppendEntries_node store m with heq | ⟨_, heq | heq⟩
  · rw [heq]
    exact h
  · rw [heq, show ((n.stepDown m).acceptEntries m).currentTerm = (n.stepDown m).currentTerm from
      congrArg Role.currentTerm ((n.stepDown m).acceptEntries_role m)]
    exact stepDown_le h
  · rw [heq, show (((n.stepDown m).acceptEntries m).advanceCommit store m.leaderCommit).1.currentTerm = (n.stepDown m).currentTerm from
      congrArg Role.currentTerm ((((n.stepDown m).acceptEntries m).advanceCommit_role store _).trans ((n.stepDown m).acceptEntries_role m))]
    exact stepDown_le h

theorem stepDown_full (n : RaftNode) (m : AppendEntriesRPC) : (n.stepDown m).full = n.full ∧ (n.stepDown m).covered = n.covered ∧
    (n.stepDown m).baseIndex = n.baseIndex := by
  obtain ⟨_, _, _, _, _, heq⟩ := n.stepDown_shape m
  rw [heq]
  exact ⟨rfl, rfl, rfl⟩

/-- A message that is refused leaves the log, what is applied and the snapshot. -/
theorem handleAppendEntries_refused (haway : ¬n.turnsAway m) (hp : n.prevMatches m = false) (store : KVStore) :
    (n.handleAppendEntries store m).node = (n.stepDown m).persistMetadata := by
  have hp' : (n.stepDown m).prevMatches m = false := by rw [(n.stepDown_checks m).1, hp]
  rw [handleAppendEntries_taken haway, hp']
  unfold acceptEntries
  rw [hp']
  rfl

/-- A message that is taken over, with entries the first of which the log does not have: what was applied is still below the index at
which the log makes a snapshot, or in the log. -/
theorem LogAligned.handleAppendEntries_extended (h : n.LogAligned) (haway : ¬n.turnsAway m) (hprev : m.prevLogIndex + 1 = p)
    (hm : Placed p m.entries) (hb : n.baseIndex ≤ p) (hp : n.prevMatches m = true) (hne : m.entries ≠ [])
    (hf : n.firstMatches m ≠ some true)
    (happ : n.lastApplied < n.baseIndex + snapshotThreshold ∨ n.lastApplied < (n.full.take p ++ m.entries).length) (store : KVStore) :
    (n.handleAppendEntries store m).node.LogAligned ∧
      (n.handleAppendEntries store m).node.full = n.full.take p ++ m.entries := by
  obtain ⟨hprevs, hfirst, hlast⟩ := n.stepDown_checks m
  obtain ⟨hfull, _, hbase⟩ := n.stepDown_full m
  have hdown := h.stepDown m
  have haccfull : ((n.stepDown m).acceptEntries m).full = n.full.take p ++ m.entries := by
    rw [hdown.acceptEntries_full hprev hm (hbase ▸ hb) (hprevs ▸ hp) hne (hfirst ▸ hf), hfull]
  have hplace : (n.full.take p).length = p := by
    obtain ⟨hle, _⟩ := h.rewound.prevMatches_place hprev hp
    exact List.length_take_of_le hle
  have hplaced : Placed 0 (n.full.take p ++ m.entries) :=
    (h.placed.piece (List.take_prefix p n.full)).append (by rw [hplace, Nat.zero_add]; exact hm)
  have hacc : ((n.stepDown m).acceptEntries m).LogAligned := by
    obtain ⟨log, heq⟩ := (n.stepDown m).acceptEntries_eq m
    rw [heq] at haccfull ⊢
    exact ⟨hdown.genuine, haccfull ▸ hplaced, hdown.applied_nonneg, hdown.applied_base, by rw [haccfull]; exact hlast ▸ hbase ▸ happ,
      hdown.nextIndex⟩
  rw [handleAppendEntries_taken haway]
  split
  · obtain ⟨hlogged, hsame⟩ := hacc.advanceCommit store m.leaderCommit
    exact ⟨hlogged, hsame.trans haccfull⟩
  · exact ⟨hacc, haccfull⟩

end RaftNode

namespace Exchange

variable {x y : Exchange} {i : ℕ} {lead : RaftNode}

/-! ## A round as a step of a copy -/

/-- The follower's log as a copy of the leader's. -/
def view (i : ℕ) (x : Exchange) : CatchUp LogEntry where
  next := (x.leader.nextIndex.getD i 0).toNat
  copy := x.follower.full

/-- The leader is `lead` but for its bookkeeping of the peers, and the follower listens to it. -/
structure Led (lead : RaftNode) (i : ℕ) (x : Exchange) : Prop where
  still : ∃ next matched, x.leader = { lead with nextIndex := next, matchIndex := matched }
  leader : x.leader.Aligned
  peer : i < x.leader.nextIndex.length
  term : x.follower.currentTerm ≤ lead.currentTerm
  idle : x.follower.receivingSnapshot = false

/-- The follower is roomy, as every node of every run is, or what it has applied is in the leader's log. -/
def Apt (log : List LogEntry) (n : RaftNode) : Prop := n.Roomy ∨ n.full.take (n.lastApplied + 1).toNat <+: log

/-- The follower's log matches the leader's, its snapshot is in the leader's log, and it is apt to follow. -/
structure Syncing (lead : RaftNode) (i : ℕ) (x : Exchange) : Prop extends Led lead i x where
  follower : x.follower.LogAligned
  matching : LogsMatch x.follower.full lead.full
  below : x.follower.covered <+: lead.full
  applied : Apt lead.full x.follower

/-- The message of a round with the entries of `lead` from `k` on. -/
structure Batch (lead : RaftNode) (k : ℕ) (m : AppendEntriesRPC) : Prop where
  term : m.term = lead.currentTerm
  leaderCommit : m.leaderCommit = lead.commitIndex
  prev : m.prevLogIndex + 1 = k
  placed : Placed k m.entries
  entries : m.entries = (lead.full.take (min (k + 20) lead.full.length)).drop k
  prevTerm : 0 < k → m.prevLogTerm = ((lead.full[k - 1]?).map (·.term)).getD 0

namespace Led

variable (h : x.Led lead i)

include h

theorem full_eq : x.leader.full = lead.full := by
  obtain ⟨_, _, heq⟩ := h.still
  rw [heq]
  rfl

theorem currentTerm_eq : x.leader.currentTerm = lead.currentTerm := by
  obtain ⟨_, _, heq⟩ := h.still
  rw [heq]

/-- `nextIndex` of the peer. -/
theorem nextIndex_eq : x.leader.nextIndex.getD i 0 = ((x.view i).next : ℤ) :=
  (Int.toNat_of_nonneg (h.leader.nextIndex_getD i)).symm

theorem getLogSize_eq : x.leader.getLogSize = lead.full.length := by rw [h.leader.getLogSize_eq, h.full_eq]

/-- The leader after `nextIndex` of the peer is set. -/
theorem moved {j : ℕ} {matched : List ℤ}
    (hy : y.leader = { x.leader with nextIndex := x.leader.nextIndex.set i j, matchIndex := matched })
    (hterm : y.follower.currentTerm ≤ lead.currentTerm) (hidle : y.follower.receivingSnapshot = false) :
    y.Led lead i ∧ y.view i = ⟨j, y.follower.full⟩ := by
  obtain ⟨next, matched', hstill⟩ := h.still
  refine ⟨⟨⟨_, _, by rw [hy, hstill]⟩, ?_, ?_, hterm, hidle⟩, ?_⟩
  · rw [hy]
    exact h.leader.setNext i (by omega) matched
  · rw [hy, List.length_set]
    exact h.peer
  · unfold view
    rw [hy]
    simp only [List.getD_eq_getElem?_getD, List.getElem?_set_self h.peer, Option.getD_some, Int.toNat_natCast]

/-- The message of a round, and what the round does. -/
theorem request (hn : x.leader.neededSnapshot i = none) : ∃ m y, Batch lead (x.view i).next m ∧ ¬x.follower.turnsAway m ∧
    x.round i = some y ∧
      y.leader = Site.heartbeatAnswered x.leader i (x.view i).next m.entries.length (x.follower.prevMatches m) ∧
      y.follower = (x.follower.handleAppendEntries x.store m).node := by
  have hbase := h.leader.baseIndex_le_next hn
  have hentries := h.leader.getLogEntries_eq (b := min (x.leader.nextIndex.getD i 0 + Site.maxEntriesPerBatch) x.leader.getLogSize) hbase
  rw [h.full_eq, h.getLogSize_eq, h.nextIndex_eq] at hentries
  rw [h.nextIndex_eq] at hbase
  obtain ⟨m, hm⟩ : ∃ m, m = x.leader.appendRequest (x.view i).next (x.leader.getLogEntries (x.view i).next
    (min ((x.view i).next + Site.maxEntriesPerBatch) lead.full.length)) := ⟨_, rfl⟩
  have hbatch : Batch lead (x.view i).next m := by
    obtain ⟨_, _, hstill⟩ := h.still
    subst hm
    refine ⟨h.currentTerm_eq, by rw [hstill]; rfl, ?_, ?_, ?_, fun hpos => ?_⟩
    · show ((x.view i).next : ℤ) - 1 + 1 = _
      omega
    · show Placed _ (x.leader.getLogEntries _ _)
      rw [hentries, Int.toNat_natCast]
      have hplaced := h.leader.placed
      rw [h.full_eq] at hplaced
      have hdrop (b : ℕ) := (hplaced.piece (List.take_prefix b _)).drop (x.view i).next
      rw [Nat.zero_add] at hdrop
      exact hdrop _
    · show x.leader.getLogEntries _ _ = _
      rw [hentries, Int.toNat_natCast]
      congr 2
      unfold Site.maxEntriesPerBatch
      omega
    · show x.leader.getLogTerm (((x.view i).next : ℤ) - 1) = _
      rw [h.leader.getLogTerm_eq (by omega) (by omega), h.full_eq]
      congr 3
      omega
  have haway : ¬x.follower.turnsAway m := by
    rintro (⟨hr, _⟩ | hlt)
    · rw [h.idle] at hr
      cases hr
    · have hterm := h.term
      rw [hbatch.term] at hlt
      omega
  have hle : (x.follower.stepDown m).currentTerm ≤ lead.currentTerm := hbatch.term ▸ RaftNode.stepDown_le (hbatch.term ▸ h.term)
  have hanswered (nextIdx : ℤ) (count : ℕ) : answered x.leader i nextIdx count (x.follower.handleAppendEntries x.store m).reply =
      Site.heartbeatAnswered x.leader i nextIdx count (x.follower.prevMatches m) := by
    rw [RaftNode.handleAppendEntries_reply haway, (x.follower.stepDown_checks m).1]
    unfold answered
    simp only [Reply.appendEntriesResponse]
    rw [if_neg (by rw [h.currentTerm_eq]; omega)]
  refine ⟨m, { leader := answered x.leader i (x.view i).next m.entries.length (x.follower.handleAppendEntries x.store m).reply
               follower := (x.follower.handleAppendEntries x.store m).node
               store := (x.follower.handleAppendEntries x.store m).store }, hbatch, haway, ?_, hanswered _ _, rfl⟩
  unfold round
  rw [hn]
  simp only [h.nextIndex_eq, h.getLogSize_eq]
  rw [hm]
  rfl

/-- The follower is in no later term after a batch, and still listens. -/
theorem still_listens {m : AppendEntriesRPC} (hm : m.term = lead.currentTerm) :
    (x.follower.handleAppendEntries x.store m).node.currentTerm ≤ lead.currentTerm ∧
      (x.follower.handleAppendEntries x.store m).node.receivingSnapshot = false := by
  obtain ⟨hterm, hincoming⟩ := RaftNode.handleAppendEntries_rest (hm ▸ h.term) x.store
  exact ⟨hm ▸ hterm, (congrArg Incoming.receivingSnapshot hincoming).trans h.idle⟩

/-- A batch that the follower refuses takes `nextIndex` back by one, and leaves the follower as it is. -/
theorem refused {m : AppendEntriesRPC} (haway : ¬x.follower.turnsAway m) (hm : m.term = lead.currentTerm)
    (hp : x.follower.prevMatches m = false) {k : ℕ} (hk : (x.view i).next = k + 1)
    (hy : y.leader = Site.heartbeatAnswered x.leader i (x.view i).next m.entries.length false)
    (hf : y.follower = (x.follower.handleAppendEntries x.store m).node) :
    y.Led lead i ∧ y.view i = ⟨k, x.follower.full⟩ ∧ y.follower = (x.follower.stepDown m).persistMetadata := by
  have hretreat : y.leader = { x.leader with nextIndex := x.leader.nextIndex.set i (k : ℕ), matchIndex := x.leader.matchIndex } := by
    have hnext := h.nextIndex_eq
    rw [hy]
    unfold Site.heartbeatAnswered RaftNode.retreat
    rw [if_neg (by simp), if_pos (by simp), if_pos (by omega), show x.leader.nextIndex.getD i 0 - 1 = k by omega]
  obtain ⟨hterm, hidle⟩ := h.still_listens hm
  obtain ⟨hled, hview⟩ := h.moved hretreat (hf ▸ hterm) (hf ▸ hidle)
  rw [RaftNode.handleAppendEntries_refused haway hp x.store] at hf
  have hfull : y.follower.full = x.follower.full := by
    rw [hf]
    exact (x.follower.stepDown_full m).1
  exact ⟨hled, by rw [hview, hfull], hf⟩

end Led

namespace Syncing

variable (h : x.Syncing lead i)

include h

/-- What the follower's snapshot stands for ends before the index from which nothing matches. -/
theorem base_le (ha : (x.view i).Apart SameTerm lead.full) : x.follower.baseIndex ≤ ((x.view i).next : ℤ) := by
  have hc : (x.follower.covered.length : ℤ) = x.follower.baseIndex := h.follower.rewound.covered_length
  by_contra hlt
  have hpos : 0 < x.follower.covered.length := by omega
  have hlt' : x.follower.covered.length - 1 < x.follower.covered.length := by omega
  obtain ⟨e, hentry⟩ : ∃ e, x.follower.covered[x.follower.covered.length - 1]? = some e := ⟨_, List.getElem?_eq_getElem hlt'⟩
  refine ha.apart (x.follower.covered.length - 1) (by omega) ⟨e, e, ?_, ?_, rfl⟩
  · show x.follower.full[_]? = _
    rw [RaftNode.full, List.getElem?_append_left hlt']
    exact hentry
  · obtain ⟨rest, hrest⟩ := h.below
    rw [← hrest, List.getElem?_append_left hlt']
    exact hentry

/-- A follower whose log has become the beginning of the leader's, up to the `nextIndex` that is set. -/
theorem extended {j : ℕ} {matched : List ℤ}
    (hy : y.leader = { x.leader with nextIndex := x.leader.nextIndex.set i j, matchIndex := matched })
    (hterm : y.follower.currentTerm ≤ lead.currentTerm) (hidle : y.follower.receivingSnapshot = false)
    (hfollower : y.follower.LogAligned) (hfull : y.follower.full = lead.full.take j) : y.Syncing lead i where
  toLed := (h.moved hy hterm hidle).1
  follower := hfollower
  matching := hfull ▸ logsMatch_take lead.full j
  below := (List.prefix_append _ _).trans (hfull ▸ List.take_prefix j lead.full)
  applied := .inr ((List.take_prefix _ _).trans (hfull ▸ List.take_prefix j lead.full))

/-- A transfer of the leader's snapshot is a step forward. -/
theorem transfer {snap : Snapshot} (hfits : snap.Fits) (hsend : snap.Sendable) (hsaved : snap.dumps = true) (hn : x.leader.neededSnapshot i = some snap) :
    ∃ y, x.round i = some y ∧ y.Syncing lead i ∧ CatchUp.Step SameTerm lead.full (x.view i) (y.view i) := by
  have hsnap := RaftNode.neededSnapshot_eq hn
  have hgenuine := h.leader.genuine snap hsnap
  have hneed : x.leader.nextIndex.getD i 0 ≤ snap.lastIncludedIndex := by
    have hneed := (Option.filter_eq_some_iff.mp hn).2
    exact of_decide_eq_true hneed
  obtain ⟨y, ms, m, htransfer, hdelivered, _, _⟩ := transfer_eq hfits hsend hsaved (h.currentTerm_eq.symm ▸ h.term) i
  obtain ⟨term, state, vote, b, disk, s, hsame, hcov, _, _, hnode⟩ := hdelivered.installed.node
  have hcovers : s.Genuine := by
    unfold Snapshot.Genuine
    rw [hcov, hsame.index, hsame.term]
    exact hgenuine
  have hlen := hgenuine.length
  have hnonneg := hgenuine.index_nonneg
  have hcovered : x.leader.covered = snap.covered := by simp [RaftNode.covered, hsnap]
  have htake : lead.full.take (snap.lastIncludedIndex + 1).toNat = snap.covered := by
    rw [← h.full_eq, RaftNode.full, hcovered, List.take_left' (by omega)]
  have hfull : y.follower.full = lead.full.take (snap.lastIncludedIndex + 1).toNat := by
    rw [htake, hnode]
    show s.covered ++ [] = _
    rw [List.append_nil, hcov]
  have hfollower : y.follower.LogAligned := by
    refine RaftNode.Aligned.logAligned ?_
    rw [hnode]
    refine ⟨fun s' hs' => ?_, ?_, ?_, le_rfl, .inr ?_, h.follower.nextIndex⟩
    · obtain rfl := Option.some.inj hs'
      exact hcovers
    · show Placed 0 (s.covered ++ [])
      rw [List.append_nil]
      exact hcovers.placed
    · exact hcovers.index_nonneg
    · show s.lastIncludedIndex < (s.covered ++ []).length
      have := hcovers.length
      rw [List.append_nil]
      omega
  have hle : (snap.lastIncludedIndex + 1).toNat ≤ lead.full.length := by
    have := congrArg List.length htake
    rw [List.length_take] at this
    omega
  have hy : y.leader = { x.leader with
      nextIndex := x.leader.nextIndex.set i ((snap.lastIncludedIndex + 1).toNat : ℕ)
      matchIndex := x.leader.matchIndex.set i snap.lastIncludedIndex } := by
    rw [hdelivered.leader, Int.toNat_of_nonneg (by omega)]
  have hterm : y.follower.currentTerm ≤ lead.currentTerm := hdelivered.term.trans_eq h.currentTerm_eq
  have hidle : y.follower.receivingSnapshot = false := by
    rw [hnode]
    exact h.idle
  refine ⟨y, ?_, h.extended hy hterm hidle hfollower hfull, ?_⟩
  · unfold round
    rw [hn]
    simp only [htransfer, Option.map_some]
  · rw [(h.moved hy hterm hidle).2, hfull]
    have hxnext := h.nextIndex_eq
    exact .extend (by show (x.view i).next < _; omega) hle

/-- A batch that the follower refuses is a step back. -/
theorem refused {m : AppendEntriesRPC} (haway : ¬x.follower.turnsAway m) (hm : m.term = lead.currentTerm)
    (hp : x.follower.prevMatches m = false) {k : ℕ} (hk : (x.view i).next = k + 1) (hno : ¬MatchAt SameTerm x.follower.full lead.full k)
    (hy : y.leader = Site.heartbeatAnswered x.leader i (x.view i).next m.entries.length false)
    (hf : y.follower = (x.follower.handleAppendEntries x.store m).node) :
    y.Syncing lead i ∧ CatchUp.Step SameTerm lead.full (x.view i) (y.view i) := by
  obtain ⟨hled, hview, hnode⟩ := h.toLed.refused haway hm hp hk hy hf
  obtain ⟨_, _, _, _, _, hdown⟩ := x.follower.stepDown_shape m
  have hfull : y.follower.full = x.follower.full := by
    rw [hnode, hdown]
    rfl
  constructor
  · refine ⟨hled, ?_, hfull ▸ h.matching, ?_, ?_⟩
    · rw [hnode]
      exact (h.follower.stepDown m).congr rfl rfl rfl rfl
    · rw [hnode, hdown]
      exact h.below
    · rw [hnode, hdown]
      exact h.applied
  · have hx : x.view i = ⟨k + 1, x.follower.full⟩ := by
      rw [← hk]
      rfl
    rw [hx, hview]
    exact .retreat hno

/-- What the follower has applied of the leader's log lies before the first entry that does not match. -/
theorem applied_le (ha : (x.view i).Apart SameTerm lead.full) (hpre : x.follower.full.take (x.follower.lastApplied + 1).toNat <+: lead.full)
    (hin : x.follower.lastApplied < x.follower.full.length) : x.follower.lastApplied < (x.view i).next := by
  have h0 := h.follower.applied_nonneg
  by_contra hge
  have hlt : (x.view i).next < x.follower.full.length := by omega
  have htaken : (x.follower.full.take (x.follower.lastApplied + 1).toNat)[(x.view i).next]? = some x.follower.full[(x.view i).next] := by
    rw [List.getElem?_take_of_lt (by omega)]
    exact List.getElem?_eq_getElem hlt
  obtain ⟨rest, hrest⟩ := hpre
  refine ha.apart (x.view i).next le_rfl ⟨_, _, List.getElem?_eq_getElem hlt, ?_, rfl⟩
  rw [← hrest, List.getElem?_append_left (List.getElem?_eq_some_iff.mp htaken).1]
  exact htaken

/-- A batch that the follower takes over is a step forward. -/
theorem taken (ha : (x.view i).Apart SameTerm lead.full) {m : AppendEntriesRPC} (haway : ¬x.follower.turnsAway m)
    (hm : Batch lead (x.view i).next m) (hp : x.follower.prevMatches m = true)
    (htake : x.follower.full.take (x.view i).next = lead.full.take (x.view i).next) (hlt : (x.view i).next < lead.full.length)
    (hy : y.leader = Site.heartbeatAnswered x.leader i (x.view i).next m.entries.length true)
    (hf : y.follower = (x.follower.handleAppendEntries x.store m).node) :
    y.Syncing lead i ∧ CatchUp.Step SameTerm lead.full (x.view i) (y.view i) := by
  obtain ⟨b, hb, hnext, hle⟩ : ∃ b, min ((x.view i).next + 20) lead.full.length = b ∧ (x.view i).next < b ∧ b ≤ lead.full.length :=
    ⟨_, rfl, by omega, by omega⟩
  have hentries := hm.entries
  rw [hb] at hentries
  have hlength : m.entries.length = b - (x.view i).next := by
    rw [hentries, List.length_drop, List.length_take, min_eq_left hle]
  have hne : m.entries ≠ [] := List.length_pos_iff.mp (by omega)
  have hfirst : x.follower.firstMatches m ≠ some true := by
    intro hf
    obtain ⟨_, e, f, hhead, he, hb⟩ := h.follower.rewound.firstMatches_full hm.prev hf
    have hsame : e.term = f.term := of_decide_eq_true hb.symm
    refine ha.apart (x.view i).next le_rfl ⟨e, f, he, ?_, hsame⟩
    rw [hentries, List.head?_drop, List.getElem?_take_of_lt (by omega)] at hhead
    exact hhead
  have happ : x.follower.lastApplied < x.follower.baseIndex + snapshotThreshold ∨
      x.follower.lastApplied < (x.follower.full.take (x.view i).next ++ m.entries).length := by
    rcases h.applied with hroom | hpre
    · exact .inl hroom
    · refine h.follower.applied_lt.imp_right fun hin => ?_
      have hle := h.applied_le ha hpre hin
      rw [htake, List.length_append, List.length_take]
      omega
  obtain ⟨hlogged, hfull⟩ := h.follower.handleAppendEntries_extended haway hm.prev hm.placed (h.base_le ha) hp hne hfirst happ x.store
  have hjoin : y.follower.full = lead.full.take b := by
    rw [hf, hfull, htake, hentries]
    conv_rhs => rw [← List.take_append_drop (x.view i).next (lead.full.take b)]
    rw [List.take_take, min_eq_left hnext.le]
  have hadvance : y.leader = { x.leader with
      nextIndex := x.leader.nextIndex.set i (b : ℕ)
      matchIndex := x.leader.matchIndex.set i ((x.view i).next + m.entries.length - 1) } := by
    rw [hy]
    unfold Site.heartbeatAnswered
    rw [if_pos ⟨rfl, by omega⟩, show ((x.view i).next : ℤ) + m.entries.length = b by omega]
  obtain ⟨hterm, hidle⟩ := h.still_listens hm.term
  refine ⟨h.extended hadvance (hf ▸ hterm) (hf ▸ hidle) (hf ▸ hlogged) hjoin, ?_⟩
  rw [(h.moved hadvance (hf ▸ hterm) (hf ▸ hidle)).2, hjoin]
  exact .extend hnext hle

/-- A round with a batch has caught up, or is a step back or forward. -/
theorem append (ha : (x.view i).Apart SameTerm lead.full) (hn : x.leader.neededSnapshot i = none) :
    (x.view i).Caught lead.full ∨
      ∃ y, x.round i = some y ∧ y.Syncing lead i ∧ CatchUp.Step SameTerm lead.full (x.view i) (y.view i) := by
  obtain ⟨m, y, hm, haway, hround, hy, hf⟩ := h.request hn
  have hle : (x.view i).next ≤ lead.full.length := ha.next
  have hprev := hm.prev
  cases hp : x.follower.prevMatches m with
  | false =>
    rw [hp] at hy
    obtain ⟨k, hk⟩ : ∃ k, (x.view i).next = k + 1 := by
      refine Nat.exists_eq_succ_of_ne_zero fun hz => ?_
      have hmatch : x.follower.prevMatches m = true := if_neg (by omega)
      exact Bool.noConfusion (hp.symm.trans hmatch)
    refine .inr ⟨y, hround, h.refused haway hm.term hp hk ?_ hy hf⟩
    rintro ⟨e, f, he, hfe, hsame⟩
    have hkf : (x.view i).next - 1 = k := by omega
    have hmatch : x.follower.prevMatches m = true := by
      refine h.follower.rewound.prevMatches_of_entry hprev (h.base_le ha) (by omega) (by rw [hkf]; exact he) ?_
      rw [hm.prevTerm (by omega), hkf, hfe]
      exact hsame
    exact Bool.noConfusion (hp.symm.trans hmatch)
  | true =>
    rw [hp] at hy
    have htake : x.follower.full.take (x.view i).next = lead.full.take (x.view i).next := by
      rcases Nat.eq_zero_or_pos (x.view i).next with hz | hpos
      · rw [hz, List.take_zero, List.take_zero]
      · obtain ⟨_, e, he, hte⟩ := h.follower.rewound.prevMatches_full (by omega) hp
        have hget : lead.full[(x.view i).next - 1]? = some lead.full[(x.view i).next - 1] := List.getElem?_eq_getElem (by omega)
        rw [show m.prevLogIndex.toNat = (x.view i).next - 1 by omega] at he
        rw [hm.prevTerm hpos, hget] at hte
        have := h.matching _ ⟨e, _, he, hget, hte⟩
        rwa [Nat.sub_add_cancel hpos] at this
    rcases hle.eq_or_lt with heq | hlt
    · refine .inl ⟨heq, ?_⟩
      have hpre := List.take_prefix (x.view i).next x.follower.full
      rwa [htake, heq, List.take_length] at hpre
    · exact .inr ⟨y, hround, h.taken ha haway hm hp htake hlt hy hf⟩

end Syncing

/-! ## Whole runs -/

/-- What replication starts from: a leader that has just been elected, and a follower of the same term whose log matches the leader's and
whose snapshot is a beginning of the leader's log. The leader's snapshot is one that was saved, with numbers of type `int`. -/
structure Begun (i : ℕ) (x : Exchange) : Prop where
  term : x.follower.currentTerm = x.leader.currentTerm
  idle : x.follower.receivingSnapshot = false
  leader : x.leader.Aligned
  follower : x.follower.Aligned
  matching : LogsMatch x.follower.full x.leader.full
  below : x.follower.covered <+: x.leader.full
  saved : ∀ s, x.leader.latestSnapshot = some s → s.IsInt ∧ s.dumps = true
  next : x.leader.nextIndex[i]? = some x.leader.getLogSize

/-- The follower has the leader's log, from the last index of the higher snapshot on. -/
structure Converged (i : ℕ) (x y : Exchange) : Prop where
  log : y.leader.log = x.leader.log
  latestSnapshot : y.leader.latestSnapshot = x.leader.latestSnapshot
  next : y.leader.nextIndex[i]? = some y.leader.getLogSize
  term : ∀ j, 0 ≤ j → max y.leader.baseIndex y.follower.baseIndex - 1 ≤ j → j < y.leader.getLogSize →
    y.follower.getLogTerm j = y.leader.getLogTerm j
  entry : ∀ j, max y.leader.baseIndex y.follower.baseIndex ≤ j → j < y.leader.getLogSize →
    ∃ e, y.follower.entryAt (y.follower.logIdx j) = some e ∧ y.leader.entryAt (y.leader.logIdx j) = some e

theorem rounds_eq (i k : ℕ) (x : Exchange) : x.rounds i k = steps (round i) k x := by
  induction k generalizing x with
  | zero => rfl
  | succ k ih =>
    show (x.round i).bind (rounds i k) = (x.round i).bind (steps (round i) k)
    exact congrArg _ (funext ih)

/-- A follower that has caught up has the leader's log. -/
theorem Syncing.converged (h : y.Syncing x.leader i) (hdone : (y.view i).Caught x.leader.full) : Converged i x y := by
  obtain ⟨next, matched, hstill⟩ := h.still
  have hnext := h.nextIndex_eq
  have hlen : (y.view i).next = x.leader.full.length := hdone.next
  have hsize := h.getLogSize_eq
  have hget {j : ℕ} (hj : j < x.leader.full.length) : y.follower.full[j]? = y.leader.full[j]? := by
    obtain ⟨rest, hrest⟩ := hdone.copy
    have hcopy : y.follower.full = x.leader.full ++ rest := hrest.symm
    rw [hcopy, h.full_eq, List.getElem?_append_left hj]
  have hl := h.leader.baseIndex_nonneg
  constructor
  · rw [hstill]
  · rw [hstill]
  · rw [hsize, ← hlen, ← hnext, List.getD_eq_getElem?_getD, List.getElem?_eq_getElem h.peer]
    rfl
  · intro j h0 hj hlt
    rw [h.follower.getLogTerm_eq h0 (by omega), h.leader.getLogTerm_eq h0 (by omega), hget (by omega)]
  · intro j hj hlt
    obtain ⟨e, he⟩ : ∃ e, y.leader.full[j.toNat]? = some e := ⟨_, List.getElem?_eq_getElem (by rw [h.full_eq]; omega)⟩
    refine ⟨e, ?_, ?_⟩
    · rw [h.follower.entryAt_logIdx (by omega), hget (by omega), he]
    · rw [h.leader.entryAt_logIdx (by omega), he]

theorem Begun.led (h : x.Begun i) : x.Led x.leader i where
  still := ⟨_, _, rfl⟩
  leader := h.leader
  peer := (List.getElem?_eq_some_iff.mp h.next).1
  term := h.term.le
  idle := h.idle

theorem Begun.apart (h : x.Begun i) : (x.view i).Apart SameTerm x.leader.full := by
  have hnext : (x.view i).next = x.leader.full.length := by
    show (x.leader.nextIndex.getD i 0).toNat = _
    rw [List.getD_eq_getElem?_getD, h.next, h.leader.getLogSize_eq]
    rfl
  refine ⟨hnext.le, fun j hj hm => ?_⟩
  obtain ⟨_, _, _, hy, _⟩ := hm
  have := (List.getElem?_eq_some_iff.mp hy).1
  omega

/-- Replication converges where the chunk loop can go through the image of the leader's snapshot, if there is one: after a number of
rounds that is bounded by the length of the leader's log, `nextIndex` is `getLogSize()` and the follower has the leader's log above the
snapshots. -/
theorem converges (h : x.Begun i) (hsend : ∀ s, x.leader.latestSnapshot = some s → s.Sendable) (happ : Apt x.leader.full x.follower) :
    ∃ (k : ℕ) (y : Exchange), k ≤ 2 * x.leader.getLogSize + 1 ∧ x.rounds i k = some y ∧ Converged i x y := by
  have hstart : x.Syncing x.leader i :=
    { h.led with follower := h.follower.logAligned, matching := h.matching, below := h.below, applied := happ }
  have hstep (z : Exchange) (hz : z.Syncing x.leader i) (ha : (z.view i).Apart SameTerm x.leader.full) :
      (z.view i).Caught x.leader.full ∨
        ∃ y, z.round i = some y ∧ y.Syncing x.leader i ∧ CatchUp.Step SameTerm x.leader.full (z.view i) (y.view i) := by
    cases hn : z.leader.neededSnapshot i with
    | none => exact hz.append ha hn
    | some snap =>
      obtain ⟨_, _, hstill⟩ := hz.still
      have hsnap := RaftNode.neededSnapshot_eq hn
      rw [hstill] at hsnap
      obtain ⟨hint, hsaved⟩ := h.saved snap hsnap
      exact .inr (hz.transfer (hint.fits (hsend snap hsnap)) (hsend snap hsnap) hsaved hn)
  have hrefl (e : LogEntry) : SameTerm e e := rfl
  obtain ⟨k, y, hk, hy, hsync, hdone⟩ := CatchUp.exists_caught hrefl hstep hstart h.apart
  refine ⟨k, y, ?_, by rw [rounds_eq]; exact hy, hsync.converged hdone⟩
  have hleft := CatchUp.left_le x.leader.full (x.view i)
  have hnext : (x.view i).next ≤ x.leader.full.length := h.apart.next
  rw [h.leader.getLogSize_eq]
  omega

/-- A log of two entries, of term 1 and of the term `t`. -/
def twoEntries (t : ℤ) : List LogEntry :=
  [{ term := 1, index := 0, command := [97], origin := ([], 0) }, { term := t, index := 1, command := [98], origin := ([], 1) }]

/-- A leader of term 2, and a follower whose second entry is another one. -/
def behind : Exchange where
  leader :=
    { RaftNode.create 0 5000 [5001] { metadata := none, snapshotFile := .absent } with
      state := .leader
      currentTerm := 2
      log := twoEntries 2
      nextIndex := [2] }
  follower := { RaftNode.create 1 5001 [5000] { metadata := none, snapshotFile := .absent } with currentTerm := 2, log := twoEntries 1 }
  store := KVStore.empty

theorem twoEntries_placed {t : ℤ} (ht : 1 ≤ t) : Placed 0 (twoEntries t) := by
  intro j e he
  match j, he with
  | 0, he =>
    obtain rfl := Option.some.inj he
    exact ⟨rfl, le_rfl⟩
  | 1, he =>
    obtain rfl := Option.some.inj he
    exact ⟨rfl, ht⟩

theorem behind_begun : Begun 0 behind where
  term := rfl
  idle := rfl
  leader := ⟨nofun, twoEntries_placed (by decide), by decide, by decide, .inl rfl, by decide⟩
  follower := ⟨nofun, twoEntries_placed le_rfl, by decide, by decide, .inl rfl, by decide⟩
  matching j h := by
    obtain ⟨e, f, he, hf, hsame⟩ := h
    match j, he, hf with
    | 0, _, _ => rfl
    | 1, he, hf =>
      obtain rfl := Option.some.inj he
      obtain rfl := Option.some.inj hf
      exact absurd (show (1 : ℤ) = 2 from hsame) (by decide)
  below := List.nil_prefix
  saved := nofun
  next := rfl

theorem converges_behind : ∃ (k : ℕ) (y : Exchange), k ≤ 2 * behind.leader.getLogSize + 1 ∧ behind.rounds 0 k = some y ∧ Converged 0 behind y :=
  converges behind_begun (fun _ h => by cases h) (.inl (by decide))

/-! ## The heartbeat thread -/

/-- A turn at a chunk of a transfer. -/
theorem chunk_turn {n f : RaftNode} {t : Transfer} {hd : Handled} (next : ℕ) (s : Site) (hb : Heartbeat) (store : KVStore)
    (hpeer : i < n.peerRpcPorts.length) (hh : f.handleInstallSnapshot store (t.message n) = some hd) :
    turn next ({ s with node := n }.heartbeatAt hb (.chunk i t), f, store) =
      some ({ s with node := (t.reply n i (some hd.reply)).1 }.heartbeatAt hb (match (t.reply n i (some hd.reply)).2 with
        | some t => .chunk i t
        | none => .peer (i + 1)), hd.node, hd.store) := by
  have hport : n.peerRpcPorts[i]? = some n.peerRpcPorts[i] := List.getElem?_eq_getElem hpeer
  have hsend : ({ s with node := n }.heartbeatAt hb (.chunk i t)).heartbeatStep next store =
      some { site := { s with node := n }.heartbeatAt hb (.chunkReply i t next)
             store := store
             send := some { port := n.peerRpcPorts[i], req := .installSnapshot (t.message n) }
             reply := none
             events := [] } := by
    unfold Site.heartbeatStep Site.heartbeatAt
    simp only [hport]
  unfold turn
  simp only [hsend, RaftNode.handle, hh]
  rfl

/-- A thread in a transfer sends the chunks of it, one for each turn. -/
theorem deliver_turns {t : Transfer} {fuel : ℕ} {ms : List InstallSnapshotRPC} (next : ℕ) (s : Site) (hb : Heartbeat)
    (hpeer : i < x.leader.peerRpcPorts.length) (hfuel : fuel + t.chunkNum = t.chunkCount) (hpos : 0 < fuel)
    (hy : t.deliver i fuel x = some (y, ms)) :
    ∃ k, steps (turn next) k ({ s with node := x.leader }.heartbeatAt hb (.chunk i t), x.follower, x.store) =
      some ({ s with node := y.leader }.heartbeatAt hb (.peer (i + 1)), y.follower, y.store) := by
  induction fuel generalizing x t ms with
  | zero => omega
  | succ fuel ih =>
    obtain ⟨_, hd, hh, hrest⟩ := Transfer.deliver_cases hy
    have hturn := chunk_turn next s hb x.store hpeer hh
    rcases hrest with ⟨hrest, rfl, _⟩ | ⟨t', ms', hrest, hz, _⟩
    · rw [hrest] at hturn
      refine ⟨1, ?_⟩
      show (turn next _).bind _ = _
      rw [hturn]
      rfl
    · rw [hrest] at hturn
      obtain ⟨hlt, rfl⟩ := Transfer.reply_rest hrest
      obtain ⟨_, _, hshape⟩ := t.reply_shape x.leader i (some hd.reply)
      obtain ⟨k, hk⟩ := ih (x := { leader := (t.reply x.leader i (some hd.reply)).1, follower := hd.node, store := hd.store })
        (hshape ▸ hpeer) (show fuel + (t.chunkNum + 1) = t.chunkCount by omega) (by omega) hz
      refine ⟨k + 1, ?_⟩
      show (turn next _).bind _ = _
      rw [hturn]
      exact hk

/-- A round is what the heartbeat thread does from a peer on, up to the next peer or its end. -/
theorem round_turns (next : ℕ) {s : Site} {hb : Heartbeat} (hs : s.heartbeat = some hb) (hp : hb.phase = .peer i)
    (hrun : s.node.runningHeartbeats = true) (hup : s.node.shutdownRequested = false) (hpeer : i < s.node.peerRpcPorts.length)
    (hn : s.node = x.leader) (hy : x.round i = some y) : ∃ k s', steps (turn next) k (s, x.follower, x.store) = some (s', y.follower, y.store) ∧
      s'.node = y.leader ∧ (s'.heartbeat = none ∨ s'.heartbeat = some { hb with phase := .peer (i + 1) }) := by
  obtain ⟨lead, f, store⟩ := x
  obtain rfl : s.node = lead := hn
  have hport : s.node.peerRpcPorts[i]? = some s.node.peerRpcPorts[i] := List.getElem?_eq_getElem hpeer
  unfold round at hy
  cases hneed : s.node.neededSnapshot i with
  | some snap =>
    simp only [hneed] at hy
    obtain ⟨⟨z, ms⟩, hz, rfl⟩ := Option.map_eq_some_iff.mp hy
    obtain ⟨k, hk⟩ := deliver_turns next s hb hpeer (Nat.add_zero _) (Transfer.start_chunkCount snap) hz
    have hstart : s.heartbeatStep next store = some (.local (s.heartbeatAt hb (.chunk i (Transfer.start snap))) store) := by
      unfold Site.heartbeatStep
      simp only [hs, hp, hup, hrun, hport, hneed, not_true_eq_false, Bool.false_eq_true, if_false]
    refine ⟨k + 1, { s with node := z.leader }.heartbeatAt hb (.peer (i + 1)), ?_, rfl, .inr rfl⟩
    show (turn next _).bind _ = _
    unfold turn
    simp only [hstart]
    exact hk
  | none =>
    simp only [hneed] at hy
    obtain rfl := Option.some.inj hy
    obtain ⟨nextIdx, hnext⟩ : ∃ nextIdx, nextIdx = s.node.nextIndex.getD i 0 := ⟨_, rfl⟩
    obtain ⟨entries, hentries⟩ : ∃ entries,
        entries = s.node.getLogEntries nextIdx (min (nextIdx + Site.maxEntriesPerBatch) s.node.getLogSize) := ⟨_, rfl⟩
    have hsend : s.heartbeatStep next store = some
        { site := s.heartbeatAt hb (.append i nextIdx entries.length next)
          store := store
          send := some { port := s.node.peerRpcPorts[i], req := .appendEntries (s.node.appendRequest nextIdx entries) }
          reply := none
          events := [] } := by
      unfold Site.heartbeatStep
      simp only [hs, hp, hup, hrun, hport, hneed, not_true_eq_false, Bool.false_eq_true, if_false, hentries, hnext]
    rw [← hnext, ← hentries]
    obtain ⟨hd, hhd⟩ : ∃ hd, hd = f.handleAppendEntries store (s.node.appendRequest nextIdx entries) := ⟨_, rfl⟩
    have hturn (s' : Site) (hr : (s.heartbeatAt hb (.append i nextIdx entries.length next)).heartbeatReply hd.store (some hd.reply) =
        some (.local s' hd.store)) : steps (turn next) 1 (s, f, store) = some (s', hd.node, hd.store) := by
      show (turn next _).bind _ = _
      unfold turn
      simp only [hsend, RaftNode.handle, ← hhd, hr]
      rfl
    have hlost (hr : (some hd.reply).bind Reply.appendEntriesResponse = none) :
        (s.heartbeatAt hb (.append i nextIdx entries.length next)).heartbeatReply hd.store (some hd.reply) =
          some (.local (s.heartbeatAt hb (.peer (i + 1))) hd.store) := by
      show (if s.node.shutdownRequested = true then _ else if ¬s.node.runningHeartbeats = true then _ else _) = _
      rw [if_neg (by simp [hup]), if_neg (by simp [hrun]), hr]
      rfl
    have hreply (term : ℤ) (success : Bool) (hr : (some hd.reply).bind Reply.appendEntriesResponse = some (term, success)) :
        (s.heartbeatAt hb (.append i nextIdx entries.length next)).heartbeatReply hd.store (some hd.reply) =
          if s.node.currentTerm < term then
            some (.local { s with node := { s.node with runningHeartbeats := false }.followReply term, heartbeat := none } hd.store)
          else
            some (.local ({ s with node := Site.heartbeatAnswered s.node i nextIdx entries.length success }.heartbeatAt hb (.peer (i + 1)))
              hd.store) := by
      show (if s.node.shutdownRequested = true then _ else if ¬s.node.runningHeartbeats = true then _ else _) = _
      rw [if_neg (by simp [hup]), if_neg (by simp [hrun]), hr]
      rfl
    rw [← hhd]
    unfold answered
    cases hresp : hd.reply.appendEntriesResponse with
    | none => exact ⟨1, _, hturn _ (hlost hresp), rfl, .inr rfl⟩
    | some p =>
      obtain ⟨term, success⟩ := p
      have hr := hreply term success hresp
      simp only at hr ⊢
      split at hr
      · next hlt =>
        rw [if_pos hlt]
        exact ⟨1, _, hturn _ hr, rfl, .inl rfl⟩
      · next hge =>
        rw [if_neg hge]
        exact ⟨1, _, hturn _ hr, rfl, .inr rfl⟩

end Exchange

end RaftStore
