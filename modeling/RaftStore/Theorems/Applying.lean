import RaftStore.Lemmas.Progress
import RaftStore.Theorems.Applied
import RaftStore.Solo

/-!
# What one node commits and applies

Two facts about a node on its own. No node ever applies the entry at index 0: `lastApplied` starts at 0, and an apply loop begins
above it. And `commitIndex` moves forward only while client commands commit in the order of their entries, no conflict cuts off what is
committed, and no snapshot comes in that ends before the log does: none of the three assignments looks at what it replaces.
-/

namespace RaftStore

namespace Solo

variable {size : ℕ} {x y : Solo}

/-! ## The first entry -/

/-- What the node has applied, in that order. -/
def applications (x : Solo) : List (ℤ × LogEntry) := x.events.filterMap Event.application

/-- Each entry up to `lastApplied` was applied once, in order, and the store is what their commands make of the empty map. -/
structure AppliedAll (x : Solo) : Prop where
  order : x.applications.map Prod.fst = (List.range (x.site.node.lastApplied + 1).toNat).map (fun j : ℕ => (j : ℤ))
  entries : ∀ p ∈ x.applications, x.site.node.globalEntry p.1 = some p.2
  store : x.store.mp = (x.applications.foldl (fun s p => (s.applyCommand p.2.command).1) KVStore.empty).mp

/-- The node has a store of its own, installs no snapshot and does not crash. -/
def ownStore (_ : Solo) (w : Occurrence) : Prop :=
  w.store.isNone ∧ w.input.installSnapshot = none ∧ w.input ≠ .restart

instance (x : Solo) (w : Occurrence) : Decidable (ownStore x w) := instDecidableAnd

/-- What is applied lies above 0. -/
structure AppliedAbove (x : Solo) : Prop where
  sound : x.site.Sound
  nonneg : 0 ≤ x.site.node.lastApplied
  above : ∀ j e, Event.applied j e ∈ x.events → 0 < j

theorem AppliedAbove.step {w : Occurrence} (h : x.AppliedAbove) (hp : ownStore x w) (hs : x.step size w = some y) :
    y.AppliedAbove := by
  obtain ⟨o, ho, hsound, rfl⟩ := step_inv h.sound hs
  have h0 := h.nonneg
  have hnew : x.site.node.lastApplied ≤ o.site.node.lastApplied ∧
      ∀ j e, Event.applied j e ∈ o.events → x.site.node.lastApplied < j := by
    have hcommits {k : ℤ} (hc : x.site.Commits o k) : x.site.node.lastApplied ≤ o.site.node.lastApplied ∧
        ∀ j e, Event.applied j e ∈ o.events → x.site.node.lastApplied < j :=
      ⟨(le_max_left _ _).trans_eq (congrArg Progress.lastApplied hc.1).symm, hc.2⟩
    rcases h.sound.progress_cases ho with hst | ⟨_, _, hc⟩ | ⟨_, _, _, _, hc⟩ | ⟨m, hm, _⟩ | hr
    · exact ⟨(congrArg Progress.lastApplied hst.1).ge, fun j e hev => absurd rfl (hst.2 _ hev j e)⟩
    · exact hcommits hc
    · exact hcommits hc
    · rw [hp.2.1] at hm
      cases hm
    · exact absurd hr hp.2.2
  refine ⟨hsound, h0.trans hnew.1, fun j e hev => ?_⟩
  rcases List.mem_append.mp hev with hev | hev
  · exact h.above j e hev
  · exact h0.trans_lt (hnew.2 j e hev)

theorem appliedAbove_create (nodeId port : ℤ) (peers : List ℤ) : (Solo.create nodeId port peers).AppliedAbove where
  sound := Site.sound_create _ _ _
  nonneg := le_rfl
  above _ _ h := absurd h List.not_mem_nil

/-- In no state of a node are all entries up to `lastApplied` applied: the one at index 0 is not. -/
theorem first_entry_unapplied {nodeId port : ℤ} {peers : List ℤ}
    (h : Systems.Run (step size) ownStore (Solo.create nodeId port peers) x) : ¬x.AppliedAll := by
  intro hall
  obtain ⟨_, h0, habove⟩ := h.invariant (fun _ _ _ hx hp hs => hx.step hp hs) (appliedAbove_create nodeId port peers)
  have hmem : (0 : ℤ) ∈ x.applications.map Prod.fst := by
    rw [hall.order]
    exact List.mem_map.mpr ⟨0, List.mem_range.mpr (by omega), rfl⟩
  obtain ⟨⟨j, e⟩, hje, rfl⟩ := List.mem_map.mp hmem
  obtain ⟨ev, hev, heq⟩ := List.mem_filterMap.mp hje
  rw [Event.application_eq heq] at hev
  exact lt_irrefl _ (habove 0 e hev)

/-- `commitIndex` was advanced by a commit. -/
def committed (x : Solo) : Bool :=
  x.events.any fun ev => match ev with
    | .committed _ _ _ => true
    | .commitAdvanced _ => true
    | _ => false

/-- Node 0 of three nodes. -/
def ofThree : Solo := create (0 : ℕ) 5000 [5001, 5002]

/-- Node 0 is elected in term 1 by node 1. -/
def isElected : List Input :=
  [.startElection, .step .election, .reply .election (some (.requestVote 1 true)), .step .election, .reply .election none,
    .step .election]

/-- The client command at place `k` goes to node 1, which takes it, and to node 2, which does not answer, and is committed. -/
def replicates (k : ℕ) : List Input :=
  [.step (.client k), .reply (.client k) (some (.appendEntries 1 true)), .step (.client k), .reply (.client k) none,
    .step (.client k)]

/-- Node 0 commits its first command. -/
def firstCommit : List Occurrence :=
  (isElected ++ .clientRequest (putRequest 1 "a") :: replicates 0).map fun i => { input := i, store := none }

theorem firstCommit_applications : ∃ x ∈ Systems.runAll (step 3) ownStore ofThree firstCommit,
    x.committed = true ∧ x.site.node.lastApplied = 0 ∧ x.applications = [] := by
  decide +kernel

/-- In that run the first command is committed, and not applied. -/
theorem first_entry_unapplied_firstCommit : ∃ x ∈ Systems.runAll (step 3) ownStore ofThree firstCommit,
    x.committed = true ∧ ¬x.AppliedAll := by
  obtain ⟨x, hx, hc, _⟩ := firstCommit_applications
  exact ⟨x, hx, hc, first_entry_unapplied (Systems.Run.refl.runAll hx)⟩

/-- A node can have committed an entry without having applied all entries up to `lastApplied`. -/
theorem committed_unapplied : ¬∀ x, Systems.Run (step 3) ownStore ofThree x → x.committed = true → x.AppliedAll := by
  intro h
  obtain ⟨x, hx, hc, hla, happ⟩ := firstCommit_applications
  have horder := (h x (Systems.Run.refl.runAll hx) hc).order
  rw [hla, happ] at horder
  exact absurd horder (by decide)

end Solo

/-! ## The size of the log -/

/-- The size of a log of this size after the loop that appends the entries: an entry is appended where its index is not below the size. -/
def pushedSize : ℤ → List LogEntry → ℤ
  | size, [] => size
  | size, e :: es => pushedSize (if size ≤ e.index then size + 1 else size) es

theorem le_pushedSize (size : ℤ) (es : List LogEntry) : size ≤ pushedSize size es := by
  induction es generalizing size with
  | nil => exact le_rfl
  | cons e es ih =>
    have := ih (if size ≤ e.index then size + 1 else size)
    unfold pushedSize
    split_ifs at this ⊢ <;> omega

namespace RaftNode

variable {n : RaftNode} {m : AppendEntriesRPC}

/-- The size of the log that a message leaves which passes the check. -/
def sizeWith (n : RaftNode) (m : AppendEntriesRPC) : ℤ :=
  match n.firstMatches m with
  | some true => n.getLogSize
  | some false => pushedSize (m.prevLogIndex + 1) m.entries
  | none => pushedSize n.getLogSize m.entries

theorem foldl_pushEntry_size (es : List LogEntry) (n : RaftNode) :
    (es.foldl pushEntry n).getLogSize = pushedSize n.getLogSize es := by
  induction es generalizing n with
  | nil => rfl
  | cons e es ih =>
    have hpush : (pushEntry n e).getLogSize = if n.getLogSize ≤ e.index then n.getLogSize + 1 else n.getLogSize := by
      have hiff : (n.log.length : ℤ) ≤ n.logIdx e.index ↔ n.getLogSize ≤ e.index := by
        rw [logIdx_eq]
        unfold getLogSize
        omega
      unfold pushEntry
      simp only [hiff]
      split
      · show n.baseIndex + ((n.log ++ [e]).length : ℤ) = n.baseIndex + n.log.length + 1
        simp only [List.length_append, List.length_singleton]
        omega
      · rfl
    rw [List.foldl_cons, ih, hpush]
    rfl

/-- The log that is left has this size. -/
theorem acceptEntries_size (hm : n.prevMatches m = true) : (n.acceptEntries m).getLogSize = n.sizeWith m := by
  have hacc : (n.acceptEntries m).getLogSize = (n.insertEntries m).getLogSize := by
    unfold acceptEntries
    rw [if_pos hm]
    rfl
  rw [hacc]
  unfold sizeWith
  rcases hf : n.firstMatches m with _ | ⟨_ | _⟩
  · rw [Aligned.insertEntries_push hf, foldl_pushEntry_size]
  · obtain ⟨e, f, hhead, he, hterm⟩ := Aligned.firstMatches_eq hf
    have hlt := (entryAt_isSome n _).mp (by rw [he]; rfl)
    have hsize : ({ n with log := n.log.take (n.logIdx (m.prevLogIndex + 1)).toNat } : RaftNode).getLogSize =
        m.prevLogIndex + 1 := by
      show n.baseIndex + (n.log.take (n.logIdx (m.prevLogIndex + 1)).toNat).length = _
      rw [List.length_take]
      rw [logIdx_eq] at hlt ⊢
      omega
    rw [Aligned.insertEntries_cut hf, foldl_pushEntry_size, hsize]
  · rw [Aligned.insertEntries_skip hf]

/-- The size is the same before the step down for the message and after it. -/
theorem stepDown_sizeWith (n : RaftNode) (m : AppendEntriesRPC) : (n.stepDown m).sizeWith m = n.sizeWith m := by
  obtain ⟨_, _, _, _, _, heq⟩ := n.stepDown_shape m
  rw [heq]
  rfl

/-- The log becomes shorter only where the first entry of the message is in conflict. -/
theorem le_sizeWith (hf : n.firstMatches m ≠ some false) : n.getLogSize ≤ n.sizeWith m := by
  unfold sizeWith
  rcases h : n.firstMatches m with _ | ⟨_ | _⟩
  · exact le_pushedSize _ _
  · exact absurd h hf
  · exact le_rfl

/-- The log begins at an index, not beyond what is applied. -/
def BaseApplied (n : RaftNode) : Prop := 0 ≤ n.baseIndex ∧ n.baseIndex ≤ n.lastApplied + 1

/-- A snapshot of what is applied leaves the end of the log where it is. -/
theorem createSnapshot_size (store : KVStore) (hb : n.BaseApplied) (hla : n.lastApplied < n.getLogSize) :
    (n.createSnapshot store).1.getLogSize = n.getLogSize ∧ (n.createSnapshot store).1.BaseApplied := by
  have hbase := hb.1
  have hle := hb.2
  rw [createSnapshot_of_lt store hle hla]
  refine ⟨?_, ?_, le_rfl⟩
  · show n.lastApplied + 1 + ((n.log.drop (n.lastApplied + 1 - n.baseIndex).toNat).length : ℤ) = n.getLogSize
    unfold getLogSize at hla ⊢
    rw [List.length_drop]
    omega
  · show 0 ≤ n.lastApplied + 1
    omega

/-- What is committed is in the log; at the start, index 0 is taken for committed in a log that is empty. -/
def CommitHeld (n : RaftNode) : Prop := n.commitIndex < n.getLogSize ∨ n.commitIndex = 0 ∧ n.getLogSize = 0

/-- A commit section leaves the end of the log where it is. -/
theorem commitSection_size (store : KVStore) {k : ℤ} (hb : n.BaseApplied) (hk : max n.lastApplied k < n.getLogSize) {r : Applying}
    (hr : (n.setCommitIndex k).applyCommitted store = r) :
    (r.node.snapshotAtThreshold r.store).1.getLogSize = n.getLogSize ∧ (r.node.snapshotAtThreshold r.store).1.BaseApplied := by
  have hnode : r.node = { n with commitIndex := k, lastApplied := max n.lastApplied k } := by
    rw [← hr, applyCommitted_node]
    rfl
  have hb' : r.node.BaseApplied := by
    rw [hnode]
    refine ⟨hb.1, hb.2.trans ?_⟩
    show n.lastApplied + 1 ≤ max n.lastApplied k + 1
    omega
  have hsize : r.node.getLogSize = n.getLogSize := by
    rw [hnode]
    rfl
  unfold snapshotAtThreshold
  split
  · have hla : r.node.lastApplied < r.node.getLogSize := by
      rw [hnode]
      exact hk
    obtain ⟨hs, hbase⟩ := createSnapshot_size r.store hb' hla
    exact ⟨hs.trans hsize, hbase⟩
  · exact ⟨hsize, hb'⟩

end RaftNode

/-! ## The commit index -/

/-- The term and the index that a client command has committed. -/
def Event.commitOf : Event → Option (ℤ × ℤ)
  | .committed t i _ => some (t, i)
  | _ => none

namespace Solo

/-- A client command commits while the node leads the term of its entry, and before every later command of that term. -/
def commitsInTurn (x : Solo) (i : Input) : Prop :=
  ∀ call ∈ x.site.committing i, x.site.node.leads call.entry.term ∧
    ∀ ev ∈ x.events, ∀ c ∈ ev.commitOf, c.1 = call.entry.term → c.2 ≤ call.newIndex

/-- A message is not from another leader of the term that the node leads, does not cut off what is committed unless it brings entries in its
place, and brings an entry where it advances the commit of an empty log. -/
def holdsCommitted (x : Solo) (i : Input) : Prop :=
  ∀ m ∈ i.appendEntries, x.site.node.accepts m → ¬x.site.node.leads m.term ∧
    (x.site.node.firstMatches m = some false → x.site.node.commitIndex < x.site.node.sizeWith m) ∧
    (x.site.node.getLogSize = 0 → x.site.node.commitIndex < m.leaderCommit → 0 < x.site.node.sizeWith m)

/-- A snapshot that is installed is not from another leader of the term that the node leads, and stands for its whole log. -/
def coversLog (x : Solo) (i : Input) : Prop :=
  ∀ m ∈ i.installSnapshot, x.site.node.currentTerm ≤ m.term → ∀ snap ∈ x.site.node.assembled m, snap.dumps = true →
    ¬x.site.node.leads m.term ∧ 0 ≤ snap.lastIncludedIndex ∧ x.site.node.getLogSize ≤ snap.lastIncludedIndex + 1

/-- Nothing that is committed is left behind. -/
def keepsCommit (x : Solo) (w : Occurrence) : Prop := commitsInTurn x w.input ∧ holdsCommitted x w.input ∧ coversLog x w.input

instance (x : Solo) (i : Input) : Decidable (commitsInTurn x i) :=
  inferInstanceAs (Decidable (∀ call ∈ x.site.committing i, x.site.node.leads call.entry.term ∧
    ∀ ev ∈ x.events, ∀ c ∈ ev.commitOf, c.1 = call.entry.term → c.2 ≤ call.newIndex))

instance (x : Solo) (i : Input) : Decidable (holdsCommitted x i) :=
  inferInstanceAs (Decidable (∀ m ∈ i.appendEntries, x.site.node.accepts m → ¬x.site.node.leads m.term ∧
    (x.site.node.firstMatches m = some false → x.site.node.commitIndex < x.site.node.sizeWith m) ∧
    (x.site.node.getLogSize = 0 → x.site.node.commitIndex < m.leaderCommit → 0 < x.site.node.sizeWith m)))

instance (x : Solo) (i : Input) : Decidable (coversLog x i) :=
  inferInstanceAs (Decidable (∀ m ∈ i.installSnapshot, x.site.node.currentTerm ≤ m.term → ∀ snap ∈ x.site.node.assembled m,
    snap.dumps = true →
    ¬x.site.node.leads m.term ∧ 0 ≤ snap.lastIncludedIndex ∧ x.site.node.getLogSize ≤ snap.lastIncludedIndex + 1))

instance (x : Solo) (w : Occurrence) : Decidable (keepsCommit x w) := instDecidableAnd

/-- What is committed is in the log, and a command of the term that the node leads is in the log as well, not below it unless a later
command has been committed. -/
structure Held (x : Solo) : Prop where
  sound : x.site.Sound
  base : x.site.node.BaseApplied
  applied : x.site.node.lastApplied ≤ x.site.node.commitIndex
  held : x.site.node.CommitHeld
  calls : ∀ call ∈ x.site.clients, call.entry.term = x.site.node.currentTerm → x.site.node.state = .leader ∧
    call.newIndex < x.site.node.getLogSize ∧ (x.site.node.commitIndex ≤ call.newIndex ∨
      ∃ j e, Event.committed call.entry.term j e ∈ x.events ∧ call.newIndex < j)

/-- The client commands after a step are those before it, each with its entry. -/
def CallsKept (s s' : Site) : Prop :=
  ∀ call ∈ s'.clients, ∃ call₀ ∈ s.clients, call.entry = call₀.entry ∧ call.newIndex = call₀.newIndex

theorem CallsKept.of_eq {s s' : Site} (h : s'.clients = s.clients) : CallsKept s s' := fun call hc => ⟨call, h ▸ hc, rfl, rfl⟩

theorem CallsKept.set {s s' : Site} {k : ℕ} {call call' : ClientCall} (h : s'.clients = s.clients.set k call')
    (hk : s.clients[k]? = some call) (he : call'.entry = call.entry) (hi : call'.newIndex = call.newIndex) : CallsKept s s' := by
  intro c hc
  rw [h] at hc
  rcases List.mem_or_eq_of_mem_set hc with hc | rfl
  · exact ⟨c, hc, rfl, rfl⟩
  · exact ⟨call, List.mem_of_getElem? hk, he, hi⟩

/-- A node that leads, and is in the same term afterwards, leads afterwards. -/
def LeadsOn (n n' : RaftNode) : Prop := n'.currentTerm = n.currentTerm → n.state = .leader → n'.state = .leader

theorem LeadsOn.of_role {n n' : RaftNode} (h : n'.role = n.role) : LeadsOn n n' := fun _ hl => (congrArg Role.state h).trans hl

theorem LeadsOn.of_lt {n n' : RaftNode} (h : n.currentTerm < n'.currentTerm) : LeadsOn n n' := fun he => absurd he h.ne'

theorem LeadsOn.seeTerm (n : RaftNode) (t : ℤ) : LeadsOn n (n.seeTerm t) := by
  intro he hl
  unfold RaftNode.seeTerm RaftNode.becomeFollower at he ⊢
  split_ifs at he ⊢ with ht hs
  · exact hl
  · exact absurd he.symm ht.ne
  · exact hl

theorem LeadsOn.stepDown (n : RaftNode) (m : AppendEntriesRPC) : LeadsOn n (n.stepDown m) := by
  intro he hl
  unfold RaftNode.stepDown RaftNode.becomeFollower at he ⊢
  split_ifs at he ⊢ with ht hs
  · exact hl
  · rcases ht with ht | ht
    · exact absurd he.symm ht.ne
    · rw [hl] at ht
      cases ht
  · exact hl

variable {size : ℕ} {x y : Solo}

/-- What a step keeps that commits nothing and does not make the log shorter. -/
theorem Held.keep (h : x.Held) {site : Site} {store : KVStore} {evs : List Event} (hsound : site.Sound)
    (hsize : x.site.node.getLogSize ≤ site.node.getLogSize) (hbase : site.node.BaseApplied)
    (hp : site.node.progress = x.site.node.progress) (hterm : x.site.node.currentTerm ≤ site.node.currentTerm)
    (hl : LeadsOn x.site.node site.node) (hc : CallsKept x.site site) :
    Held { site := site, store := store, events := x.events ++ evs } ∧ x.site.node.commitIndex ≤ site.node.commitIndex ∧
      x.site.node.lastApplied ≤ site.node.lastApplied := by
  have hci : site.node.commitIndex = x.site.node.commitIndex := congrArg Progress.commitIndex hp
  have hla : site.node.lastApplied = x.site.node.lastApplied := congrArg Progress.lastApplied hp
  refine ⟨⟨hsound, hbase, ?_, ?_, ?_⟩, hci.ge, hla.ge⟩
  · have := h.applied
    show site.node.lastApplied ≤ site.node.commitIndex
    omega
  · show site.node.commitIndex < site.node.getLogSize ∨ site.node.commitIndex = 0 ∧ site.node.getLogSize = 0
    rcases h.held with hh | ⟨hc0, hs0⟩ <;> omega
  · intro call hcall ht
    obtain ⟨call₀, hcall₀, he, hi⟩ := hc call hcall
    have hle : call.entry.term ≤ x.site.node.currentTerm := by
      rw [he]
      exact (h.sound.client call₀ hcall₀).1
    have ht' : call.entry.term = site.node.currentTerm := ht
    have heq : site.node.currentTerm = x.site.node.currentTerm := by omega
    obtain ⟨hlead, hlt, hor⟩ := h.calls call₀ hcall₀ (by rw [← he]; omega)
    refine ⟨hl heq hlead, ?_, ?_⟩
    · show call.newIndex < site.node.getLogSize
      omega
    · show site.node.commitIndex ≤ call.newIndex ∨ _
      rcases hor with hor | ⟨j, e, hev, hj⟩
      · exact Or.inl (by omega)
      · exact Or.inr ⟨j, e, List.mem_append_left _ (he ▸ hev), by omega⟩

/-- What a step keeps after which no client command is of the term of the node. -/
theorem Held.anew (h : x.Held) {site : Site} {store : KVStore} {evs : List Event} (hsound : site.Sound) (hbase : site.node.BaseApplied)
    (happlied : site.node.lastApplied ≤ site.node.commitIndex) (hheld : site.node.CommitHeld)
    (hc : ∀ call ∈ site.clients, ∃ call₀ ∈ x.site.clients, call.entry = call₀.entry)
    (hterm : x.site.node.currentTerm ≤ site.node.currentTerm) (hno : ¬x.site.node.leads site.node.currentTerm) :
    Held { site := site, store := store, events := x.events ++ evs } := by
  refine ⟨hsound, hbase, happlied, hheld, fun call hcall ht => ?_⟩
  obtain ⟨call₀, hcall₀, he⟩ := hc call hcall
  have hle := (h.sound.client call₀ hcall₀).1
  have ht' : call.entry.term = site.node.currentTerm := ht
  rw [he] at ht'
  have heq : x.site.node.currentTerm = site.node.currentTerm := le_antisymm hterm (ht'.symm.trans_le hle)
  exact absurd ⟨(h.calls call₀ hcall₀ (ht'.trans heq.symm)).1, heq⟩ hno

end Solo

namespace RaftNode

variable {n : RaftNode} {m : AppendEntriesRPC}

/-- The entries of a message change neither the snapshot nor the indices nor the role. -/
theorem acceptEntries_frame (n : RaftNode) (m : AppendEntriesRPC) : ((n.stepDown m).acceptEntries m).baseIndex = n.baseIndex ∧
    ((n.stepDown m).acceptEntries m).progress = n.progress ∧ ((n.stepDown m).acceptEntries m).role = (n.stepDown m).role := by
  obtain ⟨_, heq⟩ := (n.stepDown m).acceptEntries_eq m
  obtain ⟨_, _, _, _, _, hd⟩ := n.stepDown_shape m
  rw [heq, hd]
  exact ⟨rfl, rfl, rfl⟩

/-- A message that passes the check and does not cut off what is committed leaves a log that reaches beyond it, unless both are at the start
and the message commits nothing. -/
theorem acceptEntries_reach (hheld : n.CommitHeld) (hprev : n.prevMatches m = true)
    (hcut : n.firstMatches m = some false → n.commitIndex < n.sizeWith m)
    (hempty : n.getLogSize = 0 → n.commitIndex < m.leaderCommit → 0 < n.sizeWith m) :
    n.commitIndex < ((n.stepDown m).acceptEntries m).getLogSize ∨
      n.commitIndex = 0 ∧ ((n.stepDown m).acceptEntries m).getLogSize = 0 ∧ ¬n.commitIndex < m.leaderCommit := by
  rw [acceptEntries_size ((n.stepDown_checks m).1.trans hprev), stepDown_sizeWith]
  by_cases hf : n.firstMatches m = some false
  · exact Or.inl (hcut hf)
  · have hle := le_sizeWith hf
    rcases hheld with hlt | ⟨h0, hs⟩
    · exact Or.inl (by omega)
    · by_cases hlc : n.commitIndex < m.leaderCommit
      · exact Or.inl (by have := hempty hs hlc; omega)
      · omega

/-- The commit section of the handler, on a log that reaches beyond what is committed. -/
theorem commitSection_held {store : KVStore} {k : ℤ} {r : Applying} (hr : (n.setCommitIndex k).applyCommitted store = r)
    (hb : n.BaseApplied) (hla : n.lastApplied ≤ n.commitIndex) (hk : n.commitIndex ≤ k) (hlt : k < n.getLogSize) {n' : RaftNode}
    (hn : (r.node.snapshotAtThreshold r.store).1 = n') : n'.BaseApplied ∧ n'.role = n.role ∧ n'.lastApplied ≤ n'.commitIndex ∧
      n'.CommitHeld ∧ n.commitIndex ≤ n'.commitIndex ∧ n.lastApplied ≤ n'.lastApplied := by
  obtain ⟨hs, hbs⟩ := commitSection_size store hb (by omega) hr
  have hp : n'.progress = { commitIndex := k, lastApplied := max n.lastApplied k } := by
    rw [← hn, snapshotAtThreshold_progress, ← hr, applyCommitted_progress]
  have hci : n'.commitIndex = k := congrArg Progress.commitIndex hp
  have hla' : n'.lastApplied = max n.lastApplied k := congrArg Progress.lastApplied hp
  have hrole : n'.role = n.role := by
    rw [← hn, snapshotAtThreshold_role, ← hr, applyCommitted_node]
    rfl
  rw [hn] at hs hbs
  exact ⟨hbs, hrole, by omega, Or.inl (by omega), by omega, by omega⟩

/-- What an AppendEntries message does that does not cut off what is committed: it leaves the log and the commit index as they are, or is
taken over, and leaves what is committed in the log. -/
theorem handleAppendEntries_held (store : KVStore) (hb : n.BaseApplied) (hla : n.lastApplied ≤ n.commitIndex) (hheld : n.CommitHeld)
    (hcut : n.accepts m → n.firstMatches m = some false → n.commitIndex < n.sizeWith m)
    (hempty : n.accepts m → n.getLogSize = 0 → n.commitIndex < m.leaderCommit → 0 < n.sizeWith m) {n' : RaftNode}
    (hn : (n.handleAppendEntries store m).node = n') : n'.BaseApplied ∧
      (n'.getLogSize = n.getLogSize ∧ n'.progress = n.progress ∨
        n.accepts m ∧ n'.role = (n.stepDown m).role ∧ n'.lastApplied ≤ n'.commitIndex ∧ n'.CommitHeld ∧
          n.commitIndex ≤ n'.commitIndex ∧ n.lastApplied ≤ n'.lastApplied) := by
  obtain ⟨a, ha⟩ : ∃ a, a = (n.stepDown m).acceptEntries m := ⟨_, rfl⟩
  obtain ⟨hbase, hprogress, hrole⟩ := n.acceptEntries_frame m
  rw [← ha] at hbase hprogress hrole
  have hci : a.commitIndex = n.commitIndex := congrArg Progress.commitIndex hprogress
  have hla' : a.lastApplied = n.lastApplied := congrArg Progress.lastApplied hprogress
  have hba : a.BaseApplied := by
    unfold BaseApplied at hb ⊢
    omega
  unfold handleAppendEntries at hn
  simp only [← ha] at hn
  split at hn
  · subst hn
    exact ⟨hb, Or.inl ⟨rfl, rfl⟩⟩
  split at hn
  · subst hn
    exact ⟨hb, Or.inl ⟨rfl, rfl⟩⟩
  next hterm =>
  by_cases hprev : n.prevMatches m = true
  · have hacc : n.accepts m := ⟨not_lt.mp hterm, hprev⟩
    have hreach := acceptEntries_reach hheld hprev (hcut hacc) (hempty hacc)
    rw [← ha] at hreach
    split at hn
    · next hadvance =>
      have hlc := hadvance.2
      have hlt : n.commitIndex < a.getLogSize := by
        rcases hreach with hlt | ⟨_, _, hno⟩
        · exact hlt
        · exact absurd (hci ▸ hlc) hno
      obtain ⟨hb', hrole', hle, hheld', hci', hla''⟩ := commitSection_held rfl hba (by omega) (by omega) (by omega) hn
      exact ⟨hb', Or.inr ⟨hacc, hrole'.trans hrole, hle, hheld', by omega, by omega⟩⟩
    · obtain rfl : a = n' := hn
      refine ⟨hba, Or.inr ⟨hacc, hrole, by omega, ?_, hci.ge, hla'.ge⟩⟩
      unfold CommitHeld
      omega
  · have hsize : a.getLogSize = n.getLogSize := by
      have hnone : ¬(n.stepDown m).prevMatches m = true := by rwa [(n.stepDown_checks m).1]
      obtain ⟨_, _, _, _, _, hd⟩ := n.stepDown_shape m
      rw [ha]
      unfold acceptEntries
      rw [if_neg hnone, hd]
      rfl
    rw [if_neg (by rw [(n.stepDown_checks m).1]; exact fun hc => hprev hc.1)] at hn
    subst hn
    exact ⟨hba, Or.inl ⟨hsize, hprogress⟩⟩

end RaftNode

namespace Solo

variable {size : ℕ} {x y : Solo}

/-- The commit of a command in its turn: the log reaches beyond it, and every later command lies above it. -/
theorem Held.commit (h : x.Held) {k : ℕ} {call : ClientCall} (hk : x.site.clients[k]? = some call)
    (hturn : x.site.node.leads call.entry.term ∧
      ∀ ev ∈ x.events, ∀ c ∈ ev.commitOf, c.1 = call.entry.term → c.2 ≤ call.newIndex)
    (store : KVStore) {site : Site} (hsound : site.Sound) (hnode : site.node = (Site.commit x.site.node store call).1)
    (hc : CallsKept x.site site) :
    Held { site := site, store := (Site.commit x.site.node store call).2.1,
           events := x.events ++ (Site.commit x.site.node store call).2.2.2 } ∧
      x.site.node.commitIndex ≤ site.node.commitIndex ∧ x.site.node.lastApplied ≤ site.node.lastApplied := by
  obtain ⟨hleads, hlast⟩ := hturn
  obtain ⟨hstate, hlt, hor⟩ := h.calls call (List.mem_of_getElem? hk) hleads.2.symm
  have hci : x.site.node.commitIndex ≤ call.newIndex := by
    rcases hor with hle | ⟨j, e, hev, hj⟩
    · exact hle
    · have := hlast _ hev (call.entry.term, j) rfl rfl
      simp only at this
      omega
  have happlied := h.applied
  obtain ⟨r, hr⟩ : ∃ r, Site.applyWhileUp (x.site.node.setCommitIndex call.newIndex) store = r := ⟨_, rfl⟩
  have hr' : (x.site.node.setCommitIndex call.newIndex).applyCommitted store = r := by
    have hset : (x.site.node.setCommitIndex call.newIndex).Sound := h.sound.node.congr rfl rfl rfl rfl
    rw [← hr, hset.applyWhileUp_eq]
  obtain ⟨hsize, hbase⟩ := RaftNode.commitSection_size store h.base (by omega) hr'
  obtain ⟨last, cache, disk, hshape⟩ := Site.commit_shape x.site.node store call hr
  have hp := (Site.commit_progress h.sound.node store call).1
  rw [← hnode] at hp hshape
  have hci' : site.node.commitIndex = call.newIndex := congrArg Progress.commitIndex hp
  have hla' : site.node.lastApplied = max x.site.node.lastApplied call.newIndex := congrArg Progress.lastApplied hp
  have hsize' : site.node.getLogSize = x.site.node.getLogSize := by
    rw [hshape, ← hsize]
    rfl
  have hbase' : site.node.BaseApplied := by
    rw [hshape]
    exact hbase
  have hrole : site.node.role = x.site.node.role := by
    rw [hnode]
    exact Site.commit_role x.site.node store call
  have hterm : site.node.currentTerm = x.site.node.currentTerm := congrArg Role.currentTerm hrole
  refine ⟨⟨hsound, hbase', ?_, Or.inl ?_, fun c hcall ht => ?_⟩, by omega, by omega⟩
  · show site.node.lastApplied ≤ site.node.commitIndex
    omega
  · show site.node.commitIndex < site.node.getLogSize
    omega
  · obtain ⟨c₀, hc₀, he, hi⟩ := hc c hcall
    have ht' : c.entry.term = site.node.currentTerm := ht
    obtain ⟨hl, hltc, _⟩ := h.calls c₀ hc₀ (by rw [← he]; omega)
    refine ⟨(congrArg Role.state hrole).trans hl, ?_, ?_⟩
    · show c.newIndex < site.node.getLogSize
      omega
    · show site.node.commitIndex ≤ c.newIndex ∨ _
      by_cases hle : call.newIndex ≤ c.newIndex
      · exact Or.inl (by omega)
      · refine Or.inr ⟨call.newIndex, x.site.node.globalEntry call.newIndex, List.mem_append_right _ ?_, by omega⟩
        have hct : c.entry.term = x.site.node.currentTerm := by omega
        rw [hct]
        exact List.mem_append_left _ List.mem_cons_self

/-- A client command appends its entry above all that is committed. -/
theorem Held.append (h : x.Held) {req : ClientRequest} (hl : x.site.node.state = .leader) {store : KVStore} {evs : List Event}
    (hsound : (x.site.appendEntry req).Sound) :
    Held { site := x.site.appendEntry req, store := store, events := x.events ++ evs } ∧
      x.site.node.commitIndex ≤ (x.site.appendEntry req).node.commitIndex ∧
      x.site.node.lastApplied ≤ (x.site.appendEntry req).node.lastApplied := by
  obtain ⟨hheld, happlied⟩ := And.intro h.held h.applied
  have hsize : (x.site.appendEntry req).node.getLogSize = x.site.node.getLogSize + 1 := by
    show x.site.node.baseIndex + ((x.site.node.log ++ [_]).length : ℤ) = x.site.node.baseIndex + x.site.node.log.length + 1
    simp only [List.length_append, List.length_singleton]
    omega
  have hle : x.site.node.commitIndex ≤ x.site.node.getLogSize := by
    rcases hheld with hlt | ⟨h0, hs0⟩ <;> omega
  refine ⟨⟨hsound, h.base, happlied, Or.inl ?_, fun call hcall ht => ?_⟩, le_rfl, le_rfl⟩
  · show x.site.node.commitIndex < (x.site.appendEntry req).node.getLogSize
    omega
  · rcases List.mem_append.mp hcall with hcall | hcall
    · obtain ⟨hstate, hlt, hor⟩ := h.calls call hcall ht
      refine ⟨hstate, ?_, ?_⟩
      · show call.newIndex < (x.site.appendEntry req).node.getLogSize
        omega
      · exact hor.imp id fun ⟨j, e, hev, hj⟩ => ⟨j, e, List.mem_append_left _ hev, hj⟩
    · obtain rfl := List.mem_singleton.mp hcall
      refine ⟨hl, ?_, Or.inl hle⟩
      show x.site.node.getLogSize < (x.site.appendEntry req).node.getLogSize
      omega

/-- A RequestVote message leaves the log and both indices as they are. -/
theorem Held.requestVote (h : x.Held) {m : RequestVoteRPC} {store store' : KVStore} {evs : List Event}
    (hsound : Site.Sound { x.site with node := (x.site.node.handleRequestVote store m).node }) :
    Held { site := { x.site with node := (x.site.node.handleRequestVote store m).node }, store := store', events := x.events ++ evs } ∧
      x.site.node.commitIndex ≤ (x.site.node.handleRequestVote store m).node.commitIndex ∧
      x.site.node.lastApplied ≤ (x.site.node.handleRequestVote store m).node.lastApplied := by
  have hp := (x.site.node.handleRequestVote_progress store m).1
  obtain ⟨term, state, vote, b, d, hshape⟩ := x.site.node.seeTerm_shape m.term
  have hlater := h.sound.node.seeTerm_later m.term
  have hnode : (x.site.node.handleRequestVote store m).node = x.site.node ∨
      ∃ v d, (x.site.node.handleRequestVote store m).node = { x.site.node.seeTerm m.term with votedFor := v, disk := d } := by
    unfold RaftNode.handleRequestVote
    simp only
    split
    · exact Or.inl rfl
    · split
      · exact Or.inr ⟨_, _, rfl⟩
      · exact Or.inr ⟨_, _, rfl⟩
  rcases hnode with heq | ⟨v, d', heq⟩
  · refine h.keep hsound ?_ ?_ hp ?_ ?_ (.of_eq rfl) <;> simp only [heq]
    · exact le_rfl
    · exact h.base
    · exact le_rfl
    · exact .of_role rfl
  · refine h.keep hsound ?_ ?_ hp ?_ ?_ (.of_eq rfl) <;> simp only [heq]
    · rw [hshape]
      exact le_rfl
    · rw [hshape]
      exact h.base
    · exact hlater.term
    · exact LeadsOn.seeTerm _ _

/-- What an AppendEntries message leaves that does not cut off what is committed. -/
theorem Held.appendEntries (h : x.Held) {m : AppendEntriesRPC} (hk : holdsCommitted x (.receive (.appendEntries m)))
    {store store' : KVStore} {evs : List Event}
    (hsound : Site.Sound { x.site with node := (x.site.node.handleAppendEntries store m).node }) :
    Held { site := { x.site with node := (x.site.node.handleAppendEntries store m).node }, store := store', events := x.events ++ evs } ∧
      x.site.node.commitIndex ≤ (x.site.node.handleAppendEntries store m).node.commitIndex ∧
      x.site.node.lastApplied ≤ (x.site.node.handleAppendEntries store m).node.lastApplied := by
  have hm := hk m rfl
  obtain ⟨hbase, hor⟩ := RaftNode.handleAppendEntries_held (n := x.site.node) store h.base h.applied h.held (fun ha => (hm ha).2.1)
    (fun ha => (hm ha).2.2) rfl
  have hlater := (h.sound.node.handle (show x.site.node.handle store (.appendEntries m) = some _ from rfl)).2
  have hrole : (x.site.node.handleAppendEntries store m).node = x.site.node ∨ x.site.node.currentTerm ≤ m.term ∧
      (x.site.node.handleAppendEntries store m).node.role = (x.site.node.stepDown m).role := by
    obtain ⟨_, hacc⟩ := (x.site.node.stepDown m).acceptEntries_eq m
    rcases x.site.node.handleAppendEntries_node store m with heq | ⟨ht, heq | heq⟩
    · exact Or.inl heq
    · exact Or.inr ⟨ht, by rw [heq, hacc]; rfl⟩
    · refine Or.inr ⟨ht, ?_⟩
      rw [heq]
      show (RaftNode.snapshotAtThreshold _ _).1.role = _
      rw [RaftNode.snapshotAtThreshold_role, RaftNode.applyCommitted_node, hacc]
      rfl
  rcases hor with ⟨hsize, hp⟩ | ⟨hacc, heq, happlied, hheld, hci, hla⟩
  · refine h.keep hsound hsize.ge hbase hp hlater.term ?_ (.of_eq rfl)
    rcases hrole with heq | ⟨_, heq⟩
    · exact .of_role (congrArg RaftNode.role heq)
    · intro he hl
      have hstate : _ = (x.site.node.stepDown m).state := congrArg Role.state heq
      exact hstate.trans (LeadsOn.stepDown _ m ((congrArg Role.currentTerm heq).symm.trans he) hl)
  · refine ⟨h.anew hsound hbase happlied hheld (fun call hc => ⟨call, hc, rfl⟩) hlater.term ?_, hci, hla⟩
    have hterm : (x.site.node.handleAppendEntries store m).node.currentTerm = (x.site.node.stepDown m).currentTerm :=
      congrArg Role.currentTerm heq
    show ¬x.site.node.leads (x.site.node.handleAppendEntries store m).node.currentTerm
    rw [hterm, (h.sound.node.stepDown_role hacc.1).1]
    exact (hm hacc).1

/-- What an installed snapshot leaves that stands for the whole log. -/
theorem Held.installSnapshot (h : x.Held) {m : InstallSnapshotRPC} (hk : coversLog x (.receive (.installSnapshot m)))
    {store store' : KVStore} {r : Handled} (hr : x.site.node.handleInstallSnapshot store m = some r) {evs : List Event}
    (hsound : Site.Sound { x.site with node := r.node }) :
    Held { site := { x.site with node := r.node }, store := store', events := x.events ++ evs } ∧
      x.site.node.commitIndex ≤ r.node.commitIndex ∧ x.site.node.lastApplied ≤ r.node.lastApplied := by
  have hsee := x.site.node.seeTerm_progress m.term
  have hkeep {n : RaftNode} (hn : n.role = (x.site.node.seeTerm m.term).role) (hlog : n.getLogSize = x.site.node.getLogSize)
      (hbase : n.baseIndex = x.site.node.baseIndex) (hp : n.progress = x.site.node.progress)
      (hsound : Site.Sound { x.site with node := n }) :
      Held { site := { x.site with node := n }, store := store', events := x.events ++ evs } ∧
        x.site.node.commitIndex ≤ n.commitIndex ∧ x.site.node.lastApplied ≤ n.lastApplied := by
    have hla : n.lastApplied = x.site.node.lastApplied := congrArg Progress.lastApplied hp
    have hb := h.base
    refine h.keep hsound hlog.ge ?_ hp ?_ ?_ (.of_eq rfl)
    · show 0 ≤ n.baseIndex ∧ n.baseIndex ≤ n.lastApplied + 1
      rw [hbase, hla]
      exact hb
    · exact (h.sound.node.seeTerm_later m.term).term.trans_eq (congrArg Role.currentTerm hn).symm
    · intro he hl
      have hstate : n.state = (x.site.node.seeTerm m.term).state := congrArg Role.state hn
      exact hstate.trans (LeadsOn.seeTerm _ _ ((congrArg Role.currentTerm hn).symm.trans he) hl)
  obtain ⟨term, state, vote, b, d, hshape⟩ := x.site.node.seeTerm_shape m.term
  rcases RaftNode.handleInstallSnapshot_node hr with heq | ⟨ht, buffer, heq | heq | ⟨hd, snap, hsnap, hdumps, hw, heq⟩⟩
  · obtain ⟨rn, rstore, reply, revs⟩ := r
    obtain rfl : rn = x.site.node := heq
    exact h.keep hsound le_rfl h.base rfl le_rfl (.of_role rfl) (.of_eq rfl)
  · refine hkeep (by rw [heq]; rfl) ?_ ?_ (by rw [heq]; exact hsee) hsound
    · rw [heq, hshape]
      rfl
    · rw [heq, hshape]
      rfl
  · refine hkeep (by rw [heq]; rfl) ?_ ?_ (by rw [heq]; exact hsee) hsound
    · rw [heq, hshape]
      rfl
    · rw [heq, hshape]
      rfl
  · obtain ⟨hno, h0, hcover⟩ := hk m rfl ht snap (RaftNode.assembled_eq hd hsnap hw) hdumps
    have hci : r.node.commitIndex = snap.lastIncludedIndex := by rw [heq]; rfl
    have hla : r.node.lastApplied = snap.lastIncludedIndex := by rw [heq]; rfl
    have hbase : r.node.baseIndex = snap.lastIncludedIndex + 1 := by rw [heq]; rfl
    have hsize : r.node.getLogSize = snap.lastIncludedIndex + 1 := by
      rw [RaftNode.getLogSize, hbase, heq]
      show snap.lastIncludedIndex + 1 + ((0 : ℕ) : ℤ) = _
      omega
    have hterm : r.node.currentTerm = m.term := by
      rw [heq]
      exact h.sound.node.seeTerm_term ht
    have happlied := h.applied
    have hheld := h.held
    unfold RaftNode.CommitHeld at hheld
    refine ⟨h.anew hsound ?_ ?_ ?_ (fun call hc => ⟨call, hc, rfl⟩) ?_ ?_, by omega, by omega⟩
    · show 0 ≤ r.node.baseIndex ∧ r.node.baseIndex ≤ r.node.lastApplied + 1
      omega
    · show r.node.lastApplied ≤ r.node.commitIndex
      omega
    · exact Or.inl (by show r.node.commitIndex < r.node.getLogSize; omega)
    · show x.site.node.currentTerm ≤ r.node.currentTerm
      omega
    · show ¬x.site.node.leads r.node.currentTerm
      rwa [hterm]

/-- Every step that is no restart, and leaves nothing behind that is committed, keeps it in the log, and moves neither index back. -/
theorem Held.step {w : Occurrence} (h : x.Held) (hk : x.keepsCommit w) (hnr : w.input ≠ .restart) (hs : x.step size w = some y) :
    y.Held ∧ x.site.node.commitIndex ≤ y.site.node.commitIndex ∧ x.site.node.lastApplied ≤ y.site.node.lastApplied := by
  obtain ⟨o, ho, hsound, rfl⟩ := step_inv h.sound hs
  obtain ⟨hturn, hkept, hcover⟩ := hk
  generalize w.input = i at ho hturn hkept hcover hnr
  generalize w.store.getD x.store = store at ho
  -- what a step leaves that changes nothing of the node but what is sent to the peers and the files
  have hsame {site : Site} {store' : KVStore} {evs : List Event} (hsound : site.Sound)
      (hn : ∃ b next matched d, site.node = { x.site.node with
        runningHeartbeats := b, nextIndex := next, matchIndex := matched, disk := d }) (hc : CallsKept x.site site) :
      Held { site := site, store := store', events := x.events ++ evs } ∧ x.site.node.commitIndex ≤ site.node.commitIndex ∧
        x.site.node.lastApplied ≤ site.node.lastApplied := by
    obtain ⟨b, next, matched, d, heq⟩ := hn
    refine h.keep hsound ?_ ?_ ?_ ?_ ?_ hc <;> rw [heq]
    · exact le_rfl
    · exact h.base
    · rfl
    · exact fun _ hl => hl
  -- what a step leaves that takes a later term from a reply
  have hfollow {site : Site} {store' : KVStore} {evs : List Event} {term : ℤ} (ht : x.site.node.currentTerm < term) (hsound : site.Sound)
      (hn : ∃ b d, site.node = { x.site.node with
        runningHeartbeats := b, currentTerm := term, state := .follower, votedFor := -1, disk := d }) (hc : CallsKept x.site site) :
      Held { site := site, store := store', events := x.events ++ evs } ∧ x.site.node.commitIndex ≤ site.node.commitIndex ∧
        x.site.node.lastApplied ≤ site.node.lastApplied := by
    obtain ⟨b, d, heq⟩ := hn
    refine h.keep hsound ?_ ?_ ?_ ?_ ?_ hc <;> rw [heq]
    · exact le_rfl
    · exact h.base
    · rfl
    · exact ht.le
    · exact .of_lt ht
  cases ho with
  | startElection he hl =>
    refine h.keep hsound le_rfl h.base rfl (Int.le_add_one le_rfl) (.of_lt ?_) (.of_eq rfl)
    exact Int.lt_add_one_iff.mpr le_rfl
  | join el he hp hh => exact hsame hsound ⟨_, _, _, _, rfl⟩ (.of_eq rfl)
  | win el he hp hr hv =>
    obtain ⟨run, disk, heq⟩ := x.site.elected_node el
    refine h.keep hsound ?_ ?_ ?_ ?_ ?_ (.of_eq (x.site.elected_clients el)) <;> rw [heq]
    · exact le_rfl
    · exact h.base
    · rfl
    · exact le_rfl
    · exact fun _ _ => rfl
  | voteLater el call r term g he hp hr ht => exact hfollow ht hsound ⟨_, _, rfl⟩ (.of_eq rfl)
  | heartbeatLater hb i nextIdx count call r term success hh hp hr ht => exact hfollow ht hsound ⟨_, _, rfl⟩ (.of_eq rfl)
  | heartbeatReply hb i nextIdx count call r term success hh hp hr ht =>
    obtain ⟨next, matched, heq⟩ := Site.heartbeatAnswered_shape x.site.node i nextIdx count success
    exact hsame hsound ⟨_, _, _, _, heq⟩ (.of_eq rfl)
  | heartbeatChunkReply hb i t call r hh hp phase hph =>
    obtain ⟨next, matched, heq⟩ := t.reply_shape x.site.node i r
    exact hsame hsound ⟨_, _, _, _, heq⟩ (.of_eq rfl)
  | append req hl hc => exact h.append hl hsound
  | send k call p hk hp hi => exact hsame hsound ⟨_, _, _, _, rfl⟩ (.set rfl hk rfl rfl)
  | commit k call hk hp hi hm =>
    have hcommitting : call ∈ x.site.committing (.step (.client k)) := by
      simpa [Site.committing, Input.clientStep, hk, hp, hm] using List.getElem?_eq_none_iff.mp hi
    exact h.commit hk (hturn call hcommitting) store hsound rfl (.set rfl hk rfl rfl)
  | notCommitted k call hk hp hi hm => exact hsame hsound ⟨_, _, _, _, rfl⟩ (.set rfl hk rfl rfl)
  | sendChunk k call t p hk hp hi => exact hsame hsound ⟨_, _, _, _, rfl⟩ (.set rfl hk rfl rfl)
  | lost k call id r hk hp hr => exact hsame hsound ⟨_, _, _, _, rfl⟩ (.set rfl hk rfl rfl)
  | later k call id r term success hk hp hr ht => exact hfollow ht hsound ⟨_, _, rfl⟩ (.set rfl hk rfl rfl)
  | success k call id r term hk hp hr ht => exact hsame hsound ⟨_, _, _, _, rfl⟩ (.set rfl hk rfl rfl)
  | failure k call id r term hk hp hr ht call' hc =>
    obtain ⟨next, heq⟩ := x.site.node.retreat_shape call.i
    refine hsame hsound ⟨_, _, _, _, heq⟩ (.set rfl hk ?_ ?_) <;> rw [hc] <;> split <;> rfl
  | chunkReply k call t id r hk hp call' hc =>
    obtain ⟨next, matched, heq⟩ := t.reply_shape x.site.node call.i r
    refine hsame hsound ⟨_, _, _, _, heq⟩ (.set rfl hk ?_ ?_) <;> rw [hc] <;> split <;> rfl
  | receive req r hr =>
    cases req with
    | requestVote m =>
      obtain rfl := Option.some.inj hr
      exact h.requestVote hsound
    | appendEntries m =>
      obtain rfl := Option.some.inj hr
      exact h.appendEntries hkept hsound
    | installSnapshot m => exact h.installSnapshot hcover hr hsound
  | snapshotNow hl =>
    have hlt : x.site.node.lastApplied < x.site.node.getLogSize := by
      have happlied := h.applied
      rcases h.held with hlt | ⟨h0, hs0⟩
      · omega
      · have hpos := List.length_pos_of_ne_nil hl
        have hbase := h.base.1
        unfold RaftNode.getLogSize at hs0
        omega
    obtain ⟨hs, hb⟩ := RaftNode.createSnapshot_size store h.base hlt
    have hp := x.site.node.createSnapshot_progress store
    have hrole := x.site.node.createSnapshot_role store
    exact h.keep hsound hs.ge hb hp (congrArg Role.currentTerm hrole).ge (.of_role hrole) (.of_eq rfl)
  | restart n store' hr => exact absurd rfl hnr
  | _ => exact hsame hsound ⟨_, _, _, _, rfl⟩ (.of_eq rfl)

/-- A restart leaves no client commands, and commits what the snapshot stands for. -/
theorem Held.restart {w : Occurrence} (h : x.Held) (hi : w.input = .restart) (hs : x.step size w = some y) : y.Held := by
  obtain ⟨o, ho, hsound, rfl⟩ := step_inv h.sound hs
  rw [hi] at ho
  cases ho with
  | restart n store' hr =>
    obtain ⟨_, rfl⟩ := h.sound.node.restart_eq hr
    have hbase := h.base.1
    have hlast : x.site.node.latestSnapshot = none ∧ x.site.node.lastIncluded = 0 ∧ x.site.node.baseIndex = 0 ∨
        x.site.node.baseIndex = x.site.node.lastIncluded + 1 := by
      unfold RaftNode.lastIncluded RaftNode.baseIndex
      cases x.site.node.latestSnapshot with
      | none => exact Or.inl ⟨rfl, rfl, rfl⟩
      | some s => exact Or.inr rfl
    refine ⟨hsound, ⟨hbase, ?_⟩, le_rfl, ?_, fun call hc => absurd hc List.not_mem_nil⟩
    · show x.site.node.baseIndex ≤ x.site.node.lastIncluded + 1
      omega
    · show x.site.node.lastIncluded < x.site.node.baseIndex + (x.site.node.saved.logEntries.length : ℤ) ∨
        x.site.node.lastIncluded = 0 ∧ x.site.node.baseIndex + (x.site.node.saved.logEntries.length : ℤ) = 0
      omega

theorem held_create (nodeId port : ℤ) (peers : List ℤ) : (Solo.create nodeId port peers).Held where
  sound := Site.sound_create _ _ _
  base := ⟨le_rfl, Int.le_add_one le_rfl⟩
  applied := le_rfl
  held := Or.inr ⟨rfl, rfl⟩
  calls _ h := absurd h List.not_mem_nil

/-- `commitIndex` and `lastApplied` never decrease between two restarts, and what is applied is committed, in every run in which nothing
that is committed is left behind. -/
theorem commit_monotone {nodeId port : ℤ} {peers : List ℤ}
    (h : Systems.Run (step size) (fun x w => w.input = .restart ∨ x.keepsCommit w) (Solo.create nodeId port peers) x)
    (hy : Systems.Run (step size) (fun x w => w.input ≠ .restart ∧ x.keepsCommit w) x y) :
    x.site.node.commitIndex ≤ y.site.node.commitIndex ∧ x.site.node.lastApplied ≤ y.site.node.lastApplied ∧
      y.site.node.lastApplied ≤ y.site.node.commitIndex := by
  have hheld : x.Held := by
    refine h.invariant (I := Held) (fun x w y hx hk hs => ?_) (held_create nodeId port peers)
    by_cases hi : w.input = .restart
    · exact hx.restart hi hs
    · exact (hx.step (hk.resolve_left hi) hi hs).1
  have hrun : y.Held ∧ x.site.node.commitIndex ≤ y.site.node.commitIndex ∧ x.site.node.lastApplied ≤ y.site.node.lastApplied := by
    induction hy with
    | refl => exact ⟨hheld, le_rfl, le_rfl⟩
    | tail _ hk hs ih =>
      obtain ⟨hy, hci, hla⟩ := ih
      obtain ⟨hz, hci', hla'⟩ := hy.step hk.2 hk.1 hs
      exact ⟨hz, hci.trans hci', hla.trans hla'⟩
  exact ⟨hrun.2.1, hrun.2.2, hrun.1.applied⟩

/-- Node 0 commits two commands one after the other. -/
def inOrder : List Input :=
  isElected ++ [.clientRequest (putRequest 1 "a")] ++ replicates 0 ++ [.clientRequest (putRequest 2 "b")] ++ replicates 1

theorem inOrder_commitIndex : ∃ x ∈ Systems.runAll (step 3) (fun x w => w.input ≠ .restart ∧ x.keepsCommit w) ofThree
      (inOrder.map fun i => { input := i, store := none }),
    x.site.node.commitIndex = 1 ∧ x.site.node.lastApplied = 1 := by
  decide +kernel

/-- In that run the two indices go up to 1. -/
theorem commit_monotone_inOrder : ∃ x ∈ Systems.runAll (step 3) (fun x w => w.input ≠ .restart ∧ x.keepsCommit w) ofThree
      (inOrder.map fun i => { input := i, store := none }),
    x.site.node.commitIndex = 1 ∧ ofThree.site.node.commitIndex ≤ x.site.node.commitIndex ∧
      ofThree.site.node.lastApplied ≤ x.site.node.lastApplied ∧ x.site.node.lastApplied ≤ x.site.node.commitIndex := by
  obtain ⟨x, hx, hci, _⟩ := inOrder_commitIndex
  exact ⟨x, hx, hci, commit_monotone .refl (Systems.Run.refl.runAll hx)⟩

/-- Two commands are in flight at node 0, and the second one is committed. -/
def inFlight : List Input :=
  isElected ++ [.clientRequest (putRequest 1 "a"), .clientRequest (putRequest 2 "b")] ++ replicates 1

theorem inFlight_commitIndex : ∃ x ∈ run 3 (fun _ i => i ≠ .restart) ofThree inFlight,
    ∃ y ∈ run 3 (fun _ i => i ≠ .restart) x (replicates 0), x.site.node.commitIndex = 1 ∧ y.site.node.commitIndex = 0 := by
  decide +kernel

/-- `commitIndex` can decrease: the first command is committed after the second. -/
theorem commit_moved_back : ¬∀ x y, Run 3 (fun _ _ => True) ofThree x → Run 3 (fun _ i => i ≠ .restart) x y →
    x.site.node.commitIndex ≤ y.site.node.commitIndex ∧ x.site.node.lastApplied ≤ y.site.node.lastApplied ∧
      y.site.node.lastApplied ≤ y.site.node.commitIndex := by
  intro h
  obtain ⟨x, hx, y, hy, hcx, hcy⟩ := inFlight_commitIndex
  have hle := (h x y (Run.mono (fun _ _ _ => trivial) (Run.run .refl hx)) (Run.run .refl hy)).1
  rw [hcx, hcy] at hle
  exact absurd hle (by decide)

end Solo

end RaftStore
