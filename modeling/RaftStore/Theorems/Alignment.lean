import RaftStore.Lemmas.Places
import RaftStore.Theorems.Matching

/-!
# Positions and global indices stay aligned

Every entry of a log stands at its own global index in every run, crashes included, in which a client command sends a peer that
has nothing only a log without a snapshot, a conflict does not cut the log below what is applied, and the images that are
installed end at an index with a term.
-/

namespace RaftStore

namespace Site

/-- The image that is decoded after the last chunk ends at an index, with a term. -/
def installsIndex (s : Site) (i : Input) : Prop :=
  ∀ m ∈ i.installSnapshot, s.node.currentTerm ≤ m.term → ∀ snap ∈ s.node.assembled m, snap.dumps = true →
    0 ≤ snap.lastIncludedIndex ∧ snap.lastIncludedTerm ≠ 0

instance (s : Site) (i : Input) : Decidable (installsIndex s i) :=
  inferInstanceAs (Decidable (∀ m ∈ i.installSnapshot, s.node.currentTerm ≤ m.term → ∀ snap ∈ s.node.assembled m,
    snap.dumps = true → 0 ≤ snap.lastIncludedIndex ∧ snap.lastIncludedTerm ≠ 0))

/-- The step keeps entries in their places. -/
def keepsPlaces (s : Site) (i : Input) : Prop := sendsFromFirst s i ∧ keepsApplied s i ∧ installsIndex s i

instance (s : Site) (i : Input) : Decidable (keepsPlaces s i) := instDecidableAnd

variable {size next : ℕ} {s : Site} {store : KVStore} {i : Input} {o : Outcome}

/-- The node is straight, and its client commands have appended entries of the terms of elections. -/
structure Straight (s : Site) : Prop where
  node : s.node.Straight
  client : ∀ call ∈ s.clients, 1 ≤ call.entry.term

theorem Straight.elected (h : s.Straight) (el : Election) : (s.elected el).Straight := by
  obtain ⟨_, _, heq⟩ := s.elected_node el
  refine ⟨?_, fun call hc => h.client call (s.elected_clients el ▸ hc)⟩
  rw [heq]
  exact h.node.congr rfl rfl rfl

/-- A client command goes on with its entry. -/
theorem Straight.clientAt (h : s.Straight) {n : RaftNode} (ha : n.Straight) {k : ℕ} {call call' : ClientCall}
    (hc : s.clients[k]? = some call) (he : call'.entry = call.entry) : ({ s with node := n }.clientAt k call').Straight := by
  refine ⟨ha, fun c hmem => ?_⟩
  obtain ⟨call₀, hcall₀, hentry⟩ := entry_of_mem_set hc he hmem
  rw [hentry]
  exact h.client call₀ hcall₀

/-- A leader appends an entry of the term of an election. -/
theorem Straight.appendEntry (h : s.Straight) {req : ClientRequest} (hterm : 1 ≤ s.node.currentTerm) :
    (s.appendEntry req).Straight := by
  refine ⟨h.node.append rfl (by show s.node.currentTerm ≠ 0; omega), fun c hmem => ?_⟩
  rcases List.mem_append.mp hmem with hmem | hmem
  · exact h.client c hmem
  · obtain rfl := List.mem_singleton.mp hmem
    exact hterm

/-- A message on its way out may be sent to a straight node. -/
def SendsStraight (o : Outcome) : Prop := ∀ x, o.send = some x → x.req.Straight

/-- Every step that keeps entries in their places keeps a site straight. -/
theorem Straight.step (h : s.Straight) (hs : s.Sound) (hst : Step size next s store i o) (hk : keepsPlaces s i)
    (hreq : ∀ req, i = .receive req → req.Straight) : o.site.Straight ∧ SendsStraight o := by
  have hn := h.node
  have hnone {o : Outcome} (ho : o.send = none) : SendsStraight o := fun x hx => by cases ho.symm.trans hx
  have hsame {n : RaftNode} (hl : n.log = s.node.log) (hs : n.latestSnapshot = s.node.latestSnapshot)
      (ha : n.lastApplied = s.node.lastApplied) : n.Straight := hn.congr hl hs ha
  cases hst with
  | startElection he hl => exact ⟨⟨hsame rfl rfl rfl, h.client⟩, hnone rfl⟩
  | join el he hp hh => exact ⟨⟨hsame rfl rfl rfl, h.client⟩, hnone rfl⟩
  | ask el p rest he hp hr =>
    refine ⟨⟨hn, h.client⟩, fun x hx => ?_⟩
    obtain rfl := Option.some.inj hx
    trivial
  | win el he hp hr hv => exact ⟨h.elected el, hnone rfl⟩
  | voteLater el call r term g he hp hr ht => exact ⟨⟨hsame rfl rfl rfl, h.client⟩, hnone rfl⟩
  | sendHeartbeat hb j p hh hp hrun hi hns entries hes =>
    refine ⟨⟨hn, h.client⟩, fun x hx => ?_⟩
    obtain rfl := Option.some.inj hx
    rw [hes]
    refine hn.appendRequest ?_ _
    unfold RaftNode.neededSnapshot at hns
    cases hsn : s.node.latestSnapshot with
    | none => exact Or.inl rfl
    | some snap =>
      rw [hsn, Option.filter_eq_none_iff] at hns
      have := hns snap rfl
      simp only [decide_eq_true_eq] at this
      have hb : s.node.baseIndex = snap.lastIncludedIndex + 1 := by simp [RaftNode.baseIndex, hsn]
      exact Or.inr (Or.inr (by omega))
  | sendHeartbeatChunk hb j t p hh hp hi =>
    refine ⟨⟨hn, h.client⟩, fun x hx => ?_⟩
    obtain rfl := Option.some.inj hx
    trivial
  | heartbeatLater hb j nextIdx count call r term success hh hp hr ht =>
    exact ⟨⟨hsame rfl rfl rfl, h.client⟩, hnone rfl⟩
  | heartbeatReply hb j nextIdx count call r term success hh hp hr ht =>
    exact ⟨⟨hn.heartbeatAnswered j nextIdx count success, h.client⟩, hnone rfl⟩
  | heartbeatChunkReply hb j t call r hh hp phase hph => exact ⟨⟨hn.transferReply t j r, h.client⟩, hnone rfl⟩
  | append req hl hc => exact ⟨h.appendEntry (hs.state_term (by rw [hl]; decide)), hnone rfl⟩
  | send k call p hc hp hi =>
    refine ⟨h.clientAt hn hc rfl, fun x hx => ?_⟩
    obtain rfl := Option.some.inj hx
    refine hn.appendRequest ?_ _
    have hlt := (List.getElem?_eq_some_iff.mp hi).1
    have hfirst := hk.1 k rfl call hc (by simp [clientSends, hp, hlt])
    by_cases h1 : 1 ≤ s.node.nextIndex.getD call.i 0
    · exact Or.inr (Or.inl h1)
    · exact Or.inl (hfirst (by omega))
  | commit k call hc hp hi hm =>
    have hterm : 1 ≤ s.node.currentTerm :=
      (h.client call (List.mem_of_getElem? hc)).trans (hs.client call (List.mem_of_getElem? hc)).1
    exact ⟨h.clientAt (hn.commit hs.node store hterm hm) hc rfl, hnone rfl⟩
  | notCommitted k call hc hp hi hm => exact ⟨h.clientAt hn hc rfl, hnone rfl⟩
  | sendChunk k call t p hc hp hi =>
    refine ⟨h.clientAt hn hc rfl, fun x hx => ?_⟩
    obtain rfl := Option.some.inj hx
    trivial
  | lost k call id r hc hp hr => exact ⟨h.clientAt hn hc rfl, hnone rfl⟩
  | later k call id r term success hc hp hr ht =>
    have hfollow : (s.node.followReply term).Straight := hsame rfl rfl rfl
    exact ⟨h.clientAt hfollow hc rfl, hnone rfl⟩
  | success k call id r term hc hp hr ht =>
    have hanswered : (clientAnswered s.node call).Straight := hsame rfl rfl rfl
    exact ⟨h.clientAt hanswered hc rfl, hnone rfl⟩
  | failure k call id r term hc hp hr ht call' hc' =>
    refine ⟨h.clientAt (hn.retreat call.i) hc ?_, hnone rfl⟩
    rw [hc']
    split <;> rfl
  | chunkReply k call t id r hc hp call' hc' =>
    refine ⟨h.clientAt (hn.transferReply t call.i r) hc ?_, hnone rfl⟩
    rw [hc']
    split <;> rfl
  | receive req r hr =>
    refine ⟨⟨hn.handle (hreq req rfl) ?_ ?_ hr, h.client⟩, hnone rfl⟩
    · rintro m rfl hacc hf
      exact hk.2.1 m rfl hacc hf
    · rintro m rfl ht snap hsnap hdumps
      exact hk.2.2 m rfl ht snap hsnap hdumps
  | snapshotNow hl => exact ⟨⟨hn.createSnapshot store hl, h.client⟩, hnone rfl⟩
  | restart n store' hr => exact ⟨⟨hn.restart hs.node hr, fun c hmem => absurd hmem List.not_mem_nil⟩, hnone rfl⟩
  | _ => exact ⟨⟨hn, h.client⟩, hnone rfl⟩

end Site

namespace Cluster

variable {N : ℕ} {c c' : Cluster N}

/-- Every site of the cluster is straight, and every message may be sent to a straight node. -/
structure Straight (c : Cluster N) : Prop where
  site : ∀ v, (c.sites v).Straight
  call : ∀ y ∈ c.calls, y.req.Straight

theorem straight_init (N : ℕ) : (init N).Straight where
  site _ := ⟨⟨Indexed.nil 0, fun _ he => absurd he List.not_mem_nil, nofun, le_rfl, zero_le_one, Or.inl rfl⟩,
    fun _ hc => absurd hc List.not_mem_nil⟩
  call _ h := absurd h List.not_mem_nil

/-- The messages of the calls in which a reply has been noted. -/
theorem noteReply_straight {l : List Call} (h : ∀ y ∈ l, y.req.Straight) (id : ℕ) (resp : Option Reply) :
    ∀ y ∈ noteReply l id resp, y.req.Straight := by
  intro y hy
  rcases mem_noteReply hy with hy | ⟨y₀, hy₀, rfl⟩
  · exact h y hy
  · exact h y₀ (List.mem_of_getElem? hy₀)

theorem Straight.siteStep {v : Fin N} {i : Input} {o : Outcome} (h : c.Straight) (hc : c.Sound) (hs : SiteStep c c' v i o)
    (hk : Site.keepsPlaces (c.sites v) i) : c'.Straight := by
  obtain ⟨hsite, hsend⟩ := (h.site v).step (hc.site v) ((hc.site v).step hs.outcome).1 hk (fun req hi => by
    rcases hs.calls with ⟨hno, _⟩ | ⟨_, y, hy, hi', _⟩
    · exact absurd hi (hno req)
    · obtain rfl := Input.receive.inj (hi.symm.trans hi')
      exact h.call y (List.mem_of_getElem? hy))
  have hcalls : ∀ y ∈ c.calls ++ o.calls, y.req.Straight := by
    intro y hy
    rcases List.mem_append.mp hy with hy | hy
    · exact h.call y hy
    · obtain ⟨x, hx, rfl⟩ := List.mem_map.mp hy
      exact hsend x (Option.mem_toList.mp hx)
  refine ⟨fun u => ?_, ?_⟩
  · rw [hs.site u]
    split
    · exact hsite
    · exact h.site u
  · rcases hs.calls with ⟨_, heq⟩ | ⟨id, _, _, _, _, _, heq⟩ <;> rw [heq]
    · exact hcalls
    · exact noteReply_straight hcalls id _

theorem Reachable.straight (h : Reachable (Acts Site.keepsPlaces) c) : c.Straight := by
  induction h with
  | init => exact straight_init N
  | step hreach hP hstep ih =>
    rcases step_cases hstep with ⟨v, i, o, hi, hs⟩ | ⟨id, y, _, _, _, rfl⟩
    · exact ih.siteStep hreach.sound hs (hP _ hi)
    · exact ⟨ih.site, noteReply_straight ih.call id _⟩

/-- In every state of every run whose steps keep entries in their places, each entry of each log stands at its own index. -/
theorem entries_in_place (h : Reachable (Acts Site.keepsPlaces) c) (v : Fin N) : (c.sites v).node.InPlace :=
  (h.straight.site v).node.places

/-- Nodes 0 and 1 take a snapshot after two commands, and commit a third one. -/
def compactedRun : List (Action 3) :=
  twoCommands ++ [.snapshotNow 0, .snapshotNow 1,
    .clientRequest 0 (putRequest 3 "c"), .step 0 (.client 2), .deliver 1 6, .reply 0 (.client 2) false, .step 0 (.client 2),
    .reply 0 (.client 2) true, .step 0 (.client 2)]

theorem compactedRun_reached : ∃ c ∈ run (Acts Site.keepsPlaces) (Cluster.init 3) compactedRun,
    (c.sites 1).node.baseIndex = 1 ∧ ∃ e ∈ (c.sites 1).node.log[1]?, e.command = ascii "PUT k c" := by
  decide +kernel

/-- In that run the second entry of the compacted log of node 1 is the third command, with index 2. -/
theorem entries_in_place_compactedRun : ∃ c : Cluster 3,
    run (Acts Site.keepsPlaces) (Cluster.init 3) compactedRun = some c ∧
      ∃ e, (c.sites 1).node.log[1]? = some e ∧ e.command = ascii "PUT k c" ∧ e.index = 2 := by
  obtain ⟨c, hc, hb, e, he, hcmd⟩ := compactedRun_reached
  have hplace := entries_in_place (Reachable.init.run hc) 1 1 e he
  rw [hb] at hplace
  exact ⟨c, hc, e, he, hcmd, hplace⟩

/-- Node 0 has a snapshot of its first command when it finds that node 2 has nothing, and the chunk it sends is lost. With the
next command node 2 gets the entries from index 1 on behind `prevLogIndex` -1. -/
def skippedSnapshot : List (Action 3) :=
  [.startElection 0, .step 0 .election, .deliver 1 0, .reply 0 .election false, .step 0 .election, .deliver 2 1,
    .reply 0 .election false, .step 0 .election,
    .clientRequest 0 (putRequest 1 "a"), .step 0 (.client 0), .deliver 1 2, .reply 0 (.client 0) false, .step 0 (.client 0),
    .reply 0 (.client 0) true, .step 0 (.client 0), .snapshotNow 0,
    .clientRequest 0 (putRequest 2 "b"), .step 0 (.client 1), .deliver 1 4, .reply 0 (.client 1) false, .step 0 (.client 1),
    .deliver 2 5, .reply 0 (.client 1) false, .step 0 (.client 1), .reply 0 (.client 1) true, .step 0 (.client 1),
    .clientRequest 0 (putRequest 3 "c"), .step 0 (.client 2), .reply 0 (.client 2) true, .step 0 (.client 2), .deliver 2 8]

theorem skippedSnapshot_misplaced :
    ∃ c ∈ run anyAction (Cluster.init 3) skippedSnapshot, ¬(c.sites 2).node.InPlace := by
  decide +kernel

/-- A log without a snapshot can start with the entry of index 1. -/
theorem entries_misplaced : ¬∀ (c : Cluster 3), Reachable anyAction c → ∀ v, (c.sites v).node.InPlace := by
  intro h
  obtain ⟨c, hc, hmis⟩ := skippedSnapshot_misplaced
  exact hmis (h c (Reachable.init.run hc) 2)

end Cluster

end RaftStore
