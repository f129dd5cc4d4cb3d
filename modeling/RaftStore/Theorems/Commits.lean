import RaftStore.Theorems.Matching

/-!
# Commits

What `handleClientCommand` commits is held by a majority, and by every later leader, in every run in which votes go by the whole
log, a positive answer means that the entries of the message are held, and the node still leads the term of its entry when it
commits. The AppendEntries handler compares its first entry only: a message that starts with an entry the follower has is
answered with success, and the rest of it is dropped.
-/

namespace RaftStore

open Consensus Cluster

variable {N : ℕ} {strict bound : Prop} {a : Global N} {c : Cluster N} {u v w : Fin N}

/-- A run that keeps what is committed is a strict run of the abstract protocol. -/
theorem keepsCommitted_refines {s : Site} {i : Input} (h : Site.keepsCommitted N s i) : Site.Refines True False N s i :=
  ⟨h.1, fun _ => h.2.1, fun _ => h.2.2.1, fun _ => h.2.2.2.1, fun _ => h.2.2.2.2, False.elim⟩

/-- The state of the abstract protocol that such a run reaches. -/
theorem Cluster.Reachable.strictRel (h : Reachable (Acts (Site.keepsCommitted N)) c) :
    ∃ a : Global N, Safe LogEntry.term (majority (Fin N)) a ∧ Rel True False c a ∧ c.Aligned := by
  obtain ⟨a, hm, hrel⟩ := (h.mono (fun c x hx p hp => keepsCommitted_refines (hx p hp))).rel False.elim
  exact ⟨a, moves_safe trivial hm, hrel, (h.mono (fun c x hx p hp => (hx p hp).1.2.2.2.2)).aligned⟩

/-- The term, the index and the entry of a commit. -/
def Event.commit : Event → Option (ℤ × ℤ × Option LogEntry)
  | .committed t i e => some (t, i, e)
  | _ => none

theorem mem_commit {l : List Event} {x : ℤ × ℤ × Option LogEntry} (h : x ∈ l.filterMap Event.commit) :
    Event.committed x.1 x.2.1 x.2.2 ∈ l := by
  obtain ⟨ev, hev, heq⟩ := List.mem_filterMap.mp h
  cases ev with
  | committed t i e =>
    obtain rfl := Option.some.inj heq
    exact hev
  | _ => cases heq

/-- What the client commands of a node have committed. -/
def Cluster.commits (c : Cluster N) (v : Fin N) : List (ℤ × ℤ × Option LogEntry) :=
  (c.events.filterMap (fun p => if p.1 = v then some p.2 else none)).filterMap Event.commit

theorem Cluster.mem_commits {x : ℤ × ℤ × Option LogEntry} (h : x ∈ c.commits v) :
    (v, Event.committed x.1 x.2.1 x.2.2) ∈ c.events := by
  obtain ⟨⟨u, ev⟩, hp, heq⟩ := List.mem_filterMap.mp (mem_commit h)
  simp only [Option.ite_none_right_eq_some] at heq
  obtain ⟨rfl, heq⟩ := heq
  rwa [← Option.some.inj heq]

/-- The node that became `LEADER`. -/
def Event.elected : Event → Option RaftNode
  | .becameLeader n => some n
  | _ => none

theorem Event.elected_eq {ev : Event} {n : RaftNode} (h : ev.elected = some n) : ev = .becameLeader n := by
  cases ev with
  | becameLeader n' => rw [Option.some.inj h]
  | _ => cases h

/-! ## Leader completeness -/

/-- The last entry of a committed piece is of the term it was committed in. -/
theorem committed_term {t : ℤ} {k : ℕ} {e : LogEntry} (h : Committed LogEntry.term (majority (Fin N)) a t (k + 1))
    (he : (a.chain t)[k]? = some e) : e.term = t := by
  obtain ⟨⟨_, e', he', ht⟩, _⟩ := h
  rw [Nat.add_sub_cancel, he] at he'
  rw [Option.some.inj he']
  exact ht

/-- Leader completeness: the entry at the index that `handleClientCommand` commits is in the log, or under the snapshot, of every
node that becomes `LEADER` in a later term. -/
theorem leader_completeness (h : Reachable (Acts (Site.keepsCommitted N)) c) {t i : ℤ} {e : LogEntry} {n : RaftNode}
    (hc : (v, Event.committed t i (some e)) ∈ c.events) (hl : (w, Event.becameLeader n) ∈ c.events)
    (ht : t < n.currentTerm) : n.globalEntry i = some e := by
  obtain ⟨a, ha, hrel, _⟩ := h.strictRel
  obtain ⟨hi, _, hcom, he⟩ := hrel.event _ hc trivial
  obtain ⟨hal, hpre, hown⟩ := hrel.event _ hl
  have hw : (a.winner n.currentTerm).isSome := by
    rw [hrel.votes.led w n hl]
    rfl
  have hlater := ha.committed_later hcom ht hw
  have hchain : (a.chain n.currentTerm)[i.toNat]? = some e := by
    have hlt := (List.getElem?_eq_some_iff.mp he).1
    rw [← prefix_getElem? hlater (by rw [List.length_take]; omega), List.getElem?_take_of_lt (by omega)]
    exact he
  rw [hal.globalEntry_eq hi]
  by_cases hlt : i.toNat < n.full.length
  · rw [prefix_getElem? hpre hlt]
    exact hchain
  · -- the entry would be one that the leader added in its own term
    have := hown i.toNat e (not_lt.mp hlt) hchain
    rw [committed_term hcom he] at this
    omega

/-- After two commands are committed on nodes 0 and 1, node 1 is elected in term 2 by node 2. -/
def laterElection : List (Action 3) :=
  twoCommands ++ [.startElection 1, .step 1 .election, .reply 1 .election true, .step 1 .election, .deliver 2 7,
    .reply 1 .election false, .step 1 .election]

theorem laterElection_leaders : ∃ c ∈ run (Acts (Site.keepsCommitted 3)) (Cluster.init 3) laterElection,
    (1, 1, some (putEntry 1 1 2 "b")) ∈ c.commits 0 ∧ ∃ p ∈ c.events, ∃ n ∈ p.2.elected, p.1 = 1 ∧ n.currentTerm = 2 := by
  decide +kernel

/-- In that run node 1 has the second command when it becomes leader. -/
theorem leader_completeness_laterElection : ∃ c : Cluster 3,
    run (Acts (Site.keepsCommitted 3)) (Cluster.init 3) laterElection = some c ∧
      ∃ n, ((1 : Fin 3), Event.becameLeader n) ∈ c.events ∧ n.currentTerm = 2 ∧
        n.globalEntry 1 = some (putEntry 1 1 2 "b") := by
  obtain ⟨c, hc, hcom, ⟨_, ev⟩, hp, n, hn, rfl, ht⟩ := laterElection_leaders
  obtain rfl := Event.elected_eq hn
  exact ⟨c, hc, n, hp, ht, leader_completeness (Reachable.init.run hc) (mem_commits hcom) hp (by rw [ht]; decide)⟩

/-- Node 1 stores the first command of node 0, but its answer is lost. The message for the second command starts with the entry
of the first: node 1 drops the rest and answers with success. -/
def droppedEntry : List (Action 3) :=
  [.startElection 0, .step 0 .election, .deliver 1 0, .reply 0 .election false, .step 0 .election, .reply 0 .election true,
    .step 0 .election,
    .clientRequest 0 (putRequest 1 "a"), .step 0 (.client 0), .deliver 1 2, .reply 0 (.client 0) true, .step 0 (.client 0),
    .reply 0 (.client 0) true, .step 0 (.client 0),
    .clientRequest 0 (putRequest 2 "b"), .step 0 (.client 1), .deliver 1 4, .reply 0 (.client 1) false, .step 0 (.client 1),
    .reply 0 (.client 1) true]

/-- The second command is committed, and node 1 is elected in term 2. -/
def droppedCommit : List (Action 3) :=
  droppedEntry ++ [.step 0 (.client 1), .startElection 1, .step 1 .election, .reply 1 .election true, .step 1 .election,
    .deliver 2 7, .reply 1 .election false, .step 1 .election]

theorem droppedCommit_leaders : ∃ c ∈ run anyAction (Cluster.init 3) droppedCommit,
    (1, 1, some (putEntry 1 1 2 "b")) ∈ c.commits 0 ∧
      ∃ p ∈ c.events, ∃ n ∈ p.2.elected, n.currentTerm = 2 ∧ n.globalEntry 1 = none := by
  decide +kernel

/-- A leader can lack what was committed in an earlier term. -/
theorem leader_incomplete : ¬∀ (c : Cluster 3), Reachable anyAction c → ∀ v w t i e n,
    (v, Event.committed t i (some e)) ∈ c.events → (w, Event.becameLeader n) ∈ c.events → t < n.currentTerm →
    n.globalEntry i = some e := by
  intro h
  obtain ⟨c, hc, hcom, p, hp, n, hn, ht, hnone⟩ := droppedCommit_leaders
  have := h c (Reachable.init.run hc) 0 p.1 1 1 _ n (mem_commits hcom) (Event.elected_eq hn ▸ hp) (by rw [ht]; decide)
  rw [hnone] at this
  cases this

/-! ## The majority behind a commit -/

/-- The commit section of a client command commits the index of its entry. -/
theorem commit_committed {n : RaftNode} {store : KVStore} {call : ClientCall} {t i : ℤ} {e : Option LogEntry}
    (h : Event.committed t i e ∈ (Site.commit n store call).2.2.2) :
    t = n.currentTerm ∧ i = call.newIndex ∧ e = n.globalEntry call.newIndex := by
  unfold Site.commit at h
  rcases List.mem_append.mp h with h | h
  · rcases List.mem_cons.mp h with h | h
    · obtain ⟨rfl, rfl, rfl⟩ := Event.committed.inj h
      exact ⟨rfl, rfl, rfl⟩
    · unfold Site.applyWhileUp at h
      split at h
      · exact absurd h List.not_mem_nil
      · obtain ⟨_, _, heq, _⟩ := RaftNode.applyCommitted_events h
        cases heq
  · cases List.mem_singleton.mp h

/-- A step of a client command that commits is its commit section. -/
theorem Site.Step.commits {size next k : ℕ} {s : Site} {store : KVStore} {o : Outcome} {call : ClientCall} {t i : ℤ}
    {e : Option LogEntry} (hs : Site.Step size next s store (.step (.client k)) o) (hk : s.clients[k]? = some call)
    (hev : .committed t i e ∈ o.events) :
    i = call.newIndex ∧ call.phase = .ready ∧ s.node.peerRpcPorts[call.i]? = none ∧ Site.mayCommit s.node call := by
  cases hs with
  | commit _ call' hk' hp hi hm =>
    obtain rfl := Option.some.inj (hk.symm.trans hk')
    exact ⟨(commit_committed hev).2.1, hp, hi, hm⟩
  | send | notCommitted | sendChunk => exact absurd hev List.not_mem_nil

/-- A commit needs a majority: when `handleClientCommand` commits, the entry that it has appended is still at its index on the
node, and a majority of the nodes has it there, in the log or under a snapshot. -/
theorem commit_majority (h : Reachable (Acts (Site.keepsCommitted N)) c) {k : ℕ}
    (hx : Acts (Site.keepsCommitted N) c (.step v (.client k))) {o : Outcome}
    (ho : c.outcome v (.step (.client k)) = some o) {call : ClientCall} (hk : (c.sites v).clients[k]? = some call) {t i : ℤ}
    {e : Option LogEntry} (hev : .committed t i e ∈ o.events) :
    i = call.newIndex ∧ (c.sites v).node.globalEntry i = some call.entry ∧
      ∃ Q : Finset (Fin N), N < 2 * Q.card ∧ ∀ u ∈ Q, (c.sites u).node.globalEntry i = some call.entry := by
  obtain ⟨rfl, hp, hi, hm⟩ := ((h.sound.site v).step ho).1.commits hk hev
  have hmem := List.mem_of_getElem? hk
  have hl := (hx _ rfl).2.2.2.2 k rfl call hk hp (List.getElem?_eq_none_iff.mp hi) hm
  have hown : (c.sites v).node.globalEntry call.newIndex = some call.entry := by
    obtain ⟨a, ha, hrel, hal⟩ := h.strictRel
    obtain ⟨_, hchain⟩ := (hrel.nodeRel h.sound hal v).leads_chain ha.toConsistent hl
    rw [(hal.site v).node.globalEntry_eq ((hal.site v).client call hmem).1, hchain]
    exact ((hrel.site v).client call hmem).entry
  refine ⟨rfl, hown, ?_⟩
  have hstep : c.step (.step v (.client k)) = some (c.update v o) := by simp [Cluster.step, ho]
  have h' := h.step hx hstep
  obtain ⟨a, ha, hrel, hal⟩ := h'.strictRel
  obtain rfl : e = some call.entry := by
    cases ((h.sound.site v).step ho).1 with
    | commit _ call' hk' _ _ _ =>
      obtain rfl := Option.some.inj (hk.symm.trans hk')
      exact (commit_committed hev).2.2.trans hown
    | send | notCommitted | sendChunk => exact absurd hev List.not_mem_nil
  obtain ⟨h0, _, hcom, hent⟩ := hrel.event (v, .committed t call.newIndex (some call.entry))
    (List.mem_append_right _ (List.mem_map_of_mem hev)) trivial
  obtain ⟨Q, hQ, hstored⟩ := ha.committed_stored hcom
  rw [majority_isQuorum_iff, Fintype.card_fin] at hQ
  refine ⟨Q, by omega, fun u hu => ?_⟩
  by_cases huv : u = v
  · exact huv ▸ hown
  · have hsite : (c.update v o).sites u = c.sites u := Function.update_of_ne huv _ _
    have hpre := hstored u hu
    rw [(hrel.site u).logs.stable, hsite] at hpre
    have hfull := hpre.trans ((List.prefix_append_right_inj _).mpr (h.sound.site u).node.saved_prefix)
    have halu := (hal.site u).node
    rw [hsite] at halu
    have hlt := (List.getElem?_eq_some_iff.mp hent).1
    rw [halu.globalEntry_eq h0]
    show ((c.sites u).node.full)[call.newIndex.toNat]? = _
    rw [show (c.sites u).node.full = (c.sites u).node.covered ++ (c.sites u).node.log from rfl,
      ← prefix_getElem? hfull (by rw [List.length_take]; omega), List.getElem?_take_of_lt (by omega)]
    exact hent

/-- The commit section of the second command that node 0 and node 1 have. -/
theorem twoCommands_commit : ∃ c ∈ run (Acts (Site.keepsCommitted 3)) (Cluster.init 3) twoCommands.dropLast,
    Acts (Site.keepsCommitted 3) c (.step 0 (.client 1)) ∧
      (c.sites 0).clients[1]?.map (·.entry) = some (putEntry 1 1 2 "b") ∧
      (c.outcome 0 (.step (.client 1))).map (fun o => o.events.filterMap Event.commit) =
        some [(1, 1, some (putEntry 1 1 2 "b"))] := by
  decide +kernel

/-- There a majority has the second command at index 1. -/
theorem commit_majority_twoCommands : ∃ c : Cluster 3,
    run (Acts (Site.keepsCommitted 3)) (Cluster.init 3) twoCommands.dropLast = some c ∧
      ∃ Q : Finset (Fin 3), 3 < 2 * Q.card ∧ ∀ u ∈ Q, (c.sites u).node.globalEntry 1 = some (putEntry 1 1 2 "b") := by
  obtain ⟨c, hc, hx, hk, ho⟩ := twoCommands_commit
  obtain ⟨call, hk, he⟩ := Option.map_eq_some_iff.mp hk
  obtain ⟨o, ho, hev⟩ := Option.map_eq_some_iff.mp ho
  have hm := mem_commit (x := (1, 1, some (putEntry 1 1 2 "b"))) (by rw [hev]; exact List.mem_singleton_self _)
  obtain ⟨_, _, hQ⟩ := commit_majority (Reachable.init.run hc) hx ho hk hm
  exact ⟨c, hc, he ▸ hQ⟩

theorem droppedEntry_commit : ∃ c ∈ run anyAction (Cluster.init 3) droppedEntry,
    (c.sites 0).clients[1]?.map (·.entry) = some (putEntry 1 1 2 "b") ∧
      (c.outcome 0 (.step (.client 1))).map (fun o => o.events.filterMap Event.commit) =
        some [(1, 1, some (putEntry 1 1 2 "b"))] ∧
      ∀ u ≠ 0, (c.sites u).node.globalEntry 1 = none := by
  decide +kernel

/-- A command can be committed that its leader alone has. -/
theorem commit_alone : ¬∀ (c : Cluster 3), Reachable anyAction c → ∀ v k o call t i e,
    c.outcome v (.step (.client k)) = some o → (c.sites v).clients[k]? = some call → .committed t i e ∈ o.events →
    i = call.newIndex ∧ (c.sites v).node.globalEntry i = some call.entry ∧
      ∃ Q : Finset (Fin 3), 3 < 2 * Q.card ∧ ∀ u ∈ Q, (c.sites u).node.globalEntry i = some call.entry := by
  intro h
  obtain ⟨c, hc, hk, ho, hnone⟩ := droppedEntry_commit
  obtain ⟨call, hk, he⟩ := Option.map_eq_some_iff.mp hk
  obtain ⟨o, ho, hev⟩ := Option.map_eq_some_iff.mp ho
  have hm := mem_commit (x := (1, 1, some (putEntry 1 1 2 "b"))) (by rw [hev]; exact List.mem_singleton_self _)
  obtain ⟨_, _, Q, hQ, hall⟩ := h c (Reachable.init.run hc) 0 1 o call _ _ _ ho hk hm
  have hsub : Q ⊆ {0} := by
    intro u hu
    rw [Finset.mem_singleton]
    by_contra hne
    cases (hall u hu).symm.trans (hnone u hne)
  have := Finset.card_le_card hsub
  rw [Finset.card_singleton] at this
  omega

end RaftStore
