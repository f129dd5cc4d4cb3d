import RaftStore.Refinement.Votes

/-!
# Elections

At most one node enters `LEADER` in a term, in every run in which votes are counted in the term they were asked for. Nothing in
`start_election` sees to that: a candidate that follows a later term between two of its requests goes on with the votes it has,
and is promoted in the later term.
-/

namespace RaftStore

open Cluster

variable {N : ℕ}

/-- The nodes that have entered `LEADER`, each with its `currentTerm` at that moment. -/
def Cluster.leaders (c : Cluster N) : List (Fin N × ℤ) :=
  c.events.filterMap fun p => match p.2 with
    | .becameLeader n => some (p.1, n.currentTerm)
    | _ => none

theorem Cluster.mem_leaders {c : Cluster N} {v : Fin N} {t : ℤ} (h : (v, t) ∈ c.leaders) :
    ∃ n, (v, Event.becameLeader n) ∈ c.events ∧ n.currentTerm = t := by
  obtain ⟨⟨u, ev⟩, hev, heq⟩ := List.mem_filterMap.mp h
  cases ev with
  | becameLeader n =>
    obtain ⟨rfl, rfl⟩ := Prod.mk.inj (Option.some.inj heq)
    exact ⟨n, hev, rfl⟩
  | _ => cases heq

/-- Election safety: when every majority is counted by a candidate of the term it asked for votes in, two nodes that enter
`LEADER` with the same `currentTerm` are one. -/
theorem election_safety {c : Cluster N} (h : Reachable (Acts (Site.electsInOwnTerm N)) c) {u v : Fin N} {t : ℤ}
    (hu : (u, t) ∈ c.leaders) (hv : (v, t) ∈ c.leaders) : u = v := by
  obtain ⟨a, _, hvotes⟩ := h.votes
  obtain ⟨n, hn, rfl⟩ := mem_leaders hu
  obtain ⟨n', hn', ht⟩ := mem_leaders hv
  have hw := hvotes.led u n hn
  rw [← ht, hvotes.led v n' hn'] at hw
  exact (Option.some.inj hw).symm

/-- Node 0 is elected in term 1 by node 1, and node 2 in term 2. -/
def twoElections : List (Action 3) :=
  [.startElection 0, .step 0 .election, .deliver 1 0, .reply 0 .election false, .step 0 .election, .reply 0 .election true,
    .step 0 .election, .deliver 2 1, .startElection 2, .step 2 .election, .deliver 0 2, .reply 2 .election false,
    .step 2 .election, .reply 2 .election true, .step 2 .election]

theorem twoElections_leaders :
    (run (Acts (Site.electsInOwnTerm 3)) (Cluster.init 3) twoElections).map Cluster.leaders = some [(0, 1), (2, 2)] := by
  decide +kernel

/-- In that run node 2 alone enters `LEADER` in term 2. -/
theorem election_safety_twoElections : ∃ c : Cluster 3,
    run (Acts (Site.electsInOwnTerm 3)) (Cluster.init 3) twoElections = some c ∧ (2, 2) ∈ c.leaders ∧
      ∀ v, (v, 2) ∈ c.leaders → 2 = v := by
  obtain ⟨c, hc, hl⟩ := Option.map_eq_some_iff.mp twoElections_leaders
  have hm : ((2 : Fin 3), (2 : ℤ)) ∈ c.leaders := by simp [hl]
  exact ⟨c, hc, hm, fun v hv => election_safety (Reachable.init.run hc) hm hv⟩

/-- Node 0 has the vote of node 1 in term 1. Before it asks node 2 it grants node 2 a vote in term 2, which elects node 2, and
then goes on with its own election. -/
def staleElection : List (Action 3) :=
  [.startElection 0, .step 0 .election, .deliver 1 0, .reply 0 .election false,
    .startElection 2, .step 2 .election, .deliver 0 1, .reply 2 .election false, .step 2 .election, .deliver 1 2,
    .reply 2 .election false, .step 2 .election,
    .startElection 2, .step 2 .election, .deliver 0 3, .reply 2 .election false, .step 2 .election, .reply 2 .election true,
    .step 2 .election,
    .step 0 .election, .deliver 2 5, .reply 0 .election false, .step 0 .election]

theorem staleElection_leaders :
    (run anyAction (Cluster.init 3) staleElection).map Cluster.leaders = some [(2, 2), (0, 2)] := by
  decide +kernel

/-- Two nodes can enter `LEADER` with the same `currentTerm`. -/
theorem election_unsafe : ¬∀ (c : Cluster 3), Reachable anyAction c → ∀ u v t, (u, t) ∈ c.leaders → (v, t) ∈ c.leaders →
    u = v := by
  intro h
  obtain ⟨c, hc, hl⟩ := Option.map_eq_some_iff.mp staleElection_leaders
  have := h c (Reachable.init.run hc) 2 0 2 (by simp [hl]) (by simp [hl])
  exact absurd this (by decide)

end RaftStore
