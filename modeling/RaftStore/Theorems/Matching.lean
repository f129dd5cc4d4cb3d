import RaftStore.Refinement.Run
import RaftStore.Theorems.Elections

/-!
# Log matching

Logs that hold entries of one term at one index are equal up to it, in every run in which nodes send as leaders of the term of
their thread only, and indices stay aligned. A node that has lost its leadership does not notice it here: two nodes that lead one
term give the same index different entries of that term.
-/

namespace RaftStore

open Consensus Cluster

variable {N : ℕ} {strict bound : Prop} {a : Global N} {c : Cluster N} {u v : Fin N}

/-- The entry that `log` holds at a global index. -/
def RaftNode.heldEntry (n : RaftNode) (index : ℤ) : Option LogEntry := n.entryAt (n.logIdx index)

/-- What `log` holds is an entry of the whole log. -/
theorem RaftNode.Aligned.heldEntry {n : RaftNode} (h : n.Aligned) {i : ℤ} {e : LogEntry} (he : n.heldEntry i = some e) :
    0 ≤ i ∧ n.full[i.toNat]? = some e := by
  have hbase := h.covered_length
  have hi : n.baseIndex ≤ i := by
    have := ((n.entryAt_isSome _).mp (by rw [show n.entryAt (n.logIdx i) = some e from he]; rfl)).1
    rw [RaftNode.logIdx_eq] at this
    omega
  exact ⟨by omega, h.entryAt_logIdx hi ▸ he⟩

/-- Two nodes that hold entries of one term at one index have the same whole log up to it. -/
theorem Rel.full_matching (h : Rel strict bound c a) (ha : Consistent LogEntry.term (majority (Fin N)) a) {k : ℕ}
    {e e' : LogEntry} (hu : (c.sites u).node.full[k]? = some e) (hv : (c.sites v).node.full[k]? = some e')
    (ht : e.term = e'.term) : (c.sites u).node.full.take (k + 1) = (c.sites v).node.full.take (k + 1) := by
  have := ha.logs.matching u v (k := k + 1)
  rw [(h.site u).logs.log, (h.site v).logs.log] at this
  exact this (Or.inr ⟨e, e', hu, hv, ht⟩)

/-- A run whose logs match is one of the abstract protocol. -/
theorem matchesLogs_refines {s : Site} {i : Input} (h : Site.matchesLogs N s i) : Site.Refines False False N s i :=
  ⟨h, False.elim, False.elim, False.elim, False.elim, False.elim⟩

/-- Log matching: two nodes whose logs hold entries of the same term at a global index hold equal entries at that index and at
every lower one that both hold. -/
theorem log_matching (h : Reachable (Acts (Site.matchesLogs N)) c) {i : ℤ} {e e' : LogEntry}
    (hu : (c.sites u).node.heldEntry i = some e) (hv : (c.sites v).node.heldEntry i = some e') (ht : e.term = e'.term) :
    ∀ j ≤ i, ∀ f f', (c.sites u).node.heldEntry j = some f → (c.sites v).node.heldEntry j = some f' → f = f' := by
  obtain ⟨a, hm, hrel⟩ := (h.mono (fun c x hx p hp => matchesLogs_refines (hx p hp))).rel False.elim
  have ha := ((safe_init 0).toConsistent.steps hm).1
  have hal : c.Aligned := (h.mono (fun c x hx p hp => (hx p hp).2.2.2.2)).aligned
  have hmatch := hrel.full_matching ha ((hal.site u).node.heldEntry hu).2 ((hal.site v).node.heldEntry hv).2 ht
  intro j hj f f' hf hf'
  obtain ⟨h0, hf⟩ := (hal.site u).node.heldEntry hf
  obtain ⟨_, hf'⟩ := (hal.site v).node.heldEntry hf'
  have hlt : j.toNat < i.toNat + 1 := by omega
  rw [← List.getElem?_take_of_lt hlt] at hf hf'
  rw [hmatch, hf'] at hf
  exact (Option.some.inj hf).symm

/-- A request of one client: `PUT k` with this value. -/
def putRequest (requestId : ℤ) (value : String) : ClientRequest where
  clientId := ascii "client-4"
  requestId := requestId
  command := ascii "PUT"
  key := ascii "k"
  value := ascii value
  session := 0

/-- The entry for such a request. -/
def putEntry (term index requestId : ℤ) (value : String) : LogEntry where
  term := term
  index := index
  command := ascii "PUT k " ++ ascii value
  origin := (ascii "client-4", requestId)

/-- Node 0 is elected in term 1, and commits two commands with node 1. Node 2 gets no message. -/
def twoCommands : List (Action 3) :=
  [.startElection 0, .step 0 .election, .deliver 1 0, .reply 0 .election false, .step 0 .election, .reply 0 .election true,
    .step 0 .election,
    .clientRequest 0 (putRequest 1 "a"), .step 0 (.client 0), .deliver 1 2, .reply 0 (.client 0) false, .step 0 (.client 0),
    .reply 0 (.client 0) true, .step 0 (.client 0),
    .clientRequest 0 (putRequest 2 "b"), .step 0 (.client 1), .deliver 1 4, .reply 0 (.client 1) false, .step 0 (.client 1),
    .reply 0 (.client 1) true, .step 0 (.client 1)]

theorem twoCommands_held :
    (run (Acts (Site.matchesLogs 3)) (Cluster.init 3) twoCommands).map
      (fun c => ((c.sites 0).node.heldEntry 1, (c.sites 1).node.heldEntry 1, (c.sites 1).node.heldEntry 0)) =
    some (some (putEntry 1 1 2 "b"), some (putEntry 1 1 2 "b"), some (putEntry 1 0 1 "a")) := by
  decide +kernel

/-- In that run node 0 holds at index 0 what node 1 holds there. -/
theorem log_matching_twoCommands : ∃ c : Cluster 3,
    run (Acts (Site.matchesLogs 3)) (Cluster.init 3) twoCommands = some c ∧
      ∀ f, (c.sites 0).node.heldEntry 0 = some f → f = putEntry 1 0 1 "a" := by
  obtain ⟨c, hc, hl⟩ := Option.map_eq_some_iff.mp twoCommands_held
  obtain ⟨h0, h1⟩ := Prod.mk.inj hl
  obtain ⟨h1, hf⟩ := Prod.mk.inj h1
  exact ⟨c, hc, fun f hf0 => log_matching (Reachable.init.run hc) h0 h1 rfl 0 (by decide) f _ hf0 hf⟩

/-- Nodes 0 and 2 lead term 2, and each appends a command. -/
def twoLeadersAppend : List (Action 3) :=
  staleElection ++ [.clientRequest 0 (putRequest 1 "a"), .clientRequest 2 (putRequest 2 "b")]

theorem twoLeadersAppend_held :
    (run anyAction (Cluster.init 3) twoLeadersAppend).map
      (fun c => ((c.sites 0).node.heldEntry 0, (c.sites 2).node.heldEntry 0)) =
    some (some (putEntry 2 0 1 "a"), some (putEntry 2 0 2 "b")) := by
  decide +kernel

/-- Two logs can hold different entries of the same term at the same index. -/
theorem logs_unmatched : ¬∀ (c : Cluster 3), Reachable anyAction c → ∀ u v i e e', (c.sites u).node.heldEntry i = some e →
    (c.sites v).node.heldEntry i = some e' → e.term = e'.term →
    ∀ j ≤ i, ∀ f f', (c.sites u).node.heldEntry j = some f → (c.sites v).node.heldEntry j = some f' → f = f' := by
  intro h
  obtain ⟨c, hc, hl⟩ := Option.map_eq_some_iff.mp twoLeadersAppend_held
  obtain ⟨h0, h2⟩ := Prod.mk.inj hl
  have := h c (Reachable.init.run hc) 0 2 0 _ _ h0 h2 rfl 0 le_rfl _ _ h0 h2
  exact absurd this (by decide)

end RaftStore
