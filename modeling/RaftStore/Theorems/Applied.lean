import RaftStore.Theorems.Commits

/-!
# What replicas apply

All nodes apply the same command at an index, in every run that keeps what is committed and in which followers commit what they
have verified. The AppendEntries handler commits `leaderCommit` as far as the follower's own log goes, also where the message has
neither brought nor compared the entries.
-/

namespace RaftStore

open Consensus Cluster

variable {N : ℕ} {c : Cluster N} {u v : Fin N}

/-- A run that applies what is committed is a bound run of the abstract protocol. -/
theorem appliesCommitted_refines {s : Site} {i : Input} (h : Site.appliesCommitted N s i) : Site.Refines True True N s i :=
  { keepsCommitted_refines h.1 with verified := fun _ => h.2 }

/-- The entry at an index of a committed piece of a chain is the same in every chain that has such a piece. -/
theorem committed_entry {a : Global N} (ha : Safe LogEntry.term (majority (Fin N)) a) {t t' i : ℤ} {k k' : ℕ} {e e' : LogEntry}
    (hc : Committed LogEntry.term (majority (Fin N)) a t k) (hc' : Committed LogEntry.term (majority (Fin N)) a t' k')
    (h0 : 0 ≤ i) (hi : i < k) (hi' : i < k') (he : (a.chain t)[i.toNat]? = some e) (he' : (a.chain t')[i.toNat]? = some e') :
    e = e' := by
  have hlen := (List.getElem?_eq_some_iff.mp he).1
  have hlen' := (List.getElem?_eq_some_iff.mp he').1
  rw [← List.getElem?_take_of_lt (show i.toNat < k by omega)] at he
  rw [← List.getElem?_take_of_lt (show i.toNat < k' by omega)] at he'
  rcases ha.committed_agree hc hc' with hp | hp
  · rw [prefix_getElem? hp (by rw [List.length_take]; omega), he'] at he
    exact (Option.some.inj he).symm
  · rw [prefix_getElem? hp (by rw [List.length_take]; omega), he] at he'
    exact Option.some.inj he'

/-- State machine safety: what two nodes, or one node at two times, apply at an index is the same command. -/
theorem state_machine_safety (h : Reachable (Acts (Site.appliesCommitted N)) c) {i : ℤ} {e e' : LogEntry}
    (hu : (u, Event.applied i e) ∈ c.events) (hv : (v, Event.applied i e') ∈ c.events) : e.command = e'.command := by
  obtain ⟨a, hm, hrel⟩ := (h.mono (fun c x hx p hp => appliesCommitted_refines (hx p hp))).rel (fun _ => trivial)
  obtain ⟨h0, t, k, _, hc, hi, he⟩ := hrel.event _ hu trivial
  obtain ⟨_, t', k', _, hc', hi', he'⟩ := hrel.event _ hv trivial
  rw [committed_entry (moves_safe trivial hm) hc hc' (by omega) hi hi' he he']

/-- An entry that was applied. -/
def Event.application : Event → Option (ℤ × LogEntry)
  | .applied i e => some (i, e)
  | _ => none

theorem Event.application_eq {ev : Event} {i : ℤ} {e : LogEntry} (h : ev.application = some (i, e)) : ev = .applied i e := by
  cases ev with
  | applied i' e' =>
    obtain ⟨rfl, rfl⟩ := Prod.mk.inj (Option.some.inj h)
    rfl
  | _ => cases h

/-- What a node has applied, in that order. -/
def Cluster.applications (c : Cluster N) (v : Fin N) : List (ℤ × LogEntry) :=
  (c.events.filter (fun p => p.1 = v)).filterMap (fun p => p.2.application)

theorem Cluster.mem_applications {i : ℤ} {e : LogEntry} (h : (i, e) ∈ c.applications v) :
    (v, Event.applied i e) ∈ c.events := by
  obtain ⟨⟨u, ev⟩, hp, heq⟩ := List.mem_filterMap.mp h
  obtain ⟨hp, hu⟩ := List.mem_filter.mp hp
  obtain rfl : u = v := by simpa using hu
  rwa [← Event.application_eq heq]

/-- Two commands are committed on nodes 0 and 1, and the next heartbeat tells node 1. -/
def heartbeatCommit : List (Action 3) :=
  twoCommands ++ [.step 0 .heartbeat, .step 0 .heartbeat, .deliver 1 6]

theorem heartbeatCommit_applications : ∃ c ∈ run (Acts (Site.appliesCommitted 3)) (Cluster.init 3) heartbeatCommit,
    c.applications 0 = [(1, putEntry 1 1 2 "b")] ∧ c.applications 1 = [(1, putEntry 1 1 2 "b")] := by
  decide +kernel

/-- In that run node 1 applies at index 1 what node 0 applies. -/
theorem state_machine_safety_heartbeatCommit : ∃ c : Cluster 3,
    run (Acts (Site.appliesCommitted 3)) (Cluster.init 3) heartbeatCommit = some c ∧
      ((0 : Fin 3), Event.applied 1 (putEntry 1 1 2 "b")) ∈ c.events ∧
      ∀ e, ((1 : Fin 3), Event.applied 1 e) ∈ c.events → (putEntry 1 1 2 "b").command = e.command := by
  obtain ⟨c, hc, h0, _⟩ := heartbeatCommit_applications
  have hm : ((0 : Fin 3), Event.applied 1 (putEntry 1 1 2 "b")) ∈ c.events := mem_applications (by simp [h0])
  exact ⟨c, hc, hm, fun e he => state_machine_safety (Reachable.init.run hc) hm he⟩

/-- Node 0 commits its second command alone, and node 1 leads the next term with two commands of its own. -/
def divergentCommits : List (Action 3) :=
  droppedCommit ++ [.clientRequest 1 (putRequest 3 "c"), .step 1 (.client 0), .reply 1 (.client 0) true, .step 1 (.client 0),
    .deliver 2 9, .reply 1 (.client 0) false, .step 1 (.client 0),
    .clientRequest 1 (putRequest 4 "d"), .step 1 (.client 1), .reply 1 (.client 1) true, .step 1 (.client 1), .deliver 2 11,
    .reply 1 (.client 1) false, .step 1 (.client 1)]

theorem divergentCommits_applications : ∃ c ∈ run anyAction (Cluster.init 3) divergentCommits,
    (1, putEntry 1 1 2 "b") ∈ c.applications 0 ∧ (1, putEntry 2 1 3 "c") ∈ c.applications 1 := by
  decide +kernel

/-- Two nodes can apply different commands at one index. -/
theorem state_machines_diverge : ¬∀ (c : Cluster 3), Reachable anyAction c → ∀ u v i e e',
    (u, Event.applied i e) ∈ c.events → (v, Event.applied i e') ∈ c.events → e.command = e'.command := by
  intro h
  obtain ⟨c, hc, h0, h1⟩ := divergentCommits_applications
  have := h c (Reachable.init.run hc) 0 1 1 _ _ (mem_applications h0) (mem_applications h1)
  exact absurd this (by decide)

end RaftStore
