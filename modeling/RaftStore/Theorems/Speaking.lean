import RaftStore.Theorems.Matching
import RaftStore.Checked
import RaftStore.Conditions

/-!
# Who speaks for a term

AppendEntries and InstallSnapshot messages of a term are sent, and client entries of a term are appended, by the leader of the term
alone, in every run in which elections are won in their own term and the node still leads when a loop goes on. The loops test
that only when they start: they read `currentTerm` afresh for every message.
-/

namespace RaftStore

namespace Site

/-- A message of the replication loops is sent only while the node leads. -/
def sendsAsLeader (s : Site) (i : Input) : Prop :=
  (i = .step .heartbeat → ∀ hb ∈ s.heartbeat, heartbeatSends s hb = true → s.node.state = .leader) ∧
    ∀ k ∈ i.clientStep, ∀ call ∈ s.clients[k]?, clientSends s call = true ∨ clientSendsChunk call = true →
      s.node.state = .leader

instance (s : Site) (i : Input) : Decidable (s.sendsAsLeader i) :=
  inferInstanceAs (Decidable ((i = .step .heartbeat → ∀ hb ∈ s.heartbeat, heartbeatSends s hb = true →
    s.node.state = .leader) ∧ ∀ k ∈ i.clientStep, ∀ call ∈ s.clients[k]?,
      clientSends s call = true ∨ clientSendsChunk call = true → s.node.state = .leader))

/-- What a step sends in the name of a leader carries the term of the node, and is sent by one of the two loops. -/
theorem Step.speaks {size next : ℕ} {s : Site} {store : KVStore} {i : Input} {o : Outcome}
    (hs : Step size next s store i o) {t : ℤ} (ht : t ∈ o.send.bind CheckedCluster.leaderTerm)
    (hk : s.sendsAsLeader i) : t = s.node.currentTerm ∧ s.node.state = .leader := by
  cases hs with
  | sendHeartbeat hb j p hh hp hrun hj hn entries hes =>
    obtain rfl := Option.some.inj ht
    refine ⟨rfl, hk.1 rfl hb hh ?_⟩
    have hlt := (List.getElem?_eq_some_iff.mp hj).1
    simp [heartbeatSends, hp, hrun, hlt, hn]
  | sendHeartbeatChunk hb j t' p hh hp hj =>
    obtain rfl := Option.some.inj ht
    exact ⟨rfl, hk.1 rfl hb hh (by simp [heartbeatSends, hp])⟩
  | send k call p hcall hp hj =>
    obtain rfl := Option.some.inj ht
    have hlt := (List.getElem?_eq_some_iff.mp hj).1
    exact ⟨rfl, hk.2 k rfl call hcall (Or.inl (by simp [clientSends, hp, hlt]))⟩
  | sendChunk k call t' p hcall hp hj =>
    obtain rfl := Option.some.inj ht
    exact ⟨rfl, hk.2 k rfl call hcall (Or.inr (by simp [clientSendsChunk, hp]))⟩
  | _ => cases ht

end Site

namespace CheckedCluster

open Cluster

variable {N : ℕ} {c c' : CheckedCluster N} {a : CheckedAction N}

/-- Majorities are counted by a candidate of the term it asked for votes in, and the loops go on only at a node that leads. -/
def asLeader (c : CheckedCluster N) : CheckedAction N → Prop
  | .act x => ∀ p ∈ c.cluster.input x, Site.electsInOwnTerm N (c.cluster.sites p.1) p.2 ∧ (c.cluster.sites p.1).sendsAsLeader p.2
  | .check _ _ => True
  | .append k => ∀ p ∈ c.checked[k]?, (c.cluster.sites p.1).node.state = .leader

instance (c : CheckedCluster N) : ∀ a, Decidable (c.asLeader a)
  | .act x => inferInstanceAs (Decidable (∀ p ∈ c.cluster.input x, Site.electsInOwnTerm N (c.cluster.sites p.1) p.2 ∧
      (c.cluster.sites p.1).sendsAsLeader p.2))
  | .check _ _ => instDecidableTrue
  | .append k => inferInstanceAs (Decidable (∀ p ∈ c.checked[k]?, (c.cluster.sites p.1).node.state = .leader))

/-- The node `v` is the leader of the term `t`: it is in `LEADER` with this `currentTerm`, it has entered it so, and no other
node has. -/
structure LeaderOf (c : Cluster N) (v : Fin N) (t : ℤ) : Prop where
  leads : (c.sites v).node.leads t
  entered : (v, t) ∈ c.leaders
  only : ∀ u, (u, t) ∈ c.leaders → u = v

/-- The cluster is sound and its votes are those of the abstract protocol, and every leader has entered `LEADER` in its term. -/
structure Led (c : Cluster N) : Prop where
  sound : c.Sound
  votes : ∃ a : Global N, Moves False (Consensus.State.init 0) a ∧ Votes c a
  entered : ∀ v, (c.sites v).node.state = .leader → (v, (c.sites v).node.currentTerm) ∈ c.leaders

/-- What has entered `LEADER` stays in the history. -/
theorem leaders_append {c c' : Cluster N} {l : List (Fin N × Event)} (h : c'.events = c.events ++ l) {p : Fin N × ℤ}
    (hp : p ∈ c.leaders) : p ∈ c'.leaders := by
  rw [Cluster.leaders, h, List.filterMap_append]
  exact List.mem_append_left _ hp

/-- A node in `LEADER` is the leader of its term. -/
theorem Led.leaderOf {c : Cluster N} (h : Led c) {v : Fin N} (hv : (c.sites v).node.state = .leader) :
    LeaderOf c v (c.sites v).node.currentTerm := by
  refine ⟨⟨hv, rfl⟩, h.entered v hv, fun u hu => ?_⟩
  obtain ⟨a, _, hvotes⟩ := h.votes
  obtain ⟨n, hn, ht⟩ := mem_leaders hu
  obtain ⟨n', hn', ht'⟩ := mem_leaders (h.entered v hv)
  have hw := hvotes.led u n hn
  rw [ht, ← ht', hvotes.led v n' hn'] at hw
  exact (Option.some.inj hw).symm

/-- A leader after a step has been it before, in the same term, or has just entered `LEADER`. -/
theorem Led.act {c c' : Cluster N} (h : Led c) {x : Action N} (hP : Acts (Site.electsInOwnTerm N) c x)
    (hs : c.step x = some c') : Led c' := by
  obtain ⟨a, hm, hvotes⟩ := h.votes
  refine ⟨h.sound.step hs, hvotes.action hm h.sound hP hs, fun u hu => ?_⟩
  rcases step_cases hs with ⟨v, i, o, hi, hstep⟩ | ⟨id, y, rfl, hy, _, rfl⟩
  · rw [hstep.site u] at hu ⊢
    split at hu
    · next heq =>
      subst heq
      simp only [if_true]
      have hstate : o.site.node.role.state = .leader := hu
      rcases (h.sound.site u).role_cases ((h.sound.site u).step hstep.outcome).1 with hl | ⟨_, hr⟩ | ⟨_, _, hr, hev⟩
      · obtain ⟨hst, ht⟩ := hl.state (by rw [hstate]; decide)
        have ht : o.site.node.currentTerm = (c.sites u).node.currentTerm := ht
        rw [ht]
        exact leaders_append hstep.events (h.entered u (hst.symm.trans hstate))
      · have hcand : o.site.node.role.state = .candidate := congrArg Role.state hr
        rw [hstate] at hcand
        cases hcand
      · have ht : o.site.node.currentTerm = (Site.promoted (c.sites u).node).currentTerm := congrArg Role.currentTerm hr
        rw [ht, Cluster.leaders, hstep.events, hev, List.filterMap_append]
        exact List.mem_append_right _ (List.mem_singleton.mpr rfl)
    · next hne =>
      simp only [hne, if_false]
      exact leaders_append hstep.events (h.entered u hu)
  · exact h.entered u hu

/-- The checks of a client command change the history only, and no leader comes into it. -/
theorem Led.check {c : Cluster N} (h : Led c) (v : Fin N) (req : ClientRequest) :
    Led { c with events := c.events ++ ((c.sites v).checkRequest req).1.map (fun e => (v, e)) } := by
  have hnone (u : Fin N) (n : RaftNode) :
      (u, Event.becameLeader n) ∉ ((c.sites v).checkRequest req).1.map (fun e => (v, e)) := by
    unfold Site.checkRequest
    split
    · simp
    · split <;> simp
  obtain ⟨a, hm, hvotes⟩ := h.votes
  refine ⟨⟨h.sound.site, h.sound.id, h.sound.rpcPort, h.sound.peerRpcPorts⟩,
    ⟨a, hm, hvotes.role, hvotes.election, hvotes.calls, fun u n hev => ?_⟩, fun u hu => leaders_append rfl (h.entered u hu)⟩
  rcases List.mem_append.mp hev with hev | hev
  · exact hvotes.led u n hev
  · exact absurd hev (hnone u n)

/-- The append of a client command at a node that leads. -/
theorem Led.append {c : Cluster N} (h : Led c) {v : Fin N} (hv : (c.sites v).node.state = .leader) (req : ClientRequest) :
    Led { c with sites := Function.update c.sites v ((c.sites v).appendEntry req) } := by
  have hsite (u : Fin N) : Function.update c.sites v ((c.sites v).appendEntry req) u = c.sites u ∨
      u = v ∧ Function.update c.sites v ((c.sites v).appendEntry req) u = (c.sites u).appendEntry req := by
    by_cases hu : u = v
    · subst hu
      exact Or.inr ⟨rfl, Function.update_self _ _ _⟩
    · exact Or.inl (Function.update_of_ne hu _ _)
  have hrole (u : Fin N) : (Function.update c.sites v ((c.sites v).appendEntry req) u).node.role = (c.sites u).node.role := by
    rcases hsite u with hu | ⟨_, hu⟩ <;> rw [hu]
    rfl
  have helection (u : Fin N) : (Function.update c.sites v ((c.sites v).appendEntry req) u).election = (c.sites u).election := by
    rcases hsite u with hu | ⟨_, hu⟩ <;> rw [hu]
    rfl
  obtain ⟨a, hm, hvotes⟩ := h.votes
  refine ⟨⟨fun u => ?_, fun u => ?_, fun u => ?_, fun u => ?_⟩, ⟨a, hm, fun u => ?_, fun u el he hp => ?_, hvotes.calls,
    hvotes.led⟩, fun u hu => ?_⟩
  · show (Function.update c.sites v ((c.sites v).appendEntry req) u).Sound
    rcases hsite u with hu | ⟨rfl, hu⟩ <;> rw [hu]
    · exact h.sound.site u
    · exact (h.sound.site u).appendEntry hv req
  · exact (congrArg Role.id (hrole u)).trans (h.sound.id u)
  · exact (congrArg Role.rpcPort (hrole u)).trans (h.sound.rpcPort u)
  · exact (congrArg Role.peerRpcPorts (hrole u)).trans (h.sound.peerRpcPorts u)
  · exact hrole u ▸ hvotes.role u
  · obtain ⟨hrest, hcount, hawait⟩ := hvotes.election u el ((helection u).symm.trans he) hp
    have ht : (Function.update c.sites v ((c.sites v).appendEntry req) u).node.currentTerm = (c.sites u).node.currentTerm :=
      congrArg Role.currentTerm (hrole u)
    exact ⟨hrest, fun heq => hcount (ht.symm.trans heq), fun id hid => by
      obtain ⟨y, m, hy, hhead, hreq, hm, hterm⟩ := hawait id hid
      exact ⟨y, m, hy, hhead, hreq, hm, fun heq => hterm (ht.symm.trans heq)⟩⟩
  · have ht : (Function.update c.sites v ((c.sites v).appendEntry req) u).node.currentTerm = (c.sites u).node.currentTerm :=
      congrArg Role.currentTerm (hrole u)
    have hst : (Function.update c.sites v ((c.sites v).appendEntry req) u).node.state = (c.sites u).node.state :=
      congrArg Role.state (hrole u)
    have := h.entered u (hst.symm.trans hu)
    rw [← ht] at this
    exact this

/-- Every step keeps the leaders of the cluster the leaders of their terms. -/
theorem Led.step (h : Led c.cluster) (ha : c.asLeader a) (hs : c.step a = some c') : Led c'.cluster := by
  cases a with
  | act x =>
    have hcluster : ∃ d, c.cluster.step x = some d ∧ c'.cluster = d := by
      cases x with
      | clientRequest v req => cases hs
      | _ =>
        obtain ⟨d, hd, rfl⟩ := Option.map_eq_some_iff.mp hs
        exact ⟨d, hd, rfl⟩
    obtain ⟨d, hd, rfl⟩ := hcluster
    exact h.act (fun p hp => (ha p hp).1) hd
  | check v req =>
    obtain rfl := Option.some.inj hs
    exact h.check v req
  | append k =>
    obtain ⟨⟨v, req⟩, hp, rfl⟩ := Option.map_eq_some_iff.mp hs
    exact h.append (ha _ hp) req

/-- Only the leader of a term speaks for it: in every run in which elections are won in their own term and the loops go on only
at a node that leads, every AppendEntries or InstallSnapshot message of a term is sent, and every client entry of a term is
appended, by the one node that has entered `LEADER` in the term, and is in it. -/
theorem only_leader_speaks (h : Systems.Run step asLeader (init N) c) (ha : c.asLeader a) {v : Fin N} {t : ℤ}
    (hv : (v, t) ∈ c.spoken a) : LeaderOf c.cluster v t := by
  have hled : Led c.cluster := by
    refine h.invariant (I := fun c => Led c.cluster) (fun c a c' hc ha hs => hc.step ha hs) ?_
    refine ⟨sound_init N, ⟨_, Consensus.Steps.refl _, votes_init N⟩, fun v hv => ?_⟩
    cases hv
  cases a with
  | act x =>
    obtain ⟨⟨w, i⟩, hi, hmem⟩ := List.mem_flatMap.mp hv
    obtain ⟨t', ht, heq⟩ := List.mem_map.mp hmem
    obtain ⟨rfl, rfl⟩ := Prod.mk.inj heq
    obtain ⟨o, ho, ht⟩ := Option.bind_eq_some_iff.mp (Option.mem_toList.mp ht)
    have hstep := ((hled.sound.site w).step ho).1
    obtain ⟨rfl, hst⟩ := hstep.speaks ht (ha (w, i) (Option.mem_toList.mp hi)).2
    exact hled.leaderOf hst
  | check w req => cases hv
  | append k =>
    obtain ⟨⟨w, req⟩, hp, heq⟩ := List.mem_map.mp hv
    obtain ⟨rfl, rfl⟩ := Prod.mk.inj heq
    exact hled.leaderOf (ha _ (Option.mem_toList.mp hp))

/-- Node 0 is elected in term 1 by node 1. -/
def electedFirst : List (CheckedAction 3) :=
  [.act (.startElection 0), .act (.step 0 .election), .act (.deliver 1 0), .act (.reply 0 .election false),
    .act (.step 0 .election), .act (.reply 0 .election true), .act (.step 0 .election)]

/-- A client command has passed the checks at node 0. -/
def passed : List (CheckedAction 3) := electedFirst ++ [.check 0 (putRequest 1 "a")]

theorem passed_spoken : ∃ c ∈ Systems.runAll step asLeader (init 3) passed,
    c.asLeader (.append 0) ∧ (0, 1) ∈ c.spoken (.append 0) := by
  decide +kernel

/-- In that run the command is appended by the leader of term 1. -/
theorem only_leader_speaks_passed : ∃ c ∈ Systems.runAll step asLeader (init 3) passed, LeaderOf c.cluster 0 1 := by
  obtain ⟨c, hc, ha, hs⟩ := passed_spoken
  exact ⟨c, hc, only_leader_speaks (Systems.Run.refl.runAll hc) ha hs⟩

/-- Node 0 has sent its first entry to node 1 when node 1 asks it for a vote in term 2, and goes on to node 2. -/
def demoted : List (CheckedAction 3) :=
  passed ++ [.append 0, .act (.step 0 (.client 0)), .act (.startElection 1), .act (.step 1 .election), .act (.deliver 0 3),
    .act (.reply 0 (.client 0) true)]

theorem demoted_spoken : ∃ c ∈ Systems.runAll step (fun _ _ => True) (init 3) demoted,
    (0, 2) ∈ c.spoken (.act (.step 0 (.client 0))) ∧ (c.cluster.sites 0).node.state = .follower := by
  decide +kernel

/-- A node can send AppendEntries in a term that it does not lead. -/
theorem follower_speaks : ¬∀ (c : CheckedCluster 3) a, Systems.Run step (fun _ _ => True) (init 3) c →
    ∀ v t, (v, t) ∈ c.spoken a → LeaderOf c.cluster v t := by
  intro h
  obtain ⟨c, hc, hs, hst⟩ := demoted_spoken
  have hl := (h c _ (Systems.Run.refl.runAll hc) 0 2 hs).leads.1
  rw [hst] at hl
  cases hl

end CheckedCluster

end RaftStore
