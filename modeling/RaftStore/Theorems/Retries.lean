import RaftStore.Lemmas.Entries
import RaftStore.Theorems.Alignment
import RaftStore.Theorems.Applied

/-!
# Requests that are sent again

The table of `handleClientCommand` has a request only once it is committed, on the leader that committed it. A request that is sent
again before, or to another node, is appended again, and both entries may be applied. No request takes effect twice in a run in
which a request is appended only while no entry for it is left in a log, in a message or among what was applied, and in which
entries stay in their places.
-/

namespace RaftStore

namespace Cluster

variable {N : ℕ} {c c' : Cluster N} {v w : Fin N} {e e' : LogEntry} {Q : LogEntry → Prop}

/-- The entries in the logs, in the messages that were sent, and among what was applied. -/
def entries (c : Cluster N) : List LogEntry :=
  (List.finRange N).flatMap (fun v => (c.sites v).node.log) ++ c.calls.flatMap (fun y => y.req.entries) ++
    c.events.filterMap (fun p => p.2.application.map Prod.snd)

/-- The node appends an entry when the request comes in. -/
def appends (c : Cluster N) (v : Fin N) (req : ClientRequest) : Prop :=
  (c.sites v).node.state = .leader ∧ Site.cachedResult (c.sites v).node req = none

instance (c : Cluster N) (v : Fin N) (req : ClientRequest) : Decidable (c.appends v req) := instDecidableAnd

/-- A request is appended only while there is no entry for it. -/
def appendsOnce (c : Cluster N) : Action N → Prop
  | .clientRequest v req => c.appends v req → ∀ e ∈ c.entries, e.origin ≠ (req.clientId, req.requestId)
  | _ => True

instance (c : Cluster N) : ∀ x : Action N, Decidable (c.appendsOnce x)
  | .clientRequest v req =>
    inferInstanceAs (Decidable (c.appends v req → ∀ e ∈ c.entries, e.origin ≠ (req.clientId, req.requestId)))
  | .startElection _ | .step _ _ | .reply _ _ _ | .deliver _ _ | .garble _ | .snapshotNow _ | .restart _ => instDecidableTrue

/-- The action appends a request once, and keeps entries in their places. -/
def keepsOnce (c : Cluster N) (x : Action N) : Prop := Acts Site.keepsPlaces c x ∧ c.appendsOnce x

instance (c : Cluster N) (x : Action N) : Decidable (keepsOnce c x) := instDecidableAnd

/-! ## Where the entries of a cluster come from -/

/-- The entries have the property, wherever they are. -/
structure Within (c : Cluster N) (Q : LogEntry → Prop) : Prop where
  log : ∀ v, (c.sites v).node.Within Q
  sent : ∀ y ∈ c.calls, ∀ e ∈ y.req.entries, Q e
  applied : ∀ v j e, (v, Event.applied j e) ∈ c.events → Q e

theorem within_entries (c : Cluster N) : c.Within (· ∈ c.entries) where
  log v _ he := List.mem_append_left _ (List.mem_append_left _ (List.mem_flatMap.mpr ⟨v, List.mem_finRange v, he⟩))
  sent y hy _ he := List.mem_append_left _ (List.mem_append_right _ (List.mem_flatMap.mpr ⟨y, hy, he⟩))
  applied _ _ _ hev := List.mem_append_right _ (List.mem_filterMap.mpr ⟨_, hev, rfl⟩)

theorem Within.entries (h : c.Within Q) : ∀ e ∈ c.entries, Q e := by
  intro e he
  rcases List.mem_append.mp he with he | he
  · rcases List.mem_append.mp he with he | he
    · obtain ⟨v, _, he⟩ := List.mem_flatMap.mp he
      exact h.log v e he
    · obtain ⟨y, hy, he⟩ := List.mem_flatMap.mp he
      exact h.sent y hy e he
  · obtain ⟨⟨v, ev⟩, hp, heq⟩ := List.mem_filterMap.mp he
    obtain ⟨⟨j, e'⟩, happ, rfl⟩ := Option.map_eq_some_iff.mp heq
    exact h.applied v j e' (Event.application_eq happ ▸ hp)

theorem Within.mono {Q' : LogEntry → Prop} (h : c.Within Q) (hQ : ∀ e, Q e → Q' e) : c.Within Q' where
  log v e he := hQ e (h.log v e he)
  sent y hy e he := hQ e (h.sent y hy e he)
  applied v j e hev := hQ e (h.applied v j e hev)

/-- A reply that is noted leaves the messages as they are. -/
theorem noteReply_within {l : List Call} (h : ∀ y ∈ l, ∀ e ∈ y.req.entries, Q e) (id : ℕ) (resp : Option Reply) :
    ∀ y ∈ noteReply l id resp, ∀ e ∈ y.req.entries, Q e := by
  intro y hy
  rcases mem_noteReply hy with hy | ⟨y₀, hy₀, rfl⟩
  · exact h y hy
  · exact h y₀ (List.mem_of_getElem? hy₀)

/-- What holds of all entries, and of the one that a step of a site appends, holds of all entries after it. -/
theorem Within.siteStep {i : Input} {o : Outcome} (h : c.Within Q) (hc : c.Sound) (hs : SiteStep c c' v i o)
    (hnew : ∀ req, i = .clientRequest req → c.appends v req → Q (Site.newEntry (c.sites v).node req)) : c'.Within Q := by
  have hst := ((hc.site v).step hs.outcome).1
  have hi : ∀ e ∈ i.entries, Q e := by
    rcases hs.calls with ⟨hno, _⟩ | ⟨_, y, hy, rfl, _⟩
    · intro e he
      cases i with
      | receive req => exact absurd rfl (hno req)
      | _ => cases he
    · exact h.sent y (List.mem_of_getElem? hy)
  have hlog := hst.within (hc.site v) (h.log v) hi fun req hreq hl hcache => hnew req hreq ⟨hl, hcache⟩
  have hcalls : ∀ y ∈ c.calls ++ o.calls, ∀ e ∈ y.req.entries, Q e := by
    intro y hy
    rcases List.mem_append.mp hy with hy | hy
    · exact h.sent y hy
    · obtain ⟨x, hx, rfl⟩ := List.mem_map.mp hy
      exact hst.sends (h.log v) (Option.mem_toList.mp hx)
  refine ⟨fun u => ?_, ?_, fun u j e hev => ?_⟩
  · rw [hs.site u]
    split
    · exact hlog
    · exact h.log u
  · rcases hs.calls with ⟨_, heq⟩ | ⟨id, _, _, _, _, _, heq⟩ <;> rw [heq]
    · exact hcalls
    · exact noteReply_within hcalls id _
  · rw [hs.events] at hev
    rcases List.mem_append.mp hev with hev | hev
    · exact h.applied u j e hev
    · obtain ⟨_, hev, heq⟩ := List.mem_map.mp hev
      obtain ⟨rfl, rfl⟩ := Prod.mk.inj heq
      rcases hst.applied (hc.site v) hev with he | ⟨m, rfl, _, he⟩
      · exact h.log v e (RaftNode.mem_of_entryAt he)
      · exact ((h.log v).stepDown m).acceptEntries hi e (RaftNode.mem_of_entryAt he)

/-! ## One entry for a request -/

/-- There is one entry for each request, and it was applied at its own index. -/
structure Once (c : Cluster N) : Prop where
  one : ∀ e ∈ c.entries, ∀ e' ∈ c.entries, e.origin = e'.origin → e = e'
  index : ∀ v j e, (v, Event.applied j e) ∈ c.events → e.index = j

theorem once_init (N : ℕ) : (init N).Once where
  one e he := by
    have hnone : (init N).Within fun _ => False :=
      ⟨fun _ _ he => absurd he List.not_mem_nil, fun _ hy => absurd hy List.not_mem_nil,
        fun _ _ _ hev => absurd hev List.not_mem_nil⟩
    exact (hnone.entries e he).elim
  index _ _ _ hev := absurd hev List.not_mem_nil

/-- What a step applies is applied at its own index. -/
theorem Straight.applied_index {i : Input} {o : Outcome} (h : c.Straight) (hc : c.Sound) (hs : SiteStep c c' v i o)
    (hk : Site.keepsPlaces (c.sites v) i) {j : ℤ} (hev : Event.applied j e ∈ o.events) : e.index = j := by
  have hn := (h.site v).node
  rcases ((hc.site v).step hs.outcome).1.applied (hc.site v) hev with he | ⟨m, rfl, hacc, he⟩
  · exact hn.places.index_eq he
  · have hreq : (Request.appendEntries m).Straight := by
      rcases hs.calls with ⟨hno, _⟩ | ⟨_, y, hy, hi, _⟩
      · exact absurd rfl (hno _)
      · obtain heq := Input.receive.inj hi
        exact heq ▸ h.call y (List.mem_of_getElem? hy)
    exact (hn.takeOver hreq hacc.1 (hk.2.1 m rfl)).places.index_eq he

theorem Once.step {x : Action N} (h : c.Once) (hc : c.Sound) (hs : c.Straight) (hk : keepsOnce c x)
    (hstep : c.step x = some c') : c'.Once := by
  rcases step_cases hstep with ⟨v, i, o, hi, hst⟩ | ⟨id, y, _, _, _, rfl⟩
  · have hnew : c'.Within fun e => e ∈ c.entries ∨
        ∃ req, i = .clientRequest req ∧ c.appends v req ∧ e = Site.newEntry (c.sites v).node req :=
      (c.within_entries.mono fun e he => Or.inl he).siteStep hc hst fun req hreq ha => Or.inr ⟨req, hreq, ha, rfl⟩
    -- the request of the new entry has no entry yet
    have hfresh {req : ClientRequest} (hreq : i = .clientRequest req) (ha : c.appends v req) {e : LogEntry}
        (he : e ∈ c.entries) : e.origin ≠ (req.clientId, req.requestId) := by
      subst hreq
      cases x with
      | clientRequest u r =>
        obtain ⟨rfl, hr⟩ := Prod.mk.inj (Option.some.inj hi)
        obtain rfl := Input.clientRequest.inj hr
        exact hk.2 ha e he
      | reply u t lost => cases lost <;> simp [input] at hi
      | _ => simp [input] at hi
    refine ⟨fun e he e' he' ho => ?_, fun u j e hev => ?_⟩
    · rcases hnew.entries e he with he | ⟨req, hreq, ha, rfl⟩ <;> rcases hnew.entries e' he' with he' | ⟨req', hreq', ha', rfl⟩
      · exact h.one e he e' he' ho
      · exact absurd ho (hfresh hreq' ha' he)
      · exact absurd ho.symm (hfresh hreq ha he')
      · obtain rfl := Input.clientRequest.inj (hreq.symm.trans hreq')
        rfl
    · rw [hst.events] at hev
      rcases List.mem_append.mp hev with hev | hev
      · exact h.index u j e hev
      · obtain ⟨_, hev, heq⟩ := List.mem_map.mp hev
        obtain ⟨_, rfl⟩ := Prod.mk.inj heq
        exact hs.applied_index hc hst (hk.1 _ hi) hev
  · have hw : (c.answer id (some .invalid)).Within (· ∈ c.entries) :=
      ⟨c.within_entries.log, noteReply_within c.within_entries.sent id _, c.within_entries.applied⟩
    exact ⟨fun e he e' he' => h.one e (hw.entries e he) e' (hw.entries e' he'), h.index⟩

theorem Reachable.once (h : Reachable keepsOnce c) : c.Once := by
  induction h with
  | init => exact once_init N
  | step hreach hP hstep ih =>
    exact ih.step hreach.sound (hreach.mono fun _ _ hx => hx.1).straight hP hstep

/-- In every run in which a request is appended only while there is no entry for it, and entries stay in their places, what the
nodes have applied for one request is one entry, at one index. -/
theorem applied_once (h : Reachable keepsOnce c) {i j : ℤ} (hi : (v, Event.applied i e) ∈ c.events)
    (hj : (w, Event.applied j e') ∈ c.events) (ho : e.origin = e'.origin) : i = j ∧ e = e' := by
  have hone := h.once
  have heq := hone.one e (c.within_entries.applied v i e hi) e' (c.within_entries.applied w j e' hj) ho
  exact ⟨by rw [← hone.index v i e hi, ← hone.index w j e' hj, heq], heq⟩

/-- The second of two committed commands is sent again, and answered from the table. -/
def answeredAgain : List (Action 3) := heartbeatCommit ++ [.clientRequest 0 (putRequest 2 "b")]

theorem answeredAgain_applications : ∃ c ∈ run keepsOnce (init 3) answeredAgain,
    (1, putEntry 1 1 2 "b") ∈ c.applications 0 := by
  decide +kernel

/-- In that run every node has applied the command at index 1 and nowhere else. -/
theorem applied_once_answeredAgain : ∃ c : Cluster 3, run keepsOnce (init 3) answeredAgain = some c ∧
    ∀ w j e, (w, Event.applied j e) ∈ c.events → e.origin = (ascii "client-4", 2) → j = 1 := by
  obtain ⟨c, hc, h0⟩ := answeredAgain_applications
  refine ⟨c, hc, fun w j e hev ho => ?_⟩
  exact (applied_once (Reachable.init.run hc) (mem_applications h0) hev ho.symm).1.symm

/-- The second command reaches no peer, is answered with an error and sent again. Then a peer gets both entries. -/
def sentAgain : List (Action 3) :=
  [.startElection 0, .step 0 .election, .deliver 1 0, .reply 0 .election false, .step 0 .election, .reply 0 .election true,
    .step 0 .election,
    .clientRequest 0 (putRequest 1 "a"), .step 0 (.client 0), .reply 0 (.client 0) true, .step 0 (.client 0),
    .reply 0 (.client 0) true, .step 0 (.client 0),
    .clientRequest 0 (putRequest 2 "b"), .step 0 (.client 1), .reply 0 (.client 1) true, .step 0 (.client 1),
    .reply 0 (.client 1) true, .step 0 (.client 1),
    .clientRequest 0 (putRequest 2 "b"), .step 0 (.client 2), .deliver 1 6, .reply 0 (.client 2) false, .step 0 (.client 2),
    .reply 0 (.client 2) true, .step 0 (.client 2)]

theorem sentAgain_applications : ∃ c ∈ run anyAction (init 3) sentAgain,
    (1, putEntry 1 1 2 "b") ∈ c.applications 0 ∧ (2, putEntry 1 2 2 "b") ∈ c.applications 0 := by
  decide +kernel

/-- A node can apply two entries of one request. -/
theorem applied_twice : ¬∀ (c : Cluster 3), Reachable anyAction c → ∀ v i j e e', (v, Event.applied i e) ∈ c.events →
    (v, Event.applied j e') ∈ c.events → e.origin = e'.origin → i = j ∧ e = e' := by
  intro h
  obtain ⟨c, hc, h1, h2⟩ := sentAgain_applications
  have := (h c (Reachable.init.run hc) 0 1 2 _ _ (mem_applications h1) (mem_applications h2) rfl).1
  exact absurd this (by decide)

end Cluster

end RaftStore
