import RaftStore.Lemmas.Tables
import RaftStore.Process

/-!
# Answers from the table

While a process runs, no two messages of `handle_client` have the same client and number, so that a request that is found in the
table is the one whose result was recorded. The table is loaded again when the process is started again, and the numbers begin
anew: a request that is found under an entry of an earlier process is another one.
-/

namespace RaftStore

/-! ## Names of clients -/

/-- The number whose digits these are, least significant first. -/
def ofDigits : Str → ℕ
  | [] => 0
  | b :: bs => (b.toNat - 48) + 10 * ofDigits bs

theorem ofDigits_digits {fuel n : ℕ} (h : n < fuel) : ofDigits (digits fuel n) = n := by
  induction fuel generalizing n with
  | zero => omega
  | succ fuel ih =>
    have hdigit : (48 + n % 10).toUInt8.toNat = 48 + n % 10 := by
      simp only [Nat.toUInt8, UInt8.toNat_ofNat']
      omega
    unfold digits
    rw [ofDigits, hdigit]
    split
    · simp only [ofDigits]
      omega
    · rw [ih (by omega)]
      omega

/-- Connections over different sockets have different client ids. -/
theorem clientIdOf_inj {s t : ℕ} (h : clientIdOf s = clientIdOf t) : s = t := by
  have htext : toString s = toString t := List.append_cancel_left h
  have hdigits : digits (s + 1) s = digits (t + 1) t := List.reverse_injective htext
  rw [← ofDigits_digits (Nat.lt_succ_self s), hdigits, ofDigits_digits (Nat.lt_succ_self t)]

/-! ## Restarts -/

namespace Cluster

variable {N : ℕ} {c c' : Cluster N}

/-- A node that is started again has no threads, and leaves nothing in the history. -/
theorem step_restart {v : Fin N} (h : c.step (.restart v) = some c') :
    c'.events = c.events ∧ ∀ u, (c'.sites u).clients = if u = v then [] else (c.sites u).clients := by
  obtain ⟨o, ho, rfl⟩ := Option.map_eq_some_iff.mp h
  obtain ⟨x, _, rfl⟩ := Option.map_eq_some_iff.mp ho
  refine ⟨List.append_nil _, fun u => ?_⟩
  show (Function.update c.sites v _ u).clients = _
  rw [Function.update_apply]
  split <;> rfl

theorem foldlM_restart {l : List (Fin N)} (hc : c.Sound) (h : l.foldlM (fun c v => c.step (.restart v)) c = some c') :
    c'.Sound ∧ c'.events = c.events ∧ ∀ u, u ∈ l ∨ (c.sites u).clients = [] → (c'.sites u).clients = [] := by
  induction l generalizing c with
  | nil =>
    obtain rfl := Option.some.inj h
    exact ⟨hc, rfl, fun u hu => hu.elim (fun hu => absurd hu List.not_mem_nil) (fun hu => hu)⟩
  | cons v l ih =>
    rw [List.foldlM_cons] at h
    obtain ⟨d, hd, h⟩ := Option.bind_eq_some_iff.mp h
    obtain ⟨hev, hcl⟩ := step_restart hd
    obtain ⟨hs, hev', hcl'⟩ := ih (hc.step hd) h
    refine ⟨hs, hev'.trans hev, fun u hu => hcl' u ?_⟩
    rw [hcl u]
    split
    · exact Or.inr rfl
    · next hne => exact hu.imp (fun hu => (List.mem_cons.mp hu).resolve_left hne) (fun hu => hu)

/-- The cluster after a start over the files of an earlier process. -/
theorem reboot_spec (hc : c.Sound) (h : c.reboot = some c') :
    c'.Sound ∧ c'.events = c.events ∧ ∀ u, (c'.sites u).clients = [] := by
  obtain ⟨store, _, h⟩ := Option.bind_eq_some_iff.mp h
  obtain ⟨hs, hev, hcl⟩ := foldlM_restart (c := { c with store := store, calls := [] })
    ⟨hc.site, hc.id, hc.rpcPort, hc.peerRpcPorts⟩ h
  exact ⟨hs, hev, fun u => hcl u (Or.inl (List.mem_finRange u))⟩

end Cluster

/-- The client a result was recorded for. -/
def Event.recordedFor : Event → Option Str
  | .recorded req _ => some req.clientId
  | _ => none

theorem Event.recordedFor_eq {ev : Event} {clientId : Str} (h : ev.recordedFor = some clientId) :
    ∃ req result, ev = .recorded req result ∧ req.clientId = clientId := by
  cases ev with
  | recorded req result => exact ⟨req, result, rfl, Option.some.inj h⟩
  | _ => cases h

/-- The session that a result was recorded for. -/
def Event.recordedIn : Event → Option ℕ
  | .recorded req _ => some req.session
  | _ => none

/-- The session that a result from the table was given to, and the result. -/
def Event.answer : Event → Option (ℕ × Str)
  | .cached req result => some (req.session, result)
  | _ => none

theorem Event.answer_eq {ev : Event} {session : ℕ} {result : Str} (h : ev.answer = some (session, result)) :
    ∃ req, ev = .cached req result ∧ req.session = session := by
  cases ev with
  | cached req result' =>
    obtain ⟨hs, rfl⟩ := Prod.mk.inj (Option.some.inj h)
    exact ⟨req, rfl, hs⟩
  | _ => cases h

namespace Process

open Cluster (SiteStep)

variable {N : ℕ} {p p' : Process N} {c' : Cluster N} {v : Fin N}

/-- The node has recorded a result for the client since the process was started. -/
def recordedSince (p : Process N) (v : Fin N) (clientId : Str) : Prop :=
  ∃ q ∈ p.cluster.events.drop p.since, q.1 = v ∧ q.2.recordedFor = some clientId

instance (p : Process N) (v : Fin N) (clientId : Str) : Decidable (p.recordedSince v clientId) :=
  inferInstanceAs (Decidable (∃ q ∈ p.cluster.events.drop p.since, q.1 = v ∧ q.2.recordedFor = some clientId))

/-- A message is answered from the table only for a client that a result was recorded for since the process was started. -/
def freshHits (p : Process N) : Happening N → Prop
  | .attempt v k => ∀ req ∈ p.sent[k]?, (p.cluster.sites v).node.state = .leader →
      (Site.cachedResult (p.cluster.sites v).node req).isSome → p.recordedSince v req.clientId
  | _ => True

instance (p : Process N) : ∀ x : Happening N, Decidable (p.freshHits x)
  | .attempt v k => inferInstanceAs (Decidable (∀ req ∈ p.sent[k]?, (p.cluster.sites v).node.state = .leader →
      (Site.cachedResult (p.cluster.sites v).node req).isSome → p.recordedSince v req.clientId))
  | .connect _ | .disconnect _ | .line _ _ | .cluster _ | .restart => instDecidableTrue

/-- Every result that was taken from the table had been recorded before, on the same node, for a request of the same session with
the same command, key and value. -/
def Answered (p : Process N) : Prop :=
  ∀ pre post v req result, p.cluster.events = pre ++ (v, .cached req result) :: post →
    ∃ req', (v, .recorded req' result) ∈ pre ∧ req'.session = req.session ∧ req'.command = req.command ∧
      req'.key = req.key ∧ req'.value = req.value

/-- What is known of the messages of this process, and of the table entries that were recorded since it was started. -/
structure Tracked (p : Process N) : Prop where
  sound : p.cluster.Sound
  numbered : ∀ r ∈ p.sent, ∃ socket, r.clientId = clientIdOf socket ∧
    r.requestId ≤ (p.clientRequestCounter.lookup socket).getD 0
  unique : ∀ r ∈ p.sent, ∀ r' ∈ p.sent, r.clientId = r'.clientId → r.requestId = r'.requestId → r = r'
  clients : ∀ v, ∀ call ∈ (p.cluster.sites v).clients, call.req ∈ p.sent
  since_le : p.since ≤ p.cluster.events.length
  table : ∀ v clientId, p.recordedSince v clientId → ∃ r ∈ p.sent, ∃ result, r.clientId = clientId ∧
    (v, Event.recorded r result) ∈ p.cluster.events ∧
    (p.cluster.sites v).node.clientLastRequest.lookup clientId = some r.requestId ∧
    (p.cluster.sites v).node.clientResultCache.lookup clientId = some result

theorem tracked_init (N : ℕ) : (init N).Tracked where
  sound := Cluster.sound_init N
  numbered _ hr := absurd hr List.not_mem_nil
  unique _ hr := absurd hr List.not_mem_nil
  clients _ _ hc := absurd hc List.not_mem_nil
  since_le := le_rfl
  table _ _ h := by
    obtain ⟨_, hq, _⟩ := h
    exact absurd hq List.not_mem_nil

/-- A line that is typed gets a number that no message of the socket has had. -/
theorem Tracked.line (h : p.Tracked) (socket session : ℕ) (l : Line) :
    ({ p with
      clientRequestCounter := p.clientRequestCounter.insert socket (p.nextRequestId socket)
      sent := p.sent ++ (p.request socket session l).toList } : Process N).Tracked := by
  have hnew {r : ClientRequest} (hr : r ∈ (p.request socket session l).toList) :
      r.clientId = clientIdOf socket ∧ r.requestId = p.nextRequestId socket := by
    obtain ⟨_, _, rfl⟩ := Option.map_eq_some_iff.mp (Option.mem_toList.mp hr)
    exact ⟨rfl, rfl⟩
  have hold {r r' : ClientRequest} (hr : r ∈ p.sent) (hr' : r' ∈ (p.request socket session l).toList)
      (hc : r.clientId = r'.clientId) : r.requestId ≠ r'.requestId := by
    obtain ⟨s, hs, hle⟩ := h.numbered r hr
    obtain ⟨hid, hnum⟩ := hnew hr'
    obtain rfl := clientIdOf_inj (hs.symm.trans (hc.trans hid))
    rw [hnum, nextRequestId]
    omega
  refine ⟨h.sound, fun r hr => ?_, fun r hr r' hr' hc hn => ?_, fun v call hc => List.mem_append_left _ (h.clients v call hc),
    h.since_le, fun v clientId hrec => ?_⟩
  · rcases List.mem_append.mp hr with hr | hr
    · obtain ⟨s, hs, hle⟩ := h.numbered r hr
      refine ⟨s, hs, ?_⟩
      by_cases heq : s = socket
      · subst heq
        rw [AList.lookup_insert, Option.getD_some, nextRequestId]
        omega
      · rwa [AList.lookup_insert_ne heq]
    · obtain ⟨hid, hnum⟩ := hnew hr
      exact ⟨socket, hid, by rw [AList.lookup_insert, hnum]; rfl⟩
  · rcases List.mem_append.mp hr with hr | hr <;> rcases List.mem_append.mp hr' with hr' | hr'
    · exact h.unique r hr r' hr' hc hn
    · exact absurd hn (hold hr hr' hc)
    · exact absurd hn.symm (hold hr' hr hc.symm)
    · exact Option.some.inj ((Option.mem_toList.mp hr).symm.trans (Option.mem_toList.mp hr'))
  · obtain ⟨r, hr, hrest⟩ := h.table v clientId hrec
    exact ⟨r, List.mem_append_left _ hr, hrest⟩

/-- What is recorded since the process was started was recorded before the step, or in the step. -/
theorem recordedSince_step {i : Input} {o : Outcome} (h : p.since ≤ p.cluster.events.length) (hs : SiteStep p.cluster c' v i o)
    {u : Fin N} {clientId : Str} (hrec : ({ p with cluster := c' } : Process N).recordedSince u clientId) :
    p.recordedSince u clientId ∨ u = v ∧ ∃ req result, Event.recorded req result ∈ o.events ∧ req.clientId = clientId := by
  obtain ⟨q, hq, rfl, hfor⟩ := hrec
  have hevents : c'.events.drop p.since = p.cluster.events.drop p.since ++ o.events.map (fun e => (v, e)) := by
    rw [hs.events, List.drop_append_of_le_length h]
  have hq : q ∈ p.cluster.events.drop p.since ++ o.events.map (fun e => (v, e)) := hevents ▸ hq
  rcases List.mem_append.mp hq with hq | hq
  · exact Or.inl ⟨q, hq, rfl, hfor⟩
  · obtain ⟨ev, hev, rfl⟩ := List.mem_map.mp hq
    obtain ⟨req, result, rfl, heq⟩ := Event.recordedFor_eq hfor
    exact Or.inr ⟨rfl, req, result, hev, heq⟩

/-- A step keeps what is known of the table entries: it leaves them alone, or records one of a request of this process. -/
theorem Tracked.table_step {i : Input} {o : Outcome} (h : p.Tracked) (hs : SiteStep p.cluster c' v i o) (hi : i ≠ .restart)
    {u : Fin N} {clientId : Str} (hrec : ({ p with cluster := c' } : Process N).recordedSince u clientId) :
    ∃ r ∈ p.sent, ∃ result, r.clientId = clientId ∧ (u, Event.recorded r result) ∈ c'.events ∧
      (c'.sites u).node.clientLastRequest.lookup clientId = some r.requestId ∧
      (c'.sites u).node.clientResultCache.lookup clientId = some result := by
  have hcases := recordedSince_step h.since_le hs hrec
  -- an entry that was there before and that the tables still have
  have hold (hb : p.recordedSince u clientId)
      (hl : (c'.sites u).node.clientLastRequest.lookup clientId = (p.cluster.sites u).node.clientLastRequest.lookup clientId)
      (hc : (c'.sites u).node.clientResultCache.lookup clientId =
        (p.cluster.sites u).node.clientResultCache.lookup clientId) :
      ∃ r ∈ p.sent, ∃ result, r.clientId = clientId ∧ (u, Event.recorded r result) ∈ c'.events ∧
        (c'.sites u).node.clientLastRequest.lookup clientId = some r.requestId ∧
        (c'.sites u).node.clientResultCache.lookup clientId = some result := by
    obtain ⟨r, hr, result, hid, hmem, hlast, hcache⟩ := h.table u clientId hb
    exact ⟨r, hr, result, hid, hs.events ▸ List.mem_append_left _ hmem, hl.trans hlast, hc.trans hcache⟩
  by_cases hv : u = v
  · subst hv
    have hsite : c'.sites u = o.site := (hs.site u).trans (if_pos rfl)
    rw [hsite] at hold ⊢
    have hst := ((h.sound.site u).step hs.outcome).1
    rcases hst.tables_cases (h.sound.site u) hi with ⟨ht, hnone⟩ | ⟨call, hcall, result, ht, evs, hev, hoff⟩
    · obtain ⟨hlast, hcache⟩ := Prod.mk.inj ht
      rcases hcases with hb | ⟨_, req, res, hmem, _⟩
      · exact hold hb (by rw [hlast]) (by rw [hcache])
      · exact absurd hmem (hnone req res)
    · obtain ⟨hlast, hcache⟩ := Prod.mk.inj ht
      by_cases hid : clientId = call.req.clientId
      · have hmem : Event.recorded call.req result ∈ o.events := hev ▸ List.mem_append_right _ List.mem_cons_self
        refine ⟨call.req, h.clients u call hcall, result, hid.symm, ?_, ?_, ?_⟩
        · exact hs.events ▸ List.mem_append_right _ (List.mem_map.mpr ⟨_, hmem, rfl⟩)
        · rw [hlast, hid, AList.lookup_insert]
        · rw [hcache, hid, AList.lookup_insert]
      · rcases hcases with hb | ⟨_, req, res, hmem, heq⟩
        · exact hold hb (by rw [hlast, AList.lookup_insert_ne hid]) (by rw [hcache, AList.lookup_insert_ne hid])
        · rw [hev] at hmem
          rcases List.mem_append.mp hmem with hmem | hmem
          · exact absurd rfl ((hoff _ hmem).1 req res)
          · obtain ⟨rfl, _⟩ := Event.recorded.inj (List.mem_singleton.mp hmem)
            exact absurd heq.symm hid
  · have hsite : c'.sites u = p.cluster.sites u := (hs.site u).trans (if_neg hv)
    rcases hcases with hb | ⟨huv, _⟩
    · exact hold hb (by rw [hsite]) (by rw [hsite])
    · exact absurd huv hv

/-- A step of a site whose client requests are messages of this process. -/
theorem Tracked.siteStep {i : Input} {o : Outcome} (h : p.Tracked) (hs : SiteStep p.cluster c' v i o) (hi : i ≠ .restart)
    (hreq : ∀ req, i = .clientRequest req → req ∈ p.sent) : ({ p with cluster := c' } : Process N).Tracked := by
  have hst := ((h.sound.site v).step hs.outcome).1
  refine ⟨h.sound.siteStep hs, h.numbered, h.unique, fun u call hc => ?_, ?_, fun u clientId hrec => h.table_step hs hi hrec⟩
  · have hc : call ∈ (c'.sites u).clients := hc
    rw [hs.site u] at hc
    split at hc
    · rcases hst.requests hc with ⟨call₀, hc₀, heq⟩ | hin
      · exact heq ▸ h.clients v call₀ hc₀
      · exact hreq _ hin
    · exact h.clients u call hc
  · show p.since ≤ c'.events.length
    rw [hs.events, List.length_append]
    exact h.since_le.trans (Nat.le_add_right _ _)

/-- A request that is found under an entry recorded since the process was started is the request of that entry. -/
theorem Answered.siteStep {i : Input} {o : Outcome} (ha : p.Answered) (h : p.Tracked) (hs : SiteStep p.cluster c' v i o)
    (hreq : ∀ req, i = .clientRequest req → req ∈ p.sent ∧ ((p.cluster.sites v).node.state = .leader →
      (Site.cachedResult (p.cluster.sites v).node req).isSome → p.recordedSince v req.clientId)) :
    ({ p with cluster := c' } : Process N).Answered := by
  have hst := ((h.sound.site v).step hs.outcome).1
  intro pre post u req result heq
  rw [show ({ p with cluster := c' } : Process N).cluster.events = _ from hs.events] at heq
  have hnew (hmem : (u, Event.cached req result) ∈ o.events.map (fun e => (v, e))) (hpre : p.cluster.events ⊆ pre) :
      ∃ req', (u, Event.recorded req' result) ∈ pre ∧ req'.session = req.session ∧ req'.command = req.command ∧
        req'.key = req.key ∧ req'.value = req.value := by
    obtain ⟨_, hev, hpair⟩ := List.mem_map.mp hmem
    obtain ⟨rfl, rfl⟩ := Prod.mk.inj hpair
    obtain ⟨rfl, hl, hhit, _⟩ := hst.cached_eq (h.sound.site v) hev
    obtain ⟨hsent, hfresh⟩ := hreq req rfl
    obtain ⟨r, hr, res, hid, hrec, hlast, hcache⟩ := h.table v req.clientId (hfresh hl (by rw [hhit]; rfl))
    unfold Site.cachedResult at hhit
    rw [hlast, hcache] at hhit
    split at hhit
    · next hn =>
      obtain rfl := h.unique r hr req hsent hid (Option.some.inj hn)
      obtain rfl := Option.some.inj hhit
      exact ⟨r, hpre hrec, rfl, rfl, rfl, rfl⟩
    · cases hhit
  rcases List.append_eq_append_iff.mp heq with ⟨mid, rfl, hmid⟩ | ⟨mid, hmid, hpost⟩
  · exact hnew (by rw [hmid]; exact List.mem_append_right _ List.mem_cons_self) (List.subset_append_left _ _)
  · cases mid with
    | nil =>
      rw [List.nil_append] at hpost
      rw [List.append_nil] at hmid
      exact hnew (by rw [← hpost]; exact List.mem_cons_self) (by rw [hmid]; exact List.Subset.refl _)
    | cons x mid =>
      -- the answer is one of the earlier history
      obtain ⟨rfl, _⟩ := List.cons.inj hpost
      exact ha pre mid u req result hmid

/-- An action of the nodes among themselves is not a client request, and no node is started again in it. -/
theorem input_internal {c : Cluster N} {x : Action N} (hx : x.internal = true) {i : Input} (hi : c.input x = some (v, i)) :
    i ≠ .restart ∧ ∀ req, i ≠ .clientRequest req := by
  cases x with
  | clientRequest u req => cases hx
  | restart u => cases hx
  | garble id => cases hi
  | startElection u =>
    obtain ⟨_, rfl⟩ := Prod.mk.inj (Option.some.inj hi)
    exact ⟨nofun, fun _ => nofun⟩
  | step u t =>
    obtain ⟨_, rfl⟩ := Prod.mk.inj (Option.some.inj hi)
    exact ⟨nofun, fun _ => nofun⟩
  | snapshotNow u =>
    obtain ⟨_, rfl⟩ := Prod.mk.inj (Option.some.inj hi)
    exact ⟨nofun, fun _ => nofun⟩
  | reply u t lost =>
    cases lost with
    | true =>
      obtain ⟨_, rfl⟩ := Prod.mk.inj (Option.some.inj hi)
      exact ⟨nofun, fun _ => nofun⟩
    | false =>
      obtain ⟨_, _, heq⟩ := Option.map_eq_some_iff.mp hi
      obtain ⟨_, rfl⟩ := Prod.mk.inj heq
      exact ⟨nofun, fun _ => nofun⟩
  | deliver u id =>
    obtain ⟨_, _, heq⟩ := Option.map_eq_some_iff.mp hi
    obtain ⟨_, rfl⟩ := Prod.mk.inj heq
    exact ⟨nofun, fun _ => nofun⟩

/-- Every step under the condition keeps what is known of the table, and answers only what was recorded. -/
theorem Tracked.step {x : Happening N} (h : p.Tracked) (ha : p.Answered) (hf : p.freshHits x) (hs : p.step x = some p') :
    p'.Tracked ∧ p'.Answered := by
  cases x with
  | connect socket =>
    obtain ⟨_, rfl⟩ := Option.ite_none_right_eq_some.mp hs |>.imp_right Option.some.inj
    exact ⟨⟨h.sound, h.numbered, h.unique, h.clients, h.since_le, h.table⟩, ha⟩
  | disconnect socket =>
    obtain rfl := Option.some.inj hs
    exact ⟨⟨h.sound, h.numbered, h.unique, h.clients, h.since_le, h.table⟩, ha⟩
  | line socket l =>
    obtain ⟨session, _, rfl⟩ := Option.map_eq_some_iff.mp hs
    exact ⟨h.line socket session l, ha⟩
  | attempt v k =>
    obtain ⟨req, hreq, hs⟩ := Option.bind_eq_some_iff.mp hs
    obtain ⟨c', hc', rfl⟩ := Option.map_eq_some_iff.mp hs
    have hsent := List.mem_of_getElem? hreq
    rcases Cluster.step_cases hc' with ⟨u, i, o, hi, hst⟩ | ⟨_, _, hgarble, _⟩
    · obtain ⟨rfl, rfl⟩ := Prod.mk.inj (Option.some.inj hi)
      refine ⟨h.siteStep hst nofun fun r hr => ?_, ha.siteStep h hst fun r hr => ?_⟩
      · exact Input.clientRequest.inj hr ▸ hsent
      · obtain rfl := Input.clientRequest.inj hr
        exact ⟨hsent, hf req hreq⟩
    · cases hgarble
  | cluster x =>
    obtain ⟨hx, hs⟩ := Option.ite_none_right_eq_some.mp hs
    obtain ⟨c', hc', rfl⟩ := Option.map_eq_some_iff.mp hs
    rcases Cluster.step_cases hc' with ⟨u, i, o, hi, hst⟩ | ⟨id, _, _, _, _, rfl⟩
    · obtain ⟨hrestart, hclient⟩ := input_internal hx hi
      exact ⟨h.siteStep hst hrestart fun req hr => absurd hr (hclient req),
        ha.siteStep h hst fun req hr => absurd hr (hclient req)⟩
    · exact ⟨⟨⟨h.sound.site, h.sound.id, h.sound.rpcPort, h.sound.peerRpcPorts⟩, h.numbered, h.unique, h.clients, h.since_le,
        h.table⟩, ha⟩
  | restart =>
    obtain ⟨c', hc', rfl⟩ := Option.map_eq_some_iff.mp hs
    obtain ⟨hsound, hevents, hclients⟩ := Cluster.reboot_spec h.sound hc'
    refine ⟨⟨hsound, fun _ hr => absurd hr List.not_mem_nil, fun _ hr => absurd hr List.not_mem_nil, fun v call hc => ?_, le_rfl,
      fun v clientId hrec => ?_⟩, ?_⟩
    · rw [hclients v] at hc
      cases hc
    · obtain ⟨q, hq, _⟩ := hrec
      have hnone : q ∈ c'.events.drop c'.events.length := hq
      rw [List.drop_length] at hnone
      cases hnone
    · intro pre post v req result heq
      exact ha pre post v req result (hevents.symm.trans heq)

/-- In every run of the process, over any number of restarts, in which a message is answered from the table only for a client that
a result was recorded for since the process was started, each such answer was recorded for the same command, key and value of the
same session. -/
theorem answers_same_request (h : Systems.Run step freshHits (init N) p) : p.Answered := by
  refine (h.invariant (I := fun p : Process N => p.Tracked ∧ p.Answered) (fun p x p' hp hf hs => ?_) ?_).2
  · exact hp.1.step hp.2 hf hs
  · exact ⟨tracked_init N, fun pre post v req result heq => absurd heq.symm (by simp [init, Cluster.init])⟩

/-! ## Runs -/

/-- The last thing in the history is an answer from the table of a node, to a session. -/
def EndsAnswered (p : Process N) (v : Fin N) (session : ℕ) (result : Str) : Prop :=
  ∃ q ∈ p.cluster.events.getLast?, q.1 = v ∧ q.2.answer = some (session, result)

instance (p : Process N) (v : Fin N) (session : ℕ) (result : Str) : Decidable (p.EndsAnswered v session result) :=
  inferInstanceAs (Decidable (∃ q ∈ p.cluster.events.getLast?, q.1 = v ∧ q.2.answer = some (session, result)))

theorem EndsAnswered.events {session : ℕ} {result : Str} (h : p.EndsAnswered v session result) :
    ∃ pre req, p.cluster.events = pre ++ [(v, .cached req result)] ∧ req.session = session := by
  obtain ⟨⟨_, ev⟩, hq, rfl, hans⟩ := h
  obtain ⟨req, rfl, hsession⟩ := Event.answer_eq hans
  obtain ⟨pre, hpre⟩ := List.getLast?_eq_some_iff.mp hq
  exact ⟨pre, req, hpre, hsession⟩

/-- Node 0 is elected by node 1. -/
def electsFirst : List (Happening 3) :=
  [.cluster (.startElection 0), .cluster (.step 0 .election), .cluster (.deliver 1 0), .cluster (.reply 0 .election false),
    .cluster (.step 0 .election), .cluster (.reply 0 .election true), .cluster (.step 0 .election)]

/-- The command at place `k` of node 0 is sent to node 1 in the given call, and committed without node 2. -/
def commitsWithFirst (k call : ℕ) : List (Happening 3) :=
  [.cluster (.step 0 (.client k)), .cluster (.deliver 1 call), .cluster (.reply 0 (.client k) false),
    .cluster (.step 0 (.client k)), .cluster (.reply 0 (.client k) true), .cluster (.step 0 (.client k))]

/-- Clients on sockets 5 and 4 each put a value. -/
def twoSessions : List (Happening 3) :=
  electsFirst ++ [.connect 5, .line 5 (.put (ascii "k") (ascii "a")), .attempt 0 0] ++ commitsWithFirst 0 2 ++
    [.connect 4, .line 4 (.put (ascii "k") (ascii "b")), .attempt 0 1] ++ commitsWithFirst 1 4

/-- The second message is sent again. -/
theorem twoSessions_answered : ∃ p ∈ Systems.runAll step freshHits (init 3) (twoSessions ++ [.attempt 0 1]),
    p.EndsAnswered 0 1 (ascii "OK") := by
  decide +kernel

/-- It is answered with the result that was recorded for the session. -/
theorem answers_same_request_twoSessions : ∃ p : Process 3,
    Systems.runAll step freshHits (init 3) (twoSessions ++ [.attempt 0 1]) = some p ∧
      ∃ req, ((0 : Fin 3), Event.recorded req (ascii "OK")) ∈ p.cluster.events ∧ req.session = 1 := by
  obtain ⟨p, hp, hans⟩ := twoSessions_answered
  obtain ⟨pre, req, hev, hsession⟩ := hans.events
  obtain ⟨r, hr, hs, _⟩ := answers_same_request (Systems.Run.refl.runAll hp) pre [] 0 req _ hev
  exact ⟨p, hp, r, hev ▸ List.mem_append_left _ hr, hs.trans hsession⟩

/-- The process is started again, and a new client on socket 4 asks for the value. -/
def reusedSocket : List (Happening 3) :=
  twoSessions ++ [.restart] ++ electsFirst ++ [.connect 4, .line 4 (.get (ascii "k")), .attempt 0 0]

theorem reusedSocket_answered : ∃ p ∈ Systems.runAll step (fun _ _ => True) (init 3) reusedSocket,
    p.EndsAnswered 0 2 (ascii "OK") ∧ ∀ q ∈ p.cluster.events, q.2.recordedIn ≠ some 2 := by
  decide +kernel

/-- A new command can be answered with the result of a command of an earlier process. -/
theorem answers_other_request : ¬∀ p : Process 3, Systems.Run step (fun _ _ => True) (init 3) p → p.Answered := by
  intro h
  obtain ⟨p, hp, hans, hnone⟩ := reusedSocket_answered
  obtain ⟨pre, req, hev, hsession⟩ := hans.events
  obtain ⟨r, hr, hs, _⟩ := h p (Systems.Run.refl.runAll hp) pre [] 0 req _ hev
  have hsome : (Event.recorded r (ascii "OK")).recordedIn = some 2 := congrArg some (hs.trans hsession)
  exact hnone (0, .recorded r (ascii "OK")) (hev ▸ List.mem_append_left _ hr) hsome

end Process

end RaftStore
