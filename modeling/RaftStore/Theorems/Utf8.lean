import RaftStore.Lemmas.Cluster
import RaftStore.Lemmas.Utf8

/-!
# No dump throws

`dump` throws where a string is not valid UTF-8. A parsed text has no such string, so that what clients send is valid UTF-8; then nothing a
node sends, answers or writes to its files makes a dump throw, in any run in which a node that is restarted finds the store as the run left
it: a store that is rebuilt from a torn write-ahead log can have a value that is no UTF-8. A snapshot that was put together from chunks is
the other exception: its dump is tried, and the file is left empty where it throws.
-/

namespace RaftStore

namespace Cluster

variable {N : ℕ}

/-- What clients send has been parsed: its strings are valid UTF-8. -/
def Parsed (_ : Cluster N) : Action N → Prop
  | .clientRequest _ req => req.Utf8
  | _ => True

instance (c : Cluster N) : ∀ x : Action N, Decidable (Parsed c x)
  | .clientRequest _ req => inferInstanceAs (Decidable req.Utf8)
  | .startElection _ => instDecidableTrue
  | .step _ _ => instDecidableTrue
  | .reply _ _ _ => instDecidableTrue
  | .deliver _ _ => instDecidableTrue
  | .garble _ => instDecidableTrue
  | .snapshotNow _ => instDecidableTrue
  | .restart _ => instDecidableTrue

/-- Everything in the cluster that is dumped, or that goes into what is dumped. -/
structure Utf8 (c : Cluster N) : Prop where
  site : ∀ v, (c.sites v).Utf8
  store : Utf8Map c.store.mp
  entries : ∀ x ∈ c.calls, ∀ e ∈ x.req.entries, e.Utf8
  request : ∀ x ∈ c.calls, ∀ t, (x.req.toJson t).dumps = true
  reply : ∀ x ∈ c.calls, ∀ r, x.resp = some r → r.toJson.dumps = true
  events : ∀ p ∈ c.events, p.2.Utf8

theorem utf8_init (N : ℕ) : (init N).Utf8 where
  site v := ⟨⟨rfl, fun m hm => (by cases hm), fun s hs => (by cases hs)⟩, fun call hc => absurd hc List.not_mem_nil⟩
  store := utf8Map_empty
  entries x hx := absurd hx List.not_mem_nil
  request x hx := absurd hx List.not_mem_nil
  reply x hx := absurd hx List.not_mem_nil
  events p hp := absurd hp List.not_mem_nil

/-- A reply that can be dumped is noted. -/
theorem reply_noteReply {l : List Call} (h : ∀ x ∈ l, ∀ r, x.resp = some r → r.toJson.dumps = true) (id : ℕ) {resp : Option Reply}
    (hr : ∀ r, resp = some r → r.toJson.dumps = true) : ∀ x ∈ noteReply l id resp, ∀ r, x.resp = some r → r.toJson.dumps = true := by
  intro x hx
  rcases mem_noteReply hx with hx | ⟨y, _, rfl⟩
  · exact h x hx
  · exact hr

/-- What holds of every message holds when a reply is noted. -/
theorem req_noteReply {l : List Call} {Q : Request → Prop} (h : ∀ x ∈ l, Q x.req) (id : ℕ) (resp : Option Reply) :
    ∀ x ∈ noteReply l id resp, Q x.req := by
  intro x hx
  rcases mem_noteReply hx with hx | ⟨y, hy, rfl⟩
  · exact h x hx
  · exact h y (List.mem_of_getElem? hy)

/-- What a step of a site keeps of the cluster. -/
theorem Utf8.siteStep {c c' : Cluster N} {v : Fin N} {i : Input} {o : Outcome} (h : c.Utf8) (hsound : c.Sound)
    (hs : SiteStep c c' v i o) (hstore : c'.store = o.store) (hreq : ∀ req, i = .clientRequest req → req.Utf8) : c'.Utf8 := by
  have hstep := ((hsound.site v).step hs.outcome).1
  have hi : ∀ e ∈ i.entries, e.Utf8 := by
    rcases hs.calls with ⟨hno, _⟩ | ⟨id, y, hy, rfl, _⟩
    · cases i with
      | receive req => exact absurd rfl (hno req)
      | _ => exact fun e he => absurd he List.not_mem_nil
    · exact h.entries y (List.mem_of_getElem? hy)
  have ho := hstep.utf8 (h.site v) h.store hi hreq
  have hsent : ∀ x ∈ o.calls, (∀ e ∈ x.req.entries, e.Utf8) ∧ (∀ t, (x.req.toJson t).dumps = true) ∧ x.resp = none := by
    intro x hx
    obtain ⟨y, hy, rfl⟩ := List.mem_map.mp hx
    have hy' : o.send = some y := Option.mem_toList.mp hy
    exact ⟨hstep.sends (h.site v).node.log hy', fun t => hstep.send_dumps (h.site v) hy' t, rfl⟩
  have hentries : ∀ x ∈ c.calls ++ o.calls, ∀ e ∈ x.req.entries, e.Utf8 :=
    fun x hx => (List.mem_append.mp hx).elim (h.entries x) fun hx => (hsent x hx).1
  have hrequest : ∀ x ∈ c.calls ++ o.calls, ∀ t, (x.req.toJson t).dumps = true :=
    fun x hx => (List.mem_append.mp hx).elim (h.request x) fun hx => (hsent x hx).2.1
  have hreply : ∀ x ∈ c.calls ++ o.calls, ∀ r, x.resp = some r → r.toJson.dumps = true :=
    fun x hx => (List.mem_append.mp hx).elim (h.reply x) fun hx r hr => by rw [(hsent x hx).2.2] at hr; cases hr
  refine ⟨fun u => ?_, hstore ▸ ho.store, ?_, ?_, ?_, fun p hp => ?_⟩
  · rw [hs.site u]
    split
    · exact ho.site
    · exact h.site u
  · rcases hs.calls with ⟨_, hc⟩ | ⟨id, _, _, _, _, _, hc⟩ <;> rw [hc]
    · exact hentries
    · exact req_noteReply (Q := fun req => ∀ e ∈ req.entries, e.Utf8) hentries id _
  · rcases hs.calls with ⟨_, hc⟩ | ⟨id, _, _, _, _, _, hc⟩ <;> rw [hc]
    · exact hrequest
    · exact req_noteReply (Q := fun req => ∀ t, (req.toJson t).dumps = true) hrequest id _
  · rcases hs.calls with ⟨_, hc⟩ | ⟨id, _, _, _, _, _, hc⟩ <;> rw [hc]
    · exact hreply
    · exact reply_noteReply hreply id ho.reply
  · rw [hs.events] at hp
    rcases List.mem_append.mp hp with hp | hp
    · exact h.events p hp
    · obtain ⟨ev, hev, rfl⟩ := List.mem_map.mp hp
      exact ho.events ev hev

/-- The store after an action is the one that the step of the site leaves. -/
theorem step_store {c c' : Cluster N} {x : Action N} {v : Fin N} {i : Input} {o : Outcome} (h : c.step x = some c')
    (hx : c.input x = some (v, i)) (ho : c.outcome v i = some o) : c'.store = o.store := by
  have hmap {u : Fin N} {j : Input} (hu : some (u, j) = some (v, i)) (h : (c.outcome u j).map (c.update u) = some c') :
      c'.store = o.store := by
    cases hu
    rw [ho] at h
    cases h
    rfl
  cases x with
  | startElection u => exact hmap hx h
  | step u t => exact hmap hx h
  | clientRequest u req => exact hmap hx h
  | snapshotNow u => exact hmap hx h
  | restart u => exact hmap hx h
  | reply u t lost =>
    cases lost with
    | true => exact hmap hx h
    | false =>
      obtain ⟨r, hr, h⟩ := Option.bind_eq_some_iff.mp h
      exact hmap (by rw [← hx, input, hr]; rfl) h
  | deliver u id =>
    obtain ⟨y, hy, h⟩ := Option.bind_eq_some_iff.mp h
    rw [input, hy] at hx
    cases hx
    split at h
    · rw [ho] at h
      cases h
      rfl
    · cases h
  | garble id => cases hx

/-- Every action keeps the cluster in UTF-8. -/
theorem Utf8.step {c c' : Cluster N} (h : c.Utf8) (hsound : c.Sound) {x : Action N} (hx : c.Parsed x) (hs : c.step x = some c') :
    c'.Utf8 := by
  rcases step_cases hs with ⟨v, i, o, hi, hst⟩ | ⟨id, y, _, _, _, rfl⟩
  · refine h.siteStep hsound hst (step_store hs hi hst.outcome) fun req hreq => ?_
    subst hreq
    cases x with
    | clientRequest u req' =>
      cases hi
      exact hx
    | reply u t lost =>
      cases lost
      · obtain ⟨_, _, hi⟩ := Option.map_eq_some_iff.mp hi
        cases hi
      · cases hi
    | deliver u id =>
      obtain ⟨_, _, hi⟩ := Option.map_eq_some_iff.mp hi
      cases hi
    | _ => cases hi
  · have hinvalid : ∀ r, (some .invalid : Option Reply) = some r → r.toJson.dumps = true := by
      intro r hr
      obtain rfl := Option.some.inj hr
      simp only [Reply.toJson, Json.lit, Json.dumps, Json.dumpsMembers, Bool.and_true]
      exact isUtf8_of_all rfl
    exact ⟨h.site, h.store, req_noteReply (Q := fun req => ∀ e ∈ req.entries, e.Utf8) h.entries id _,
      req_noteReply (Q := fun req => ∀ t, (req.toJson t).dumps = true) h.request id _, reply_noteReply h.reply id hinvalid, h.events⟩

/-- Every cluster that a run reaches whose client requests were parsed. -/
theorem Reachable.utf8 {c : Cluster N} (h : Reachable Parsed c) : c.Utf8 := by
  induction h with
  | init => exact utf8_init N
  | step hc hx hs ih => exact ih.step hc.sound hx hs

/-- In every run whose client requests were parsed from texts, and whose restarts find the store as it was, every message and every reply can
be dumped, and so can the metadata of every node, a snapshot that it takes and what its files hold; every result that a client is answered
with is valid UTF-8. -/
theorem dumps_of_parsed {c : Cluster N} (h : Reachable Parsed c) :
    (∀ x ∈ c.calls, (∀ t, (x.req.toJson t).dumps = true) ∧ ∀ r, x.resp = some r → r.toJson.dumps = true) ∧
    (∀ v, (c.sites v).node.dumpsMetadata = true ∧ ((c.sites v).node.newSnapshot c.store).dumps = true ∧
      (∀ m, (c.sites v).node.disk.metadata = some m → m.dumps = true) ∧
      ∀ snap, (c.sites v).node.disk.snapshotFile = .saved snap → snap.dumps = true) ∧
    (∀ v, ∀ call ∈ (c.sites v).clients, ∀ result, call.phase = .done result → isUtf8 result = true) ∧
    ∀ v req result, (v, Event.cached req result) ∈ c.events → isUtf8 result = true := by
  have hu := h.utf8
  refine ⟨fun x hx => ⟨hu.request x hx, hu.reply x hx⟩, fun v => ?_, fun v call hc => ((hu.site v).client call hc).result, ?_⟩
  · have hn := (hu.site v).node
    exact ⟨hn.memory, hu.store, hn.metadata, hn.file⟩
  · intro v req result hev
    exact hu.events _ hev

/-- A request for `PUT k é` of a client. -/
def putAccent (requestId : ℤ) : ClientRequest where
  clientId := ascii "c"
  requestId := requestId
  command := ascii "PUT"
  key := ascii "k"
  value := [0xC3, 0xA9]
  session := 0

/-- A node that is alone is elected, and commits two requests. -/
theorem dumps_putAccent : ∃ c : Cluster 1, (∃ call ∈ (c.sites 0).clients, call.phase = .done (ascii "OK")) ∧
    ∀ v, (c.sites v).node.dumpsMetadata = true ∧ ((c.sites v).node.newSnapshot c.store).dumps = true := by
  obtain ⟨c, hc, hdone⟩ : ∃ c ∈ run Parsed (Cluster.init 1)
      [.startElection 0, .step 0 .election, .clientRequest 0 (putAccent 1), .step 0 (.client 0), .clientRequest 0 (putAccent 2),
        .step 0 (.client 1)],
      ∃ call ∈ (c.sites 0).clients, call.phase = .done (ascii "OK") := by
    decide +kernel
  have hu := dumps_of_parsed (Reachable.init.run hc)
  exact ⟨c, hdone, fun v => ⟨(hu.2.1 v).1, (hu.2.1 v).2.1⟩⟩

end Cluster

end RaftStore
