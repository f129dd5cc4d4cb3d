import RaftStore.Assembly
import RaftStore.Lemmas.Incoming
import RaftStore.Theorems.Matching
import RaftStore.Theorems.Transfers

/-!
# What the done branch stores

Where every chunk that a node takes is the first one of its image or follows what the buffer has of the same image, the buffer always
has a beginning of one image, and the snapshot stored at the end of a transfer is the one that its sender has serialized. Nothing in
the handler sees to it: the chunk of an abandoned transfer that comes in late is written behind a hole of zeros.
-/

namespace RaftStore

open Systems (Run)

/-! ## The transfers of the threads -/

/-- A transfer is under way: its image is that of its snapshot, and there is a next chunk. -/
structure Transfer.Made (t : Transfer) : Prop where
  image : t.snapBytes = serializeSnapshot t.snap
  next : t.chunkNum < t.chunkCount

theorem Transfer.start_made (snap : Snapshot) : (Transfer.start snap).Made := ⟨rfl, Transfer.start_chunkCount snap⟩

/-- A transfer that goes on has a next chunk. -/
theorem Transfer.Made.reply {t t' : Transfer} (h : t.Made) {n : RaftNode} {i : ℕ} {r : Option Reply}
    (ht : (t.reply n i r).2 = some t') : t'.Made := by
  obtain ⟨hlt, rfl⟩ := Transfer.reply_rest ht
  exact ⟨h.image, hlt⟩

def HeartbeatPhase.Made : HeartbeatPhase → Prop
  | .chunk _ t => t.Made
  | .chunkReply _ t _ => t.Made
  | _ => True

def CallPhase.Made : CallPhase → Prop
  | .chunk t => t.Made
  | .chunkReply t _ => t.Made
  | _ => True

/-- The transfers of all threads of a site are under way. -/
structure Site.Made (s : Site) : Prop where
  heartbeat : ∀ hb, s.heartbeat = some hb → hb.phase.Made
  client : ∀ call ∈ s.clients, call.phase.Made

/-- A message carries this chunk of a transfer, or is of another kind. -/
def Request.Carries (req : Request) : Option Transfer → Prop
  | some t => t.Made ∧ ∃ n, req = .installSnapshot (t.message n)
  | none => ∀ m, req ≠ .installSnapshot m

namespace Site

variable {size next : ℕ} {s : Site} {store : KVStore} {i : Input} {o : Outcome}

theorem Made.heartbeatAt (h : s.Made) (n : RaftNode) (hb : Heartbeat) {p : HeartbeatPhase} (hp : p.Made) :
    ({ s with node := n }.heartbeatAt hb p).Made := by
  refine ⟨fun hb' hhb => ?_, h.client⟩
  obtain rfl := Option.some.inj hhb
  exact hp

theorem Made.clientAt (h : s.Made) (n : RaftNode) (k : ℕ) (call : ClientCall) (hc : call.phase.Made) :
    ({ s with node := n }.clientAt k call).Made := by
  refine ⟨h.heartbeat, fun c hmem => ?_⟩
  rcases List.mem_or_eq_of_mem_set hmem with hmem | rfl
  · exact h.client c hmem
  · exact hc

theorem Made.startHeartbeats (h : s.Made) (n : RaftNode) : (s.startHeartbeats n).Made := by
  refine ⟨fun hb hhb => ?_, h.client⟩
  unfold Site.startHeartbeats at hhb
  simp only at hhb
  split at hhb
  · exact h.heartbeat hb hhb
  · obtain rfl := Option.some.inj hhb
    trivial

/-- A thread starts a transfer at its first chunk, and goes on with the next one. -/
theorem Made.step (h : s.Made) (hst : Step size next s store i o) : o.site.Made := by
  have hcall {k : ℕ} {call : ClientCall} (hk : s.clients[k]? = some call) : call.phase.Made :=
    h.client call (List.mem_of_getElem? hk)
  cases hst with
  | join el he hp hh => exact h.startHeartbeats _
  | win el he hp hr hv =>
    show (s.elected el).Made
    unfold elected
    split
    · exact ⟨h.heartbeat, h.client⟩
    · exact h.startHeartbeats _
  | round hb hh hp hl => exact h.heartbeatAt s.node hb (p := .peer 0) trivial
  | endHeartbeats hb hh hp => exact ⟨nofun, h.client⟩
  | endRound hb j hh hp => exact h.heartbeatAt s.node hb (p := .top) trivial
  | needSnapshot hb j snapshot hh hp hn => exact h.heartbeatAt s.node hb (p := .chunk j _) (Transfer.start_made snapshot)
  | sendHeartbeat hb j p hh hp hrun hi hn entries hes => exact h.heartbeatAt s.node hb (p := .append j _ _ _) trivial
  | sendHeartbeatChunk hb j t p hh hp hi =>
    have ht := h.heartbeat hb hh
    rw [hp] at ht
    exact h.heartbeatAt s.node hb (p := .chunkReply j t next) ht
  | heartbeatStopped hb j nextIdx count call r hh hp => exact h.heartbeatAt s.node hb (p := .top) trivial
  | heartbeatLost hb j nextIdx count call r hh hp hr => exact h.heartbeatAt s.node hb (p := .peer _) trivial
  | heartbeatLater hb j nextIdx count call r term success hh hp hr ht => exact ⟨nofun, h.client⟩
  | heartbeatReply hb j nextIdx count call r term success hh hp hr ht => exact h.heartbeatAt _ hb (p := .peer _) trivial
  | heartbeatChunkReply hb j t call r hh hp phase hph =>
    have ht := h.heartbeat hb hh
    rw [hp] at ht
    refine h.heartbeatAt _ hb ?_
    rw [hph]
    split
    · next ht' => exact Transfer.Made.reply ht ht'
    · trivial
  | append req hl hc =>
    refine ⟨h.heartbeat, fun c hmem => ?_⟩
    rcases List.mem_append.mp hmem with hmem | hmem
    · exact h.client c hmem
    · obtain rfl := List.mem_singleton.mp hmem
      trivial
  | send k call p hk hp hi => exact h.clientAt s.node k { call with phase := .append next } trivial
  | commit k call hk hp hi hm => exact h.clientAt _ k { call with phase := .done _ } trivial
  | notCommitted k call hk hp hi hm => exact h.clientAt s.node k { call with phase := .done _ } trivial
  | sendChunk k call t p hk hp hi =>
    have ht := hcall hk
    rw [hp] at ht
    exact h.clientAt s.node k { call with phase := .chunkReply t next } ht
  | lost k call id r hk hp hr => exact h.clientAt s.node k (nextPeer call) trivial
  | later k call id r term success hk hp hr ht => exact h.clientAt _ k { call with phase := .done _ } trivial
  | success k call id r term hk hp hr ht => exact h.clientAt _ k (nextPeer _) trivial
  | failure k call id r term hk hp hr ht call' hc =>
    refine h.clientAt _ k _ ?_
    rw [hc]
    split
    · next snapshot _ => exact Transfer.start_made snapshot
    · trivial
  | chunkReply k call t id r hk hp call' hc =>
    have ht := hcall hk
    rw [hp] at ht
    refine h.clientAt _ k _ ?_
    rw [hc]
    split
    · next ht' => exact Transfer.Made.reply ht ht'
    · trivial
  | restart n store' hr => exact ⟨nofun, fun c hmem => absurd hmem List.not_mem_nil⟩
  | _ => exact ⟨h.heartbeat, h.client⟩

/-- A message on its way out carries the next chunk of its thread. -/
theorem Step.send_cases (hst : Step size next s store i o) (h : s.Made) :
    o.send = none ∨ ∃ t x, i = .step t ∧ o.send = some x ∧ x.req.Carries (s.sending t) := by
  cases hst with
  | ask el p rest he hp hr => exact .inr ⟨_, _, rfl, rfl, nofun⟩
  | sendHeartbeat hb j p hh hp hrun hi hn entries hes =>
    refine .inr ⟨_, _, rfl, rfl, ?_⟩
    simp only [sending, hh, Option.bind_some, hp]
    exact nofun
  | sendHeartbeatChunk hb j t p hh hp hi =>
    have ht := h.heartbeat hb hh
    rw [hp] at ht
    refine .inr ⟨_, _, rfl, rfl, ?_⟩
    simp only [sending, hh, Option.bind_some, hp]
    exact ⟨ht, s.node, rfl⟩
  | send k call p hk hp hi =>
    refine .inr ⟨_, _, rfl, rfl, ?_⟩
    simp only [sending, hk, Option.bind_some, hp]
    exact nofun
  | sendChunk k call t p hk hp hi =>
    have ht := h.client call (List.mem_of_getElem? hk)
    rw [hp] at ht
    refine .inr ⟨_, _, rfl, rfl, ?_⟩
    simp only [sending, hk, Option.bind_some, hp]
    exact ⟨ht, s.node, rfl⟩
  | _ => exact .inl rfl

end Site

/-! ## Chunks in order -/

namespace Transfer

variable {t h : Transfer} {n f : RaftNode} {store : KVStore}

/-- The buffer of a node has the image of a transfer, up to the end of its chunk. -/
structure HeldBy (t : Transfer) (f : RaftNode) : Prop where
  made : t.Made
  short : t.snapBytes.length < 2 ^ 31
  buffer : f.snapshotBuffer = t.snapBytes.take t.stop

theorem HeldBy.congr (hb : h.HeldBy f) {f' : RaftNode} (heq : f'.snapshotBuffer = f.snapshotBuffer) : h.HeldBy f' :=
  ⟨hb.made, hb.short, heq.trans hb.buffer⟩

/-- What the buffer has before a chunk that is in order, and after it. -/
theorem Made.fitting (hm : t.Made) {held : Option Transfer} (hfit : Assembly.Fitting held t) (hheld : ∀ h ∈ held, h.HeldBy f) :
    ∃ k, (t.chunkNum = 0 ∧ k = 0 ∨ t.offset ≤ k ∧ k ≤ t.snapBytes.length ∧ t.chunkNum ≠ 0 ∧ f.snapshotBuffer = t.snapBytes.take k) ∧
      (t.extend held).Made ∧ (t.extend held).snapBytes = t.snapBytes ∧ (t.extend held).stop = max k t.stop := by
  have hlt := offset_lt hm.next
  by_cases hz : t.chunkNum = 0
  · have hext : t.extend held = t := by
      unfold extend
      cases held with
      | none => rfl
      | some h => exact if_neg fun hc => hc.1 hz
    exact ⟨0, .inl ⟨hz, rfl⟩, hext.symm ▸ hm, by rw [hext], by rw [hext, Nat.zero_max]⟩
  · obtain ⟨h, hmem, hbytes, hle⟩ := hfit.2.resolve_left hz
    obtain rfl := Option.mem_def.mp hmem
    obtain ⟨hmade, _, hbuffer⟩ := hheld h rfl
    rw [hbytes] at hbuffer
    have hstop : h.stop = min (h.chunkNum * 512 + 512) t.snapBytes.length := by rw [← hbytes]; rfl
    have hstop' : t.stop = min (t.chunkNum * 512 + 512) t.snapBytes.length := rfl
    have hoff : t.offset = t.chunkNum * 512 := rfl
    refine ⟨h.stop, .inr ⟨by omega, by omega, hz, hbuffer⟩, ?_⟩
    unfold extend
    simp only
    split
    · next hc => exact ⟨hmade, hbytes, by have := hc.2; omega⟩
    · next hc =>
      have hge : h.chunkNum ≤ t.chunkNum := by omega
      exact ⟨hm, rfl, by omega⟩

/-- What the handler does with a chunk that is in order: it stores the snapshot of the transfer, or the buffer has a beginning of the image
after it as before. -/
theorem Made.handle (hm : t.Made) {held : Option Transfer} (hfit : Assembly.Fitting held t) (hheld : ∀ h ∈ held, h.HeldBy f)
    (ht : f.currentTerm ≤ n.currentTerm) {r : Handled} (hr : f.handleInstallSnapshot store (t.message n) = some r) :
    ((t.message n).done = true ∧ r.reply.accepted = true ∧ ∃ s, r.node.latestSnapshot = some s ∧ s.Same t.snap) ∨
      ¬((t.message n).done = true ∧ r.reply.accepted = true) ∧ (t.extend held).HeldBy r.node := by
  have hshort : t.snapBytes.length < 2 ^ 31 := by
    rw [hm.image]
    exact hfit.1.image
  obtain ⟨k, hk, hmade, hbytes, hstop⟩ := hm.fitting hfit hheld
  have hchunk := handle_chunk hshort hm.next hk ht store
  have hheldBy {f' : RaftNode} (hb : f'.snapshotBuffer = t.snapBytes.take (max k t.stop)) : (t.extend held).HeldBy f' :=
    ⟨hmade, by rw [hbytes]; exact hshort, by rw [hb, hbytes, hstop]⟩
  obtain rfl := Option.some.inj (hr.symm.trans hchunk)
  split
  · next hlast =>
    have hdone : (t.message n).done = true := decide_eq_true hlast
    have hk' : k ≤ t.snapBytes.length := by
      rcases hk with ⟨_, rfl⟩ | ⟨_, h, _⟩
      · exact Nat.zero_le _
      · exact h
    have hall : t.snapBytes.take (max k t.stop) = t.snapBytes := by rw [hlast, max_eq_right hk', List.take_length]
    cases hdumps : t.snap.dumps with
    | true =>
      obtain ⟨h, hfinish, hinst, hreply, _⟩ := finishTransfer_image (f := f) (n := n) hfit.1 hdumps hm.image n.currentTerm store
      obtain ⟨_, _, _, _, _, s, hsame, _, _, _, hnode⟩ := hinst.node
      rw [hall, hfinish]
      exact .inl ⟨hdone, by rw [hreply]; rfl, s, by rw [hnode], hsame⟩
    | false =>
      -- the dump throws, and the image stays in the buffer
      obtain ⟨s, hs, hsame, _⟩ := hfit.1.deserialize
      have hfinish : ((f.seeTerm n.currentTerm).setBuffer t.snapBytes).finishTransfer store (t.message n) =
          ((f.seeTerm n.currentTerm).setBuffer t.snapBytes).emptySnapshotFile.processingFailed store := by
        unfold RaftNode.finishTransfer
        rw [RaftNode.setBuffer_snapshotBuffer, hm.image, hs]
        simp only [hsame.dumps, hdumps, Bool.false_eq_true, if_false]
      rw [hall, hfinish]
      exact .inr ⟨fun hc => Bool.noConfusion hc.2, hheldBy hall.symm⟩
  · next hnot => exact .inr ⟨fun hc => hnot (of_decide_eq_true hc.1), hheldBy rfl⟩

end Transfer

/-- The action that an input comes from. -/
theorem Cluster.input_cases {N : ℕ} {c : Cluster N} {x : Action N} {v : Fin N} {i : Input} (hi : c.input x = some (v, i)) :
    (∃ id y, x = .deliver v id ∧ c.calls[id]? = some y ∧ i = .receive y.req) ∨ (x = .restart v ∧ i = .restart) ∨
      x.delivered = none ∧ (∀ u, x ≠ .restart u) ∧ (∀ req, i ≠ .receive req) ∧ i ≠ .restart ∧ ∀ t, i = .step t → x = .step v t := by
  cases x with
  | deliver u id =>
    obtain ⟨y, hy, heq⟩ := Option.map_eq_some_iff.mp hi
    obtain ⟨rfl, rfl⟩ := Prod.mk.inj heq
    exact .inl ⟨id, y, rfl, hy, rfl⟩
  | restart u =>
    obtain ⟨rfl, rfl⟩ := Prod.mk.inj (Option.some.inj hi)
    exact .inr (.inl ⟨rfl, rfl⟩)
  | reply u t lost =>
    cases lost with
    | true =>
      obtain ⟨rfl, rfl⟩ := Prod.mk.inj (Option.some.inj hi)
      exact .inr (.inr ⟨rfl, nofun, nofun, nofun, nofun⟩)
    | false =>
      obtain ⟨r, _, heq⟩ := Option.map_eq_some_iff.mp hi
      obtain ⟨rfl, rfl⟩ := Prod.mk.inj heq
      exact .inr (.inr ⟨rfl, nofun, nofun, nofun, nofun⟩)
  | step u t =>
    obtain ⟨rfl, rfl⟩ := Prod.mk.inj (Option.some.inj hi)
    refine .inr (.inr ⟨rfl, nofun, nofun, nofun, fun t' ht => ?_⟩)
    rw [Input.step.inj ht]
  | garble id => cases hi
  | startElection u =>
    obtain ⟨rfl, rfl⟩ := Prod.mk.inj (Option.some.inj hi)
    exact .inr (.inr ⟨rfl, nofun, nofun, nofun, nofun⟩)
  | clientRequest u req =>
    obtain ⟨rfl, rfl⟩ := Prod.mk.inj (Option.some.inj hi)
    exact .inr (.inr ⟨rfl, nofun, nofun, nofun, nofun⟩)
  | snapshotNow u =>
    obtain ⟨rfl, rfl⟩ := Prod.mk.inj (Option.some.inj hi)
    exact .inr (.inr ⟨rfl, nofun, nofun, nofun, nofun⟩)

namespace Assembly

variable {N : ℕ} {s s' : Assembly N} {x : Action N}

/-! ## What the calls carry -/

@[simp] theorem note_cluster (s : Assembly N) (c : Cluster N) (x : Action N) : (s.note c x).cluster = c := by
  cases x <;> rfl

/-- No reply changes what the calls carry. -/
theorem noteReply_req (calls : List Call) (id : ℕ) (resp : Option Reply) :
    (Cluster.noteReply calls id resp).map Call.req = calls.map Call.req := by
  refine List.ext_getElem? fun j => ?_
  rw [List.getElem?_map, List.getElem?_map, Cluster.noteReply, List.getElem?_modify]
  cases calls[j]? with
  | none => rfl
  | some y =>
    simp only [Option.map_eq_map, Option.map_some]
    split <;> rfl

/-- The threads' transfers are under way, and each call carries what is noted of it. -/
structure Traced (s : Assembly N) : Prop where
  cluster : s.cluster.Sound
  site : ∀ v, (s.cluster.sites v).Made
  call : List.Forall₂ Request.Carries (s.cluster.calls.map Call.req) s.carried

theorem traced_init (N : ℕ) : (init N).Traced where
  cluster := Cluster.sound_init N
  site _ := ⟨nofun, fun _ h => absurd h List.not_mem_nil⟩
  call := .nil

/-- An action that makes no call adds nothing to what the calls carry. -/
theorem note_carried {c : Cluster N} (hlen : c.calls.length = s.cluster.calls.length) : (s.note c x).carried = s.carried := by
  cases x with
  | step v t => simp [note, hlen]
  | _ => rfl

theorem Traced.siteStep (h : s.Traced) {c : Cluster N} {v : Fin N} {i : Input} {o : Outcome} (hi : s.cluster.input x = some (v, i))
    (hst : Cluster.SiteStep s.cluster c v i o) :
    (∀ u, (c.sites u).Made) ∧ List.Forall₂ Request.Carries (c.calls.map Call.req) (s.note c x).carried := by
  have hstep := ((h.cluster.site v).step hst.outcome).1
  have hreq : c.calls.map Call.req = s.cluster.calls.map Call.req ++ o.calls.map Call.req := by
    rcases hst.calls with ⟨_, heq⟩ | ⟨id, _, _, _, _, _, heq⟩ <;> rw [heq]
    · exact List.map_append
    · rw [noteReply_req]
      exact List.map_append
  have hlen : c.calls.length = s.cluster.calls.length + o.calls.length := by
    simpa only [List.length_map, List.length_append] using congrArg List.length hreq
  constructor
  · intro u
    rw [hst.site u]
    split
    · exact (h.site v).step hstep
    · exact h.site u
  · rcases hstep.send_cases (h.site v) with hsend | ⟨t, y, rfl, hsend, hcarries⟩
    · have hcalls : o.calls = [] := by rw [Outcome.calls, hsend]; rfl
      rw [note_carried (by rw [hlen, hcalls]; rfl), hreq, hcalls]
      simpa using h.call
    · have hcalls : o.calls.map Call.req = [y.req] := by rw [Outcome.calls, hsend]; rfl
      obtain rfl : x = .step v t := by
        rcases Cluster.input_cases hi with ⟨_, _, _, _, h⟩ | ⟨_, h⟩ | ⟨_, _, _, _, hx⟩
        · cases h
        · cases h
        · exact hx t rfl
      have hone : c.calls.length - s.cluster.calls.length = 1 := by
        have hone := congrArg List.length hcalls
        rw [List.length_map, List.length_singleton] at hone
        omega
      rw [hreq, hcalls]
      show List.Forall₂ _ _ (s.carried ++ List.replicate _ _)
      rw [hone]
      exact List.rel_append h.call (.cons hcarries .nil)

/-- Every action keeps it. -/
theorem Traced.step (h : s.Traced) (hs : s.step x = some s') : s'.Traced := by
  obtain ⟨c, hc, rfl⟩ := Option.map_eq_some_iff.mp hs
  rcases Cluster.step_cases hc with ⟨v, i, o, hi, hst⟩ | ⟨id, y, rfl, _, _, rfl⟩
  · obtain ⟨hsite, hcall⟩ := h.siteStep hi hst
    exact ⟨by simpa using h.cluster.step hc, by simpa using hsite, by simpa using hcall⟩
  · refine ⟨h.cluster.step hc, h.site, ?_⟩
    show List.Forall₂ _ ((Cluster.noteReply s.cluster.calls id _).map Call.req) s.carried
    rw [noteReply_req]
    exact h.call

/-- What a node takes with a call. -/
theorem Traced.takes_cases (h : s.Traced) {id : ℕ} {y : Call} (hy : s.cluster.calls[id]? = some y) (v : Fin N) :
    (∀ m, y.req ≠ .installSnapshot m) ∧ s.takes v id = none ∨
      ∃ t n, t.Made ∧ some t ∈ s.carried ∧ y.req = .installSnapshot (t.message n) ∧
        s.takes v id = if n.currentTerm < (s.cluster.sites v).node.currentTerm then none else some t := by
  have hlt := (List.getElem?_eq_some_iff.mp hy).1
  have hlt' : id < s.carried.length := by
    rw [← h.call.length_eq, List.length_map]
    exact hlt
  have hcarries := h.call.get (by rw [List.length_map]; exact hlt) hlt'
  have hreq : s.cluster.calls[id].req = y.req := by rw [(List.getElem?_eq_some_iff.mp hy).2]
  simp only [List.get_eq_getElem, List.getElem_map, hreq] at hcarries
  have hcall : s.cluster.calls[id]?.map Call.req = some y.req := by
    rw [hy]
    rfl
  cases hd : s.carried[id] with
  | none =>
    rw [hd] at hcarries
    refine .inl ⟨hcarries, ?_⟩
    unfold takes
    rw [hcall]
    split
    · next m hm => exact absurd (Option.some.inj hm) (hcarries m)
    · rfl
  | some t =>
    rw [hd] at hcarries
    obtain ⟨hmade, n, hm⟩ := hcarries
    refine .inr ⟨t, n, hmade, hd ▸ List.getElem_mem hlt', hm, ?_⟩
    unfold takes
    rw [hcall, hm]
    simp only [List.getElem?_eq_getElem hlt', hd, Option.join_some]
    rfl

/-! ## What is stored -/

/-- A snapshot is one that a sender of chunks has serialized. -/
def Serialized (s : Assembly N) (snap : Snapshot) : Prop :=
  ∃ t, some t ∈ s.carried ∧ t.snapBytes = serializeSnapshot t.snap ∧ snap.Same t.snap

/-- The buffers have beginnings of images, and what was stored has been serialized. -/
structure Buffered (s : Assembly N) : Prop where
  held : ∀ v, ∀ t ∈ s.held v, t.HeldBy (s.cluster.sites v).node
  stored : ∀ x ∈ s.stored, s.Serialized x.2

theorem buffered_init (N : ℕ) : (init N).Buffered := ⟨fun _ _ => nofun, fun _ h => absurd h List.not_mem_nil⟩

/-- What was serialized stays so. -/
theorem Serialized.note {snap : Snapshot} (h : s.Serialized snap) (c : Cluster N) (x : Action N) : (s.note c x).Serialized snap := by
  obtain ⟨t, ht, himage, hsame⟩ := h
  refine ⟨t, ?_, himage, hsame⟩
  cases x with
  | step v t' => exact List.mem_append_left _ ht
  | _ => exact ht

/-- What a node holds after it has handled a call, and what it has stored. -/
theorem Traced.handled (h : s.Traced) (hb : s.Buffered) {c : Cluster N} {v : Fin N} {id : ℕ} {y : Call} {r : Handled}
    (hy : s.cluster.calls[id]? = some y) (hin : ∀ t ∈ s.takes v id, Fitting (s.held v) t)
    (hr : (s.cluster.sites v).node.handle s.cluster.store y.req = some r) (hnode : (c.sites v).node = r.node)
    (hreply : c.calls[id]?.bind Call.resp = some r.reply) :
    (∀ t ∈ s.heldAfter v id (s.storedBy c v id), t.HeldBy r.node) ∧ ∀ snap ∈ s.storedBy c v id, s.Serialized snap := by
  have hcall : s.cluster.calls[id]?.map Call.req = some y.req := by
    rw [hy]
    rfl
  rcases h.takes_cases hy v with ⟨hother, htakes⟩ | ⟨t, n, hmade, hmem, hreq, htakes⟩
  · have hnone : s.storedBy c v id = none := by
      unfold storedBy
      rw [hcall]
      split
      · next m _ hm _ => exact absurd (Option.some.inj hm) (hother m)
      · rfl
    refine ⟨fun t ht => ?_, fun snap hsnap => by rw [hnone] at hsnap; cases hsnap⟩
    rw [heldAfter, htakes] at ht
    exact (hb.held v t ht).congr (congrArg Incoming.snapshotBuffer (RaftNode.handle_incoming hother hr))
  · rw [hreq] at hr
    have hstored : s.storedBy c v id = if (t.message n).done ∧ r.reply.accepted then r.node.latestSnapshot else none := by
      unfold storedBy
      rw [hcall, hreq, hreply, hnode]
    split at htakes
    · next hlt =>
      -- the chunk is of an earlier term
      have hstale : r = { node := _, store := _, reply := .installSnapshot _ false (ascii "stale_term"), events := [] } :=
        (Option.some.inj (hr.symm.trans (if_pos hlt)))
      have hnone : s.storedBy c v id = none := by
        rw [hstored, hstale]
        exact if_neg fun hc => Bool.noConfusion hc.2
      refine ⟨fun t ht => ?_, fun snap hsnap => by rw [hnone] at hsnap; cases hsnap⟩
      rw [heldAfter, htakes] at ht
      rw [hstale]
      exact hb.held v t ht
    · next hle =>
      have hfit := hin t htakes
      rcases hmade.handle hfit (hb.held v) (not_lt.mp hle) hr with ⟨hdone, hacc, snap, hsnap, hsame⟩ | ⟨hno, hheld⟩
      · rw [if_pos ⟨hdone, hacc⟩, hsnap] at hstored
        rw [heldAfter, htakes, hstored]
        refine ⟨fun t h => (by cases h), fun snap' hsnap' => ?_⟩
        obtain rfl := Option.some.inj hsnap'
        exact ⟨t, hmem, hmade.image, hsame⟩
      · rw [if_neg hno] at hstored
        rw [heldAfter, htakes, hstored]
        refine ⟨fun t' ht' => ?_, fun snap' hsnap' => by cases hsnap'⟩
        obtain rfl := Option.some.inj ht'
        exact hheld

/-- Every action with chunks in order keeps it. -/
theorem Buffered.step (hb : s.Buffered) (h : s.Traced) (hin : s.InOrder x) (hs : s.step x = some s') : s'.Buffered := by
  obtain ⟨c, hc, rfl⟩ := Option.map_eq_some_iff.mp hs
  have hquiet (hx : x.delivered = none) (hre : ∀ u, x ≠ .restart u)
      (hbuffer : ∀ u, (c.sites u).node.snapshotBuffer = (s.cluster.sites u).node.snapshotBuffer) : (s.note c x).Buffered := by
    have hheld : (s.note c x).held = s.held ∧ (s.note c x).stored = s.stored := by
      cases x with
      | deliver u id => cases hx
      | restart u => exact absurd rfl (hre u)
      | _ => exact ⟨rfl, rfl⟩
    refine ⟨fun u t ht => ?_, fun p hp => ?_⟩
    · rw [hheld.1] at ht
      rw [note_cluster]
      exact (hb.held u t ht).congr (hbuffer u)
    · rw [hheld.2] at hp
      exact (hb.stored p hp).note c x
  rcases Cluster.step_cases hc with ⟨v, i, o, hi, hst⟩ | ⟨id, y, rfl, _, _, rfl⟩
  · have hothers (held : Option Transfer) (hheld : ∀ t ∈ held, t.HeldBy o.site.node) (u : Fin N) (t : Transfer)
        (ht : t ∈ Function.update s.held v held u) : t.HeldBy (c.sites u).node := by
      rw [hst.site u]
      rw [Function.update_apply] at ht
      split at ht
      · next hu => rw [if_pos hu]; exact hheld t ht
      · next hu => rw [if_neg hu]; exact hb.held u t ht
    rcases Cluster.input_cases hi with ⟨id, y, rfl, hy, rfl⟩ | ⟨rfl, rfl⟩ | ⟨hx, hre, hrec, hir, _⟩
    · obtain ⟨r, hr, ho⟩ := Option.map_eq_some_iff.mp hst.outcome
      have hreply : c.calls[id]?.bind Call.resp = some r.reply := by
        obtain ⟨z, hz, hc⟩ := Option.bind_eq_some_iff.mp hc
        obtain rfl := Option.some.inj (hy.symm.trans hz)
        split at hc
        · obtain ⟨o', ho', rfl⟩ := Option.map_eq_some_iff.mp hc
          obtain rfl := Option.some.inj (hst.outcome.symm.trans ho')
          show ((Cluster.noteReply (s.cluster.calls ++ o.calls) id o.reply)[id]?).bind Call.resp = _
          rw [Cluster.noteReply, List.getElem?_modify_eq, ← ho]
          show (Option.map _ (s.cluster.calls ++ [])[id]?).bind Call.resp = _
          rw [List.append_nil, hy]
          rfl
        · cases hc
      have hnode : (c.sites v).node = r.node := by rw [hst.site v, if_pos rfl, ← ho]
      obtain ⟨hheld, hstored⟩ := h.handled hb hy (fun t ht => hin _ rfl t ht) hr hnode hreply
      refine ⟨hothers _ (by rw [← ho]; exact hheld), fun p hp => ?_⟩
      rcases List.mem_append.mp hp with hp | hp
      · exact (hb.stored p hp).note c _
      · obtain ⟨snap, hsnap, rfl⟩ := List.mem_map.mp hp
        exact (hstored snap (Option.mem_toList.mp hsnap)).note c _
    · exact ⟨hothers none fun _ h => (by cases h), fun p hp => (hb.stored p hp).note c _⟩
    · refine hquiet hx hre fun u => ?_
      rw [hst.site u]
      split
      · next hu =>
        have hstep := ((h.cluster.site v).step hst.outcome).1
        exact hu ▸ congrArg Incoming.snapshotBuffer (hstep.incoming (h.cluster.site v) hir hrec)
      · rfl
  · exact hquiet rfl (fun _ h => by cases h) fun _ => rfl

/-- Where chunks are taken in order, every snapshot that the done branch stores is one that a sender has serialized: its index, its term
and its map are those of the snapshot of one transfer. -/
theorem stored_serialized (h : Run step InOrder (init N) s) : ∀ x ∈ s.stored, ∃ t, some t ∈ s.carried ∧
    t.snapBytes = serializeSnapshot t.snap ∧ x.2.lastIncludedIndex = t.snap.lastIncludedIndex ∧
      x.2.lastIncludedTerm = t.snap.lastIncludedTerm ∧ ∀ k, x.2.kvState.lookup k = t.snap.kvState.lookup k := by
  have hinv : s.Traced ∧ s.Buffered := by
    refine h.invariant (I := fun s => s.Traced ∧ s.Buffered) (fun s x s' hI hin hs => ?_) ⟨traced_init N, buffered_init N⟩
    exact ⟨hI.1.step hs, hI.2.step hI.1 hin hs⟩
  intro x hx
  obtain ⟨t, ht, himage, hsame⟩ := hinv.2.stored x hx
  exact ⟨t, ht, himage, hsame.index, hsame.term, hsame.lookup⟩

/-- A request of a value that takes more than one chunk. -/
def largePut : ClientRequest := { putRequest 2 "" with value := List.replicate 600 97 }

/-- Node 0 commits two commands with node 1 and takes a snapshot. Node 2 is found to be behind, and gets the first of its two chunks; the
second one is sent. -/
def halfSent : List (Action 3) :=
  [.startElection 0, .step 0 .election, .deliver 1 0, .reply 0 .election false, .step 0 .election, .reply 0 .election true,
    .step 0 .election,
    .clientRequest 0 (putRequest 1 "a"), .clientRequest 0 largePut, .step 0 (.client 1), .deliver 1 2, .reply 0 (.client 1) false,
    .step 0 (.client 1), .reply 0 (.client 1) true, .step 0 (.client 1), .snapshotNow 0,
    .step 0 .heartbeat, .step 0 .heartbeat, .reply 0 .heartbeat true, .step 0 .heartbeat, .deliver 2 5, .reply 0 .heartbeat false,
    .step 0 .heartbeat, .step 0 .heartbeat, .step 0 .heartbeat, .reply 0 .heartbeat true, .step 0 .heartbeat, .step 0 .heartbeat,
    .deliver 2 7, .reply 0 .heartbeat false, .step 0 .heartbeat]

theorem halfSent_stored : ∃ s ∈ Systems.runAll step InOrder (init 3) (halfSent ++ [.deliver 2 8]),
    (s.stored.map fun x => (x.1, x.2.lastIncludedIndex)) = [(2, 1)] := by
  decide +kernel

/-- The second chunk is handled next, and node 2 stores the snapshot. -/
theorem stored_serialized_halfSent : ∃ s : Assembly 3, ∃ x ∈ s.stored, x.2.lastIncludedIndex = 1 ∧ ∃ t, some t ∈ s.carried ∧
    t.snapBytes = serializeSnapshot t.snap ∧ x.2.lastIncludedIndex = t.snap.lastIncludedIndex ∧
      x.2.lastIncludedTerm = t.snap.lastIncludedTerm ∧ ∀ k, x.2.kvState.lookup k = t.snap.kvState.lookup k := by
  obtain ⟨s, hs, hstored⟩ := halfSent_stored
  obtain ⟨x, hx, heq⟩ := List.mem_map.mp (hstored ▸ List.mem_singleton_self ((2 : Fin 3), (1 : ℤ)))
  exact ⟨s, x, hx, (Prod.mk.inj heq).2, stored_serialized (Run.refl.runAll hs) x hx⟩

/-- The leader gives up on the second chunk and sends the snapshot again. Node 2 stores it, and handles the abandoned chunk after that. -/
def handledLate : List (Action 3) :=
  halfSent ++ [.reply 0 .heartbeat true, .step 0 .heartbeat, .step 0 .heartbeat, .step 0 .heartbeat, .reply 0 .heartbeat true,
    .step 0 .heartbeat, .step 0 .heartbeat, .deliver 2 10, .reply 0 .heartbeat false, .step 0 .heartbeat, .deliver 2 11, .deliver 2 8]

theorem handledLate_stored : ∃ s ∈ Systems.runAll step (fun _ _ => True) (init 3) handledLate,
    ∃ x ∈ s.stored, ∀ d ∈ s.carried, ∀ t ∈ d, x.2.lastIncludedIndex ≠ t.snap.lastIncludedIndex := by
  decide +kernel

/-- The chunk behind zeros is stored as a snapshot that nobody has taken. -/
theorem stored_unserialized : ¬∀ s : Assembly 3, Run step (fun _ _ => True) (init 3) s → ∀ x ∈ s.stored, ∃ t, some t ∈ s.carried ∧
    t.snapBytes = serializeSnapshot t.snap ∧ x.2.lastIncludedIndex = t.snap.lastIncludedIndex ∧
      x.2.lastIncludedTerm = t.snap.lastIncludedTerm ∧ ∀ k, x.2.kvState.lookup k = t.snap.kvState.lookup k := by
  intro h
  obtain ⟨s, hs, x, hx, hno⟩ := handledLate_stored
  obtain ⟨t, ht, _, hindex, _⟩ := h s (Run.refl.runAll hs) x hx
  exact hno _ ht t rfl hindex

end Assembly

end RaftStore
