import RaftStore.Refinement.Votes
import RaftStore.Lemmas.Aligned

/-!
# The logs of a cluster

`Rel` relates a cluster to a state of the abstract protocol by its logs as well: what a leader sends is a piece of the chain of
its term, a client command stands in that chain with the acknowledgements it has counted, and the history of the run speaks of
chains. With `strict` a positive answer is an acknowledgement; with `bound` what is applied is committed.
-/

namespace RaftStore

open Consensus Cluster

variable {N : ℕ} {strict bound : Prop} {a b : Global N} {c c' : Cluster N} {v : Fin N} {i : Input} {o : Outcome}

/-! ## Committed pieces -/

/-- Entry `i` of the log `l` and all before it are a piece of what was committed in a term up to `T`; index 0 needs no commit. -/
def Settled (a : Global N) (T : ℤ) (l : List LogEntry) (i : ℤ) : Prop :=
  i ≤ 0 ∨ ∃ (t : ℤ) (k : ℕ), t ≤ T ∧ (a.winner t).isSome ∧ Committed LogEntry.term (majority (Fin N)) a t k ∧ i < k ∧
    (a.chain t).take (i.toNat + 1) <+: l

theorem Settled.grows (hg : Grows LogEntry.term a b) {T : ℤ} {l : List LogEntry} {i : ℤ} (h : Settled a T l i) :
    Settled b T l i := by
  rcases h with h | ⟨t, k, ht, hw, hc, hi, hp⟩
  · exact Or.inl h
  · by_cases h0 : i ≤ 0
    · exact Or.inl h0
    · obtain ⟨w, hw'⟩ := Option.isSome_iff_exists.mp hw
      refine Or.inr ⟨t, k, ht, by rw [hg.winner t w hw']; rfl, hc.grows hg hw, hi, ?_⟩
      rwa [← hg.take_chain hw (by have := hc.1.le_length; omega)]

/-- A later term, an earlier index and a longer log. -/
theorem Settled.mono {T T' : ℤ} {l l' : List LogEntry} {i j : ℤ} (h : Settled a T l i) (hT : T ≤ T') (hj : j ≤ i)
    (hl : l <+: l') : Settled a T' l' j := by
  rcases h with h | ⟨t, k, ht, hw, hc, hi, hp⟩
  · exact Or.inl (hj.trans h)
  · refine Or.inr ⟨t, k, ht.trans hT, hw, hc, by omega, ?_⟩
    exact ((List.take_prefix_take_left (by omega)).trans hp).trans hl

/-- A piece of the log that is long enough. -/
theorem Settled.within {T : ℤ} {l l' : List LogEntry} {i : ℤ} (h : Settled a T l i) (hl : l' <+: l)
    (hlen : i < l'.length) : Settled a T l' i := by
  rcases h with h | ⟨t, k, ht, hw, hc, hi, hp⟩
  · exact Or.inl h
  · by_cases h0 : i ≤ 0
    · exact Or.inl h0
    · refine Or.inr ⟨t, k, ht, hw, hc, hi, List.prefix_of_prefix_length_le hp hl ?_⟩
      rw [List.length_take]
      omega

/-- What is settled up to a term is a piece of the chain of each later term. -/
theorem Settled.chain {T T' : ℤ} {l : List LogEntry} {i : ℤ} (h : Settled a T l i)
    (ha : Safe LogEntry.term (majority (Fin N)) a) (hT : T ≤ T') (hw : (a.winner T').isSome) :
    Settled a T (a.chain T') i := by
  rcases h with h | ⟨t, k, ht, hwt, hc, hi, hp⟩
  · exact Or.inl h
  · by_cases h0 : i ≤ 0
    · exact Or.inl h0
    · refine Or.inr ⟨t, k, ht, hwt, hc, hi, ?_⟩
      have hk : (a.chain t).take (i.toNat + 1) <+: (a.chain t).take k := List.take_prefix_take_left (by omega)
      rcases (ht.trans hT).lt_or_eq with hlt | rfl
      · exact hk.trans (ha.committed_later hc hlt hw)
      · exact List.take_prefix _ _

/-- An entry beyond index 0 up to a settled index is an entry of a committed piece. -/
theorem Settled.entry {T : ℤ} {l : List LogEntry} {i : ℤ} (h : Settled a T l i) (h0 : 0 < i) {e : LogEntry}
    (he : l[i.toNat]? = some e) : ∃ (t : ℤ) (k : ℕ), (a.winner t).isSome ∧
      Committed LogEntry.term (majority (Fin N)) a t k ∧ i < k ∧ (a.chain t)[i.toNat]? = some e := by
  rcases h with h | ⟨t, k, _, hw, hc, hi, hp⟩
  · omega
  · have hlen := hc.1.le_length
    refine ⟨t, k, hw, hc, hi, ?_⟩
    rw [← he, ← prefix_getElem? hp (by rw [List.length_take]; omega), List.getElem?_take_of_lt (by omega)]

/-! ## Messages -/

/-- The term of an entry of a list, or `0`. -/
def lastTerm (l : List LogEntry) : ℤ := (l.getLast?.map (·.term)).getD 0

/-- A request for a vote shows a log by its last index and its last term. -/
def VoteRel (a : Global N) (m : RequestVoteRPC) : Prop :=
  ∃ (w : Fin N) (L : List LogEntry), m.candidateId = w.val ∧ (m.term, w, L) ∈ a.requests ∧
    m.lastLogIndex = L.length - 1 ∧ m.lastLogTerm = lastTerm L

/-- The entries of an AppendEntries message are a piece of the chain of its term, and follow an entry of the term it names. -/
structure AppendRel (bound : Prop) (a : Global N) (m : AppendEntriesRPC) : Prop where
  entries : ∃ p : ℕ, m.prevLogIndex + 1 = p ∧ m.entries <+: (a.chain m.term).drop p ∧
    (m.prevLogTerm ≠ 0 → 0 < p → ∃ e, (a.chain m.term)[p - 1]? = some e ∧ e.term = m.prevLogTerm)
  settled : bound → Settled a m.term (a.chain m.term) m.leaderCommit

/-- A list of entries is a piece of the chain of a term that has a winner, settled up to its last index. -/
structure PieceRel (bound : Prop) (a : Global N) (T : ℤ) (l : List LogEntry) (lastIndex : ℤ) : Prop where
  winner : (a.winner T).isSome
  covered : l <+: a.chain T
  settled : bound → Settled a T l lastIndex

/-- The message was sent by the winner of its term, to another node. -/
def SentBy (a : Global N) (t port : ℤ) : Prop := ∃ w, a.winner t = some w ∧ Cluster.port w ≠ port

/-- A call and the message it carries. A positive answer to AppendEntries is one to a message with a piece of the chain, and with `strict` an
acknowledgement. -/
def CallRel (strict bound : Prop) (a : Global N) (y : Call) : Prop :=
  match y.req with
  | .requestVote m => VoteRel a m
  | .appendEntries m => SentBy a m.term y.port ∧ (m.Vain ∨ AppendRel bound a m) ∧
      ∀ u t, y.port = port u → y.resp.bind Reply.appendEntriesResponse = some (t, true) →
        ¬m.Vain ∧ (strict → Acked a u m.term (m.reach + 1).toNat)
  | .installSnapshot m => SentBy a m.term y.port ∧ PieceRel bound a m.term m.covered m.lastIncludedIndex

theorem AppendRel.grows (hg : Grows LogEntry.term a b) {m : AppendEntriesRPC} (hw : (a.winner m.term).isSome)
    (h : AppendRel bound a m) : AppendRel bound b m := by
  obtain ⟨w, hw⟩ := Option.isSome_iff_exists.mp hw
  have hc := hg.chain _ w hw
  obtain ⟨p, hp, hes, hprev⟩ := h.entries
  refine ⟨⟨p, hp, hes.trans ?_, fun hne hpos => ?_⟩, fun hb => ((h.settled hb).grows hg).mono le_rfl le_rfl hc⟩
  · obtain ⟨l, hl⟩ := hc
    rw [← hl, List.drop_append]
    exact List.prefix_append _ _
  · obtain ⟨e, he, ht⟩ := hprev hne hpos
    exact ⟨e, by rw [← prefix_getElem? hc (List.getElem?_eq_some_iff.mp he).1]; exact he, ht⟩

theorem PieceRel.grows (hg : Grows LogEntry.term a b) {T i : ℤ} {l : List LogEntry} (h : PieceRel bound a T l i) :
    PieceRel bound b T l i := by
  obtain ⟨w, hw⟩ := Option.isSome_iff_exists.mp h.winner
  exact ⟨by rw [hg.winner T w hw]; rfl, h.covered.trans (hg.chain T w hw), fun hb => (h.settled hb).grows hg⟩

theorem SentBy.grows (hg : Grows LogEntry.term a b) {t p : ℤ} (h : SentBy a t p) : SentBy b t p := by
  obtain ⟨w, hw, hp⟩ := h
  exact ⟨w, hg.winner t w hw, hp⟩

theorem SentBy.winner {t p : ℤ} (h : SentBy a t p) : (a.winner t).isSome := by
  obtain ⟨w, hw, _⟩ := h
  rw [hw]
  rfl

theorem CallRel.grows (hg : Grows LogEntry.term a b) {y : Call} (h : CallRel strict bound a y) :
    CallRel strict bound b y := by
  unfold CallRel at h ⊢
  split at h
  · obtain ⟨w, L, hw, hL, h⟩ := h
    exact ⟨w, L, hw, hg.requests hL, h⟩
  · obtain ⟨hs, hm, hack⟩ := h
    exact ⟨hs.grows hg, hm.imp_right (·.grows hg hs.winner),
      fun u t hp hr => (hack u t hp hr).imp_right fun hack hst => (hack hst).grows hg⟩
  · exact ⟨h.1.grows hg, h.2.grows hg⟩

/-! ## Threads -/

/-- The transfer that a heartbeat thread is in. -/
def HeartbeatPhase.transfer : HeartbeatPhase → Option Transfer
  | .chunk _ t => some t
  | .chunkReply _ t _ => some t
  | _ => none

/-- The transfer that a client command is in. -/
def CallPhase.transfer : CallPhase → Option Transfer
  | .chunk t => some t
  | .chunkReply t _ => some t
  | _ => none

/-- The snapshot of a transfer is a piece of the chain of the term of its thread. -/
def TransferRel (bound : Prop) (a : Global N) (T : ℤ) (t : Transfer) : Prop :=
  PieceRel bound a T t.snap.covered t.snap.lastIncludedIndex

/-- A client command of `v`: its entry stands in the chain of its term, as long as `v` leads that term its transfer is a piece
of the chain, and with `strict` the answers it has counted are acknowledgements of that many other nodes. -/
structure ClientRel (strict bound : Prop) (calls : List Call) (a : Global N) (v : Fin N) (n : RaftNode) (call : ClientCall) :
    Prop where
  winner : a.winner call.entry.term = some v
  entry : (a.chain call.entry.term)[call.newIndex.toNat]? = some call.entry
  transfer : n.leads call.entry.term → ∀ t, call.phase.transfer = some t → TransferRel bound a call.entry.term t
  acks : strict → ∃ S : Finset (Fin N), S.card + 1 = call.successCount ∧ ∀ u ∈ S, u ≠ v ∧
    port u ∉ (peers v).drop call.i ∧ Acked a u call.entry.term (call.newIndex.toNat + 1)
  await : ∀ id, call.phase = .append id → ∃ y m, calls[id]? = some y ∧ (peers v)[call.i]? = some y.port ∧
    y.req = .appendEntries m ∧ m.term = call.entry.term ∧ (m.Vain ∨ call.newIndex ≤ m.reach)

/-- What is applied is committed. -/
structure AppliedRel (a : Global N) (n : RaftNode) : Prop where
  commit : n.commitIndex ≤ n.lastApplied
  settled : Settled a n.currentTerm n.full n.lastApplied

/-- The site `v` and the abstract state. -/
structure SiteRel (strict bound : Prop) (calls : List Call) (a : Global N) (v : Fin N) (s : Site) : Prop where
  logs : LogRel s.node (a.member v)
  applied : bound → AppliedRel a s.node
  heartbeat : ∀ hb, s.heartbeat = some hb → s.node.leads hb.term → ∀ t, hb.phase.transfer = some t →
    TransferRel bound a hb.term t
  client : ∀ call ∈ s.clients, ClientRel strict bound calls a v s.node call

/-! ## The history -/

/-- What the history of the run says of the chains. -/
def EventRel (strict bound : Prop) (a : Global N) : Event → Prop
  | .becameLeader n => n.Aligned ∧ n.full <+: a.chain n.currentTerm ∧
      ∀ (j : ℕ) (e : LogEntry), n.full.length ≤ j → (a.chain n.currentTerm)[j]? = some e → e.term = n.currentTerm
  | .committed t i (some e) => strict → 0 ≤ i ∧ (a.winner t).isSome ∧
      Committed LogEntry.term (majority (Fin N)) a t (i.toNat + 1) ∧ (a.chain t)[i.toNat]? = some e
  | .applied i e => bound → 0 < i ∧ ∃ (t : ℤ) (k : ℕ), (a.winner t).isSome ∧
      Committed LogEntry.term (majority (Fin N)) a t k ∧ i < k ∧ (a.chain t)[i.toNat]? = some e
  | _ => True

/-- The cluster and the abstract state. -/
structure Rel (strict bound : Prop) (c : Cluster N) (a : Global N) : Prop where
  votes : Votes c a
  site : ∀ v, SiteRel strict bound c.calls a v (c.sites v)
  call : ∀ y ∈ c.calls, CallRel strict bound a y
  event : ∀ p ∈ c.events, EventRel strict bound a p.2

/-! ## What a step keeps of the relation -/

/-- The entry at a place of a chain stays. -/
theorem grows_entry (hg : Grows LogEntry.term a b) {t : ℤ} (hw : (a.winner t).isSome) {j : ℕ} {e : LogEntry}
    (he : (a.chain t)[j]? = some e) : (b.chain t)[j]? = some e := by
  obtain ⟨w, hw⟩ := Option.isSome_iff_exists.mp hw
  rw [← prefix_getElem? (hg.chain t w hw) (List.getElem?_eq_some_iff.mp he).1]
  exact he

theorem grows_winner (hg : Grows LogEntry.term a b) {t : ℤ} (hw : (a.winner t).isSome) : (b.winner t).isSome := by
  obtain ⟨w, hw⟩ := Option.isSome_iff_exists.mp hw
  rw [hg.winner t w hw]
  rfl

/-- The history stays true of the chains. For a leader, `hw` is that it won its term. -/
theorem EventRel.grows (hg : Grows LogEntry.term a b) {ev : Event}
    (hw : ∀ n, ev = .becameLeader n → (a.winner n.currentTerm).isSome) (h : EventRel strict bound a ev) :
    EventRel strict bound b ev := by
  unfold EventRel at h ⊢
  split at h
  · next n =>
    obtain ⟨hal, hp, hown⟩ := h
    obtain ⟨w, hw⟩ := Option.isSome_iff_exists.mp (hw n rfl)
    refine ⟨hal, hp.trans (hg.chain _ w hw), fun j e hj he => ?_⟩
    by_cases hlt : j < (a.chain n.currentTerm).length
    · rw [← prefix_getElem? (hg.chain _ w hw) hlt] at he
      exact hown j e hj he
    · exact hg.chain_new _ w hw j e (not_lt.mp hlt) he
  · intro hs
    obtain ⟨h0, hwin, hc, he⟩ := h hs
    exact ⟨h0, grows_winner hg hwin, hc.grows hg hwin, grows_entry hg hwin he⟩
  · intro hb
    obtain ⟨h0, t, k, hwin, hc, hi, he⟩ := h hb
    exact ⟨h0, t, k, grows_winner hg hwin, hc.grows hg hwin, hi, grows_entry hg hwin he⟩
  · trivial

/-- A client command that is left alone. -/
theorem ClientRel.mono {calls calls' : List Call} {n n' : RaftNode} {call : ClientCall}
    (h : ClientRel strict bound calls a v n call) (hk : CallsKept calls calls') (hg : Grows LogEntry.term a b)
    (hback : n'.leads call.entry.term → n.leads call.entry.term) : ClientRel strict bound calls' b v n' call where
  winner := hg.winner _ _ h.winner
  entry := grows_entry hg (by rw [h.winner]; rfl) h.entry
  transfer hl t ht := (h.transfer (hback hl) t ht).grows hg
  acks hs := by
    obtain ⟨S, hcard, hS⟩ := h.acks hs
    exact ⟨S, hcard, fun u hu => ⟨(hS u hu).1, (hS u hu).2.1, (hS u hu).2.2.grows hg⟩⟩
  await id hp := by
    obtain ⟨y, m, hy, hi, hreq, hm, hr⟩ := h.await id hp
    obtain ⟨y', hy', hport, hreq'⟩ := hk id y hy
    exact ⟨y', m, hy', hport ▸ hi, hreq'.trans hreq, hm, hr⟩

/-- A site that is left alone. -/
theorem SiteRel.mono {calls calls' : List Call} {s : Site} (h : SiteRel strict bound calls a v s)
    (hk : CallsKept calls calls') (hg : Grows LogEntry.term a b) (hm : b.member v = a.member v) :
    SiteRel strict bound calls' b v s where
  logs := hm ▸ h.logs
  applied hb := ⟨(h.applied hb).commit, (h.applied hb).settled.grows hg⟩
  heartbeat hb hhb hl t ht := (h.heartbeat hb hhb hl t ht).grows hg
  client call hc := (h.client call hc).mono hk hg id

/-- A site after a step: what is left to show of the node, the heartbeat thread and the client commands that the step has
touched. -/
theorem SiteRel.step {calls calls' : List Call} {s s' : Site} (h : SiteRel strict bound calls a v s)
    (hs : s.Sound) (hk : CallsKept calls calls') (hg : Grows LogEntry.term a b)
    (hback : ∀ T, ThreadTerm s.node.role T → s'.node.leads T → s.node.leads T)
    (hlogs : LogRel s'.node (b.member v)) (happlied : bound → AppliedRel b s'.node)
    (hhb : ∀ hb', s'.heartbeat = some hb' →
      (∃ hb, s.heartbeat = some hb ∧ hb'.term = hb.term ∧
        ∀ t', hb'.phase.transfer = some t' → ∃ t, hb.phase.transfer = some t ∧ t'.snap = t.snap) ∨
      (s'.node.leads hb'.term → ∀ t, hb'.phase.transfer = some t → TransferRel bound b hb'.term t))
    (hcl : ∀ call ∈ s'.clients, call ∈ s.clients ∨ ClientRel strict bound calls' b v s'.node call) :
    SiteRel strict bound calls' b v s' where
  logs := hlogs
  applied := happlied
  heartbeat hb' hhb' hl t' ht' := by
    rcases hhb hb' hhb' with ⟨hb, hhb, hterm, htr⟩ | hnew
    · obtain ⟨t, ht, hsnap⟩ := htr t' ht'
      rw [hterm] at hl ⊢
      unfold TransferRel
      rw [hsnap]
      exact (h.heartbeat hb hhb (hback _ (hs.heartbeat hb hhb) hl) t ht).grows hg
    · exact hnew hl t' ht'
  client call hc := by
    rcases hcl call hc with hold | hnew
    · exact (h.client call hold).mono hk hg (hback _ (hs.client call hold))
    · exact hnew

/-- A node that leads the term of one of its threads after a step has led it before: it cannot have won the term since. -/
theorem Site.Sound.leads_back {size next : ℕ} {s : Site} {store : KVStore} (h : s.Sound)
    (hs : Site.Step size next s store i o) (hown : Site.electsInOwnTerm size s i) {T : ℤ} (hT : ThreadTerm s.node.role T)
    (hl : o.site.node.leads T) : s.node.leads T := by
  rcases h.role_cases hs with hlater | ⟨_, hr⟩ | ⟨rfl, ⟨el, he, hp, hrest, hv⟩, hr, _⟩
  · obtain ⟨hstate, hterm⟩ := hlater.state (fun hf => by cases hf.symm.trans hl.1)
    exact ⟨hstate.symm.trans hl.1, hterm.symm.trans hl.2⟩
  · cases (congrArg Role.state hr).symm.trans hl.1
  · obtain ⟨hcand, _⟩ := hown rfl el he hp hrest hv
    have hterm : s.node.currentTerm = T := (congrArg Role.currentTerm hr).symm.trans hl.2
    exact absurd (hT.2 hcand) (by rw [← hterm]; exact lt_irrefl _)

/-- The cluster after a step of the site `v`: what is left to show of the site, of the message sent, of the reply noted and of
the history. -/
theorem Rel.siteStep (h : Rel strict bound c a) (hc : c.Sound) (hs : SiteStep c c' v i o) (hg : Grows LogEntry.term a b)
    (hrole : RoleRel o.site.node.role (b.member v)) (hothers : ∀ u, u ≠ v → b.member u = a.member u)
    (hvotes : i.isVote = true → NewVotes b v o) (hsite : SiteRel strict bound c'.calls b v o.site)
    (hsend : ∀ x, o.send = some x → CallRel strict bound b { port := x.port, req := x.req, resp := none })
    (hreply : ∀ y : Call, i = .receive y.req → y.port = port v → CallRel strict bound b y →
      CallRel strict bound b { y with resp := o.reply })
    (hevent : ∀ ev ∈ o.events, EventRel strict bound b ev) : Rel strict bound c' b := by
  have hv := h.votes.siteStep hc hs hg hrole hothers hvotes
  refine ⟨hv, fun u => ?_, ?_, fun p hp => ?_⟩
  · rw [hs.site u]
    split
    · next hu => exact hu ▸ hsite
    · next hu => exact (h.site u).mono hs.callsKept hg (hothers u hu)
  · have happ : ∀ y ∈ c.calls ++ o.calls, CallRel strict bound b y := by
      intro y hy
      rcases List.mem_append.mp hy with hy | hy
      · exact (h.call y hy).grows hg
      · obtain ⟨x, hx, rfl⟩ := List.mem_map.mp hy
        exact hsend x (Option.mem_toList.mp hx)
    rcases hs.calls with ⟨_, hcalls⟩ | ⟨id, y, hy, hi, _, hport, hcalls⟩ <;> rw [hcalls]
    · exact happ
    · intro z hz
      rcases mem_noteReply hz with hz | ⟨z₀, hz₀, rfl⟩
      · exact happ z hz
      · rw [List.getElem?_append_left (List.getElem?_eq_some_iff.mp hy).1, hy] at hz₀
        obtain rfl := Option.some.inj hz₀
        exact hreply y hi (hport.trans (hc.rpcPort v)) (happ y (List.mem_append_left _ (List.mem_of_getElem? hy)))
  · rw [hs.events] at hp
    rcases List.mem_append.mp hp with hp | hp
    · refine (h.event p hp).grows hg (fun n hn => ?_)
      have := h.votes.led p.1 n (by rw [← hn]; exact hp)
      rw [this]
      rfl
    · obtain ⟨ev, hev, rfl⟩ := List.mem_map.mp hp
      exact hevent ev hev

/-- A call that is answered without being handled. -/
theorem Rel.garble (h : Rel strict bound c a) (hc : c.Sound) (id : ℕ) : Rel strict bound (c.answer id (some .invalid)) a where
  votes := h.votes.garble hc id
  site v := (h.site v).mono (callsKept_noteReply _ id _) (Grows.refl a) rfl
  call y hy := by
    rcases mem_noteReply hy with hy | ⟨y₀, hy₀, rfl⟩
    · exact h.call y hy
    · have hrel := h.call y₀ (List.mem_of_getElem? hy₀)
      unfold CallRel at hrel ⊢
      simp only
      split at hrel
      · exact hrel
      · exact ⟨hrel.1, hrel.2.1, fun u t _ hr => by simp [Reply.appendEntriesResponse] at hr⟩
      · exact hrel
  event := h.event

end RaftStore
