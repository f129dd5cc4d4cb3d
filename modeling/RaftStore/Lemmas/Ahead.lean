import Mathlib.Data.Prod.Lex
import RaftStore.Lemmas.Cluster
import RaftStore.Theorems.StepDown

/-!
# What a thread has before it

A measure of what an election, a heartbeat thread and a client command still have to do: the peers that are left, then what is left to do
for the current one, a transfer of a snapshot included. A step of the thread itself takes something from it, whatever the replies are, and
the steps of the others leave it. A heartbeat thread goes round as long as its node leads.
-/

namespace RaftStore

/-- The messages and the replies of a transfer that are left. -/
def Transfer.left (t : Transfer) : ℕ := 2 * (t.chunkCount - t.chunkNum)

theorem Transfer.left_reply {t t' : Transfer} {n : RaftNode} {i : ℕ} {r : Option Reply} (h : (t.reply n i r).2 = some t') :
    t'.left + 1 < t.left := by
  unfold Transfer.reply at h
  split at h
  · cases h
  · split at h
    · simp only at h
      split at h
      · next hlt =>
        obtain rfl := Option.some.inj h
        have hcount : chunkCount { t with chunkNum := t.chunkNum + 1 } = t.chunkCount := rfl
        simp only [left, hcount]
        omega
      · cases h
    · cases h

/-- The inputs that are moves of the thread `t`: it goes on, or gets a reply. -/
def Input.Moves (t : Thread) : Input → Prop
  | .step u => u = t
  | .reply u _ => u = t
  | _ => False

/-! ## Elections -/

/-- What an election has before it. -/
def Election.ahead (el : Election) : ℕ :=
  match el.phase with
  | .ask => 2 * el.rest.length + 1
  | .await _ => 2 * (el.rest.length - 1) + 2
  | .join => 0

namespace Site

variable {size next k : ℕ} {s : Site} {store : KVStore} {i : Input} {o : Outcome}

/-- The election comes to its end, waits for the heartbeat thread of an earlier leadership, or comes nearer to its end, by its own moves
only. -/
theorem Step.election_ahead (hs : Step size next s store i o) {el : Election} (he : s.election = some el) :
    o.site.election = none ∨ ∃ el', o.site.election = some el' ∧
      (el' = el ∧ ¬i.Moves .election ∨ el.phase ≠ .join ∧ el'.ahead < el.ahead) := by
  have hsame (hi : ¬i.Moves .election) (ho : o.site.election = s.election) : o.site.election = none ∨
      ∃ el', o.site.election = some el' ∧ (el' = el ∧ ¬i.Moves .election ∨ el.phase ≠ .join ∧ el'.ahead < el.ahead) :=
    .inr ⟨el, ho.trans he, .inl ⟨rfl, hi⟩⟩
  have hask (el' : Election) (he' : s.election = some el') {call : ℕ} (hp : el'.phase = .await call) (v : ℕ) :
      el.phase ≠ .join ∧ Election.ahead { el' with votes := v, rest := el'.rest.tail, phase := .ask } < el.ahead := by
    obtain rfl := Option.some.inj (he.symm.trans he')
    simp [Election.ahead, hp]
  cases hs with
  | startElection he' hl => cases he.symm.trans he'
  | join el' he' hp hh => exact .inl rfl
  | ask el' p rest he' hp hr =>
    obtain rfl := Option.some.inj (he.symm.trans he')
    refine .inr ⟨_, rfl, .inr ⟨by simp [hp], ?_⟩⟩
    simp only [Election.ahead, hp, hr, List.length_cons]
    omega
  | win el' he' hp hr hv =>
    obtain rfl := Option.some.inj (he.symm.trans he')
    unfold elected
    split
    · exact .inr ⟨_, rfl, .inr ⟨by simp [hp], by simp [Election.ahead, hp]⟩⟩
    · exact .inl rfl
  | lose el' he' hp hr hv => exact .inl rfl
  | noVote el' call r he' hp hr => exact .inr ⟨_, rfl, .inr (hask el' he' hp _)⟩
  | voteLater el' call r term g he' hp hr ht => exact .inl rfl
  | vote el' call r term g he' hp hr ht => exact .inr ⟨_, rfl, .inr (hask el' he' hp _)⟩
  | restart n store' hr => exact .inl rfl
  | _ => exact hsame (by simp [Input.Moves]) rfl

end Site

/-! ## Client commands -/

/-- What a client command of a node with so many peers has before it. -/
def ClientCall.ahead (call : ClientCall) (peers : ℕ) : ℕ ×ₗ ℕ ×ₗ ℕ :=
  match call.phase with
  | .ready => toLex (peers - call.i + 1, toLex (0, 0))
  | .append _ => toLex (peers - (call.i + 1) + 1, toLex (2, 0))
  | .chunk t => toLex (peers - (call.i + 1) + 1, toLex (1, t.left + 1))
  | .chunkReply t _ => toLex (peers - (call.i + 1) + 1, toLex (1, t.left))
  | .done _ => toLex (0, toLex (0, 0))

/-- The peer that the command deals with is one of the peers. -/
def ClientCall.Within (call : ClientCall) (peers : ℕ) : Prop :=
  match call.phase with
  | .ready | .done _ => True
  | .append _ | .chunk _ | .chunkReply _ _ => call.i < peers

namespace Site

variable {size next k : ℕ} {s : Site} {store : KVStore} {i : Input} {o : Outcome} {call : ClientCall}

/-- The request and the entry of a client command stay with it. -/
def SameCall (call call' : ClientCall) : Prop := call'.req = call.req ∧ call'.entry = call.entry

/-- What the command `call` has become: it is the same one, nearer to its end if its own thread has moved. -/
structure Nearer (peers : ℕ) (moved : Prop) (call call' : ClientCall) : Prop where
  same : SameCall call call'
  within : call.Within peers → call'.Within peers
  ahead : call' = call ∧ ¬moved ∨ call'.ahead peers < call.ahead peers

theorem Nearer.refl {peers : ℕ} {moved : Prop} (h : ¬moved) : Nearer peers moved call call := ⟨⟨rfl, rfl⟩, fun h => h, .inl ⟨rfl, h⟩⟩

/-- On to the next peer. -/
theorem nearer_nextPeer {peers : ℕ} {moved : Prop} (count : ℕ) (h : (∃ id, call.phase = .append id) ∨ ∃ t id, call.phase = .chunkReply t id) :
    Nearer peers moved call (nextPeer { call with successCount := count }) where
  same := ⟨rfl, rfl⟩
  within _ := trivial
  ahead := by
    right
    rcases h with ⟨id, hp⟩ | ⟨t, id, hp⟩ <;> simp [ClientCall.ahead, nextPeer, hp, Prod.Lex.toLex_lt_toLex]

/-- Every step but a restart leaves each client command at its place, and brings the one whose thread moves nearer to its end. -/
theorem Step.client_ahead (hs : Step size next s store i o) (hr : i ≠ .restart) (hk : s.clients[k]? = some call) :
    ∃ call', o.site.clients[k]? = some call' ∧ Nearer s.node.peerRpcPorts.length (i.Moves (.client k)) call call' := by
  have hkept (hi : ¬i.Moves (.client k)) (ho : o.site.clients = s.clients) :
      ∃ call', o.site.clients[k]? = some call' ∧ Nearer s.node.peerRpcPorts.length (i.Moves (.client k)) call call' :=
    ⟨call, ho ▸ hk, .refl hi⟩
  have hset (j : ℕ) {c c' : ClientCall} (hj : s.clients[j]? = some c) (hi : i.Moves (.client k) → k = j)
      (hc : Nearer s.node.peerRpcPorts.length (i.Moves (.client k)) c c') (ho : o.site.clients = s.clients.set j c') :
      ∃ call', o.site.clients[k]? = some call' ∧ Nearer s.node.peerRpcPorts.length (i.Moves (.client k)) call call' := by
    rw [ho, List.getElem?_set]
    split
    · next hjk =>
      subst hjk
      obtain rfl := Option.some.inj (hk.symm.trans hj)
      rw [if_pos (List.getElem?_eq_some_iff.mp hk).1]
      exact ⟨c', rfl, hc⟩
    · next hjk => exact ⟨call, hk, .refl fun hm => hjk (hi hm).symm⟩
  have hstep {j : ℕ} (hm : Input.Moves (.client k) (.step (.client j))) : k = j := (Thread.client.inj hm).symm
  have hreply {j : ℕ} {r : Option Reply} (hm : Input.Moves (.client k) (.reply (.client j) r)) : k = j := (Thread.client.inj hm).symm
  have hlt {p : ℤ} {c : ClientCall} (hp : s.node.peerRpcPorts[c.i]? = some p) : c.i < s.node.peerRpcPorts.length :=
    (List.getElem?_eq_some_iff.mp hp).1
  have hdone {c : ClientCall} (result : Str) (hp : ∀ r, c.phase ≠ .done r) (moved : Prop) :
      Nearer s.node.peerRpcPorts.length moved c { c with phase := .done result } := by
    refine ⟨⟨rfl, rfl⟩, fun _ => trivial, .inr ?_⟩
    cases hc : c.phase with
    | done r => exact absurd hc (hp r)
    | _ => simp [ClientCall.ahead, hc, Prod.Lex.toLex_lt_toLex]
  cases hs with
  | restart n store' hr' => exact absurd rfl hr
  | win el he hp hr' hv => exact hkept (by simp [Input.Moves]) (s.elected_clients el)
  | append req hl hc =>
    exact ⟨call, (List.getElem?_append_left (List.getElem?_eq_some_iff.mp hk).1).trans hk, .refl not_false⟩
  | send j c p hj hp hi =>
    have hlt := hlt hi
    refine hset j hj hstep ?_ rfl
    refine ⟨⟨rfl, rfl⟩, fun _ => hlt, .inr ?_⟩
    simp only [ClientCall.ahead, hp, Prod.Lex.toLex_lt_toLex]
    omega
  | commit j c hj hp hi hm => exact hset j hj hstep (hdone _ (by simp [hp]) _) rfl
  | notCommitted j c hj hp hi hm => exact hset j hj hstep (hdone _ (by simp [hp]) _) rfl
  | sendChunk j c t p hj hp hi =>
    refine hset j hj hstep ?_ rfl
    refine ⟨⟨rfl, rfl⟩, fun _ => hlt hi, .inr ?_⟩
    simp [ClientCall.ahead, hp, Prod.Lex.toLex_lt_toLex]
  | lost j c id r hj hp hr' => exact hset j hj hreply (nearer_nextPeer c.successCount (.inl ⟨id, hp⟩)) rfl
  | later j c id r term success hj hp hr' ht => exact hset j hj hreply (hdone _ (by simp [hp]) _) rfl
  | success j c id r term hj hp hr' ht => exact hset j hj hreply (nearer_nextPeer (c.successCount + 1) (.inl ⟨id, hp⟩)) rfl
  | failure j c id r term hj hp hr' ht c' hc =>
    refine hset j hj hreply ?_ rfl
    subst hc
    split
    · next snapshot hs =>
      refine ⟨⟨rfl, rfl⟩, fun hw => ?_, .inr ?_⟩
      · simpa [ClientCall.Within, hp] using hw
      · simp [ClientCall.ahead, hp, Prod.Lex.toLex_lt_toLex]
    · exact nearer_nextPeer c.successCount (.inl ⟨id, hp⟩)
  | chunkReply j c t id r hj hp c' hc =>
    refine hset j hj hreply ?_ rfl
    subst hc
    split
    · next t' ht' =>
      have hleft := t.left_reply ht'
      refine ⟨⟨rfl, rfl⟩, fun hw => ?_, .inr ?_⟩
      · simpa [ClientCall.Within, hp] using hw
      · simp only [ClientCall.ahead, hp, Prod.Lex.toLex_lt_toLex]
        exact .inr ⟨trivial, .inr ⟨trivial, hleft⟩⟩
    · exact nearer_nextPeer c.successCount (.inr ⟨t, id, hp⟩)
  | _ => exact hkept (by simp [Input.Moves]) rfl

/-! ## Heartbeats -/

end Site

/-- What the heartbeat thread of a node with so many peers has before it, up to the end of its round. -/
def Heartbeat.ahead (hb : Heartbeat) (peers : ℕ) : ℕ ×ₗ ℕ ×ₗ ℕ :=
  match hb.phase with
  | .top => toLex (1, toLex (0, 0))
  | .peer i => toLex (peers - i + 2, toLex (0, 0))
  | .append i _ _ _ => toLex (peers - (i + 1) + 2, toLex (2, 0))
  | .chunk i t => toLex (peers - (i + 1) + 2, toLex (1, t.left + 1))
  | .chunkReply i t _ => toLex (peers - (i + 1) + 2, toLex (1, t.left))

/-- The peer that the thread waits for is one of the peers. -/
def Heartbeat.Within (hb : Heartbeat) (peers : ℕ) : Prop :=
  match hb.phase with
  | .top | .peer _ => True
  | .append i _ _ _ | .chunk i _ | .chunkReply i _ _ => i < peers

/-- Where a heartbeat thread goes from its phase by a move of its own. -/
inductive HeartbeatPhase.Goes (n : RaftNode) : HeartbeatPhase → HeartbeatPhase → Prop where
  | round (hr : n.runningHeartbeats = true) (hl : n.state = .leader) : Goes n .top (.peer 0)
  | endRound (i : ℕ) : Goes n (.peer i) .top
  | needSnapshot (i : ℕ) (t : Transfer) (hi : i < n.peerRpcPorts.length) : Goes n (.peer i) (.chunk i t)
  | send (i : ℕ) (nextIdx : ℤ) (count call : ℕ) (hi : i < n.peerRpcPorts.length) : Goes n (.peer i) (.append i nextIdx count call)
  | sendChunk (i : ℕ) (t : Transfer) (call : ℕ) : Goes n (.chunk i t) (.chunkReply i t call)
  | stopped (i : ℕ) (nextIdx : ℤ) (count call : ℕ) : Goes n (.append i nextIdx count call) .top
  | answered (i : ℕ) (nextIdx : ℤ) (count call : ℕ) : Goes n (.append i nextIdx count call) (.peer (i + 1))
  | more (i : ℕ) (t t' : Transfer) (call : ℕ) (ht : t'.left + 1 < t.left) : Goes n (.chunkReply i t call) (.chunk i t')
  | lastChunk (i : ℕ) (t : Transfer) (call : ℕ) : Goes n (.chunkReply i t call) (.peer (i + 1))

namespace Site

variable {size next k : ℕ} {s : Site} {store : KVStore} {i : Input} {o : Outcome} {hb : Heartbeat}

/-- The node leads no more, or has been told to end its heartbeats. -/
def Winding (s : Site) : Prop := ¬(s.node.runningHeartbeats = true ∧ s.node.state = .leader)

/-- What the heartbeat thread does by itself. -/
theorem heartbeatStep_goes (h : s.heartbeatStep next store = some o) (hh : s.heartbeat = some hb) :
    o.site.node = s.node ∧ (o.site.heartbeat = none ∨
      ∃ phase, o.site.heartbeat = some { hb with phase := phase } ∧ hb.phase.Goes s.node phase) := by
  simp only [heartbeatStep, hh] at h
  split at h
  · next hp =>
    split at h
    · next hl =>
      obtain rfl := Option.some.inj h
      exact ⟨rfl, .inr ⟨_, rfl, hp ▸ .round hl.1 hl.2.1⟩⟩
    · obtain rfl := Option.some.inj h
      exact ⟨rfl, .inl rfl⟩
  · next j hp =>
    split at h
    · obtain rfl := Option.some.inj h
      exact ⟨rfl, .inl rfl⟩
    · split at h
      · obtain rfl := Option.some.inj h
        exact ⟨rfl, .inr ⟨_, rfl, hp ▸ .endRound j⟩⟩
      · split at h
        · obtain rfl := Option.some.inj h
          exact ⟨rfl, .inr ⟨_, rfl, hp ▸ .endRound j⟩⟩
        · next p hj =>
          have hlt := (List.getElem?_eq_some_iff.mp hj).1
          split at h
          · obtain rfl := Option.some.inj h
            exact ⟨rfl, .inr ⟨_, rfl, hp ▸ .needSnapshot j _ hlt⟩⟩
          · obtain rfl := Option.some.inj h
            exact ⟨rfl, .inr ⟨_, rfl, hp ▸ .send j _ _ _ hlt⟩⟩
  · next j t hp =>
    split at h
    · cases h
    · obtain rfl := Option.some.inj h
      exact ⟨rfl, .inr ⟨_, rfl, hp ▸ .sendChunk j t _⟩⟩
  · cases h

/-- A reply to the heartbeat thread is seen. -/
theorem Step.heartbeatReply_goes {r : Option Reply} (hs : Step size next s store (.reply .heartbeat r) o) (hh : s.heartbeat = some hb) :
    s.node.Lowers o.site.node ∧ (o.site.heartbeat = none ∨
      ∃ phase, o.site.heartbeat = some { hb with phase := phase } ∧ hb.phase.Goes s.node phase) := by
  cases hs with
  | heartbeatStopped hb' j nextIdx count call _ hh' hp =>
    obtain rfl := Option.some.inj (hh.symm.trans hh')
    exact ⟨.refl _, .inr ⟨_, rfl, hp ▸ .stopped j nextIdx count call⟩⟩
  | heartbeatLost hb' j nextIdx count call _ hh' hp hr =>
    obtain rfl := Option.some.inj (hh.symm.trans hh')
    exact ⟨.refl _, .inr ⟨_, rfl, hp ▸ .answered j nextIdx count call⟩⟩
  | heartbeatLater hb' j nextIdx count call _ term success hh' hp hr ht =>
    exact ⟨⟨rfl, rfl, fun h => (by cases h), fun h => (by cases h)⟩, .inl rfl⟩
  | heartbeatReply hb' j nextIdx count call _ term success hh' hp hr ht =>
    obtain rfl := Option.some.inj (hh.symm.trans hh')
    obtain ⟨_, _, heq⟩ := heartbeatAnswered_shape s.node j nextIdx count success
    refine ⟨?_, .inr ⟨_, rfl, hp ▸ .answered j nextIdx count call⟩⟩
    simp only [Outcome.local, heartbeatAt, heq]
    exact .of_role rfl rfl
  | heartbeatChunkReply hb' j t call _ hh' hp phase hph =>
    obtain rfl := Option.some.inj (hh.symm.trans hh')
    obtain ⟨_, _, heq⟩ := t.reply_shape s.node j r
    refine ⟨?_, .inr ⟨phase, rfl, ?_⟩⟩
    · simp only [Outcome.local, heartbeatAt, heq]
      exact .of_role rfl rfl
    · subst hph
      rw [hp]
      split
      · next t' ht' => exact .more j t t' call (t.left_reply ht')
      · exact .lastChunk j t call

/-- A node that is lowered leads no more, if it did not. -/
theorem Winding.lowers (h : s.Winding) {s' : Site} (hl : s.node.Lowers s'.node) : s'.Winding :=
  fun hr => h ⟨hl.runningHeartbeats hr.1, hl.state hr.2⟩

end Site

/-- A move of its own brings a heartbeat thread nearer to its end, where the node leads no more. -/
theorem HeartbeatPhase.Goes.ahead {n : RaftNode} {hb : Heartbeat} {phase : HeartbeatPhase} (h : hb.phase.Goes n phase)
    (hw : ¬(n.runningHeartbeats = true ∧ n.state = .leader)) :
    Heartbeat.ahead { hb with phase := phase } n.peerRpcPorts.length < hb.ahead n.peerRpcPorts.length := by
  obtain ⟨from_, term⟩ := hb
  simp only [Heartbeat.ahead]
  cases h with
  | round hr hl => exact absurd ⟨hr, hl⟩ hw
  | more i t t' call ht =>
    simp only [Prod.Lex.toLex_lt_toLex]
    exact .inr ⟨trivial, .inr ⟨trivial, ht⟩⟩
  | needSnapshot i t hi =>
    simp only [Prod.Lex.toLex_lt_toLex]
    omega
  | send i nextIdx count call hi =>
    simp only [Prod.Lex.toLex_lt_toLex]
    omega
  | _ => simp [Prod.Lex.toLex_lt_toLex]

/-- The thread still deals with a peer. -/
theorem HeartbeatPhase.Goes.within {n : RaftNode} {hb : Heartbeat} {phase : HeartbeatPhase} (h : hb.phase.Goes n phase)
    (hw : hb.Within n.peerRpcPorts.length) : Heartbeat.Within { hb with phase := phase } n.peerRpcPorts.length := by
  obtain ⟨from_, term⟩ := hb
  cases h with
  | needSnapshot i t hi => exact hi
  | send i nextIdx count call hi => exact hi
  | sendChunk i t call => exact hw
  | more i t t' call ht => exact hw
  | _ => trivial

namespace Site

variable {size next k : ℕ} {s : Site} {store : KVStore} {i : Input} {o : Outcome} {hb : Heartbeat}

/-- What the other inputs do beside a heartbeat thread: only a restart ends it, and nothing makes its node lead again. -/
theorem Step.beside_heartbeat (hs : Step size next s store i o) (hi : ¬i.Moves .heartbeat) (hh : s.heartbeat = some hb) :
    o.site.heartbeat = none ∨ o.site.heartbeat = some hb ∧ (s.Winding → o.site.Winding) := by
  have hlower {s' : Site} (hheart : s'.heartbeat = s.heartbeat) (hl : s.node.Lowers s'.node) :
      s'.heartbeat = none ∨ s'.heartbeat = some hb ∧ (s.Winding → s'.Winding) := .inr ⟨hheart.trans hh, fun hw => hw.lowers hl⟩
  cases hs with
  | startElection he hl => exact .inr ⟨hh, fun _ hr => by cases hr.2⟩
  | join el he hp hnone => cases hh.symm.trans hnone
  | win el he hp hr hv =>
    unfold elected
    rw [if_pos (by rw [hh]; rfl)]
    exact .inr ⟨hh, fun _ hr => by cases hr.1⟩
  | voteLater el call r term g he hp hr ht => exact hlower rfl (s.node.lowers_followReply term)
  | commit j call hj hp hi' hm => exact hlower rfl (s.node.lowers_commit store call)
  | later j call id r term success hj hp hr ht => exact hlower rfl (s.node.lowers_followReply term)
  | failure j call id r term hj hp hr ht call' hc =>
    obtain ⟨_, heq⟩ := s.node.retreat_shape call.i
    refine hlower rfl ?_
    simp only [Outcome.local, clientAt, heq]
    exact .of_role rfl rfl
  | chunkReply j call t id r hj hp call' hc =>
    obtain ⟨_, _, heq⟩ := t.reply_shape s.node call.i r
    refine hlower rfl ?_
    simp only [Outcome.local, clientAt, heq]
    exact .of_role rfl rfl
  | receive req h' hh' => exact hlower rfl (RaftNode.lowers_handle hh')
  | snapshotNow hl => exact hlower rfl (s.node.lowers_createSnapshot store)
  | success j call id r term hj hp hr ht => exact hlower rfl (.of_role rfl rfl)
  | append req hl hc => exact hlower rfl (.of_role rfl rfl)
  | restart n store' hr => exact .inl rfl
  | round hb' hh' hp hl => exact absurd rfl hi
  | endHeartbeats hb' hh' hp => exact absurd rfl hi
  | endRound hb' j hh' hp => exact absurd rfl hi
  | needSnapshot hb' j snapshot hh' hp hn => exact absurd rfl hi
  | sendHeartbeat hb' j p hh' hp hrun hj hn entries hes => exact absurd rfl hi
  | sendHeartbeatChunk hb' j t p hh' hp hj => exact absurd rfl hi
  | heartbeatStopped hb' j nextIdx count call r hh' hp => exact absurd rfl hi
  | heartbeatLost hb' j nextIdx count call r hh' hp hr => exact absurd rfl hi
  | heartbeatLater hb' j nextIdx count call r term success hh' hp hr ht => exact absurd rfl hi
  | heartbeatReply hb' j nextIdx count call r term success hh' hp hr ht => exact absurd rfl hi
  | heartbeatChunkReply hb' j t call r hh' hp phase hph => exact absurd rfl hi
  | _ => exact hlower rfl (.refl _)

/-- What becomes of a heartbeat thread. -/
theorem Sound.heartbeat_ahead (h : s.Sound) (ho : s.step size next store i = some o) (hh : s.heartbeat = some hb) :
    o.site.heartbeat = none ∨ ∃ hb', o.site.heartbeat = some hb' ∧
      (hb.Within s.node.peerRpcPorts.length → hb'.Within s.node.peerRpcPorts.length) ∧
      (s.Winding → o.site.Winding ∧
        (hb' = hb ∧ ¬i.Moves .heartbeat ∨ hb'.ahead s.node.peerRpcPorts.length < hb.ahead s.node.peerRpcPorts.length)) := by
  have hgoes (hl : s.node.Lowers o.site.node) (hg : o.site.heartbeat = none ∨
      ∃ phase, o.site.heartbeat = some { hb with phase := phase } ∧ hb.phase.Goes s.node phase) :
      o.site.heartbeat = none ∨ ∃ hb', o.site.heartbeat = some hb' ∧
        (hb.Within s.node.peerRpcPorts.length → hb'.Within s.node.peerRpcPorts.length) ∧
        (s.Winding → o.site.Winding ∧
          (hb' = hb ∧ ¬i.Moves .heartbeat ∨ hb'.ahead s.node.peerRpcPorts.length < hb.ahead s.node.peerRpcPorts.length)) := by
    rcases hg with hnone | ⟨phase, hphase, hg⟩
    · exact .inl hnone
    · exact .inr ⟨_, hphase, hg.within, fun hw => ⟨hw.lowers hl, .inr (hg.ahead hw)⟩⟩
  by_cases hi : i.Moves .heartbeat
  · cases i with
    | step t =>
      obtain rfl : t = .heartbeat := hi
      obtain ⟨hnode, hg⟩ := heartbeatStep_goes ho hh
      exact hgoes (hnode ▸ .refl _) hg
    | reply t r =>
      obtain rfl : t = .heartbeat := hi
      obtain ⟨hl, hg⟩ := (h.step ho).1.heartbeatReply_goes hh
      exact hgoes hl hg
    | _ => exact hi.elim
  · rcases (h.step ho).1.beside_heartbeat hi hh with hnone | ⟨hsame, hw⟩
    · exact .inl hnone
    · exact .inr ⟨hb, hsame, fun h => h, fun hwind => ⟨hw hwind, .inl ⟨rfl, hi⟩⟩⟩

/-- A heartbeat thread that was not there before is at the start of its loop, at the end of an election. -/
theorem Step.new_heartbeat (hs : Step size next s store i o) (hnone : s.heartbeat = none) (hh : o.site.heartbeat = some hb) :
    hb.phase = .top ∧ o.site.election = none := by
  have hstart (n : RaftNode) (hs : (s.startHeartbeats n).heartbeat = some hb) : hb.phase = .top := by
    unfold startHeartbeats at hs
    simp only at hs
    split at hs
    · cases hnone.symm.trans hs
    · obtain rfl := Option.some.inj hs
      rfl
  have hsame (ho : o.site.heartbeat = s.heartbeat) : hb.phase = .top ∧ o.site.election = none := by
    cases (hnone.symm.trans ho.symm).trans hh
  cases hs with
  | join el he hp hn => exact ⟨hstart _ hh, rfl⟩
  | win el he hp hr hv =>
    have helected : s.elected el = s.startHeartbeats (promoted s.node) := if_neg (by rw [hnone]; simp)
    rw [helected] at hh ⊢
    exact ⟨hstart _ hh, rfl⟩
  | restart n store' hr => cases hh
  | round hb' hh' hp hl => cases hnone.symm.trans hh'
  | endHeartbeats hb' hh' hp => cases hnone.symm.trans hh'
  | endRound hb' j hh' hp => cases hnone.symm.trans hh'
  | needSnapshot hb' j snapshot hh' hp hn => cases hnone.symm.trans hh'
  | sendHeartbeat hb' j p hh' hp hrun hj hn entries hes => cases hnone.symm.trans hh'
  | sendHeartbeatChunk hb' j t p hh' hp hj => cases hnone.symm.trans hh'
  | heartbeatStopped hb' j nextIdx count call r hh' hp => cases hnone.symm.trans hh'
  | heartbeatLost hb' j nextIdx count call r hh' hp hr => cases hnone.symm.trans hh'
  | heartbeatLater hb' j nextIdx count call r term success hh' hp hr ht => cases hnone.symm.trans hh'
  | heartbeatReply hb' j nextIdx count call r term success hh' hp hr ht => cases hnone.symm.trans hh'
  | heartbeatChunkReply hb' j t call r hh' hp phase hph => cases hnone.symm.trans hh'
  | _ => exact hsame rfl

/-! ## The threads of a site -/

/-- The threads of a site deal with peers that there are, and an election waits for a heartbeat thread only if that one is to end. -/
structure Tidy (s : Site) : Prop where
  heartbeat : ∀ hb : Heartbeat, s.heartbeat = some hb → hb.Within s.node.peerRpcPorts.length
  clients : ∀ (k : ℕ) (call : ClientCall), s.clients[k]? = some call → call.Within s.node.peerRpcPorts.length
  join : ∀ el : Election, s.election = some el → el.phase = .join → s.heartbeat ≠ none → s.Winding

theorem tidy_create (nodeId port : ℤ) (peers : List ℤ) : (Site.create nodeId port peers).Tidy :=
  ⟨fun _ h => (by cases h), fun _ _ h => (by cases h), fun _ h => (by cases h)⟩

/-- A client command that was not there before has not begun. -/
theorem Step.new_client (hs : Step size next s store i o) {k : ℕ} {call : ClientCall} (hnone : s.clients[k]? = none)
    (hk : o.site.clients[k]? = some call) : call.phase = .ready := by
  have hsame (ho : o.site.clients = s.clients) : call.phase = .ready := by
    rw [ho, hnone] at hk
    cases hk
  have hset (j : ℕ) {c : ClientCall} (ho : o.site.clients = s.clients.set j c) : call.phase = .ready := by
    have hlt := (List.getElem?_eq_some_iff.mp hk).1
    rw [ho, List.length_set] at hlt
    exact absurd hlt (not_lt.mpr (List.getElem?_eq_none_iff.mp hnone))
  cases hs with
  | append req hl hc =>
    have hle := List.getElem?_eq_none_iff.mp hnone
    rw [show (Outcome.local (s.appendEntry req) store).site.clients = (s.appendEntry req).clients from rfl, appendEntry,
      List.getElem?_append_right hle] at hk
    obtain rfl := List.mem_singleton.mp (List.mem_of_getElem? hk)
    rfl
  | win el he hp hr hv => exact hsame (s.elected_clients el)
  | send j c p hj hp hi => exact hset j rfl
  | commit j c hj hp hi hm => exact hset j rfl
  | notCommitted j c hj hp hi hm => exact hset j rfl
  | sendChunk j c t p hj hp hi => exact hset j rfl
  | lost j c id r hj hp hr => exact hset j rfl
  | later j c id r term success hj hp hr ht => exact hset j rfl
  | success j c id r term hj hp hr ht => exact hset j rfl
  | failure j c id r term hj hp hr ht c' hc => exact hset j rfl
  | chunkReply j c t id r hj hp c' hc => exact hset j rfl
  | restart n store' hr => cases hk
  | _ => exact hsame rfl

/-- An election that waits for a heartbeat thread has waited for it before, or has told it to end. -/
theorem Step.new_join (hs : Step size next s store i o) {el : Election} (he : o.site.election = some el) (hp : el.phase = .join) :
    s.election = some el ∨ o.site.node.runningHeartbeats = false := by
  have hsame (ho : o.site.election = s.election) : s.election = some el ∨ o.site.node.runningHeartbeats = false :=
    .inl (ho.symm.trans he)
  cases hs with
  | startElection he' hl =>
    obtain rfl := Option.some.inj he
    cases hp
  | ask el' p rest he' hp' hr =>
    obtain rfl := Option.some.inj he
    cases hp
  | win el' he' hp' hr hv =>
    unfold elected at he ⊢
    split at he
    · next hh =>
      rw [if_pos hh]
      exact .inr rfl
    · cases he
  | noVote el' call r he' hp' hr =>
    obtain rfl := Option.some.inj he
    cases hp
  | vote el' call r term g he' hp' hr ht =>
    obtain rfl := Option.some.inj he
    cases hp
  | join el' he' hp' hh => cases he
  | lose el' he' hp' hr hv => cases he
  | voteLater el' call r term g he' hp' hr ht => cases he
  | restart n store' hr => cases he
  | _ => exact hsame rfl

theorem Tidy.step (ht : s.Tidy) (h : s.Sound) (ho : s.step size next store i = some o) : o.site.Tidy := by
  have hst := (h.step ho).1
  have hpeers : o.site.node.peerRpcPorts = s.node.peerRpcPorts := (h.identity hst).2.2.1
  refine ⟨fun hb hh => ?_, fun k call hk => ?_, fun el he hp hne => ?_⟩
  · rw [hpeers]
    cases hs : s.heartbeat with
    | none => simp [Heartbeat.Within, hst.new_heartbeat hs hh]
    | some hb₀ =>
      rcases h.heartbeat_ahead ho hs with hnone | ⟨hb', hh', hwithin, _⟩
      · cases hnone.symm.trans hh
      · obtain rfl := Option.some.inj (hh.symm.trans hh')
        exact hwithin (ht.heartbeat hb₀ hs)
  · rw [hpeers]
    by_cases hr : i = .restart
    · subst hr
      cases hst
      cases hk
    · cases hs : s.clients[k]? with
      | none => simp [ClientCall.Within, hst.new_client hs hk]
      | some c =>
        obtain ⟨call', hk', hnear⟩ := hst.client_ahead hr hs
        obtain rfl := Option.some.inj (hk.symm.trans hk')
        exact hnear.within (ht.clients k c hs)
  · rcases hst.new_join he hp with he' | hrun
    · obtain ⟨hb, hh⟩ := Option.ne_none_iff_exists'.mp hne
      cases hs : s.heartbeat with
      | none => cases he.symm.trans (hst.new_heartbeat hs hh).2
      | some hb₀ =>
        rcases h.heartbeat_ahead ho hs with hnone | ⟨_, _, _, hwind⟩
        · exact absurd hnone hne
        · exact (hwind (ht.join el he' hp (by rw [hs]; simp))).1
    · intro hr
      cases hrun.symm.trans hr.1

/-! ## A thread can always go on -/

/-- A heartbeat thread can move. -/
theorem Tidy.heartbeat_moves (hw : s.Tidy) (hh : s.heartbeat = some hb) :
    (s.step size next store (.step .heartbeat)).isSome = true ∨ (s.step size next store (.reply .heartbeat none)).isSome = true := by
  have hlt := hw.heartbeat hb hh
  unfold Heartbeat.Within at hlt
  simp only [Site.step, heartbeatStep, heartbeatReply, hh]
  cases hp : hb.phase with
  | top =>
    left
    simp only
    split <;> rfl
  | peer j =>
    left
    simp only
    split
    · rfl
    · split
      · rfl
      · split
        · rfl
        · split <;> rfl
  | append j nextIdx count call =>
    right
    simp only
    split
    · rfl
    · split <;> rfl
  | chunk j t =>
    left
    rw [hp] at hlt
    simp only [List.getElem?_eq_getElem hlt, Option.isSome_some]
  | chunkReply j t call => exact .inr rfl

/-- A client command that has not returned can move. -/
theorem Tidy.client_moves (hw : s.Tidy) {call : ClientCall} (hk : s.clients[k]? = some call) (hp : ∀ r, call.phase ≠ .done r) :
    (s.step size next store (.step (.client k))).isSome = true ∨ (s.step size next store (.reply (.client k) none)).isSome = true := by
  have hlt := hw.clients k call hk
  unfold ClientCall.Within at hlt
  simp only [Site.step, clientStep, clientReply, hk]
  cases hphase : call.phase with
  | ready =>
    left
    simp only
    split
    · rfl
    · split
      · rfl
      · split <;> rfl
  | append id => exact .inr rfl
  | chunk t =>
    left
    rw [hphase] at hlt
    simp only [List.getElem?_eq_getElem hlt, Option.isSome_some]
  | chunkReply t id => exact .inr rfl
  | done r => exact absurd hphase (hp r)

/-- An election can move, unless it waits for the heartbeat thread of an earlier leadership. -/
theorem election_moves {el : Election} (he : s.election = some el) (hj : el.phase = .join → s.heartbeat = none) :
    (s.step size next store (.step .election)).isSome = true ∨ (s.step size next store (.reply .election none)).isSome = true := by
  simp only [Site.step, electionStep, electionReply, he]
  cases hp : el.phase with
  | ask =>
    left
    simp only
    split
    · rfl
    · split
      · rfl
      · split <;> rfl
  | await call =>
    right
    simp only
    split <;> rfl
  | join =>
    left
    simp [hj hp]

end Site

end RaftStore
