import RaftStore.Lemmas.Ahead
import RaftStore.Systems.Traces
import RaftStore.Theorems.Matching

/-!
# Every call returns

`start_election` and `handleClientCommand` return, and `send_heartbeats` does so when its node leads no more: in every endless run in which
their threads are not left out for ever, whatever the other threads and nodes do and whatever becomes of the messages. An election that is
won may have to wait for the heartbeat thread of an earlier leadership, which comes to its end.
-/

namespace RaftStore

open Systems (Trace)

namespace Cluster

variable {N : ℕ} {c c' : Cluster N} {x : Action N} {v : Fin N} {t : Thread}

/-! ## Moves of a thread -/

/-- The actions in which the thread `t` of the node `v` moves. -/
def Moves (v : Fin N) (t : Thread) : Action N → Prop
  | .step u t' => u = v ∧ t' = t
  | .reply u t' _ => u = v ∧ t' = t
  | _ => False

/-- The thread can move. -/
def Able (v : Fin N) (t : Thread) (c : Cluster N) : Prop := ∃ x, Moves v t x ∧ (c.step x).isSome = true

/-- The thread moves again and again, or cannot. -/
def Scheduled (tr : Trace (step : Cluster N → Action N → Option (Cluster N))) (v : Fin N) (t : Thread) : Prop :=
  tr.Fair (Able v t) (Moves v t)

theorem able_of_site (h : ((c.sites v).step N c.calls.length c.store (.step t)).isSome = true ∨
    ((c.sites v).step N c.calls.length c.store (.reply t none)).isSome = true) : Able v t c := by
  rcases h with h | h
  · exact ⟨.step v t, ⟨rfl, rfl⟩, by simpa [step, outcome] using h⟩
  · exact ⟨.reply v t true, ⟨rfl, rfl⟩, by simpa [step, outcome] using h⟩

theorem moves_iff {u : Fin N} {i : Input} (hi : c.input x = some (u, i)) : Moves v t x ↔ u = v ∧ i.Moves t := by
  cases x with
  | reply u' t' lost =>
    cases lost
    · obtain ⟨r, _, hr⟩ := Option.map_eq_some_iff.mp hi
      cases hr
      exact Iff.rfl
    · cases hi
      exact Iff.rfl
  | deliver u' id =>
    obtain ⟨r, _, hr⟩ := Option.map_eq_some_iff.mp hi
    cases hr
    exact ⟨False.elim, fun h => h.2⟩
  | step u' t' =>
    cases hi
    exact Iff.rfl
  | garble id => cases hi
  | _ =>
    cases hi
    exact ⟨False.elim, fun h => h.2⟩

/-- What an action does at one node: nothing, or a step of its site. -/
inductive At (c : Cluster N) (v : Fin N) (x : Action N) (c' : Cluster N) : Prop where
  | same (hs : c'.sites v = c.sites v) (hm : ∀ t, ¬Moves v t x)
  | input (i : Input) (o : Outcome) (ho : c.outcome v i = some o) (hs : c'.sites v = o.site) (hm : ∀ t, Moves v t x ↔ i.Moves t)
      (hr : i = .restart → x = .restart v)

theorem step_at (h : c.step x = some c') (v : Fin N) : At c v x c' := by
  rcases step_cases h with ⟨u, i, o, hi, hs⟩ | ⟨id, y, rfl, _, _, rfl⟩
  · by_cases huv : v = u
    · subst huv
      refine .input i o hs.outcome (by rw [hs.site v, if_pos rfl]) (fun t => (moves_iff hi).trans (and_iff_right rfl)) fun hr => ?_
      subst hr
      exact input_restart hi
    · exact .same (by rw [hs.site v, if_neg huv]) fun t hm => huv ((moves_iff hi).mp hm).1.symm
  · exact .same rfl fun _ hm => hm

/-- Every cluster a run reaches is tidy at each node. -/
theorem Reachable.tidy {P : Cluster N → Action N → Prop} (h : Reachable P c) (v : Fin N) : (c.sites v).Tidy := by
  induction h with
  | init => exact Site.tidy_create _ _ _
  | step hr _ hs ih =>
    cases step_at hs v with
    | same hsite _ => rw [hsite]; exact ih
    | input i o ho hsite _ _ => rw [hsite]; exact ih.step (hr.sound.site v) ho

variable {tr : Trace (step : Cluster N → Action N → Option (Cluster N))} {n k : ℕ}

/-- A trace that starts in a cluster that a run reaches stays among them. -/
theorem reachable_of_trace (h : Reachable anyAction (tr.state 0)) (n : ℕ) : Reachable anyAction (tr.state n) :=
  tr.invariant (fun _ _ _ hx hs => hx.step trivial hs) h n

theorem peers_of_reachable (h : Reachable anyAction c) (v : Fin N) : (c.sites v).node.peerRpcPorts.length = (peers v).length :=
  congrArg List.length (h.sound.peerRpcPorts v)

/-! ## Heartbeat threads -/

/-- What the heartbeat thread of `v` has before it. -/
def heartbeatAhead (v : Fin N) (c : Cluster N) : ℕ ×ₗ ℕ ×ₗ ℕ :=
  match (c.sites v).heartbeat with
  | none => toLex (0, toLex (0, 0))
  | some hb => hb.ahead (peers v).length

theorem heartbeatAhead_pos {hb : Heartbeat} {peers : ℕ} : (toLex (0, toLex (0, 0)) : ℕ ×ₗ ℕ ×ₗ ℕ) < hb.ahead peers := by
  unfold Heartbeat.ahead
  split <;> simp [Prod.Lex.toLex_lt_toLex]

/-- The heartbeat thread of a node that leads no more is under way. -/
def EndsHeartbeats (v : Fin N) (c : Cluster N) : Prop := (c.sites v).heartbeat ≠ none ∧ (c.sites v).Winding

/-- It comes to its end or nearer to it, by its own moves only. -/
theorem heartbeatAhead_step (h : Reachable anyAction c) (hs : c.step x = some c') (hp : EndsHeartbeats v c) :
    (c'.sites v).heartbeat = none ∧ heartbeatAhead v c' < heartbeatAhead v c ∨ EndsHeartbeats v c' ∧
      (heartbeatAhead v c' < heartbeatAhead v c ∨ heartbeatAhead v c' = heartbeatAhead v c ∧ ¬Moves v .heartbeat x) := by
  obtain ⟨hne, hw⟩ := hp
  obtain ⟨hb, hh⟩ := Option.ne_none_iff_exists'.mp hne
  have hbefore : heartbeatAhead v c = hb.ahead (peers v).length := by simp only [heartbeatAhead, hh]
  cases step_at hs v with
  | same hsite hm =>
    exact .inr ⟨by rw [EndsHeartbeats, hsite]; exact ⟨hne, hw⟩, .inr ⟨by simp only [heartbeatAhead, hsite], hm _⟩⟩
  | input i o ho hsite hm hr =>
    have hpeers : (c.sites v).node.peerRpcPorts.length = (peers v).length := peers_of_reachable h v
    rcases (h.sound.site v).heartbeat_ahead ho hh with hnone | ⟨hb', hh', _, hahead⟩
    · have hafter : (c'.sites v).heartbeat = none := hsite ▸ hnone
      refine .inl ⟨hafter, ?_⟩
      rw [hbefore]
      simp only [heartbeatAhead, hafter]
      exact heartbeatAhead_pos
    · obtain ⟨hw', hnear⟩ := hahead hw
      have hafter : (c'.sites v).heartbeat = some hb' := hsite ▸ hh'
      have hrank : heartbeatAhead v c' = hb'.ahead (peers v).length := by simp only [heartbeatAhead, hafter]
      refine .inr ⟨⟨by rw [hafter]; simp, hsite ▸ hw'⟩, ?_⟩
      rw [hrank, hbefore, ← hpeers]
      rcases hnear with ⟨rfl, hno⟩ | hlt
      · exact .inr ⟨rfl, fun hmv => hno ((hm _).mp hmv)⟩
      · exact .inl hlt

/-- A heartbeat thread whose node leads no more, or has been told to end it, ends. -/
theorem heartbeats_end (h : Reachable anyAction (tr.state 0)) (hfair : Scheduled tr v .heartbeat)
    (hw : ((tr.state n).sites v).Winding) : ∃ m, n ≤ m ∧ ((tr.state m).sites v).heartbeat = none := by
  by_cases hnone : ((tr.state n).sites v).heartbeat = none
  · exact ⟨n, le_rfl, hnone⟩
  obtain ⟨m, hm, hno⟩ : ∃ m, n ≤ m ∧ ¬EndsHeartbeats v (tr.state m) := by
    refine Trace.eventually_not (EndsHeartbeats v) (fun _ => ()) (heartbeatAhead v) (fun _ => hfair) (fun m hp => ?_) (fun m hp hp' => ?_) n
    · obtain ⟨hb, hh⟩ := Option.ne_none_iff_exists'.mp hp.1
      exact able_of_site (((reachable_of_trace h m).tidy v).heartbeat_moves hh)
    · rcases heartbeatAhead_step (reachable_of_trace h m) (tr.next m) hp with ⟨hend, _⟩ | ⟨_, hlt | ⟨heq, hmv⟩⟩
      · exact absurd hend hp'.1
      · exact .inl hlt
      · exact .inr ⟨heq, rfl, hmv⟩
  obtain ⟨j, hj, hp, hp'⟩ := Trace.exists_last hm ⟨hnone, hw⟩ hno
  rcases heartbeatAhead_step (reachable_of_trace h j) (tr.next j) hp with ⟨hend, _⟩ | ⟨hstill, _⟩
  · exact ⟨j + 1, hj.trans (Nat.le_succ j), hend⟩
  · exact absurd hstill hp'

/-! ## Elections -/

/-- The election of `v` waits for the heartbeat thread of an earlier leadership. -/
def joins (v : Fin N) (c : Cluster N) : Bool :=
  ((c.sites v).election.any fun el => decide (el.phase = .join)) && (c.sites v).heartbeat.isSome

theorem joins_iff {el : Election} (he : (c.sites v).election = some el) :
    joins v c = true ↔ el.phase = .join ∧ (c.sites v).heartbeat ≠ none := by
  simp [joins, he, Option.isSome_iff_ne_none]

/-- What the election of `v` has before it: its own moves, and those of the heartbeat thread that it waits for. -/
def electionAhead (v : Fin N) (c : Cluster N) : ℕ ×ₗ ℕ ×ₗ ℕ ×ₗ ℕ :=
  match (c.sites v).election with
  | none => toLex (0, toLex (0, toLex (0, 0)))
  | some el => toLex (el.ahead, if joins v c then heartbeatAhead v c else toLex (0, toLex (0, 0)))

/-- The thread whose moves help the election. -/
def helper (joins : Bool) : Thread := if joins then .heartbeat else .election

/-- An election that is still under way after a step has come nearer to its end, or the thread that helps it has not moved. -/
theorem electionAhead_step (h : Reachable anyAction c) (hs : c.step x = some c') (hp : (c.sites v).election ≠ none)
    (hp' : (c'.sites v).election ≠ none) : electionAhead v c' < electionAhead v c ∨
      electionAhead v c' = electionAhead v c ∧ joins v c' = joins v c ∧ ¬Moves v (helper (joins v c)) x := by
  obtain ⟨el, he⟩ := Option.ne_none_iff_exists'.mp hp
  cases step_at hs v with
  | same hsite hm =>
    have hjoins : joins v c' = joins v c := by simp only [joins, hsite]
    exact .inr ⟨by simp only [electionAhead, heartbeatAhead, hsite, hjoins], hjoins, hm _⟩
  | input i o ho hsite hm hr =>
    have hst := ((h.sound.site v).step ho).1
    rcases hst.election_ahead he with hnone | ⟨el', he', hcase⟩
    · exact absurd (hsite ▸ hnone) hp'
    have hafter : (c'.sites v).election = some el' := hsite ▸ he'
    rcases hcase with ⟨rfl, hno⟩ | ⟨hnj, hlt⟩
    · cases hj : joins v c with
      | true =>
        -- the heartbeat thread that is waited for goes on, or ends
        obtain ⟨hphase, hne⟩ := (joins_iff he).mp hj
        have hw : (c.sites v).Winding := (h.tidy v).join el' he hphase hne
        rcases heartbeatAhead_step h hs ⟨hne, hw⟩ with ⟨hnone, hlt⟩ | ⟨hstill, hlt⟩
        · left
          have hnj : joins v c' = false := by simp [joins, hnone]
          simp only [electionAhead, hafter, he, hj, hnj, Prod.Lex.toLex_lt_toLex]
          refine .inr ⟨trivial, ?_⟩
          simpa [heartbeatAhead, hnone] using hlt
        · have hj' : joins v c' = true := (joins_iff hafter).mpr ⟨hphase, hstill.1⟩
          simp only [electionAhead, hafter, he, hj, hj', if_true, Prod.Lex.toLex_lt_toLex]
          rcases hlt with hlt | ⟨heq, hmv⟩
          · exact .inl (.inr ⟨trivial, hlt⟩)
          · exact .inr ⟨by rw [heq], trivial, hmv⟩
      | false =>
        right
        have hnj : joins v c' = false := by
          rw [Bool.eq_false_iff]
          intro hj'
          obtain ⟨hphase, hne⟩ := (joins_iff hafter).mp hj'
          obtain ⟨hb, hh⟩ := Option.ne_none_iff_exists'.mp hne
          cases hhb : (c.sites v).heartbeat with
          | none => cases he'.symm.trans (hst.new_heartbeat hhb (hsite ▸ hh)).2
          | some hb₀ => exact Bool.eq_false_iff.mp hj ((joins_iff he).mpr ⟨hphase, by rw [hhb]; simp⟩)
        refine ⟨?_, hnj.symm ▸ rfl, fun hmv => hno ((hm _).mp hmv)⟩
        simp [electionAhead, hafter, he, hj, hnj]
    · left
      simp only [electionAhead, hafter, he, Prod.Lex.toLex_lt_toLex]
      exact .inl hlt

/-- The thread that helps an election can move, without a reply. -/
theorem helper_moves (h : Reachable anyAction c) {el : Election} (he : (c.sites v).election = some el) :
    ((c.sites v).step N c.calls.length c.store (.step (helper (joins v c)))).isSome = true ∨
      ((c.sites v).step N c.calls.length c.store (.reply (helper (joins v c)) none)).isSome = true := by
  cases hj : joins v c with
  | true =>
    obtain ⟨hb, hh⟩ := Option.ne_none_iff_exists'.mp ((joins_iff he).mp hj).2
    exact (h.tidy v).heartbeat_moves hh
  | false =>
    refine Site.election_moves he fun hphase => ?_
    by_contra hne
    exact Bool.eq_false_iff.mp hj ((joins_iff he).mpr ⟨hphase, hne⟩)

/-- `start_election` returns. -/
theorem elections_return (h : Reachable anyAction (tr.state 0)) (helection : Scheduled tr v .election)
    (hheartbeat : Scheduled tr v .heartbeat) (n : ℕ) : ∃ m, n ≤ m ∧ ((tr.state m).sites v).election = none := by
  have hfair (b : Bool) : Scheduled tr v (helper b) := by
    cases b
    · exact helection
    · exact hheartbeat
  obtain ⟨m, hm, hno⟩ : ∃ m, n ≤ m ∧ ¬((tr.state m).sites v).election ≠ none := by
    refine Trace.eventually_not (fun c => (c.sites v).election ≠ none) (joins v) (electionAhead v) hfair (fun m hp => ?_)
      (fun m hp hp' => electionAhead_step (reachable_of_trace h m) (tr.next m) hp hp') n
    obtain ⟨el, he⟩ := Option.ne_none_iff_exists'.mp hp
    exact able_of_site (helper_moves (reachable_of_trace h m) he)
  exact ⟨m, hm, not_not.mp hno⟩

/-! ## Client commands -/

/-- The client command at place `k` of `v` has not returned. -/
def Calling (v : Fin N) (k : ℕ) (c : Cluster N) : Prop := ∃ call, (c.sites v).clients[k]? = some call ∧ ∀ r, call.phase ≠ .done r

/-- What it has before it. -/
def callAhead (v : Fin N) (k : ℕ) (c : Cluster N) : ℕ ×ₗ ℕ ×ₗ ℕ :=
  match (c.sites v).clients[k]? with
  | none => toLex (0, toLex (0, 0))
  | some call => call.ahead (peers v).length

/-- Every step but a restart leaves a client command at its place, and comes nearer to its end if its thread moves. -/
theorem call_step (h : Reachable anyAction c) (hs : c.step x = some c') (hr : x ≠ .restart v) {call : ClientCall}
    (hk : (c.sites v).clients[k]? = some call) : ∃ call', (c'.sites v).clients[k]? = some call' ∧ Site.SameCall call call' ∧
      (callAhead v k c' < callAhead v k c ∨ callAhead v k c' = callAhead v k c ∧ ¬Moves v (.client k) x) := by
  cases step_at hs v with
  | same hsite hm => exact ⟨call, hsite ▸ hk, ⟨rfl, rfl⟩, .inr ⟨by simp only [callAhead, hsite], hm _⟩⟩
  | input i o ho hsite hm hrestart =>
    obtain ⟨call', hk', hnear⟩ := ((h.sound.site v).step ho).1.client_ahead (fun hi => hr (hrestart hi)) hk
    have hafter : (c'.sites v).clients[k]? = some call' := hsite ▸ hk'
    refine ⟨call', hafter, hnear.same, ?_⟩
    simp only [callAhead, hafter, hk]
    rw [← peers_of_reachable h v]
    rcases hnear.ahead with ⟨rfl, hno⟩ | hlt
    · exact .inr ⟨rfl, fun hmv => hno ((hm _).mp hmv)⟩
    · exact .inl hlt

/-- A restart leaves no client command. -/
theorem restart_clients (h : c.Sound) (hs : c.step (.restart v) = some c') : (c'.sites v).clients = [] := by
  obtain ⟨o, ho, rfl⟩ := Option.map_eq_some_iff.mp hs
  cases ((h.site v).step ho).1
  simp [update, Outcome.local]

/-- A client command stays at its place as long as the node is not restarted. -/
theorem call_kept (h : Reachable anyAction (tr.state 0)) {call : ClientCall} (hk : ((tr.state n).sites v).clients[k]? = some call)
    (d : ℕ) : (∃ m, n ≤ m ∧ tr.action m = .restart v) ∨
      ∃ call', ((tr.state (n + d)).sites v).clients[k]? = some call' ∧ Site.SameCall call call' := by
  induction d with
  | zero => exact .inr ⟨call, hk, rfl, rfl⟩
  | succ d ih =>
    rcases ih with hr | ⟨call', hk', hreq, hentry⟩
    · exact .inl hr
    · by_cases hr : tr.action (n + d) = .restart v
      · exact .inl ⟨n + d, Nat.le_add_right n d, hr⟩
      · obtain ⟨call'', hk'', hsame, _⟩ := call_step (reachable_of_trace h (n + d)) (tr.next (n + d)) hr hk'
        exact .inr ⟨call'', hk'', hsame.1.trans hreq, hsame.2.trans hentry⟩

/-- `handleClientCommand` returns, or its node is restarted. -/
theorem commands_return (h : Reachable anyAction (tr.state 0)) (hfair : Scheduled tr v (.client k)) {call : ClientCall}
    (hk : ((tr.state n).sites v).clients[k]? = some call) : ∃ m, n ≤ m ∧ (tr.action m = .restart v ∨
      ∃ call' result, ((tr.state m).sites v).clients[k]? = some call' ∧ call'.req = call.req ∧ call'.phase = .done result) := by
  by_cases hr : ∃ m, n ≤ m ∧ tr.action m = .restart v
  · obtain ⟨m, hm, hr⟩ := hr
    exact ⟨m, hm, .inl hr⟩
  have hkept (m : ℕ) (hm : n ≤ m) : ∃ call', ((tr.state m).sites v).clients[k]? = some call' ∧ Site.SameCall call call' := by
    obtain ⟨d, rfl⟩ := Nat.exists_eq_add_of_le hm
    exact (call_kept h hk d).resolve_left hr
  obtain ⟨m, hm, hno⟩ : ∃ m, n ≤ m ∧ ¬Calling v k (tr.state m) := by
    refine Trace.eventually_not (Calling v k) (fun _ => ()) (callAhead v k) (fun _ => hfair) (fun m hp => ?_) (fun m hp hp' => ?_) n
    · obtain ⟨c₀, hk₀, hdone⟩ := hp
      exact able_of_site (((reachable_of_trace h m).tidy v).client_moves hk₀ hdone)
    · obtain ⟨c₀, hk₀, _⟩ := hp
      by_cases hr : tr.action m = .restart v
      · obtain ⟨c₁, hk₁, _⟩ := hp'
        rw [restart_clients (reachable_of_trace h m).sound (hr ▸ tr.next m)] at hk₁
        cases hk₁
      · obtain ⟨_, _, _, hlt | ⟨heq, hmv⟩⟩ := call_step (reachable_of_trace h m) (tr.next m) hr hk₀
        · exact .inl hlt
        · exact .inr ⟨heq, rfl, hmv⟩
  obtain ⟨call', hk', hsame⟩ := hkept m hm
  have hdone : ∃ result, call'.phase = .done result := by
    by_contra hall
    exact hno ⟨call', hk', fun r hp => hall ⟨r, hp⟩⟩
  obtain ⟨result, hp⟩ := hdone
  exact ⟨m, hm, .inr ⟨call', result, hk', hsame.1, hp⟩⟩

/-! ## Runs in which the threads return -/

theorem not_able_of_site (h : ∀ i : Input, i.Moves t → (c.sites v).step N c.calls.length c.store i = none) : ¬Able v t c := by
  rintro ⟨x, hm, hs⟩
  obtain ⟨c', hs⟩ := Option.isSome_iff_exists.mp hs
  cases step_at hs v with
  | same _ hno => exact hno t hm
  | input i o ho _ hmoves _ => cases (h i ((hmoves t).mp hm)).symm.trans ho

theorem not_able_election (he : (c.sites v).election = none) : ¬Able v .election c := by
  refine not_able_of_site fun i hi => ?_
  cases i with
  | step t =>
    obtain rfl : t = .election := hi
    simp [Site.step, Site.electionStep, he]
  | reply t r =>
    obtain rfl : t = .election := hi
    simp [Site.step, Site.electionReply, he]
  | _ => exact hi.elim

theorem not_able_heartbeat (hh : (c.sites v).heartbeat = none) : ¬Able v .heartbeat c := by
  refine not_able_of_site fun i hi => ?_
  cases i with
  | step t =>
    obtain rfl : t = .heartbeat := hi
    simp [Site.step, Site.heartbeatStep, hh]
  | reply t r =>
    obtain rfl : t = .heartbeat := hi
    simp [Site.step, Site.heartbeatReply, hh]
  | _ => exact hi.elim

theorem not_able_client {call : ClientCall} (hk : (c.sites v).clients[k]? = some call) {r : Str} (hp : call.phase = .done r) :
    ¬Able v (.client k) c := by
  refine not_able_of_site fun i hi => ?_
  cases i with
  | step t =>
    obtain rfl : t = .client k := hi
    simp [Site.step, Site.clientStep, hk, hp]
  | reply t r =>
    obtain rfl : t = .client k := hi
    simp [Site.step, Site.clientReply, hk, hp]
  | _ => exact hi.elim

/-- A site is always open to a client command. -/
theorem step_clientRequest (c : Cluster N) (v : Fin N) (req : ClientRequest) :
    ∃ c', c.step (.clientRequest v req) = some c' ∧ c'.sites v = ((c.sites v).clientRequest c.store req).site :=
  ⟨_, rfl, Function.update_self v _ _⟩

theorem clientRequest_threads (s : Site) (store : KVStore) (req : ClientRequest) :
    (s.clientRequest store req).site.election = s.election ∧ (s.clientRequest store req).site.heartbeat = s.heartbeat ∧
      s.clients <+: (s.clientRequest store req).site.clients := by
  unfold Site.clientRequest
  split
  · exact ⟨rfl, rfl, List.prefix_rfl⟩
  · split
    · exact ⟨rfl, rfl, List.prefix_rfl⟩
    · exact ⟨rfl, rfl, List.prefix_append _ _⟩

/-- What node 0 of two does when its election gets no vote: it is asked for commands when the election is over. -/
def unheard (c : Cluster 2) : Action 2 :=
  match (c.sites 0).election with
  | some { phase := .await _, .. } => .reply 0 .election true
  | some _ => .step 0 .election
  | none => .clientRequest 0 (putRequest 1 "a")

/-- Node 0 has no vote but its own. -/
structure Unheard (c : Cluster 2) : Prop where
  reachable : Reachable anyAction c
  heartbeat : (c.sites 0).heartbeat = none
  election : ∀ el, (c.sites 0).election = some el → el.phase ≠ .join ∧ el.votes = 1

theorem unheard_step {c : Cluster 2} (h : Unheard c) : ∃ c', c.step (unheard c) = some c' ∧ Unheard c' := by
  have hup : (c.sites 0).node.shutdownRequested = false := (h.reachable.sound.site 0).node.up
  have hkeep {x : Action 2} {o : Outcome} (hx : c.step x = some (c.update 0 o)) (hhb : o.site.heartbeat = none)
      (hel : ∀ el, o.site.election = some el → el.phase ≠ .join ∧ el.votes = 1) : ∃ c', c.step x = some c' ∧ Unheard c' := by
    have hsite : (c.update 0 o).sites 0 = o.site := Function.update_self (β := fun _ => Site) 0 o.site c.sites
    exact ⟨_, hx, h.reachable.step trivial hx, hsite ▸ hhb, hsite ▸ hel⟩
  unfold unheard
  cases he : (c.sites 0).election with
  | none =>
    obtain ⟨helection, hheartbeat, _⟩ := clientRequest_threads (c.sites 0) c.store (putRequest 1 "a")
    exact hkeep rfl (hheartbeat.trans h.heartbeat) (by rw [helection, he]; simp)
  | some el =>
    obtain ⟨hj, hv⟩ := h.election el he
    obtain ⟨votes, rest, phase, term⟩ := el
    cases phase with
    | join => exact absurd rfl hj
    | await call =>
      refine hkeep (o := .local { c.sites 0 with election := some ⟨votes, rest.tail, .ask, term⟩ } c.store) ?_ h.heartbeat ?_
      · simp [step, outcome, Site.step, Site.electionReply, he, hup]
      · simpa [Outcome.local] using hv
    | ask =>
      cases rest with
      | nil =>
        refine hkeep (o := .local { c.sites 0 with election := none } c.store) ?_ h.heartbeat (by simp [Outcome.local])
        obtain rfl : votes = 1 := hv
        simp [step, outcome, Site.step, Site.electionStep, he, hup]
      | cons p rest =>
        refine hkeep (o :=
          { site := { c.sites 0 with election := some ⟨votes, p :: rest, .await c.calls.length, term⟩ }
            store := c.store
            send := some { port := p, req := .requestVote (c.sites 0).node.voteRequest }
            reply := none
            events := [] }) ?_ h.heartbeat ?_
        · simp [step, outcome, Site.step, Site.electionStep, he, hup]
        · simpa using hv

/-- Node 0 of two starts an election, gets no vote, and `start_election` returns. -/
theorem elections_return_unheard : ∃ tr : Trace (step : Cluster 2 → Action 2 → Option (Cluster 2)),
    ((tr.state 0).sites 0).election.isSome = true ∧ ∃ m, ((tr.state m).sites 0).election = none := by
  obtain ⟨c, hc, hel, hhb, hvotes⟩ : ∃ c ∈ run anyAction (Cluster.init 2) [.startElection 0], (c.sites 0).election.isSome = true ∧
      (c.sites 0).heartbeat.isNone = true ∧ ∀ el ∈ (c.sites 0).election, el.phase ≠ .join ∧ el.votes = 1 := by
    decide +kernel
  have hstart : Unheard c := ⟨Reachable.init.run hc, Option.isNone_iff_eq_none.mp hhb, hvotes⟩
  obtain ⟨tr, h0, htr⟩ := Trace.exists_follow (fun _ h => unheard_step h) hstart
  have helection : Scheduled tr 0 .election := by
    refine fun n => ⟨n, le_rfl, fun hable => ?_⟩
    rw [(htr n).2]
    unfold unheard
    cases he : ((tr.state n).sites 0).election with
    | none => exact absurd hable (not_able_election he)
    | some el =>
      obtain ⟨_, _, phase, _⟩ := el
      cases phase <;> exact ⟨rfl, rfl⟩
  have hheartbeat : Scheduled tr 0 .heartbeat :=
    fun n => ⟨n, le_rfl, fun hable => absurd hable (not_able_heartbeat (htr n).1.heartbeat)⟩
  obtain ⟨m, _, hm⟩ := elections_return (h0 ▸ hstart.reachable) helection hheartbeat 0
  exact ⟨tr, h0 ▸ hel, m, hm⟩

/-- What a single leader does with a command, and with the next ones. -/
def single (c : Cluster 1) : Action 1 :=
  if ∀ call ∈ (c.sites 0).clients[0]?, call.phase = .ready then .step 0 (.client 0) else .clientRequest 0 (putRequest 2 "b")

/-- The first command of a single leader is about to commit, or has returned. -/
structure Single (c : Cluster 1) : Prop where
  reachable : Reachable anyAction c
  call : ∃ call, (c.sites 0).clients[0]? = some call ∧ (call.phase = .ready ∨ ∃ r, call.phase = .done r)

theorem single_step {c : Cluster 1} (h : Single c) : ∃ c', c.step (single c) = some c' ∧ Single c' := by
  have hsound := h.reachable.sound
  have hup : (c.sites 0).node.shutdownRequested = false := (hsound.site 0).node.up
  have hpeers : (c.sites 0).node.peerRpcPorts = [] := (hsound.peerRpcPorts 0).trans (by decide)
  obtain ⟨call, hk, hp⟩ := h.call
  unfold single
  rcases hp with hp | ⟨r, hp⟩
  · rw [if_pos (by simp [hk, hp])]
    obtain ⟨o, ho⟩ : ∃ o, c.outcome 0 (.step (.client 0)) = some o := by
      rcases (h.reachable.tidy 0).client_moves hk (by simp [hp]) with hs | hs
      · exact Option.isSome_iff_exists.mp hs
      · simp [Site.step, Site.clientReply, hk, hp] at hs
    have hstep : c.step (.step 0 (.client 0)) = some (c.update 0 o) := by simp [step, ho]
    refine ⟨_, hstep, h.reachable.step trivial hstep, ?_⟩
    rw [show (c.update 0 o).sites 0 = o.site from Function.update_self (β := fun _ => Site) 0 o.site c.sites]
    have hlt := (List.getElem?_eq_some_iff.mp hk).1
    cases ((hsound.site 0).step ho).1 with
    | commit _ call' hk' hp' hi hm => exact ⟨_, List.getElem?_set_self hlt, .inr ⟨_, rfl⟩⟩
    | notCommitted _ call' hk' hp' hi hm => exact ⟨_, List.getElem?_set_self hlt, .inr ⟨_, rfl⟩⟩
    | send _ call' p hk' hp' hi => rw [hpeers] at hi; cases hi
    | sendChunk _ call' t p hk' hp' hi => rw [hpeers] at hi; cases hi
  · rw [if_neg (by simp [hk, hp])]
    obtain ⟨c', hstep, hsite⟩ := step_clientRequest c 0 (putRequest 2 "b")
    obtain ⟨rest, hrest⟩ := (clientRequest_threads (c.sites 0) c.store (putRequest 2 "b")).2.2
    refine ⟨c', hstep, h.reachable.step trivial hstep, call, ?_, .inr ⟨r, hp⟩⟩
    rw [hsite, ← hrest, List.getElem?_append_left (List.getElem?_eq_some_iff.mp hk).1]
    exact hk

/-- A single node is elected and gets a command, which returns, and more commands after that. -/
theorem commands_return_single : ∃ tr : Trace (step : Cluster 1 → Action 1 → Option (Cluster 1)), ∃ call,
    ((tr.state 0).sites 0).clients[0]? = some call ∧ ∃ m, tr.action m = .restart 0 ∨
      ∃ call' result, ((tr.state m).sites 0).clients[0]? = some call' ∧ call'.req = call.req ∧ call'.phase = .done result := by
  obtain ⟨c, hc, call, hk, hp⟩ : ∃ c ∈ run anyAction (Cluster.init 1)
      [.startElection 0, .step 0 .election, .clientRequest 0 (putRequest 1 "a")], ∃ call ∈ (c.sites 0).clients[0]?, call.phase = .ready := by
    decide +kernel
  have hstart : Single c := ⟨Reachable.init.run hc, call, hk, .inl hp⟩
  obtain ⟨tr, h0, htr⟩ := Trace.exists_follow (fun _ h => single_step h) hstart
  have hfair : Scheduled tr 0 (.client 0) := by
    refine fun n => ⟨n, le_rfl, fun hable => ?_⟩
    obtain ⟨call', hk', hp' | ⟨r, hp'⟩⟩ := (htr n).1.call
    · rw [(htr n).2, single, if_pos (by simp [hk', hp'])]
      exact ⟨rfl, rfl⟩
    · exact absurd hable (not_able_client hk' hp')
  have hk0 : ((tr.state 0).sites 0).clients[0]? = some call := h0 ▸ hk
  obtain ⟨m, _, hm⟩ := commands_return (h0 ▸ hstart.reachable) hfair hk0
  exact ⟨tr, call, hk0, m, hm⟩

/-- Node 0 is elected, and node 1 after it, which asks node 0 for its vote. -/
def isDeposed : List (Action 2) :=
  [.startElection 0, .step 0 .election, .deliver 1 0, .reply 0 .election false, .step 0 .election, .startElection 1, .step 1 .election,
    .deliver 0 1]

/-- The heartbeat thread of node 0 looks at its loop condition, and nothing happens but commands after that. -/
def deposed (c : Cluster 2) : Action 2 :=
  if (c.sites 0).heartbeat.isSome then .step 0 .heartbeat else .clientRequest 0 (putRequest 1 "a")

/-- The heartbeat thread of node 0 is at its loop condition, which does not hold, or has ended. -/
structure Deposed (c : Cluster 2) : Prop where
  reachable : Reachable anyAction c
  heartbeat : ∀ hb, (c.sites 0).heartbeat = some hb → hb.phase = .top ∧ (c.sites 0).Winding

theorem deposed_step {c : Cluster 2} (h : Deposed c) : ∃ c', c.step (deposed c) = some c' ∧ Deposed c' := by
  unfold deposed
  cases hh : (c.sites 0).heartbeat with
  | none =>
    obtain ⟨c', hstep, hsite⟩ := step_clientRequest c 0 (putRequest 1 "a")
    refine ⟨c', hstep, h.reachable.step trivial hstep, fun hb hhb => ?_⟩
    rw [hsite, (clientRequest_threads (c.sites 0) c.store (putRequest 1 "a")).2.1, hh] at hhb
    cases hhb
  | some hb =>
    obtain ⟨hp, hw⟩ := h.heartbeat hb hh
    have hno : ¬((c.sites 0).node.runningHeartbeats = true ∧ (c.sites 0).node.state = .leader ∧
        ¬(c.sites 0).node.shutdownRequested = true) := fun hr => hw ⟨hr.1, hr.2.1⟩
    have hsite : (c.sites 0).heartbeatStep c.calls.length c.store = some (.local { c.sites 0 with heartbeat := none } c.store) := by
      simp only [Site.heartbeatStep, hh, hp, if_neg hno]
    have hstep : c.step (.step 0 .heartbeat) = some (c.update 0 (.local { c.sites 0 with heartbeat := none } c.store)) := by
      simp [step, outcome, Site.step, hsite]
    refine ⟨_, hstep, h.reachable.step trivial hstep, fun hb' hhb => ?_⟩
    rw [show (c.update 0 (.local { c.sites 0 with heartbeat := none } c.store)).sites 0 = { c.sites 0 with heartbeat := none } from
      Function.update_self (β := fun _ => Site) 0 _ c.sites] at hhb
    cases hhb

/-- The heartbeat thread of a deposed leader ends. -/
theorem heartbeats_end_deposed : ∃ tr : Trace (step : Cluster 2 → Action 2 → Option (Cluster 2)),
    ((tr.state 0).sites 0).heartbeat.isSome = true ∧ ∃ m, ((tr.state m).sites 0).heartbeat = none := by
  obtain ⟨c, hc, hsome, hp, hstate⟩ : ∃ c ∈ run anyAction (Cluster.init 2) isDeposed, (c.sites 0).heartbeat.isSome = true ∧
      (∀ hb ∈ (c.sites 0).heartbeat, hb.phase = .top) ∧ (c.sites 0).node.state = .follower := by
    decide +kernel
  have hw : (c.sites 0).Winding := fun hr => by cases hstate.symm.trans hr.2
  have hstart : Deposed c := ⟨Reachable.init.run hc, fun hb hh => ⟨hp hb hh, hw⟩⟩
  obtain ⟨tr, h0, htr⟩ := Trace.exists_follow (fun _ h => deposed_step h) hstart
  have hfair : Scheduled tr 0 .heartbeat := by
    refine fun n => ⟨n, le_rfl, fun hable => ?_⟩
    rw [(htr n).2, deposed]
    cases hh : ((tr.state n).sites 0).heartbeat with
    | none => exact absurd hable (not_able_heartbeat hh)
    | some hb => exact ⟨rfl, rfl⟩
  obtain ⟨m, _, hm⟩ := heartbeats_end (n := 0) (h0 ▸ hstart.reachable) hfair (h0 ▸ hw)
  exact ⟨tr, h0 ▸ hsome, m, hm⟩

end Cluster

end RaftStore
