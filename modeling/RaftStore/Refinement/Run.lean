import RaftStore.Refinement.Threads

/-!
# Every run of a cluster is a run of the abstract protocol

A step that the conditions allow is a run of abstract steps (`Rel.refine`), so that a cluster which a run reaches under the
conditions is related to a state of the abstract protocol (`Cluster.Reachable.rel`).
-/

namespace RaftStore

open Consensus Cluster

variable {N : ℕ} {strict bound : Prop} {a b : Global N} {c c' : Cluster N} {v : Fin N} {i : Input} {o : Outcome}

/-- A message is handled. -/
theorem Rel.receive (h : Rel strict bound c a) (ha : Consistent LogEntry.term (majority (Fin N)) a)
    (hsafe : bound → strict ∧ Safe LogEntry.term (majority (Fin N)) a) (hc : c.Sound) (hal : c.Aligned) {req : Request}
    (hs : SiteStep c c' v (.receive req) o) (href : Site.Refines strict bound N (c.sites v) (.receive req)) :
    ∃ b, Moves strict a b ∧ Rel strict bound c' b := by
  have hn := h.nodeRel hc hal v
  rcases hs.calls with ⟨hno, _⟩ | ⟨_, y, hy, hi, _, hport, _⟩
  · exact absurd rfl (hno req)
  · obtain rfl := Input.receive.inj hi
    have hmem := List.mem_of_getElem? hy
    have hport := hport.trans (hc.rpcPort v)
    have hstep := ((hc.site v).step hs.outcome).1
    have hback (T : ℤ) (hT : ThreadTerm (c.sites v).node.role T) (hl : o.site.node.leads T) : (c.sites v).node.leads T :=
      (hc.site v).leads_back hstep nofun hT hl
    cases hstep with
    | receive _ r hr =>
      obtain ⟨b, hb, hcall, hvoted⟩ := hn.handle ha hsafe rfl (h.call y hmem) hport (hal.call y hmem) href hr
      have hg := (ha.steps hb.moves).2
      refine ⟨b, hb.moves, h.siteStep hc hs hg hb.role hb.others (fun hv => ⟨hvoted hv, fun n hev => ?_, fun _ _ => nofun⟩)
        ((h.site v).step (hc.site v) hs.callsKept hg hback hb.logs hb.applied (fun _ => heartbeat_kept) (fun _ => Or.inl))
        (fun _ => nofun) (fun y' hi' hport' _ => ?_) hb.event⟩
      · obtain ⟨_, _, _, _, _, hled⟩ := hn.sound.handle_votes ha hn.role (fun m hm => by
          obtain ⟨w, hw, hL, _⟩ := h.votes.calls y hmem m hm
          exact ⟨w, hw, hL⟩) hr
        exact absurd hev (hled n)
      · obtain ⟨p, q, resp⟩ := y
        obtain ⟨p', q', resp'⟩ := y'
        obtain rfl : q = q' := Input.receive.inj hi'
        obtain rfl : p' = p := hport'.trans hport.symm
        exact hcall

/-- A node that is started again has applied what its snapshot covers. -/
theorem AppliedRel.restart {n n' : RaftNode} (h : AppliedRel a n) (hal : n.Aligned) (hn : n.Sound) {store store' : KVStore}
    (hg : Grows LogEntry.term a b) (hr : n.restart store = some (n', store')) : AppliedRel b n' := by
  obtain ⟨hfull, _⟩ := hn.restart_full hr
  have hp : n.stable <+: n.full := (List.prefix_append_right_inj _).mpr hn.saved_prefix
  have hbase := hal.applied_base
  have hcov := hal.covered_length
  obtain ⟨_, rfl⟩ := hn.restart_eq hr
  refine ⟨le_rfl, ?_⟩
  rw [hfull]
  show Settled b n.currentTerm n.stable n.lastIncluded
  unfold RaftNode.lastIncluded RaftNode.baseIndex at *
  cases hs : n.latestSnapshot with
  | none => exact Or.inl le_rfl
  | some s =>
    simp only [hs, Option.map_some, Option.getD_some] at hbase hcov ⊢
    refine ((h.settled.grows hg).mono le_rfl (by omega) List.prefix_rfl).within hp ?_
    rw [RaftNode.stable, List.length_append]
    omega

/-- Every step that the conditions allow is a run of abstract steps. -/
theorem Rel.refine (h : Rel strict bound c a) (ha : Consistent LogEntry.term (majority (Fin N)) a)
    (hsafe : bound → strict ∧ Safe LogEntry.term (majority (Fin N)) a) (hc : c.Sound) (hal : c.Aligned)
    (hs : SiteStep c c' v i o) (href : Site.Refines strict bound N (c.sites v) i) :
    ∃ b, Moves strict a b ∧ Rel strict bound c' b := by
  obtain ⟨hown, hheart, hrepl, _, hfrom, _⟩ := href.logs
  have hn := h.nodeRel hc hal v
  cases i with
  | startElection => exact h.electionStep ha hc hal hs hown (Or.inl rfl)
  | step t =>
    cases t with
    | election => exact h.electionStep ha hc hal hs hown (Or.inr rfl)
    | heartbeat => exact h.heartbeatStep ha hc hal hs hheart
    | client k => exact h.clientStep ha (fun hb => (hsafe hb).1) hc hal hs hrepl hfrom href.commits
  | reply t r =>
    cases t with
    | election => exact h.electionReply ha hc hs
    | heartbeat => exact h.heartbeatReply ha hc hs
    | client k => exact h.clientReply ha hc hal hs
  | receive req => exact h.receive ha hsafe hc hal hs href
  | clientRequest req => exact h.clientRequest ha hc hal hs
  | snapshotNow =>
    cases ((hc.site v).step hs.outcome).1 with
    | snapshotNow hl =>
      have hne := RaftNode.full_ne_nil hl
      obtain ⟨hfull, happ, hcom, _⟩ := hn.aligned.createSnapshot_kept c.store hne
      obtain ⟨b, hf⟩ := follows_save strict hn.role (RaftNode.createSnapshot_role _ c.store) hfull
        (RaftNode.createSnapshot_stable _ c.store)
      exact h.keep ha hc hs hown hf ⟨hfull, happ, hcom⟩ (fun _ => nofun) (fun _ => heartbeat_kept) (fun _ => Or.inl) nofun
        (fun _ => nofun) (fun _ => nofun)
  | restart =>
    cases ((hc.site v).step hs.outcome).1 with
    | restart n store' hr =>
      obtain ⟨b, hf⟩ := hn.sound.follows_restart strict hn.role hr
      exact h.move ha hc hs hown hf (fun hb => (hn.applied hb).restart hn.aligned hn.sound (ha.steps hf.moves).2 hr)
        (fun _ => nofun) (fun _ => nofun) (fun _ hm => absurd hm List.not_mem_nil) nofun (fun _ => nofun) (fun _ => nofun)

/-- A cluster that has never run. -/
theorem rel_init (strict bound : Prop) (N : ℕ) : Rel strict bound (Cluster.init N) (State.init 0) where
  votes := votes_init N
  site _ := ⟨⟨rfl, rfl⟩, fun _ => ⟨le_rfl, Or.inl le_rfl⟩, nofun, fun _ h => absurd h List.not_mem_nil⟩
  call _ h := absurd h List.not_mem_nil
  event _ h := absurd h List.not_mem_nil

/-- A run under more conditions is a run under fewer. -/
theorem Cluster.Reachable.mono {P Q : Cluster N → Action N → Prop} (hPQ : ∀ c x, P c x → Q c x) (h : Reachable P c) :
    Reachable Q c := by
  induction h with
  | init => exact .init
  | step _ hP hs ih => exact ih.step (hPQ _ _ hP) hs

/-- A strict run of the abstract protocol is safe. -/
theorem moves_safe (hst : strict) (hm : Moves strict (State.init 0) a) : Safe LogEntry.term (majority (Fin N)) a := by
  obtain rfl := eq_true hst
  exact (safe_init 0).steps hm

/-- A cluster that a run of steps under the conditions reaches is related to a state that the abstract protocol reaches. -/
theorem Cluster.Reachable.rel (hbs : bound → strict) (h : Reachable (Acts (Site.Refines strict bound N)) c) :
    ∃ a : Global N, Moves strict (State.init 0) a ∧ Rel strict bound c a := by
  induction h with
  | init => exact ⟨_, Steps.refl _, rel_init strict bound N⟩
  | step hreach hP hstep ih =>
    obtain ⟨a, hm, hrel⟩ := ih
    have ha := ((safe_init 0).toConsistent.steps hm).1
    have hal : Cluster.Aligned _ := (hreach.mono (fun c x hx p hp => (hx p hp).logs.2.2.2.2)).aligned
    rcases step_cases hstep with ⟨v, i, o, hi, hs⟩ | ⟨id, y, rfl, hy, _, rfl⟩
    · obtain ⟨b, hmb, hrb⟩ := hrel.refine ha (fun hb => ⟨hbs hb, moves_safe (hbs hb) hm⟩) hreach.sound hal hs (hP _ hi)
      exact ⟨b, hm.trans hmb, hrb⟩
    · exact ⟨a, hm, hrel.garble hreach.sound id⟩

end RaftStore
