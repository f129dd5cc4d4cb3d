import RaftStore.Lemmas.Site
import RaftStore.Cluster

/-!
# What every action of a cluster keeps

An action is a step of one site on an input, with the reply it may give noted at the call, or a call that is answered without
being handled. The nodes keep their numbers and ports, and the calls that have been made stay.
-/

namespace RaftStore

namespace Cluster

variable {N : ℕ}

/-- The site and the input that an action stands for. -/
def input (c : Cluster N) : Action N → Option (Fin N × Input)
  | .startElection v => some (v, .startElection)
  | .step v t => some (v, .step t)
  | .reply v t true => some (v, .reply t none)
  | .reply v t false => (c.response v t).map fun r => (v, .reply t (some r))
  | .deliver v call => c.calls[call]?.map fun y => (v, .receive y.req)
  | .garble _ => none
  | .clientRequest v req => some (v, .clientRequest req)
  | .snapshotNow v => some (v, .snapshotNow)
  | .restart v => some (v, .restart)

/-- What an action that is a step of a site does. -/
structure SiteStep (c c' : Cluster N) (v : Fin N) (i : Input) (o : Outcome) : Prop where
  outcome : c.outcome v i = some o
  site : ∀ u, c'.sites u = if u = v then o.site else c.sites u
  events : c'.events = c.events ++ o.events.map (fun e => (v, e))
  /-- A reply that a thread gets is the reply to the call it waits for. -/
  reply : ∀ t r, i = .reply t (some r) → c.response v t = some r
  /-- The calls after the step: a new one if a message was sent, and a reply noted if one was handled. -/
  calls : (∀ req, i ≠ .receive req) ∧ c'.calls = c.calls ++ o.calls ∨
    ∃ (id : ℕ) (y : Call), c.calls[id]? = some y ∧ i = .receive y.req ∧ y.resp = none ∧
      y.port = (c.sites v).node.rpcPort ∧ c'.calls = noteReply (c.calls ++ o.calls) id o.reply

/-- Every action is a step of a site, or the answer to a call that came in cut off. -/
theorem step_cases {c c' : Cluster N} {x : Action N} (h : c.step x = some c') :
    (∃ v i o, c.input x = some (v, i) ∧ SiteStep c c' v i o) ∨
      ∃ (id : ℕ) (y : Call), x = .garble id ∧ c.calls[id]? = some y ∧ y.resp = none ∧ c' = c.answer id (some .invalid) := by
  have hmap {v : Fin N} {i : Input} (hi : c.input x = some (v, i)) (hr : ∀ t r, i ≠ .reply t (some r))
      (hq : ∀ req, i ≠ .receive req) (h : (c.outcome v i).map (c.update v) = some c') :
      ∃ v i o, c.input x = some (v, i) ∧ SiteStep c c' v i o := by
    obtain ⟨o, ho, rfl⟩ := Option.map_eq_some_iff.mp h
    exact ⟨v, i, o, hi, ho, fun u => Function.update_apply _ _ _ _, rfl, fun t r hr' => absurd hr' (hr t r),
      Or.inl ⟨hq, rfl⟩⟩
  cases x with
  | startElection v => exact Or.inl (hmap rfl (by simp) (by simp) h)
  | step v t => exact Or.inl (hmap rfl (by simp) (by simp) h)
  | clientRequest v req => exact Or.inl (hmap rfl (by simp) (by simp) h)
  | snapshotNow v => exact Or.inl (hmap rfl (by simp) (by simp) h)
  | restart v => exact Or.inl (hmap rfl (by simp) (by simp) h)
  | reply v t lost =>
    cases lost with
    | true => exact Or.inl (hmap rfl (by simp) (by simp) h)
    | false =>
      obtain ⟨r, hr, h⟩ := Option.bind_eq_some_iff.mp h
      obtain ⟨o, ho, rfl⟩ := Option.map_eq_some_iff.mp h
      refine Or.inl ⟨v, .reply t (some r), o, by simp [input, hr], ho, fun u => Function.update_apply _ _ _ _, rfl, ?_,
        Or.inl ⟨by simp, rfl⟩⟩
      intro t' r' heq
      cases heq
      exact hr
  | deliver v id =>
    obtain ⟨y, hy, h⟩ := Option.bind_eq_some_iff.mp h
    split at h
    · next hc =>
      obtain ⟨o, ho, rfl⟩ := Option.map_eq_some_iff.mp h
      exact Or.inl ⟨v, .receive y.req, o, by simp [input, hy], ho, fun u => Function.update_apply _ _ _ _, rfl, by simp,
        Or.inr ⟨id, y, hy, rfl, hc.1, hc.2, rfl⟩⟩
    · cases h
  | garble id =>
    obtain ⟨y, hy, h⟩ := Option.bind_eq_some_iff.mp h
    split at h
    · next hc =>
      obtain rfl := Option.some.inj h
      exact Or.inr ⟨id, y, rfl, hy, hc, rfl⟩
    · cases h

/-- Only a restart stands for a restart. -/
theorem input_restart {c : Cluster N} {v : Fin N} {b : Action N} (h : c.input b = some (v, .restart)) : b = .restart v := by
  cases b with
  | restart u => rw [(Prod.mk.inj (Option.some.inj h)).1]
  | reply u t lost =>
    cases lost
    · obtain ⟨_, _, h⟩ := Option.map_eq_some_iff.mp h
      cases h
    · cases h
  | deliver u id =>
    obtain ⟨_, _, h⟩ := Option.map_eq_some_iff.mp h
    cases h
  | _ => cases h

/-- Only the start of an election stands for one. -/
theorem input_startElection {c : Cluster N} {v : Fin N} {b : Action N} (h : c.input b = some (v, .startElection)) : b = .startElection v := by
  cases b with
  | startElection u => rw [(Prod.mk.inj (Option.some.inj h)).1]
  | reply u t lost =>
    cases lost
    · obtain ⟨_, _, h⟩ := Option.map_eq_some_iff.mp h
      cases h
    · cases h
  | deliver u id =>
    obtain ⟨_, _, h⟩ := Option.map_eq_some_iff.mp h
    cases h
  | _ => cases h

/-! ## Calls -/

/-- The calls `l` are still there in `l'`, each with its port and its message. -/
def CallsKept (l l' : List Call) : Prop :=
  ∀ (id : ℕ) (y : Call), l[id]? = some y → ∃ y', l'[id]? = some y' ∧ y'.port = y.port ∧ y'.req = y.req

theorem callsKept_refl (l : List Call) : CallsKept l l := fun _ y h => ⟨y, h, rfl, rfl⟩

theorem CallsKept.trans {l l' l'' : List Call} (h : CallsKept l l') (h' : CallsKept l' l'') : CallsKept l l'' := by
  intro id y hy
  obtain ⟨y', hy', hp, hr⟩ := h id y hy
  obtain ⟨y'', hy'', hp', hr'⟩ := h' id y' hy'
  exact ⟨y'', hy'', hp'.trans hp, hr'.trans hr⟩

theorem callsKept_append (l l' : List Call) : CallsKept l (l ++ l') :=
  fun _ y h => ⟨y, by rw [List.getElem?_append_left (List.getElem?_eq_some_iff.mp h).1]; exact h, rfl, rfl⟩

theorem callsKept_noteReply (l : List Call) (id : ℕ) (resp : Option Reply) :
    CallsKept l (noteReply l id resp) := by
  intro j y hy
  rw [noteReply, List.getElem?_modify, hy]
  by_cases hj : id = j
  · exact ⟨{ y with resp := resp }, by simp [hj], rfl, rfl⟩
  · exact ⟨y, by simp [hj], rfl, rfl⟩

/-- A call of the list in which one reply has been noted is as it was, or has that reply. -/
theorem mem_noteReply {l : List Call} {id : ℕ} {resp : Option Reply} {y : Call} (h : y ∈ noteReply l id resp) :
    y ∈ l ∨ ∃ y₀, l[id]? = some y₀ ∧ y = { y₀ with resp := resp } := by
  obtain ⟨j, hj⟩ := List.mem_iff_getElem?.mp h
  rw [noteReply, List.getElem?_modify] at hj
  obtain ⟨y₀, hy₀, hy⟩ := Option.map_eq_some_iff.mp hj
  by_cases hij : id = j
  · subst hij
    exact Or.inr ⟨y₀, hy₀, by simpa using hy.symm⟩
  · obtain rfl : y₀ = y := by simpa [hij] using hy
    exact Or.inl (List.mem_of_getElem? hy₀)

/-- The calls stay, whatever the action. -/
theorem SiteStep.callsKept {c c' : Cluster N} {v : Fin N} {i : Input} {o : Outcome} (h : SiteStep c c' v i o) :
    CallsKept c.calls c'.calls := by
  rcases h.calls with ⟨_, hc⟩ | ⟨id, _, _, _, _, _, hc⟩ <;> rw [hc]
  · exact callsKept_append _ _
  · exact (callsKept_append _ _).trans (callsKept_noteReply _ id _)

/-! ## Sound clusters -/

/-- Every site is sound, and every node has its number and its port. -/
structure Sound (c : Cluster N) : Prop where
  site : ∀ v, (c.sites v).Sound
  id : ∀ v, (c.sites v).node.id = v.val
  rpcPort : ∀ v, (c.sites v).node.rpcPort = port v
  peerRpcPorts : ∀ v, (c.sites v).node.peerRpcPorts = peers v

theorem sound_init (N : ℕ) : (init N).Sound := ⟨fun _ => Site.sound_create _ _ _, fun _ => rfl, fun _ => rfl, fun _ => rfl⟩

/-- What a step of a site keeps of the cluster. -/
theorem Sound.siteStep {c c' : Cluster N} {v : Fin N} {i : Input} {o : Outcome} (h : c.Sound) (hs : SiteStep c c' v i o) :
    c'.Sound := by
  obtain ⟨hstep, hsound⟩ := (h.site v).step hs.outcome
  obtain ⟨hid, hport, hpeers, _⟩ := (h.site v).identity hstep
  constructor <;> intro u <;> rw [hs.site u] <;> split
  · exact hsound
  · exact h.site u
  · next hu => exact hu ▸ hid.trans (h.id v)
  · exact h.id u
  · next hu => exact hu ▸ hport.trans (h.rpcPort v)
  · exact h.rpcPort u
  · next hu => exact hu ▸ hpeers.trans (h.peerRpcPorts v)
  · exact h.peerRpcPorts u

/-- Every action keeps a cluster sound. -/
theorem Sound.step {c c' : Cluster N} {x : Action N} (h : c.Sound) (hs : c.step x = some c') : c'.Sound := by
  rcases step_cases hs with ⟨v, i, o, _, hs⟩ | ⟨id, y, _, _, _, rfl⟩
  · exact h.siteStep hs
  · exact ⟨h.site, h.id, h.rpcPort, h.peerRpcPorts⟩

/-- Every cluster a run reaches is sound. -/
theorem Reachable.sound {P : Cluster N → Action N → Prop} {c : Cluster N} (h : Reachable P c) : c.Sound := by
  induction h with
  | init => exact sound_init N
  | step _ _ hs ih => exact ih.step hs

/-! ## Ports -/

theorem port_inj {u v : Fin N} (h : port u = port v) : u = v := by
  unfold port at h
  exact Fin.ext (by omega)

/-- The peers of a node are the other nodes, each once. -/
theorem peers_nodup (v : Fin N) : (peers v).Nodup :=
  ((List.nodup_finRange N).filter _).map (fun _ _ h => port_inj h)

theorem mem_peers {v : Fin N} {p : ℤ} (h : p ∈ peers v) : ∃ u, u ≠ v ∧ p = port u := by
  obtain ⟨u, hu, rfl⟩ := List.mem_map.mp h
  exact ⟨u, by simpa using (List.mem_filter.mp hu).2, rfl⟩

theorem port_notMem_peers (v : Fin N) : port v ∉ peers v := by
  intro h
  obtain ⟨u, hu, hp⟩ := mem_peers h
  exact hu (port_inj hp).symm

/-- A node has one peer less than the cluster has nodes. -/
theorem peers_length (v : Fin N) : (peers v).length + 1 = N := by
  have herase : (List.finRange N).filter (fun j => j ≠ v) = (List.finRange N).erase v := by
    rw [(List.nodup_finRange N).erase_eq_filter]
    exact List.filter_congr (fun j _ => by by_cases hj : j = v <;> simp [hj])
  have hpos := v.pos
  rw [peers, List.length_map, herase, List.length_erase_of_mem (List.mem_finRange v), List.length_finRange]
  omega

end Cluster

end RaftStore
