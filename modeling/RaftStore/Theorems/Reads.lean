import RaftStore.Replicas
import RaftStore.Theorems.Matching
import RaftStore.Theorems.Replay

/-!
# Reads of a shared store

Each command is executed once by every node, on the one store of the process. What a GET of the leader finds is what the last
write of the key has left that any node has executed, and not what the log below the GET leaves.
-/

namespace RaftStore

open Systems (Write lookup_foldl_empty)

/-- The result of a GET is what the store has at the key. -/
theorem KVStore.applyCommand_get (s : KVStore) {command : Str} (h : (parseCommand command).1 = ascii "GET") :
    (s.applyCommand command).2 = (s.get (parseCommand command).2.1).getD (ascii "key not found") := by
  have hput : ascii "GET" ≠ ascii "PUT" := by decide
  unfold KVStore.applyCommand
  simp only [h, if_neg hput, if_true]
  cases s.get (parseCommand command).2.1 <;> rfl

/-- A round of an apply loop, on a node that is up and has the next entry. -/
theorem Applying.applyNext_some {r : Applying} {e : LogEntry} (hup : r.node.shutdownRequested = false)
    (he : r.node.entryAt (r.node.logIdx (r.node.lastApplied + 1)) = some e) : r.applyNext =
      { node := { r.node with lastApplied := r.node.lastApplied + 1 }
        store := (r.store.applyCommand e.command).1
        applyResult := (r.store.applyCommand e.command).2
        events := r.events ++ [.applied (r.node.lastApplied + 1) e] } := by
  have hentry : ({ r.node with lastApplied := r.node.lastApplied + 1 } : RaftNode).entryAt
      (({ r.node with lastApplied := r.node.lastApplied + 1 } : RaftNode).logIdx (r.node.lastApplied + 1)) = some e := he
  unfold Applying.applyNext
  simp only
  rw [hentry]
  simp only [RaftNode.applyToStateMachine, hup, Bool.false_eq_true, if_false]

namespace Replicas

variable {N : ℕ} {l v : Fin N} {log : List LogEntry} {turns : List (Turn N)} {r r' : Replicas N} {f : Fin N → ℕ}

/-- A node that runs over the common log, has applied up to `k`, and knows of no commit beyond the log. -/
structure Follows (log : List LogEntry) (k : ℕ) (n : RaftNode) : Prop where
  log_eq : n.log = log
  snapshot : n.latestSnapshot = none
  running : n.shutdownRequested = false
  applied : n.lastApplied = k
  bound : n.lastApplied < n.commitIndex → n.commitIndex < log.length

theorem Follows.size {k : ℕ} {n : RaftNode} (h : Follows log k n) : n.getLogSize = log.length := by
  simp [RaftNode.getLogSize, RaftNode.baseIndex, h.snapshot, h.log_eq]

/-- A node that follows may learn of a commit within the log. -/
theorem Follows.commit {k : ℕ} {n : RaftNode} (h : Follows log k n) {i : ℤ} (hi : i < log.length) :
    Follows log k (n.setCommitIndex i) :=
  ⟨h.log_eq, h.snapshot, h.running, h.applied, fun _ => hi⟩

/-- One round of an apply loop executes the next command of the log. -/
theorem Follows.applying {k : ℕ} (h : Follows log k (r.nodes v)) (hlt : (r.nodes v).lastApplied < (r.nodes v).commitIndex) :
    ∃ e, log[k + 1]? = some e ∧ Follows log (k + 1) (r.applying v).node ∧
      (r.applying v).store = (r.store.applyCommand e.command).1 ∧
      (r.applying v).applyResult = (r.store.applyCommand e.command).2 := by
  have hbound := h.bound hlt
  have hk := h.applied
  have hlen : k + 1 < log.length := by omega
  have hentry : (r.nodes v).entryAt ((r.nodes v).logIdx ((r.nodes v).lastApplied + 1)) = some log[k + 1] := by
    simp only [RaftNode.entryAt, RaftNode.logIdx, h.snapshot, h.log_eq, hk]
    rw [if_pos (by omega), show ((k : ℤ) + 1).toNat = k + 1 by omega]
    exact List.getElem?_eq_getElem hlen
  have hnext := Applying.applyNext_some (r := { node := r.nodes v, store := r.store, applyResult := [], events := [] })
    h.running hentry
  refine ⟨log[k + 1], List.getElem?_eq_getElem hlen, ?_, congrArg Applying.store hnext, congrArg Applying.applyResult hnext⟩
  have hnode : (r.applying v).node = { r.nodes v with lastApplied := (r.nodes v).lastApplied + 1 } :=
    RaftNode.applyNext_node _
  rw [hnode]
  exact ⟨h.log_eq, h.snapshot, h.running, by show (r.nodes v).lastApplied + 1 = _; push_cast; omega, fun _ => hbound⟩

/-- Every node follows the common log, and has applied up to `f`. -/
def Ready (log : List LogEntry) (f : Fin N → ℕ) (r : Replicas N) : Prop := ∀ v, Follows log (f v) (r.nodes v)

theorem ready_start (N : ℕ) (log : List LogEntry) : Ready log (fun _ => 0) (start N log) :=
  fun _ => ⟨rfl, rfl, rfl, rfl, fun h => absurd h (lt_irrefl _)⟩

theorem Ready.setNode (h : Ready log f r) {n : RaftNode} {k : ℕ} (hn : Follows log k n) :
    Ready log (Function.update f v k) (r.setNode v n) := by
  intro u
  by_cases hu : u = v
  · subst hu
    simpa [Replicas.setNode] using hn
  · simpa [Replicas.setNode, hu] using h u

/-- A turn keeps the nodes on the log, and writes to the map what the command of its index writes. -/
theorem Ready.step (h : Ready log f r) {t : Turn N} (hs : r.step l t = some r') : Ready log (t.applied f) r' ∧
    r'.store.mp = (writesAt log (t.index f).toList).foldl Write.apply r.store.mp := by
  cases t with
  | commit i =>
    simp only [Replicas.step, Option.ite_none_right_eq_some, Option.some.injEq] at hs
    obtain ⟨⟨_, hlt⟩, rfl⟩ := hs
    rw [(h l).size] at hlt
    refine ⟨?_, rfl⟩
    simpa [Turn.applied] using h.setNode (v := l) ((h l).commit hlt)
  | advance v k =>
    simp only [Replicas.step, Option.ite_none_right_eq_some, Option.some.injEq] at hs
    obtain ⟨_, rfl⟩ := hs
    refine ⟨?_, rfl⟩
    have hlt : min k ((r.nodes v).getLogSize - 1) < log.length := by
      rw [(h v).size]
      omega
    simpa [Turn.applied] using h.setNode (v := v) ((h v).commit hlt)
  | apply v =>
    simp only [Replicas.step, Option.ite_none_right_eq_some, Option.some.injEq] at hs
    obtain ⟨hlt, rfl⟩ := hs
    obtain ⟨e, he, hf, hstore, _⟩ := (h v).applying hlt
    refine ⟨h.setNode (v := v) hf, ?_⟩
    show (r.applying v).store.mp = _
    rw [hstore, KVStore.applyCommand_mp]
    cases hc : StoreCall.ofCommand e.command <;> simp [writesAt, Turn.index, he, hc]

/-- Over a run the map is what the commands have written, in the order in which the nodes have executed them. -/
theorem Ready.run (h : Ready log f r) (hr : r.run l turns = some r') : (∃ f', Ready log f' r') ∧
    r'.store.mp = (writesAt log (Turn.order f turns)).foldl Write.apply r.store.mp := by
  induction turns generalizing r f with
  | nil =>
    obtain rfl := Option.some.inj hr
    exact ⟨⟨f, h⟩, rfl⟩
  | cons t turns ih =>
    obtain ⟨d, hd, hr⟩ := Option.bind_eq_some_iff.mp hr
    obtain ⟨hstep, hmp⟩ := h.step hd
    obtain ⟨hready, hrun⟩ := ih hstep hr
    refine ⟨hready, ?_⟩
    rw [hrun, hmp, ← List.foldl_append]
    simp [writesAt, Turn.order, List.filterMap_append]

/-- The leader's GET at index `i` returns what the log below `i` determines exactly where the last write of its key that any node
has executed leaves the same as the last write of the key below `i`. -/
theorem get_reflects_log (h : (start N log).run l turns = some r) {i : ℕ} {e : LogEntry}
    (hi : (r.nodes l).lastApplied + 1 = i) (hc : (r.nodes l).lastApplied < (r.nodes l).commitIndex) (he : log[i]? = some e)
    (hget : (parseCommand e.command).1 = ascii "GET") :
    (r.applying l).applyResult = readAfter (parseCommand e.command).2.1 (writesAt log (List.range i)) ↔
      readAfter (parseCommand e.command).2.1 (writesAt log (Turn.order (fun _ => 0) turns)) =
        readAfter (parseCommand e.command).2.1 (writesAt log (List.range i)) := by
  obtain ⟨⟨f, hready⟩, hmp⟩ := (ready_start N log).run h
  obtain ⟨e', he', _, _, hresult⟩ := (hready l).applying hc
  have hfi : f l + 1 = i := by
    have := (hready l).applied
    omega
  rw [hfi, he] at he'
  obtain rfl := Option.some.inj he'
  have hread : (r.applying l).applyResult =
      readAfter (parseCommand e.command).2.1 (writesAt log (Turn.order (fun _ => 0) turns)) := by
    rw [hresult, KVStore.applyCommand_get _ hget, readAfter, ← lookup_foldl_empty]
    exact congrArg (fun m => (AList.lookup _ m).getD _) hmp
  rw [hread]

/-- Three PUT commands of one key, and a GET of it. -/
def putsAndGet : List LogEntry :=
  [putEntry 1 0 1 "x", putEntry 1 1 2 "a", putEntry 1 2 3 "b",
    { term := 1, index := 3, command := ascii "GET k ", origin := (ascii "client-4", 4) }]

/-- The leader, node 0, executes two commands, and then a follower executes as many; the GET is committed. -/
def caughtUp : List (Turn 3) := [.commit 2, .apply 0, .apply 0, .advance 1 2, .apply 1, .apply 1, .commit 3]

theorem caughtUp_next : ∃ r ∈ (start 3 putsAndGet).run 0 caughtUp,
    (r.nodes 0).lastApplied + 1 = (3 : ℕ) ∧ (r.nodes 0).lastApplied < (r.nodes 0).commitIndex := by
  decide +kernel

/-- The follower has executed both commands again before the GET, which returns what the log determines. -/
theorem get_reflects_log_caughtUp : ∃ r, (start 3 putsAndGet).run 0 caughtUp = some r ∧
    (r.applying 0).applyResult = readAfter (ascii "k") (writesAt putsAndGet (List.range 3)) := by
  obtain ⟨r, hr, hi, hc⟩ := caughtUp_next
  exact ⟨r, hr, (get_reflects_log hr hi hc rfl (by decide)).mpr (by decide +kernel)⟩

/-- The follower executes the first of the commands only when the leader has executed both. -/
def laggingFollower : List (Turn 3) := [.commit 2, .apply 0, .apply 0, .advance 1 2, .apply 1, .commit 3]

theorem laggingFollower_next : ∃ r ∈ (start 3 putsAndGet).run 0 laggingFollower,
    (r.nodes 0).lastApplied + 1 = (3 : ℕ) ∧ (r.nodes 0).lastApplied < (r.nodes 0).commitIndex ∧
      (r.applying 0).applyResult = ascii "a" := by
  decide +kernel

/-- A GET of the leader can return an old value that a follower has written again. -/
theorem get_replayed : ¬∀ (log : List LogEntry) (l : Fin 3) (turns : List (Turn 3)) (r : Replicas 3) (i : ℕ) (e : LogEntry),
    (start 3 log).run l turns = some r → (r.nodes l).lastApplied + 1 = i →
    (r.nodes l).lastApplied < (r.nodes l).commitIndex → log[i]? = some e → (parseCommand e.command).1 = ascii "GET" →
    (r.applying l).applyResult = readAfter (parseCommand e.command).2.1 (writesAt log (List.range i)) := by
  intro h
  obtain ⟨r, hr, hi, hc, hresult⟩ := laggingFollower_next
  have := h putsAndGet 0 laggingFollower r 3 _ hr hi hc rfl (by decide)
  rw [hresult] at this
  exact absurd this (by decide +kernel)

end Replicas

end RaftStore
