import RaftStore.Locks

/-!
# Threads that wait for themselves

The threads of a node take their mutexes in one order, and none that they hold, but for one branch: the AppendEntries handler, which
holds `mtx` all the time, calls `becomeFollower`, which takes it.
-/

namespace RaftStore

open Systems LockProg

/-- The runs of a thread are safe: it takes no mutex that it holds, and takes them in the order of their ranks. -/
def ThreadTask.NoDeadlock (n : RaftNode) (x : ThreadTask) : Prop := ∀ t b, (x.locking n).Exec t b → Safe Mutex.rank [] t

/-- The thread handles an AppendEntries message that makes the node step down. -/
def ThreadTask.StepsDown (n : RaftNode) : ThreadTask → Prop
  | handleNodeClient false (.peer (.appendEntries m)) =>
    ¬(n.receivingSnapshot ∧ n.snapshotLeaderId = m.leaderId) ∧ n.currentTerm ≤ m.term ∧
      (n.currentTerm < m.term ∨ n.state = .candidate)
  | _ => False

namespace Locking

variable (n : RaftNode)

theorem triggerSnapshot_check : (triggerSnapshot n).check Mutex.rank [] := by
  unfold triggerSnapshot
  split <;> decide

theorem becomeFollower_check : (becomeFollower n).check Mutex.rank [] := by
  unfold becomeFollower
  split <;> decide

/-- `becomeFollower` takes `mtx`, and must not be called with it held. -/
theorem becomeFollower_held : ¬(becomeFollower n).check Mutex.rank [.mtx] := fun h => h.1.1.1 List.mem_cons_self

theorem handleClientCommand_check : (handleClientCommand n).check Mutex.rank [] := by
  unfold handleClientCommand
  split <;> decide

theorem requestVote_check (m : RequestVoteRPC) : (requestVote n m).check Mutex.rank [] := by
  unfold requestVote
  split
  · trivial
  · refine ⟨?_, by decide⟩
    split
    · exact becomeFollower_check n
    · trivial

theorem installSnapshot_check (m : InstallSnapshotRPC) : (installSnapshot n m).check Mutex.rank [] := by
  unfold installSnapshot
  split
  · trivial
  · refine ⟨?_, ?_, trivial⟩
    · split
      · exact becomeFollower_check n
      · trivial
    · split <;> decide

theorem startElection_check : startElection.check Mutex.rank [] := by decide

theorem sendHeartbeats_check : sendHeartbeats.check Mutex.rank [] := by decide

theorem resetTimeout_check : resetTimeout.check Mutex.rank [] := by decide

/-- The AppendEntries handler takes `mtx` twice where the node steps down, and nowhere else. -/
theorem appendEntries_check (m : AppendEntriesRPC) : (appendEntries n m).check Mutex.rank [] ↔
    ¬(¬(n.receivingSnapshot ∧ n.snapshotLeaderId = m.leaderId) ∧ n.currentTerm ≤ m.term ∧
      (n.currentTerm < m.term ∨ n.state = .candidate)) := by
  have htake : Mutex.mtx ∉ [] ∧ ∀ k ∈ [], Mutex.rank k < Mutex.rank .mtx := by decide
  unfold appendEntries
  split
  · next hr => exact ⟨fun _ h => h.1 hr, fun _ => ⟨htake, trivial⟩⟩
  · next hr =>
    split
    · next ht => exact ⟨fun _ h => absurd ht (not_lt.mpr h.2.1), fun _ => ⟨htake, trivial⟩⟩
    · next ht =>
      split
      · next hs => exact ⟨fun h => absurd h.2.1 (becomeFollower_held n), fun h => absurd ⟨hr, not_lt.mp ht, hs⟩ h⟩
      · next hs => exact ⟨fun _ h => hs h.2.2, fun _ => ⟨htake, by decide⟩⟩

end Locking

/-- A thread never takes a mutex that it holds, and takes mutexes in one order, if and only if it does not handle an AppendEntries
message that makes the node step down. -/
theorem no_deadlock_iff (n : RaftNode) (x : ThreadTask) : x.NoDeadlock n ↔ ¬x.StepsDown n := by
  unfold ThreadTask.NoDeadlock
  rw [safe_iff_check]
  have hsafe {p : Locking} (h : p.check Mutex.rank []) : p.check Mutex.rank [] ↔ ¬False := ⟨fun _ h => h, fun _ => h⟩
  cases x with
  | handleNodeClient stopRPC msg =>
    cases stopRPC with
    | true => exact hsafe trivial
    | false =>
      cases msg with
      | peer req =>
        cases req with
        | requestVote m => exact hsafe (Locking.requestVote_check n m)
        | appendEntries m => exact Locking.appendEntries_check n m
        | installSnapshot m => exact hsafe (Locking.installSnapshot_check n m)
      | clientRequest =>
        refine hsafe ?_
        show (if n.state ≠ .leader then skip else Locking.handleClientCommand n).check Mutex.rank []
        split
        · trivial
        · exact Locking.handleClientCommand_check n
      | snapshotNow => exact hsafe (Locking.triggerSnapshot_check n)
      | other => exact hsafe trivial
  | handleClientCommand => exact hsafe (Locking.handleClientCommand_check n)
  | triggerSnapshot => exact hsafe (Locking.triggerSnapshot_check n)
  | startElection => exact hsafe Locking.startElection_check
  | sendHeartbeats => exact hsafe Locking.sendHeartbeats_check
  | resetTimeout => exact hsafe Locking.resetTimeout_check
  | becomeFollower => exact hsafe (Locking.becomeFollower_check n)

/-- The first AppendEntries message of a leader of term 1. -/
def firstAppend : AppendEntriesRPC :=
  { term := 1, leaderId := 0, prevLogIndex := -1, prevLogTerm := 0, entries := [], leaderCommit := 0 }

/-- The handler of a new node waits for itself when the first AppendEntries message comes in. -/
theorem appendEntries_deadlock : ¬∀ (n : RaftNode) (x : ThreadTask), x.NoDeadlock n := by
  intro h
  have hcheck := (safe_iff_check.mp (h (RaftNode.create 1 5001 [5000, 5002] { metadata := none, snapshotFile := .absent })
    (.handleNodeClient false (.peer (.appendEntries firstAppend)))))
  exact absurd hcheck (by decide)

end RaftStore
