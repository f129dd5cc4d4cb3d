import RaftStore.Lemmas.Cluster

/-!
# Election timers

`election_timer` and `reset_timeout` of `raft_node.cpp`: the thread of a node that waits for its leader and calls `start_election`. The
clock counts milliseconds. A thread that waits on `cv` goes on when it has been notified, or when its time is over; the standard lets it
go on without a reason too. `stopTimer` is set together with `shutdownRequested`, and no input of a cluster sets either.
-/

namespace RaftStore

/-- Where the thread of `election_timer` is: at the head of its loop, in the `wait` of a leader, in `wait_for`, past the test of the
timeout with the lock given up, in `start_election`, or out of the loop. -/
inductive TimerPlace where
  | head
  | leading (notified : Bool)
  | sleeping (wake : ℕ) (notified : Bool)
  | due
  | electing
  | ended
  deriving DecidableEq

/-- The fields of a node that its election timer looks at, and the place of the thread. -/
structure Timer where
  lastHeartbeatTimePoint : ℕ
  electionTimeout : ℕ
  place : TimerPlace
  deriving DecidableEq

namespace Timer

/-- `2000 + rand() % 2000`. -/
def timeout (random : ℕ) : ℕ := 2000 + random % 2000

/-- A timer that is started now. -/
def start (now random : ℕ) : Timer :=
  { lastHeartbeatTimePoint := now, electionTimeout := timeout random, place := .head }

/-- `cv.notify_all`. -/
def notify (t : Timer) : Timer :=
  { t with place := match t.place with
      | .leading _ => .leading true
      | .sleeping wake _ => .sleeping wake true
      | place => place }

/-- `lastHeartbeatTimePoint` and `electionTimeout` are set anew. -/
def reset (t : Timer) (now random : ℕ) : Timer :=
  { t with lastHeartbeatTimePoint := now, electionTimeout := timeout random }

/-- `start_election` has returned, where it is not under way any more. -/
def returned (t : Timer) (underWay : Bool) : Timer := if underWay then t else { t with place := .head }

/-- What the thread does next; `none` where it is blocked. `start_election` is called where it comes to `electing`. -/
def go (t : Timer) (now : ℕ) (n : RaftNode) : Option Timer :=
  let at_ (place : TimerPlace) := some { t with place := place }
  match t.place with
  | .head =>
    if n.shutdownRequested then at_ .ended
    else if n.state = .leader then at_ (.leading false)
    else if t.electionTimeout ≤ now - t.lastHeartbeatTimePoint then at_ .due
    else at_ (.sleeping (t.lastHeartbeatTimePoint + t.electionTimeout) false)
  | .leading notified =>
    if notified then (if n.state ≠ .leader ∨ n.shutdownRequested then at_ .head else at_ (.leading false)) else none
  | .sleeping wake notified =>
    if wake ≤ now then at_ .head
    else if notified then (if n.state = .leader ∨ n.shutdownRequested then at_ .head else at_ (.sleeping wake false))
    else none
  | .due => if n.shutdownRequested then at_ .ended else at_ .electing
  | .electing => none
  | .ended => none

end Timer

namespace RaftNode

/-- The AppendEntries handler takes the message for one of the leader, and sets the timeout anew. -/
def hears (n : RaftNode) (m : AppendEntriesRPC) : Bool :=
  !(n.receivingSnapshot && decide (n.snapshotLeaderId = m.leaderId)) && decide (n.currentTerm ≤ m.term)

/-- A handler calls `cv.notify_all`: AppendEntries of a leader, and `becomeFollower`. -/
def notifies (n : RaftNode) : Request → Bool
  | .requestVote m => decide (n.currentTerm < m.term)
  | .appendEntries m => n.hears m
  | .installSnapshot m => decide (n.currentTerm < m.term)

end RaftNode

namespace Site

/-- The reply to a heartbeat carries a later term. -/
def hearsLater (s : Site) (r : Option Reply) : Bool :=
  match s.heartbeat, r.bind Reply.appendEntriesResponse with
  | some { phase := .append _ _ _ _, .. }, some (term, _) =>
    !s.node.shutdownRequested && s.node.runningHeartbeats && decide (s.node.currentTerm < term)
  | _, _ => false

/-- `start_election` is about to promote the node. -/
def wins (size : ℕ) (s : Site) : Bool :=
  match s.election with
  | some el => decide (el.phase = .ask ∧ el.rest = [] ∧ size / 2 < el.votes) && !s.node.shutdownRequested
  | none => false

end Site

/-- What an input of a site, which leads from `s` to `s'`, does to the timer. `handleClientCommand` and `start_election` notify nobody
when they step down. -/
def Timer.after (t : Timer) (size now random : ℕ) (s s' : Site) : Input → Timer
  | .receive (.appendEntries m) => if s.node.hears m then (t.reset now random).notify else t
  | .receive req => if s.node.notifies req then t.notify else t
  | .reply .heartbeat r => if s.hearsLater r then { t with lastHeartbeatTimePoint := now }.notify else t
  -- `reset_timeout` comes right after the promotion
  | .step .election => (if s.wins size then (t.reset now random).notify else t).returned s'.election.isSome
  | .reply .election _ => t.returned s'.election.isSome
  | .restart => Timer.start now random
  | _ => t

/-! ## A cluster with its timers -/

/-- A cluster, the clock, and the timer of each node. -/
structure TimedCluster (N : ℕ) where
  cluster : Cluster N
  now : ℕ
  timers : Fin N → Timer

/-- What can happen in a cluster with timers. `random`: what `rand()` returns, where it is called. -/
inductive TimedAction (N : ℕ) where
  /-- Something happens other than a call of `start_election`. -/
  | act (x : Action N) (random : ℕ)
  /-- The timer of a node goes on. -/
  | timer (v : Fin N)
  /-- The timer of a node is woken without a reason. -/
  | spurious (v : Fin N)
  /-- Time passes. -/
  | tick (d : ℕ)

namespace TimedCluster

variable {N : ℕ}

/-- The cluster when it is started for the first time, with a random number for each node. -/
def init (N : ℕ) (random : Fin N → ℕ) : TimedCluster N where
  cluster := Cluster.init N
  now := 0
  timers v := Timer.start 0 (random v)

/-- The timers after an action that leads to `c'`. -/
def timersAfter (x : TimedCluster N) (a : Action N) (random : ℕ) (c' : Cluster N) : Fin N → Timer :=
  match x.cluster.input a with
  | none => x.timers
  | some (v, i) =>
    Function.update x.timers v ((x.timers v).after N x.now random (x.cluster.sites v) (c'.sites v) i)

/-- What the timer of a node does next: it calls `start_election`, or goes on by itself. -/
def timerStep (x : TimedCluster N) (v : Fin N) : Option (TimedCluster N) :=
  ((x.timers v).go x.now (x.cluster.sites v).node).bind fun t =>
    let timers := Function.update x.timers v t
    if t.place = .electing then (x.cluster.step (.startElection v)).map fun c => { x with cluster := c, timers := timers }
    else some { x with timers := timers }

/-- One action; `none` where it cannot occur. -/
def step (x : TimedCluster N) : TimedAction N → Option (TimedCluster N)
  | .act (.startElection _) _ => none
  | .act a random => (x.cluster.step a).map fun c => { x with cluster := c, timers := x.timersAfter a random c }
  | .timer v => x.timerStep v
  | .spurious v => some { x with timers := Function.update x.timers v (x.timers v).notify }
  | .tick d => some { x with now := x.now + d }

end TimedCluster

end RaftStore
