import RaftStore.Lemmas.Cluster
import RaftStore.Systems.Runs

/-!
# The cluster, with the check and the append of a client command apart

`handleClientCommand` tests the state of the node and looks into its table before it takes the mutex for the append. Here the two
are two steps, between which the node may handle any message: a request that has passed the checks waits for its append.
-/

namespace RaftStore

/-- The checks of `handleClientCommand`: what goes to the history, and whether the append follows. -/
def Site.checkRequest (s : Site) (req : ClientRequest) : List Event × Bool :=
  if s.node.shutdownRequested ∨ s.node.state ≠ .leader then ([], false)
  else
    match cachedResult s.node req with
    | some result => ([.cached req result], false)
    | none => ([], true)

/-- A request that is appended at once is the step of the cluster. -/
theorem Site.clientRequest_eq (s : Site) (store : KVStore) (req : ClientRequest) : s.clientRequest store req =
    if (s.checkRequest req).2 then .local (s.appendEntry req) store
    else { Outcome.local s store with events := (s.checkRequest req).1 } := by
  unfold Site.clientRequest Site.checkRequest
  split
  · rfl
  · cases cachedResult s.node req with
    | none => rfl
    | some result => rfl

/-- A cluster, and the requests that have passed the checks at a node and are not appended yet. -/
structure CheckedCluster (N : ℕ) where
  cluster : Cluster N
  checked : List (Fin N × ClientRequest)

/-- What can happen: an action of the cluster other than a client command, the checks of a client command, or its append. -/
inductive CheckedAction (N : ℕ) where
  | act (x : Action N)
  | check (v : Fin N) (req : ClientRequest)
  | append (k : ℕ)

namespace CheckedCluster

variable {N : ℕ}

/-- The cluster when it is started for the first time. -/
def init (N : ℕ) : CheckedCluster N := { cluster := Cluster.init N, checked := [] }

/-- A node that crashes loses the requests it has checked. -/
def survivors (x : Action N) (checked : List (Fin N × ClientRequest)) : List (Fin N × ClientRequest) :=
  match x with
  | .restart v => checked.filter (fun p => p.1 ≠ v)
  | _ => checked

/-- One step; `none` where it cannot occur. -/
def step (c : CheckedCluster N) : CheckedAction N → Option (CheckedCluster N)
  | .act (.clientRequest _ _) => none
  | .act x => (c.cluster.step x).map fun cluster => { cluster := cluster, checked := survivors x c.checked }
  | .check v req =>
    let (events, passed) := (c.cluster.sites v).checkRequest req
    some
      { cluster := { c.cluster with events := c.cluster.events ++ events.map (fun e => (v, e)) }
        checked := c.checked ++ if passed then [(v, req)] else [] }
  | .append k => c.checked[k]?.map fun (v, req) =>
      { cluster := { c.cluster with sites := Function.update c.cluster.sites v ((c.cluster.sites v).appendEntry req) }
        checked := c.checked.eraseIdx k }

/-- The term of an AppendEntries or InstallSnapshot message. -/
def leaderTerm (s : Send) : Option ℤ :=
  match s.req with
  | .requestVote _ => none
  | .appendEntries m => some m.term
  | .installSnapshot m => some m.term

/-- The terms that a step speaks for: of the AppendEntries or InstallSnapshot message a node sends, or of the client entry it
appends. -/
def spoken (c : CheckedCluster N) : CheckedAction N → List (Fin N × ℤ)
  | .act x => (c.cluster.input x).toList.flatMap fun (v, i) =>
      ((c.cluster.outcome v i).bind fun o => o.send.bind leaderTerm).toList.map fun t => (v, t)
  | .check _ _ => []
  | .append k => (c.checked[k]?).toList.map fun (v, req) => (v, (Site.newEntry (c.cluster.sites v).node req).term)

end CheckedCluster

end RaftStore
