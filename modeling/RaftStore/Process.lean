import RaftStore.Cluster
import RaftStore.Replay
import RaftStore.Systems.Runs

/-!
# The whole process

`server.cpp` around the cluster: connections, the numbering of the requests that `handle_client` sends, and the start of the
process over the files of an earlier one. A message that `sendClientRequest` sends may come in at any node, at any later time of
the process, any number of times. Texts that are answered without asking a node are left out, and so are the commands that ask a
node for its status.
-/

namespace RaftStore

/-- A line that a client types. `other`: anything but a command for the store. -/
inductive Line where
  | put (key value : Str)
  | get (key : Str)
  | delete (key : Str)
  | other
  deriving DecidableEq

/-- Command, key and value of the message for a line; `none` where no message is sent. -/
def Line.message : Line → Option (Str × Str × Str)
  | put key value => if key = [] ∨ value = [] then none else some (ascii "PUT", key, value)
  | get key => if key = [] then none else some (ascii "GET", key, [])
  | delete key => if key = [] then none else some (ascii "DELETE", key, [])
  | other => none

/-- The process. `sessions`: the open connections, each with its socket and a number of its own; `connected`: how many connections
there have been; `sent`: the messages of `handle_client` since the process was started; `since`: how long the history was then. -/
structure Process (N : ℕ) where
  cluster : Cluster N
  clientRequestCounter : AList (fun _ : ℕ => ℤ)
  sessions : List (ℕ × ℕ)
  connected : ℕ
  sent : List ClientRequest
  since : ℕ

/-- What can happen in a process. -/
inductive Happening (N : ℕ) where
  /-- A client connects, and gets a socket that is not in use. -/
  | connect (socket : ℕ)
  /-- A connection is closed. -/
  | disconnect (socket : ℕ)
  /-- A client types a line. -/
  | line (socket : ℕ) (l : Line)
  /-- A message that `handle_client` has sent comes in at a node. -/
  | attempt (v : Fin N) (k : ℕ)
  /-- Something happens in the cluster, other than a client request or a restart. -/
  | cluster (x : Action N)
  /-- The process is started again. -/
  | restart

/-- The action is one of the nodes among themselves. -/
def Action.internal {N : ℕ} : Action N → Bool
  | .clientRequest _ _ => false
  | .restart _ => false
  | _ => true

/-- `"client-" + std::to_string(client_socket)`. -/
def clientIdOf (socket : ℕ) : Str := ascii "client-" ++ toString socket

/-- The nodes are started one after the other over the store that is constructed from the write-ahead log. No call is left of what
the process had sent before. -/
def Cluster.reboot {N : ℕ} (c : Cluster N) : Option (Cluster N) :=
  c.store.reopen.bind fun store =>
    (List.finRange N).foldlM (fun c v => c.step (.restart v)) { c with store := store, calls := [] }

namespace Process

variable {N : ℕ}

/-- The process when it is started for the first time. -/
def init (N : ℕ) : Process N where
  cluster := Cluster.init N
  clientRequestCounter := ∅
  sessions := []
  connected := 0
  sent := []
  since := 0

/-- `++clientRequestCounter[client_socket]`. -/
def nextRequestId (p : Process N) (socket : ℕ) : ℤ := (p.clientRequestCounter.lookup socket).getD 0 + 1

/-- The message that `handle_client` sends for a line. -/
def request (p : Process N) (socket session : ℕ) (l : Line) : Option ClientRequest :=
  l.message.map fun (command, key, value) =>
    { clientId := clientIdOf socket
      requestId := p.nextRequestId socket
      command := command
      key := key
      value := value
      session := session }

/-- One thing happens; `none` where it cannot. -/
def step (p : Process N) : Happening N → Option (Process N)
  | .connect socket =>
    if p.sessions.lookup socket = none then
      some { p with sessions := (socket, p.connected) :: p.sessions, connected := p.connected + 1 }
    else none
  | .disconnect socket => some { p with sessions := p.sessions.filter (fun x => x.1 ≠ socket) }
  | .line socket l => (p.sessions.lookup socket).map fun session =>
      { p with
        clientRequestCounter := p.clientRequestCounter.insert socket (p.nextRequestId socket)
        sent := p.sent ++ (p.request socket session l).toList }
  | .attempt v k => p.sent[k]?.bind fun req =>
      (p.cluster.step (.clientRequest v req)).map fun c => { p with cluster := c }
  | .cluster x => if x.internal then (p.cluster.step x).map fun c => { p with cluster := c } else none
  | .restart => p.cluster.reboot.map fun c =>
      { cluster := c
        clientRequestCounter := ∅
        sessions := []
        connected := p.connected
        sent := []
        since := c.events.length }

end Process

end RaftStore
