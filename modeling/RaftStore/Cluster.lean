import RaftStore.Site
import Mathlib.Data.List.FinRange

/-!
# The cluster

The nodes of `raftAlgorithm` with their threads, the calls of `sendRPC` that have been made, the store they all share, and the
history of the run. An action lets one thing happen at one node: a call may be handled at any time after it was made, also long
after its sender has given up on it, at most once; a reply may come late or not at all; a node may crash at any time. The number
of nodes is a parameter where `raftAlgorithm` has three.
-/

namespace RaftStore

/-- `raftAlgorithm` has three nodes. -/
instance threeNodes : NeZero 3 := ⟨by decide⟩

/-- A call of `sendRPC`: where it goes, what it carries, and the reply once it has been handled. -/
structure Call where
  port : ℤ
  req : Request
  resp : Option Reply
  deriving DecidableEq

/-- The call that a step of a site makes, if it sends a message. -/
def Outcome.calls (o : Outcome) : List Call := o.send.toList.map (fun s => { port := s.port, req := s.req, resp := none })

structure Cluster (N : ℕ) where
  sites : Fin N → Site
  calls : List Call
  store : KVStore
  events : List (Fin N × Event)

/-- What can happen in a cluster. -/
inductive Action (N : ℕ) where
  /-- The election timeout of a node is over. -/
  | startElection (v : Fin N)
  /-- A thread of a node goes on. -/
  | step (v : Fin N) (t : Thread)
  /-- A thread gets the reply to its call, or gives up on it. -/
  | reply (v : Fin N) (t : Thread) (lost : Bool)
  /-- A node handles a call. -/
  | deliver (v : Fin N) (call : ℕ)
  /-- A call comes in cut off, and is answered as no JSON text. -/
  | garble (call : ℕ)
  /-- A client sends a command to a node. -/
  | clientRequest (v : Fin N) (req : ClientRequest)
  /-- A snapshot of a node is asked for. -/
  | snapshotNow (v : Fin N)
  /-- A node crashes and is started again. -/
  | restart (v : Fin N)

namespace Cluster

variable {N : ℕ}

/-- `basePort + i`. -/
def port (v : Fin N) : ℤ := 5000 + v.val

/-- The ports of the other nodes. -/
def peers (v : Fin N) : List ℤ := ((List.finRange N).filter (fun j => j ≠ v)).map port

/-- The cluster when it is started for the first time. -/
def init (N : ℕ) : Cluster N where
  sites v := Site.create v.val (port v) (peers v)
  calls := []
  store := KVStore.empty
  events := []

/-- The cluster after a step of the site `v`. -/
def update (c : Cluster N) (v : Fin N) (o : Outcome) : Cluster N where
  sites := Function.update c.sites v o.site
  calls := c.calls ++ o.calls
  store := o.store
  events := c.events ++ o.events.map (fun e => (v, e))

/-- What happens at the site `v` on an input. -/
def outcome (c : Cluster N) (v : Fin N) (i : Input) : Option Outcome := (c.sites v).step N c.calls.length c.store i

/-- The reply a thread of `v` waits for, once its call has been handled. -/
def response (c : Cluster N) (v : Fin N) (t : Thread) : Option Reply :=
  ((c.sites v).awaiting t).bind fun call => c.calls[call]?.bind (·.resp)

/-- A reply is noted at its call. -/
def noteReply (calls : List Call) (call : ℕ) (resp : Option Reply) : List Call :=
  calls.modify call (fun x => { x with resp := resp })

/-- A reply to a call. -/
def answer (c : Cluster N) (call : ℕ) (resp : Option Reply) : Cluster N := { c with calls := noteReply c.calls call resp }

/-- One action; `none` where it cannot occur. -/
def step (c : Cluster N) : Action N → Option (Cluster N)
  | .startElection v => (c.outcome v .startElection).map (c.update v)
  | .step v t => (c.outcome v (.step t)).map (c.update v)
  | .reply v t true => (c.outcome v (.reply t none)).map (c.update v)
  | .reply v t false => (c.response v t).bind fun r => (c.outcome v (.reply t (some r))).map (c.update v)
  | .deliver v call => c.calls[call]?.bind fun x =>
      if x.resp = none ∧ x.port = (c.sites v).node.rpcPort then
        (c.outcome v (.receive x.req)).map fun o => (c.update v o).answer call o.reply
      else none
  | .garble call => c.calls[call]?.bind fun x => if x.resp = none then some (c.answer call (some .invalid)) else none
  | .clientRequest v req => (c.outcome v (.clientRequest req)).map (c.update v)
  | .snapshotNow v => (c.outcome v .snapshotNow).map (c.update v)
  | .restart v => (c.outcome v .restart).map (c.update v)

/-- The clusters that a run reaches whose every action satisfies `P` in the state it is taken in. -/
inductive Reachable (P : Cluster N → Action N → Prop) : Cluster N → Prop where
  | init : Reachable P (init N)
  | step {c c' : Cluster N} {x : Action N} : Reachable P c → P c x → c.step x = some c' → Reachable P c'

/-- Any action. -/
def anyAction (_ : Cluster N) (_ : Action N) : Prop := True

instance (c : Cluster N) (x : Action N) : Decidable (anyAction c x) := instDecidableTrue

/-- Take actions one after the other, each of which must satisfy `P`. -/
def run (P : Cluster N → Action N → Prop) [∀ c x, Decidable (P c x)] : Cluster N → List (Action N) → Option (Cluster N)
  | c, [] => some c
  | c, x :: xs => if P c x then (c.step x).bind (fun c => run P c xs) else none

/-- What a list of actions leads to is reachable. -/
theorem Reachable.run {P : Cluster N → Action N → Prop} [∀ c x, Decidable (P c x)] {c c' : Cluster N}
    (h : Reachable P c) {xs : List (Action N)} (hr : run P c xs = some c') : Reachable P c' := by
  induction xs generalizing c with
  | nil =>
    obtain rfl := Option.some.inj hr
    exact h
  | cons x xs ih =>
    simp only [Cluster.run] at hr
    split at hr
    · next hx =>
      obtain ⟨d, hd, hr⟩ := Option.bind_eq_some_iff.mp hr
      exact ih (h.step hx hd) hr
    · cases hr

end Cluster

end RaftStore
