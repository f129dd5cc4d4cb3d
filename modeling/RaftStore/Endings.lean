import RaftStore.Results
import RaftStore.Served
import RaftStore.Wire

/-!
# How a client command ends

The `return` statements of `handleClientCommand`, with what a node has done of the request there, and the reply that `handle_node_client`
makes of the one string that comes back. A commit section runs while other nodes of the process use the store, and the node may be told to
shut down between two of its turns or in one of them.
-/

namespace RaftStore

/-- The entry that the next turn of an apply loop comes to. -/
def Applying.nextEntry (r : Applying) : Option LogEntry := r.node.entryAt (r.node.logIdx (r.node.lastApplied + 1))

/-- An entry that a turn of an apply loop has executed, and the store that it was executed on. -/
structure Execution where
  index : ℤ
  entry : LogEntry
  store : KVStore

/-- What `applyToStateMachine` returns for it. -/
def Execution.result (x : Execution) : Str := (x.store.applyCommand x.entry.command).2

/-- When a node is told to shut down in a commit section: after how many turns, and whether the next one has begun. -/
structure Stop where
  turns : ℕ
  within : Bool

/-! ## The commit section -/

/-- The commit section of the call for a request. `others`: what the other nodes do to the store before each turn; `earlier`: the store that
the entry of the call has been executed on already, where nothing is left to apply. -/
structure CommitSection (req : ClientRequest) where
  node : RaftNode
  store : KVStore
  newIndex : ℤ
  entry : LogEntry
  others : ℕ → KVStore → KVStore
  stop : Option Stop
  earlier : Option KVStore
  up : node.shutdownRequested = false
  own : entry.command = Site.sendCommand req

/-- What has become of the entry of a call when the apply loop of its section ends. -/
inductive Fate where
  /-- The last turn has executed it, on this store. -/
  | executed (store : KVStore)
  /-- It was executed before, on this store, and the loop has had no turn. -/
  | overtaken (store : KVStore)
  /-- `applyToStateMachine` has found the node shutting down. -/
  | refused
  /-- The loop has not come to it; the last entry that it has executed is another one. -/
  | missed (last : Option Execution)

namespace CommitSection

variable {req : ClientRequest} (c : CommitSection req)

/-- The turns from the last applied entry to the entry of the call. -/
def length : ℕ := (c.newIndex - c.node.lastApplied).toNat

/-- The loop after its first turns. -/
def after : ℕ → Applying
  | 0 => c.node.committing c.store c.newIndex
  | k + 1 => { after k with store := c.others k (after k).store }.applyNext

/-- The last entry that these turns have executed. -/
def last : ℕ → Option Execution
  | 0 => none
  | k + 1 =>
    match (c.after k).nextEntry with
    | none => last k
    | some e => some { index := (c.after k).node.lastApplied + 1, entry := e, store := c.others k (c.after k).store }

/-- The turns before the node is told to shut down. -/
def completed : ℕ := (c.stop.map (fun stop => min stop.turns c.length)).getD c.length

/-- The node is told to shut down in a turn. -/
def interrupted : Bool := c.stop.any (fun stop => stop.within && decide (stop.turns < c.length))

/-- The end of `while (lastApplied < commitIndex && !shutdownRequested)`. -/
def run : Applying :=
  let r := c.after c.completed
  if c.interrupted then { r with node := { r.node with shutdownRequested := true } }.applyNext else r

/-- What becomes of the entry of the call. -/
def fate : Fate :=
  if c.interrupted ∧ (c.after c.completed).nextEntry.isSome then .refused
  else
    match c.last c.completed with
    | some x => if x.index = c.newIndex ∧ x.entry = c.entry then .executed x.store else .missed (some x)
    | none =>
      match c.earlier with
      | some store => .overtaken store
      | none => .missed none

end CommitSection

/-! ## Endings -/

/-- The `return` statements of `handleClientCommand`. `earlier`, of a request that is answered from the table: the store that its entry was
executed on, if it was. -/
inductive Ending (req : ClientRequest) where
  | shutdown
  | notLeader
  | cached (node : RaftNode) (result : Str) (hit : Site.cachedResult node req = some result) (earlier : Option KVStore)
  | stepDown
  | notCommitted
  | committed (c : CommitSection req)

namespace Ending

variable {req : ClientRequest}

/-- What `handleClientCommand` returns. -/
def result : Ending req → Str
  | shutdown => ascii "error: shutdown"
  | notLeader => ascii "error: not leader"
  | cached _ result _ _ => result
  | stepDown => ascii "leader step down"
  | notCommitted => ascii "error: not committed"
  | committed c => c.run.applyResult

/-- The store that the entry of the request was executed on, if it was committed and applied. -/
def readFrom : Ending req → Option KVStore
  | cached _ _ _ earlier => earlier
  | committed c =>
    match c.fate with
    | .executed store => some store
    | .overtaken store => some store
    | .refused => none
    | .missed _ => none
  | _ => none

/-- What the key of the request held when its entry was applied. -/
def held (e : Ending req) : Option Str := e.readFrom.bind (fun store => store.get req.key)

end Ending

/-! ## Replies -/

/-- The reply of `handle_node_client`, where it can be sent: `dump` throws outside of the `try` block. -/
def Served.answer (v : Served) (msg : Json) : Option Json :=
  let reply := (v.handle msg).2
  if reply.dumps then some reply else none

/-- A reply to a GET is faithful: it is OK with a value exactly where the key held this value, and an error where it held none. -/
def Told (answer : Option Json) (held : Option Str) : Prop :=
  (∀ val, answer = some (.obj [Served.ok, ("value", .str val)]) ↔ held = some val) ∧
    (held = none → ∃ reply, answer = some reply ∧ reply.member "status" = .ok (.lit "error"))

end RaftStore
