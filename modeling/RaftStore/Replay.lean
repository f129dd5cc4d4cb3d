import RaftStore.Lemmas.Wal
import RaftStore.Node
import RaftStore.Systems.Writes

/-!
# Restarts of a process

What a process finds when it is started again over its files: the calls that changed the store, as the constructor reads them back
from the write-ahead log, and, for a process that runs one node, the snapshot that the node has saved.
-/

namespace RaftStore

open Systems (Write)

/-- A call that changes the store. -/
inductive StoreCall where
  | put (key value : Str)
  | remove (key : Str)
  deriving DecidableEq

namespace StoreCall

/-- The store after the call. -/
def run (s : KVStore) : StoreCall → KVStore
  | put key value => s.put key value
  | remove key => (s.remove key).1

/-- The text of the record that the call writes to the write-ahead log. -/
def record : StoreCall → Str
  | put key value => ascii "PUT " ++ key ++ ascii "=" ++ value
  | remove key => ascii "DELETE " ++ key

/-- What the call does to the map. -/
def write : StoreCall → Write Str Str
  | put key value => { key := key, value := some value }
  | remove key => { key := key, value := none }

/-- What the constructor does to the map for the record of the call: the key ends at the first `=`, and an empty key is passed
over. -/
def readBack : StoreCall → Option (Write Str Str)
  | put key value =>
    let rest := key ++ ascii "=" ++ value
    let key := rest.takeWhile (· != 61)
    if key = [] then none else some { key := key, value := some (rest.drop (key.length + 1)) }
  | remove key => if key = [] then none else some { key := key, value := none }

/-- The record has the size of a string. -/
def Fits (c : StoreCall) : Prop := c.record.length ≤ Wal.maxSize

instance (c : StoreCall) : Decidable c.Fits := Nat.decLe _ _

/-- The call that `applyToStateMachine` makes for a command, if it makes one that changes the store. -/
def ofCommand (command : Str) : Option StoreCall :=
  let (cmd, key, value) := parseCommand command
  if cmd = ascii "PUT" then some (put key value)
  else if cmd = ascii "DELETE" then some (remove key)
  else none

end StoreCall

/-- The store after these calls, on an empty file. -/
def KVStore.live (calls : List StoreCall) : KVStore := calls.foldl StoreCall.run KVStore.empty

/-- The store that is constructed over the write-ahead log of another one; `none` where an exception leaves the constructor. -/
def KVStore.reopen (s : KVStore) : Option KVStore := (WAL.ofFile s.writeAheadLog.file).map KVStore.ofWal

/-! ## A process with one node -/

/-- What happens to the node of a process: an entry is appended, the next entry is applied, or a snapshot is taken. -/
inductive Act where
  | append (entry : LogEntry)
  | apply
  | snapshot

/-- The calls of an entry that is appended write records that have the size of a string. -/
def Act.Fits : Act → Prop
  | .append e => ∀ c ∈ StoreCall.ofCommand e.command, c.Fits
  | _ => True

instance : ∀ a : Act, Decidable a.Fits
  | .append e => inferInstanceAs (Decidable (∀ c ∈ StoreCall.ofCommand e.command, c.Fits))
  | .apply => instDecidableTrue
  | .snapshot => instDecidableTrue

/-- A process that runs one node. `calls`: the calls that its commands have made; `kept`: those made before the last snapshot that was
saved, where one was. -/
structure Solitary where
  node : RaftNode
  store : KVStore
  calls : List StoreCall
  kept : Option (List StoreCall)

namespace Solitary

/-- A process that has never run. -/
def create (nodeId port : ℤ) (peers : List ℤ) : Solitary where
  node := RaftNode.create nodeId port peers { metadata := none, snapshotFile := .absent }
  store := KVStore.empty
  calls := []
  kept := none

/-- The calls of the commands that were applied. -/
def callsOf (events : List Event) : List StoreCall :=
  events.filterMap fun ev => match ev with
    | .applied _ e => StoreCall.ofCommand e.command
    | _ => none

/-- The process after one thing has happened. -/
def step (x : Solitary) : Act → Solitary
  | .append entry => { x with node := x.node.appendLogEntry entry }
  | .apply =>
    let r := Applying.applyNext { node := x.node, store := x.store, applyResult := [], events := [] }
    { x with node := r.node, store := r.store, calls := x.calls ++ callsOf r.events }
  | .snapshot =>
    let (node, store) := (x.node.triggerSnapshot x.store).getD (x.node.snapshotFailed x.store)
    let saved := x.node.log ≠ [] ∧ (x.node.newSnapshot x.store).dumps = true
    { x with node := node, store := store, kept := if saved then some x.calls else x.kept }

/-- The store after a clean restart: the write-ahead log is loaded and replayed, and the node loads its snapshot. -/
def restarted (x : Solitary) : Option KVStore := x.store.reopen.bind fun s => (x.node.restart s).map Prod.snd

/-- What a restart has to build the map from: the snapshot if there is one, and else the records. -/
def survivors (x : Solitary) : List (Write Str Str) :=
  match x.kept with
  | some calls => calls.map StoreCall.write
  | none => x.calls.filterMap StoreCall.readBack

end Solitary

end RaftStore
