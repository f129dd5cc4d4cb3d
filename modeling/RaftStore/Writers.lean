import RaftStore.Replay

/-!
# Threads that write to one store

`KVStore::put` and `KVStore::remove` have two critical sections, under the mutex of the write-ahead log and under that of the map.
Each thread makes its calls one after the other, and any thread can take the next step.
-/

namespace RaftStore

namespace StoreCall

/-- The key that the call is of. -/
def key : StoreCall → Str
  | put key _ => key
  | remove key => key

/-- The critical section of the write-ahead log. -/
def append (s : KVStore) (c : StoreCall) : KVStore := { s with writeAheadLog := s.writeAheadLog.appendEntry c.record }

/-- The critical section of the map. -/
def update (s : KVStore) (c : StoreCall) : KVStore := { s with mp := c.write.apply s.mp }

/-- A call that no other one comes in between of is its two critical sections. -/
theorem run_eq (s : KVStore) (c : StoreCall) : c.run s = c.update (c.append s) := by
  cases c <;> rfl

end StoreCall

/-- A thread: the calls that it has still to make, and the one that has written its record and has still to change the map. -/
structure Writer where
  todo : List StoreCall
  logged : Option StoreCall

/-- Threads that share a store. `records`, `updates`: the calls in the order in which they have been through the one critical section
and through the other. -/
structure Writers (ι : Type*) where
  store : KVStore
  threads : ι → Writer
  records : List StoreCall
  updates : List StoreCall

namespace Writers

variable {ι : Type*}

/-- A store that has been constructed over a write-ahead log, and threads that have these calls to make. -/
def start (w : WAL) (calls : ι → List StoreCall) : Writers ι where
  store := KVStore.ofWal w
  threads i := { todo := calls i, logged := none }
  records := []
  updates := []

/-- A thread goes through the next critical section. -/
def step [DecidableEq ι] (x : Writers ι) (i : ι) : Option (Writers ι) :=
  match x.threads i with
  | { todo, logged := some c } =>
    some { x with
      store := c.update x.store
      threads := Function.update x.threads i { todo := todo, logged := none }
      updates := x.updates ++ [c] }
  | { todo := c :: todo, logged := none } =>
    some { x with
      store := c.append x.store
      threads := Function.update x.threads i { todo := todo, logged := some c }
      records := x.records ++ [c] }
  | { todo := [], logged := none } => none

/-- All calls have returned. -/
def Finished (x : Writers ι) : Prop := ∀ i, x.threads i = { todo := [], logged := none }

end Writers

end RaftStore
