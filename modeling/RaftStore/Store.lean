import RaftStore.Text
import Mathlib.Data.List.AList

/-!
# The store and its write-ahead log

`log_entry.h`, `wal.cpp` and `kvstore.cpp`: the map that all nodes of a process share, and the file its writes are logged to.
File operations succeed; the only exception is the `length_error` of a record whose size field no string can have.
-/

namespace RaftStore

/-- A `std::unordered_map<std::string, std::string>`. -/
abbrev StrMap := AList (fun _ : Str => Str)

namespace Wal

/-- A record of the write-ahead log. -/
structure LogEntry where
  term : ℤ
  index : UInt64
  command : Str
  deriving DecidableEq

/-- `LogEntry::toBinary`. -/
def LogEntry.toBinary (e : LogEntry) : Str :=
  intBytes e.term ++ littleEndian 8 e.index.toNat ++ littleEndian 8 e.command.length ++ e.command

/-- How `LogEntry::fromBinary` ends: with a record, with `false`, or with the exception of `Entry.command.resize(size)`. -/
inductive Decoded where
  | entry (e : LogEntry) (rest : IStream)
  | stop
  | lengthError

/-- `max_size` of a `std::string`: `resize` throws beyond it. That there is memory up to it is taken for granted. -/
def maxSize : ℕ := 2 ^ 62 - 1

/-- `LogEntry::fromBinary`. -/
def LogEntry.fromBinary (is : IStream) : Decoded :=
  let (term, is) := is.read 4
  if !is.good then .stop
  else
    let (index, is) := is.read 8
    if !is.good then .stop
    else
      let (size, is) := is.read 8
      if !is.good then .stop
      else if maxSize < ofLittleEndian size then .lengthError
      else
        let (command, is) := is.read (ofLittleEndian size)
        if !is.good then .stop
        else .entry { term := ofIntBytes term, index := (ofLittleEndian index).toUInt64, command := command } is

end Wal

/-- The write-ahead log: the bytes of `walBinaryFile`, `cachedEntries` and `lastIndex`. -/
structure WAL where
  file : Str
  cachedEntries : List Wal.LogEntry
  lastIndex : UInt64
  deriving DecidableEq

namespace WAL

/-- The loop of the constructor, at most `fuel` records; `none` when an exception leaves it. -/
def loadEntries : ℕ → IStream → Option (List Wal.LogEntry)
  | 0, _ => some []
  | fuel + 1, is =>
    match Wal.LogEntry.fromBinary is with
    | .entry e is => (loadEntries fuel is).map (e :: ·)
    | .stop => some []
    | .lengthError => none

/-- `WAL::WAL` on the bytes of the file. Every record takes a byte or more, so that `fuel` is enough for the file. -/
def ofFile (file : Str) : Option WAL :=
  (loadEntries (file.length + 1) { bytes := file, good := true }).map fun es =>
    { file := file, cachedEntries := es, lastIndex := (es.getLast?.map (·.index)).getD 0 }

/-- `WAL::appendEntry`. -/
def appendEntry (w : WAL) (command : Str) : WAL :=
  let lastIndex := w.lastIndex + 1
  let entry : Wal.LogEntry := { term := 1, index := lastIndex, command := command }
  { file := w.file ++ entry.toBinary, cachedEntries := w.cachedEntries ++ [entry], lastIndex := lastIndex }

/-- `WAL::truncateUpTo`: the comparison is one of `uint64_t`, to which the `int` is converted. -/
def truncateUpTo (w : WAL) (lastIncludedIndex : ℤ) : WAL :=
  let remainingEntries := w.cachedEntries.filter (fun e => (lastIncludedIndex % 2 ^ 64).toNat < e.index.toNat)
  { file := (remainingEntries.map Wal.LogEntry.toBinary).flatten
    cachedEntries := remainingEntries
    lastIndex := (remainingEntries.getLast?.map (·.index)).getD 0 }

end WAL

/-- The key-value store: the map and its write-ahead log. -/
structure KVStore where
  mp : StrMap
  writeAheadLog : WAL
  deriving DecidableEq

namespace KVStore

/-- What the constructor does with the text of one record: `PUT key=value` and `DELETE key` change the map. -/
def replayCommand (mp : StrMap) (commandStr : Str) : StrMap :=
  if 32 ∉ commandStr then mp
  else
    let command := commandStr.takeWhile (· != 32)
    let rest := commandStr.drop (command.length + 1)
    if command = ascii "PUT" then
      if 61 ∉ rest then mp
      else
        let key := rest.takeWhile (· != 61)
        let value := rest.drop (key.length + 1)
        if key = [] then mp else mp.insert key value
    else if command = ascii "DELETE" then
      if rest = [] then mp else mp.erase rest
    else mp

/-- `KVStore::KVStore`: the records of the write-ahead log are replayed over the empty map. -/
def ofWal (w : WAL) : KVStore where
  mp := w.cachedEntries.foldl (fun mp e => replayCommand mp e.command) ∅
  writeAheadLog := w

/-- The store over an empty file. -/
def empty : KVStore where
  mp := ∅
  writeAheadLog := { file := [], cachedEntries := [], lastIndex := 0 }

/-- `KVStore::put`. -/
def put (s : KVStore) (key value : Str) : KVStore where
  mp := s.mp.insert key value
  writeAheadLog := s.writeAheadLog.appendEntry (ascii "PUT " ++ key ++ ascii "=" ++ value)

/-- `KVStore::get`. -/
def get (s : KVStore) (key : Str) : Option Str := s.mp.lookup key

/-- `KVStore::remove`: the store after it, and whether the key was there. -/
def remove (s : KVStore) (key : Str) : KVStore × Bool :=
  ({ mp := s.mp.erase key
     writeAheadLog := s.writeAheadLog.appendEntry (ascii "DELETE " ++ key) }, (s.mp.lookup key).isSome)

/-- `KVStore::dumpToMap`. -/
def dumpToMap (s : KVStore) : StrMap := s.mp

/-- `KVStore::loadFromMap`. -/
def loadFromMap (s : KVStore) (state : StrMap) : KVStore := { s with mp := state }

/-- `KVStore::writeAheadLog_truncate`. -/
def writeAheadLogTruncate (s : KVStore) (lastIncludedIndex : ℤ) : KVStore :=
  { s with writeAheadLog := s.writeAheadLog.truncateUpTo lastIncludedIndex }

@[simp] theorem writeAheadLogTruncate_mp (s : KVStore) (i : ℤ) : (s.writeAheadLogTruncate i).mp = s.mp := rfl
@[simp] theorem loadFromMap_mp (s : KVStore) (m : StrMap) : (s.loadFromMap m).mp = m := rfl
@[simp] theorem put_mp (s : KVStore) (k v : Str) : (s.put k v).mp = s.mp.insert k v := rfl
@[simp] theorem remove_mp (s : KVStore) (k : Str) : (s.remove k).1.mp = s.mp.erase k := rfl

end KVStore

/-! ## Commands -/

/-- How `applyToStateMachine` takes a command apart: two tokens, and the rest of the line without one leading blank. -/
def parseCommand (command : Str) : Str × Str × Str :=
  let (cmd, rest) := takeToken command
  let (key, rest) := takeToken rest
  let value := match getline rest with
    | 32 :: value => value
    | value => value
  (cmd, key, value)

/-- What `applyToStateMachine` does to the store, on a node that is not shutting down, and the result it returns. -/
def KVStore.applyCommand (s : KVStore) (command : Str) : KVStore × Str :=
  let (cmd, key, value) := parseCommand command
  if cmd = ascii "PUT" then (s.put key value, ascii "OK")
  else if cmd = ascii "GET" then
    match s.get key with
    | some val => (s, val)
    | none => (s, ascii "key not found")
  else if cmd = ascii "DELETE" then
    let (s, deleted) := s.remove key
    (s, if deleted then ascii "OK" else ascii "key not found")
  else (s, ascii "error: unknown command")

end RaftStore
