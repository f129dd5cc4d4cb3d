import RaftStore.Session
import Mathlib.Data.List.Sort
import Mathlib.Data.String.Basic

/-!
# AppendEntries on the wire

The text that `dump` makes of a message, the two batches of entries that a leader sends, and the single `recv` of `handle_node_client`.
-/

namespace RaftStore

/-! ## The text of a value -/

/-- The last digit of the escape of a control character, in base sixteen. -/
def hexDigit (n : ℕ) : UInt8 := if n < 10 then (48 + n).toUInt8 else (87 + n).toUInt8

/-- A byte of a string in the text of `dump`. -/
def escapeByte (c : UInt8) : Str :=
  if c = 8 then ascii "\\b"
  else if c = 9 then ascii "\\t"
  else if c = 10 then ascii "\\n"
  else if c = 12 then ascii "\\f"
  else if c = 13 then ascii "\\r"
  else if c = 34 then ascii "\\\""
  else if c = 92 then ascii "\\\\"
  else if c ≤ 31 then ascii "\\u00" ++ [hexDigit (c.toNat / 16), hexDigit (c.toNat % 16)]
  else [c]

/-- A string in the text of `dump`. -/
def quote (s : Str) : Str := 34 :: s.flatMap escapeByte ++ [34]

/-- Texts with commas between them. -/
def commaSeparated : List Str → Str
  | [] => []
  | [s] => s
  | s :: ss => s ++ 44 :: commaSeparated ss

/-- The order of the members of an object, by name. -/
def byName (a b : String × Str) : Prop := a.1 ≤ b.1

instance : DecidableRel byName := fun a b => inferInstanceAs (Decidable (a.1 ≤ b.1))

namespace Json

mutual

/-- The text of `dump`. -/
def text : Json → Str
  | .null => ascii "null"
  | .bool b => if b then ascii "true" else ascii "false"
  | .int i => toString i
  | .str s => quote s
  | .arr xs => 91 :: commaSeparated (textAll xs) ++ [93]
  | .obj members =>
    123 :: commaSeparated (((textMembers members).insertionSort byName).map fun (name, s) => quote (ascii name) ++ 58 :: s) ++ [125]

def textAll : List Json → List Str
  | [] => []
  | x :: xs => x.text :: textAll xs

def textMembers : List (String × Json) → List (String × Str)
  | [] => []
  | (name, x) :: members => (name, x.text) :: textMembers members

end

/-- `j.dump()`. -/
def dump (j : Json) : Except Exception Str := if j.dumps then .ok j.text else .error .typeError

end Json

/-! ## Messages -/

/-- `to_json` of a log entry. -/
def LogEntry.toJson (e : LogEntry) : Json := .obj [("term", .int e.term), ("index", .int e.index), ("command", .str e.command)]

/-- `to_json` of an AppendEntries message. -/
def AppendEntriesRPC.toJson (m : AppendEntriesRPC) : Json :=
  .obj [("rpc", .lit "AppendEntries"), ("term", .int m.term), ("leaderId", .int m.leaderId), ("prevLogIndex", .int m.prevLogIndex),
    ("prevLogTerm", .int m.prevLogTerm), ("entries", .arr (m.entries.map LogEntry.toJson)), ("leaderCommit", .int m.leaderCommit)]

namespace RaftNode

/-- The message of `send_heartbeats` to a peer with this `nextIndex`. -/
def heartbeatMessage (n : RaftNode) (nextIdx : ℤ) : AppendEntriesRPC :=
  n.appendRequest nextIdx (n.getLogEntries nextIdx (min (nextIdx + Site.maxEntriesPerBatch) n.getLogSize))

/-- The message of `handleClientCommand` to a peer with this `nextIndex`. -/
def clientMessage (n : RaftNode) (nextIdx newIndex : ℤ) : AppendEntriesRPC :=
  n.appendRequest nextIdx (n.getLogEntries nextIdx (newIndex + 1))

end RaftNode

/-- `sizeof(buffer) - 1` in `handle_node_client`. -/
def recvSize : ℕ := 8191

/-- The text that `handle_node_client` parses, of a payload that is there in whole: what one `recv` reads, up to the first zero byte. -/
def received (payload : Str) : Str := (payload.take recvSize).takeWhile (· != 0)

/-- The message fits the receiver: its text is no longer than what is read, and is what is parsed. -/
def AppendEntriesRPC.Fits (m : AppendEntriesRPC) : Prop :=
  ∃ payload, m.toJson.dump = .ok payload ∧ payload.length ≤ recvSize ∧ received payload = payload

/-! ## Commands from lines -/

/-- The request that `handle_node_client` reads in a message of a client. -/
def Json.clientRequest (msg : Json) (session : ℕ) : Except Exception ClientRequest :=
  (msg.value Json.getStr "command" []).bind fun command =>
  (msg.value Json.getStr "key" []).bind fun key =>
  (msg.value Json.getStr "value" []).bind fun value =>
  (msg.value Json.getStr "clientId" []).bind fun clientId =>
  (msg.value Json.getInt "requestId" 0).map fun requestId =>
    { clientId := clientId, requestId := requestId, command := command, key := key, value := value, session := session }

/-- A line of at most 4095 bytes leads to a message for a log entry with this command. -/
def FromLine (command : Str) : Prop :=
  ∃ (s s' : Session) (line sent : Str) (q : Query) (msg : Json) (req : ClientRequest), line.length ≤ 4095 ∧
    s.handleLine line = .ok (s', sent, .ask q msg) ∧ msg.dumps = true ∧ msg.member "rpc" = .ok (.lit "ClientRequest") ∧
      msg.clientRequest 0 = .ok req ∧ Site.sendCommand req = command

end RaftStore
