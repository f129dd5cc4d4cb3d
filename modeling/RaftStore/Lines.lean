import RaftStore.Served

/-!
# Lines and requests

The helpers of `handle_client` in `server.cpp`: the parsing of a command line on an `std::istringstream`, and the loop of
`sendClientRequest` over the nodes.
-/

namespace RaftStore

/-! ## Text streams -/

/-- A `std::istringstream`: what is left of its text, and the bits `eofbit` and `failbit`. -/
structure TextStream where
  rest : Str
  eof : Bool
  fail : Bool
  deriving DecidableEq

namespace TextStream

def ofStr (s : Str) : TextStream := { rest := s, eof := false, fail := false }

def good (is : TextStream) : Bool := !is.eof && !is.fail

/-- `failbit` is set. -/
def failed (is : TextStream) : TextStream := { is with fail := true }

/-- `is >> token`: the token, unless there is none. -/
def token (is : TextStream) : Option Str × TextStream :=
  if is.good then
    let (t, rest) := takeToken is.rest
    if t = [] then (none, { rest := [], eof := true, fail := true })
    else (some t, { rest := rest, eof := rest.isEmpty, fail := false })
  else (none, is.failed)

/-- `is >> std::ws`. -/
def ws (is : TextStream) : TextStream :=
  if is.good then
    let rest := is.rest.dropWhile isSpace
    { rest := rest, eof := rest.isEmpty, fail := false }
  else is.failed

/-- `is.tellg()`: the text from the position on, or `-1`. -/
def tellg (is : TextStream) : Option Str × TextStream :=
  if is.good then (some is.rest, is) else (none, is.failed)

/-- `is.seekg(pos)`. -/
def seekg (is : TextStream) (pos : Option Str) : TextStream :=
  if is.fail then { is with eof := false }
  else
    match pos with
    | some rest => { rest := rest, eof := false, fail := false }
    | none => { is with eof := false, fail := true }

/-- `is.peek()`. -/
def peek (is : TextStream) : Option UInt8 × TextStream :=
  if is.good then
    match is.rest with
    | c :: _ => (some c, is)
    | [] => (none, { is with eof := true })
  else (none, is.failed)

/-- `is.get()`. -/
def get (is : TextStream) : TextStream :=
  if is.good then
    match is.rest with
    | _ :: rest => { is with rest := rest }
    | [] => { is with eof := true, fail := true }
  else is.failed

/-- `std::getline(is, value, delim)` with an empty `value`. -/
def getline (is : TextStream) (delim : UInt8) : Str × TextStream :=
  if is.good then
    let value := is.rest.takeWhile (· != delim)
    match is.rest.dropWhile (· != delim) with
    | _ :: rest => (value, { rest := rest, eof := false, fail := false })
    | [] => (value, { rest := [], eof := true, fail := value.isEmpty })
  else ([], is.failed)

end TextStream

/-! ## Parsing -/

/-- A blank of `trim`. -/
def isBlank (c : UInt8) : Bool := c == 32 || c == 9 || c == 10 || c == 13

/-- `trim`. -/
def trim (s : Str) : Str := ((s.dropWhile isBlank).reverse.dropWhile isBlank).reverse

/-- `::toupper` in the C locale. -/
def upperByte (c : UInt8) : UInt8 := if 97 ≤ c ∧ c ≤ 122 then c - 32 else c

/-- `toUpper`. -/
def toUpper (s : Str) : Str := s.map upperByte

/-- `std::isdigit`. -/
def isDigit (c : UInt8) : Bool := 48 ≤ c && c ≤ 57

/-- The number with these decimal digits. -/
def ofDecimal (ds : Str) : ℕ := ds.foldl (fun n c => 10 * n + (c.toNat - 48)) 0

/-- The sign before a number: whether it is a minus, and what follows it. -/
def sign : Str → Bool × Str
  | 45 :: s => (true, s)
  | 43 :: s => (false, s)
  | s => (false, s)

/-- `std::stoi`. -/
def stoi (s : Str) : Except Exception ℤ :=
  let (negative, s) := sign (s.dropWhile isSpace)
  let ds := s.takeWhile isDigit
  if ds = [] then .error .invalidArgument
  else
    let i : ℤ := if negative then -ofDecimal ds else ofDecimal ds
    if -2 ^ 31 ≤ i ∧ i < 2 ^ 31 then .ok i else .error .outOfRange

/-- `parseValue`. -/
def parseValue (is : TextStream) : Str × TextStream :=
  let is := is.ws
  let (c, is) := is.peek
  if c = some 34 then is.get.getline 34
  else
    let (c, is) := is.peek
    if c = some 39 then is.get.getline 39
    else
      let (value, is) := is.getline 10
      (trim value, is)

/-- The loop of `parseKeyValueFormat`; each token takes a byte at least. -/
def parseFlags : ℕ → TextStream → Str → Str → Str × Str
  | 0, _, key, value => (key, value)
  | fuel + 1, is, key, value =>
    match is.token with
    | (none, _) => (key, value)
    | (some token, is) =>
      let upperToken := toUpper token
      if upperToken = ascii "--KEY" ∨ upperToken = ascii "-K" then
        let (key, is) := parseValue is.ws
        parseFlags fuel is key value
      else if upperToken = ascii "--VALUE" ∨ upperToken = ascii "-V" then
        let (value, is) := parseValue is.ws
        parseFlags fuel is key value
      else parseFlags fuel is key value

/-- `parseKeyValueFormat`: key and value, where a key is found. -/
def parseKeyValueFormat (is : TextStream) : Option (Str × Str) :=
  let (key, value) := parseFlags (is.rest.length + 1) is [] []
  if key = [] then none else some (key, value)

/-- `aliases`. -/
def aliases : List (Str × Str) :=
  [("G", "GET"), ("RETRIEVE", "GET"), ("FETCH", "GET"), ("READ", "GET"), ("P", "PUT"), ("SET", "PUT"), ("ADD", "PUT"), ("UPDATE", "PUT"),
    ("WRITE", "PUT"), ("D", "DELETE"), ("DEL", "DELETE"), ("REMOVE", "DELETE"), ("RM", "DELETE"), ("H", "HELP"), ("?", "HELP"),
    ("Q", "EXIT"), ("QUIT", "EXIT"), ("BYE", "EXIT"), ("S", "STATUS"), ("M", "METRICS")].map fun (a, c) => (ascii a, ascii c)

/-- `resolveCommandAlias`. -/
def resolveCommandAlias (cmd : Str) : Str :=
  let upper := toUpper cmd
  (aliases.lookup upper).getD upper

/-- Key and value of a `PUT`, parsed from what follows the command; `none` where `--key` names no key. -/
def parsePut (iss : TextStream) : Option (Str × Str) :=
  let iss := iss.ws
  let (pos, iss) := iss.tellg
  let (peek, iss) := iss.token
  let iss := iss.seekg pos
  let upper := toUpper (peek.getD [])
  if upper = ascii "--KEY" ∨ upper = ascii "-K" then parseKeyValueFormat iss
  else
    let (key, iss) := iss.token
    some (key.getD [], (parseValue iss.ws).1)

/-! ## Requests -/

/-- `raft_nodes.size()`. -/
def raftNodes : ℕ := 3

/-- The reply of `sendClientRequest` when it gives up. -/
def unreachable : Json := .obj [("status", .lit "error"), ("msg", .lit "All nodes unreachable")]

/-- A call of `sendRPC` in `sendClientRequest`. `answer`: the node that answers, if one does and its reply comes in whole;
`random`: what `rand()` returns after it. -/
structure Asked where
  answer : Option Served
  random : ℕ

/-- The variables of the loop of `sendClientRequest`. -/
structure Sending where
  attempts : ℕ
  currentNode : ℤ

namespace Sending

/-- An attempt without a usable answer, after which another node is asked. -/
def retry (p : Sending) (node : ℕ) : Sending := { attempts := p.attempts + 1, currentNode := node % raftNodes }

/-- What the loop does with a reply: it goes on, or returns it. -/
def follow (p : Sending) (random : ℕ) (reply : Json) : Except Exception (Sending ⊕ Json) :=
  (reply.member "status").bind fun status =>
    if status.isLit "OK" then .ok (.inr reply)
    else if status.isLit "redirect" then
      (reply.value Json.getInt "leaderId" (-1)).bind fun leaderId =>
        .ok (.inl { p with currentNode := if leaderId = -1 then (random % raftNodes : ℕ) else leaderId })
    else .ok (.inl (p.retry random))

/-- A turn of the loop; an exception is caught in it. -/
def turn (msg : Json) (p : Sending) (c : Asked) : Sending ⊕ Json :=
  match c.answer with
  | none => .inl (p.retry (p.currentNode + 1).toNat)
  | some v =>
    if msg.dumps then
      match p.follow c.random (v.handle msg).2 with
      | .ok next => next
      | .error _ => .inl (p.retry (p.currentNode + 1).toNat)
    else .inl (p.retry (p.currentNode + 1).toNat)

end Sending

/-- `sendClientRequest` from a point of its loop on, which makes exactly these calls; `none` where it does not, or where it asks a
node that is not in `raft_nodes`. -/
def sendClientRequest (msg : Json) : Sending → List Asked → Option Json
  | p, [] => if p.attempts < raftNodes then none else some unreachable
  | p, c :: cs =>
    if p.attempts < raftNodes ∧ 0 ≤ p.currentNode ∧ p.currentNode < raftNodes then
      match p.turn msg c with
      | .inr reply => if cs.isEmpty then some reply else none
      | .inl p => sendClientRequest msg p cs
    else none

/-- A run of `sendClientRequest`: the `rand()` that chooses the first node, and the calls. -/
structure Requests where
  random : ℕ
  calls : List Asked

/-- What `sendClientRequest` returns. -/
def Requests.reply (r : Requests) (msg : Json) : Option Json :=
  sendClientRequest msg { attempts := 0, currentNode := (r.random % raftNodes : ℕ) } r.calls

end RaftStore
