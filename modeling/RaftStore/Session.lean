import RaftStore.Lines
import RaftStore.Process

/-!
# A connection of a client

`handle_client` of `server.cpp`: what it does with a line that it receives, and the response that it makes of a node's reply. Texts that are
always the same, such as the one of `HELP`, are named and not spelled out. The thread of a connection ends where an exception leaves it, and
the process with it.
-/

namespace RaftStore

/-! ## Responses -/

/-- The bytes of a string literal of the sources. -/
def utf8 (s : String) : Str := s.toUTF8.toList

/-- A piece of a response: a text, or a value that is read from the reply. -/
inductive Cell where
  | text (s : String)
  | int (path : List String)
  | string (path : List String)

/-- The text of a piece. -/
def Cell.render (reply : Json) : Cell → Except Exception Str
  | .text s => .ok (utf8 s)
  | .int path => (reply.path path).bind fun j => j.getInt.map toString
  | .string path => (reply.path path).bind Json.getStr

/-- The text of a response that is put together from pieces. -/
def render (reply : Json) : List Cell → Except Exception Str
  | [] => .ok []
  | c :: cs => (c.render reply).bind fun s => (render reply cs).map (s ++ ·)

/-- The upper edge of a table with this title. -/
def opened (title : String) : List Cell :=
  [.text "╔══════════════════════════════════════════════════════╗\n", .text title,
    .text "╠══════════════════════════════════════════════════════╣\n"]

/-- The line before this heading of a table. -/
def heading (title : String) : List Cell := [.text "╠══════════════════════════════════════════════════════╣\n", .text title]

def bottom : List Cell := [.text "╚══════════════════════════════════════════════════════╝\n"]

/-- A line of a table, with a number. -/
def row (label : String) (path : List String) : List Cell := [.text label, .int path, .text "\n"]

/-- A line of a table, with a text. -/
def textRow (label : String) (path : List String) : List Cell := [.text label, .string path, .text "\n"]

/-- The response to `STATUS`. -/
def statusTable : List Cell :=
  opened "║              CLUSTER STATUS                          ║\n" ++ row "║ Node ID:         " ["node_id"] ++
    row "║ Term:            " ["term"] ++ textRow "║ Role:            " ["role"] ++ row "║ Leader ID:       " ["leader_id"] ++
    row "║ Commit Index:    " ["commit_index"] ++ row "║ Last Applied:    " ["last_applied"] ++ row "║ Log Size:        " ["log_size"] ++
    bottom

/-- The response to `METRICS`. -/
def metricsTable : List Cell :=
  opened "║              RAFT NODE METRICS                       ║\n" ++ [.text "║ RAFT STATE                                           ║\n"] ++
    row "║   Term:            " ["raft_state", "term"] ++ textRow "║   Role:            " ["raft_state", "role"] ++
    row "║   Leader ID:       " ["raft_state", "leader_id"] ++ row "║   Voted For:       " ["raft_state", "voted_for"] ++
    heading "║ LOG STATE                                            ║\n" ++ row "║   Log Size:        " ["log_state", "log_size"] ++
    row "║   Commit Index:    " ["log_state", "commit_index"] ++ row "║   Last Applied:    " ["log_state", "last_applied"] ++
    heading "║ SNAPSHOTS                                            ║\n" ++ row "║   Count:           " ["snapshots", "count"] ++
    row "║   Last Index:      " ["snapshots", "last_index"] ++ row "║   Last Term:       " ["snapshots", "last_term"] ++
    heading "║ ELECTIONS                                            ║\n" ++ row "║   Elections:       " ["elections", "election_count"] ++
    row "║   Leader Changes:  " ["elections", "leader_changes"] ++ row "║   Votes Received:  " ["elections", "votes_received"] ++
    heading "║ RPC STATISTICS                                       ║\n" ++
    [.text "║   AppendEntries:   ", .int ["rpcs", "append_entries_sent"], .text " sent / ", .int ["rpcs", "append_entries_received"],
      .text " recv\n", .text "║   RequestVote:     ", .int ["rpcs", "request_votes_sent"], .text " sent / ",
      .int ["rpcs", "request_votes_received"], .text " recv\n", .text "║   InstallSnapshot: ", .int ["rpcs", "install_snapshots_sent"],
      .text " sent / ", .int ["rpcs", "install_snapshots_received"], .text " recv\n"] ++
    heading "║ CLIENT REQUESTS                                      ║\n" ++ row "║   Received:        " ["client_requests", "received"] ++
    row "║   Succeeded:       " ["client_requests", "succeeded"] ++ row "║   Failed:          " ["client_requests", "failed"] ++
    row "║   Redirected:      " ["client_requests", "redirected"] ++
    heading "║ PERFORMANCE                                          ║\n" ++
    [.text "║   Avg Response:    ", .int ["performance", "avg_response_time_ms"], .text " ms\n", .text "║   Uptime:          ",
      .int ["uptime_seconds"], .text " seconds\n"] ++
    bottom

/-- The table that `WATCH` shows. -/
def watchTable : List Cell :=
  [.text "\x1b[3J\x1b[H\x1b[2J"] ++ opened "║           RAFT NODE METRICS (LIVE WATCH)             ║\n" ++
    [.text "║ RAFT STATE                                           ║\n"] ++
    row "║   Term:            " ["raft_state", "term"] ++ textRow "║   Role:            " ["raft_state", "role"] ++
    row "║   Leader ID:       " ["raft_state", "leader_id"] ++
    heading "║ LOG STATE                                            ║\n" ++ row "║   Log Size:        " ["log_state", "log_size"] ++
    row "║   Commit Index:    " ["log_state", "commit_index"] ++ row "║   Last Applied:    " ["log_state", "last_applied"] ++
    heading "║ SNAPSHOTS                                            ║\n" ++ row "║   Count:           " ["snapshots", "count"] ++
    row "║   Last Index:      " ["snapshots", "last_index"] ++
    heading "║ ELECTIONS                                            ║\n" ++ row "║   Count:           " ["elections", "election_count"] ++
    row "║   Leader Changes:  " ["elections", "leader_changes"] ++
    heading "║ RPC STATISTICS                                       ║\n" ++
    [.text "║   AppendEntries:   ", .int ["rpcs", "append_entries_sent"], .text " sent / ", .int ["rpcs", "append_entries_received"],
      .text " recv\n", .text "║   RequestVote:     ", .int ["rpcs", "request_votes_sent"], .text " sent / ",
      .int ["rpcs", "request_votes_received"], .text " recv\n"] ++
    heading "║ CLIENT REQUESTS                                      ║\n" ++ row "║   Total:           " ["client_requests", "received"] ++
    row "║   Succeeded:       " ["client_requests", "succeeded"] ++ row "║   Failed:          " ["client_requests", "failed"] ++
    heading "║ PERFORMANCE                                          ║\n" ++
    [.text "║   Uptime:          ", .int ["uptime_seconds"], .text " seconds\n"] ++ bottom ++ [.text "\n"]

/-- The response to `LOGSIZE`. -/
def logSizeTable : List Cell :=
  opened "║              LOG INFORMATION                         ║\n" ++ row "║ Total Log Size:      " ["total_log_size"] ++
    row "║ Physical Log Size:   " ["physical_log_size"] ++ row "║ Snapshot Index:      " ["snapshot_index"] ++
    row "║ Commit Index:        " ["commit_index"] ++ row "║ Last Applied:        " ["last_applied"] ++ bottom

/-- The response to `SNAPSHOT`. -/
def snapshotText : List Cell :=
  [.text "✓ ", .string ["message"], .text "\n"] ++ row "  Snapshot Index: " ["snapshot_index"] ++ row "  Snapshot Term:  " ["snapshot_term"]

/-- A line of the response to `CLUSTER`. -/
def peerRow : List Cell :=
  [.text "║ Node ", .int ["node_id"], .text ": Port ", .int ["port"], .text " | NextIdx=", .int ["next_index"], .text " | MatchIdx=",
    .int ["match_index"], .text "\n"]

/-- The two lines of an entry in the response to `LOGS`: of its command the first 40 bytes. -/
def entryRows (entry : Json) : Except Exception Str :=
  (render entry [.text "║ Index: ", .int ["index"], .text " | Term: ", .int ["term"], .text "\n"]).bind fun first =>
  ((entry.member "command").bind Json.getStr).map fun command => first ++ utf8 "║   Command: " ++ command.take 40 ++ utf8 "\n"

/-- The lines of all values of a list. -/
def renderAll (line : Json → Except Exception Str) : List Json → Except Exception Str
  | [] => .ok []
  | j :: js => (line j).bind fun s => (renderAll line js).map (s ++ ·)

/-- A response with a list of values between an upper and a lower part. -/
def listing (reply : Json) (upper : List Cell) (name : String) (line : Json → Except Exception Str) (lower : List Cell) :
    Except Exception Str :=
  (render reply upper).bind fun first =>
  (reply.member name).bind fun j =>
  (renderAll line j.elements).bind fun lines =>
  (render reply lower).map fun last => first ++ lines ++ last

/-! ## Commands -/

/-- What the thread waits for a node's reply to. -/
inductive Query where
  | put (key : Str)
  | get (key : Str)
  | delete (key : Str)
  | status
  | metrics
  | logSize
  | snapshot
  | logs
  | cluster

/-- The response of a write: by the status of the reply. -/
def written (reply : Json) (done failed : Str) : Except Exception Str :=
  (reply.member "status").bind fun status =>
    if status.isLit "OK" then .ok done
    else if status.isLit "redirect" then
      ((reply.member "leaderId").bind Json.getInt).map fun leaderId =>
        utf8 "→ Redirected to leader node " ++ toString leaderId ++ utf8 "\n"
    else .ok failed

/-- The response of a command that shows what is in the reply. -/
def shown (reply : Json) (table : Except Exception Str) (failed : String) : Except Exception Str :=
  (reply.member "status").bind fun status => if status.isLit "OK" then table else .ok (utf8 failed)

/-- The response to a node's reply. -/
def Query.respond (reply : Json) : Query → Except Exception Str
  | put key => written reply (utf8 "✓ Key '" ++ key ++ utf8 "' added successfully.\n") (utf8 "✗ Key '" ++ key ++ utf8 "' cannot be added.\n")
  | get key =>
    (reply.member "status").bind fun status =>
      if status.isLit "OK" then
        ((reply.member "value").bind Json.getStr).map fun value =>
          utf8 "┌─ Key: " ++ key ++ utf8 "\n" ++ utf8 "└─ Value: " ++ value ++ utf8 "\n"
      else written reply [] (utf8 "✗ Key '" ++ key ++ utf8 "' does not exist.\n")
  | delete key =>
    written reply (utf8 "✓ Key '" ++ key ++ utf8 "' deleted successfully.\n") (utf8 "✗ Key '" ++ key ++ utf8 "' does not exist.\n")
  | status => shown reply (render reply statusTable) "✗ Failed to get status\n"
  | metrics => shown reply (render reply metricsTable) "✗ Failed to get metrics\n"
  | logSize => shown reply (render reply logSizeTable) "✗ Failed to get log size\n"
  | snapshot =>
    (reply.member "status").bind fun status =>
      if status.isLit "OK" then render reply snapshotText
      else render reply [.text "✗ ", .string ["message"], .text "\n"]
  | logs => shown reply
      (listing reply (opened "║         RECENT LOG ENTRIES                           ║\n") "logs" entryRows
        ([.text "╠══════════════════════════════════════════════════════╣\n", .text "║ Total: ", .int ["total_count"],
          .text " | Showing: ", .int ["returned_count"], .text "\n"] ++ bottom))
      "✗ Failed to get logs\n"
  | cluster => shown reply
      (listing reply
        (opened "║         CLUSTER INFORMATION                          ║\n" ++ row "║ Cluster Size: " ["cluster_size"] ++
          [.text "║ Current Leader: Node ", .int ["leader_id"], .text "\n",
            .text "╠══════════════════════════════════════════════════════╣\n"])
        "nodes" (fun node => render node peerRow) bottom)
      "✗ Failed to get cluster info\n"

/-- A response whose text is always the same, but for a count or a time. -/
inductive Screen where
  | help
  | stats
  | clear
  | goodbye
  | shuttingDown
  deriving DecidableEq

/-- What a line leads to. -/
inductive Todo where
  | next
  | respond (response : Str)
  | screen (s : Screen)
  | ask (q : Query) (msg : Json)
  | watch (interval : ℤ)
  | exitRaft
  | close (s : Screen)

/-- The variables of `handle_client` that live from line to line. -/
structure Session where
  socket : ℕ
  commandHistory : List Str
  commandCount : ℤ
  requestCounter : ℤ

/-- The message of a command on the store. -/
def Session.message (s : Session) (command : String) (key value : Str) : Json :=
  .obj [("rpc", .lit "ClientRequest"), ("command", .lit command), ("key", .str key), ("value", .str value),
    ("clientId", .str (clientIdOf s.socket)), ("requestId", .int s.requestCounter)]

/-- A message without arguments. -/
def plainMessage (rpc : String) : Json := .obj [("rpc", .lit rpc)]

/-- The argument of `LOGS`: the digits in a word, where there are any. -/
def logsCount (countStr : Str) : Except Exception ℤ :=
  let digits := countStr.filter isDigit
  if digits = [] then .ok 10
  else (stoi digits).map fun count => if count ≤ 0 then 10 else count

/-- The argument of `WATCH`; an exception of `std::stoi` is caught. -/
def watchInterval (intervalStr : Str) : ℤ :=
  if intervalStr = [] then 2
  else
    match stoi intervalStr with
    | .ok i => if i < 1 then 2 else min i 60
    | .error _ => 2

/-- The response to `HISTORY`. -/
def historyText (history : List Str) : Str :=
  let start := history.length - 20
  utf8 "╔══════════════════════════════════════════════════════╗\n" ++ utf8 "║              COMMAND HISTORY                         ║\n" ++
    utf8 "╠══════════════════════════════════════════════════════╣\n" ++
    ((history.drop start).mapIdx fun i line => utf8 "║ " ++ toString ((start + i + 1 : ℕ) : ℤ) ++ utf8 ". " ++ line ++ utf8 "\n").flatten ++
    utf8 "╚══════════════════════════════════════════════════════╝\n"

/-- The commands that `handle_client` knows by name. -/
inductive Command where
  | put
  | get
  | delete
  | status
  | metrics
  | logSize
  | snapshot
  | logs
  | cluster
  | watch
  | help
  | history
  | stats
  | clear
  | exitRaft
  | exitServer
  | exit
  | unknown (name : Str)
  deriving DecidableEq

/-- The comparisons of `handle_client` with the name of a command, in their order. -/
def Command.names : List (String × Command) :=
  [("PUT", put), ("GET", get), ("DELETE", delete), ("STATUS", status), ("METRICS", metrics), ("LOGSIZE", logSize), ("SNAPSHOT", snapshot),
    ("LOGS", logs), ("CLUSTER", cluster), ("WATCH", watch), ("HELP", help), ("HISTORY", history), ("STATS", stats), ("CLEAR", clear),
    ("EXIT-RAFT", exitRaft), ("EXIT-SERVER", exitServer), ("EXIT", exit)]

/-- The command with a name. -/
def Command.ofName (name : Str) : Command :=
  ((names.find? fun x => decide (name = ascii x.1)).map Prod.snd).getD (unknown name)

/-- What a command leads to, after `!!`, `!n` and the aliases are resolved. -/
def Session.dispatch (s : Session) (command : Command) (iss : TextStream) : Except Exception Todo :=
  let word := (iss.token.1).getD []
  match command with
  | .put =>
    .ok (match parsePut iss with
      | none => .respond (utf8 "✗ Usage: PUT --key <key> --value <value>\n")
      | some (key, value) =>
        if key = [] ∨ value = [] then .respond (utf8 "✗ Usage: PUT <key> <value>\n")
        else .ask (.put key) (s.message "PUT" key value))
  | .get => .ok (if word = [] then .respond (utf8 "✗ Usage: GET <key>\n") else .ask (.get word) (s.message "GET" word []))
  | .delete => .ok (if word = [] then .respond (utf8 "✗ Usage: DELETE <key>\n") else .ask (.delete word) (s.message "DELETE" word []))
  | .status => .ok (.ask .status (plainMessage "STATUS"))
  | .metrics => .ok (.ask .metrics (plainMessage "METRICS"))
  | .logSize => .ok (.ask .logSize (plainMessage "LOGSIZE"))
  | .snapshot => .ok (.ask .snapshot (plainMessage "SNAPSHOT_NOW"))
  | .logs => (logsCount word).map fun count => .ask .logs (.obj [("rpc", .lit "GET_LOGS"), ("count", .int count)])
  | .cluster => .ok (.ask .cluster (plainMessage "CLUSTER_INFO"))
  | .watch => .ok (.watch (watchInterval word))
  | .help => .ok (.screen .help)
  | .history => .ok (.respond (historyText s.commandHistory))
  | .stats => .ok (.screen .stats)
  | .clear => .ok (.screen .clear)
  | .exitRaft => .ok (if word = ascii "admin123" then .exitRaft else .respond (utf8 "✗ Incorrect password.\n"))
  | .exitServer => .ok (if word = ascii "admin123" then .close .shuttingDown else .respond (utf8 "✗ Invalid password.\n"))
  | .exit => .ok (.close .goodbye)
  | .unknown name => .ok (.respond (utf8 "✗ Unknown command: '" ++ name ++ utf8 "'\n" ++ utf8 "   Type 'HELP' for available commands.\n"))

/-- A line of the history is taken up again: the text that is sent, and the command with the stream behind it. -/
def again (line command : Str) : Str × Str × TextStream :=
  let (token, iss) := (TextStream.ofStr line).token
  (utf8 "Repeating: " ++ line ++ utf8 "\n", token.getD command, iss)

/-- `!!` and `!n`: what is sent, and unless that is all, the command with the stream behind it. -/
def fromHistory (history : List Str) (command : Str) (iss : TextStream) : Except Exception (Str × Option (Str × TextStream)) :=
  if command = ascii "!!" then
    .ok (if 2 ≤ history.length then
        let (sent, next) := again (history.getD (history.length - 2) []) command
        (sent, some next)
      else (utf8 "✗ No previous command in history.\n", none))
  else
    match command with
    | 33 :: c :: rest =>
      if isDigit c then
        (stoi (c :: rest)).map fun (n : ℤ) =>
          if 0 ≤ n - 1 ∧ n - 1 < history.length then
            let (sent, next) := again (history.getD (n - 1).toNat []) command
            (sent, some next)
          else (utf8 "✗ Invalid history index.\n", none)
      else .ok ([], some (command, iss))
    | _ => .ok ([], some (command, iss))

/-- What `recv` puts into `buffer` of a line that is sent: the last of the 4096 bytes is for the end of the text. -/
def buffered (line : Str) : Str := line.take 4095

/-- The command line in what is received: up to the first byte that is zero. -/
def commandLine (received : Str) : Str := trim (received.takeWhile (· != 0))

/-- `handle_client` on what it receives, up to a request to the nodes: the session, what has been sent, and what is done. -/
def Session.handleLine (s : Session) (received : Str) : Except Exception (Session × Str × Todo) :=
  let line := commandLine received
  if line = [] then .ok (s, [], .next)
  else
    let s := { s with commandHistory := s.commandHistory ++ [line], commandCount := s.commandCount + 1 }
    match (TextStream.ofStr line).token with
    | (none, _) => .ok (s, [], .next)
    | (some command, iss) =>
      let s := { s with requestCounter := s.requestCounter + 1 }
      (fromHistory s.commandHistory command iss).bind fun (sent, next) =>
        match next with
        | none => .ok (s, sent, .next)
        | some (command, iss) => (s.dispatch (.ofName (resolveCommandAlias command)) iss).map fun act => (s, sent, act)

/-! ## Watching -/

/-- What a `recv` of the watch mode finds: nothing yet or the end of the connection, some bytes, or an error. -/
inductive Poll where
  | nothing
  | bytes (s : Str)
  | error
  deriving DecidableEq

/-- What the user types ends the watch mode. -/
def Poll.stops : Poll → Bool
  | nothing => false
  | bytes s =>
    let upperInput := toUpper (trim (s.takeWhile (· != 0)))
    decide (upperInput ∈ [ascii "STOP", ascii "EXIT", ascii "Q", ascii "QUIT"])
  | error => true

/-- A request to the nodes, and what is received until the next one. -/
structure Round where
  requests : Requests
  polls : List Poll

/-- `maxRefreshes`. -/
def maxRefreshes : ℕ := 60

/-- What the watch mode sends for a reply, where its status is `OK`. -/
def watchOutput (interval : ℤ) (refreshCount : ℕ) (reply : Json) : Except Exception (Option Str) :=
  (reply.member "status").bind fun status =>
    if status.isLit "OK" then
      (render reply watchTable).map fun table => some (table ++
        utf8 "┌────────────────────────────────────────────────────┐\n" ++ utf8 "│ Refresh: " ++ toString (refreshCount + 1 : ℕ) ++ utf8 "/" ++
        toString maxRefreshes ++ utf8 " | Interval: " ++ toString interval ++ utf8 "s" ++ utf8 " | Next in " ++ toString interval ++
        utf8 "s" ++ utf8 "\n│ Type STOP, EXIT, or Q to quit watch mode           │\n" ++
        utf8 "└────────────────────────────────────────────────────┘\n")
    else .ok none

/-- The loop of `WATCH`, in exactly these rounds: what it sends, but for the text at its end. -/
def watch (interval : ℤ) : ℕ → List Round → Option (Except Exception (List Str))
  | refreshCount, [] => if refreshCount < maxRefreshes then none else some (.ok [])
  | refreshCount, r :: rs =>
    if refreshCount < maxRefreshes then
      (r.requests.reply (plainMessage "METRICS")).bind fun reply =>
        match watchOutput interval refreshCount reply with
        | .error e => some (.error e)
        | .ok output =>
          let refreshCount := if output.isSome then refreshCount + 1 else refreshCount
          if r.polls.any Poll.stops then (if rs.isEmpty then some (.ok output.toList) else none)
          else (watch interval refreshCount rs).map fun rest => rest.map (output.toList ++ ·)
    else none

/-- What a line leads to, with what the nodes and the client do in the meantime; `none` where the rounds do not fit. -/
def Session.carryOut (s : Session) (sent : Str) (rounds : List Round) : Todo → Option (Except Exception (Session × List Str))
  | .ask q msg =>
    match rounds with
    | [r] => (r.requests.reply msg).map fun reply => (q.respond reply).map fun response => (s, [sent, response])
    | _ => none
  | .watch interval => (watch interval 0 rounds).map fun r => r.map fun outputs => (s, sent :: outputs)
  | .respond response => some (.ok (s, [sent, response]))
  | _ => some (.ok (s, [sent]))

/-- `handle_client` on what it receives: the session and what has been sent, or the exception that leaves it. -/
def Session.handleClient (s : Session) (received : Str) (rounds : List Round) : Option (Except Exception (Session × List Str)) :=
  match s.handleLine received with
  | .error e => some (.error e)
  | .ok (s, sent, todo) => s.carryOut sent rounds todo

end RaftStore
