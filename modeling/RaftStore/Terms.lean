import RaftStore.Systems.Runs
import Mathlib.Data.Int.Init

/-!
# The term of a node, thread by thread

What the threads of a node do to `currentTerm`, cut at the boundaries of the mutex sections, at the calls of `sendRPC` and at the
file writes: a test of a term and the section that assigns it are two steps, between which any other thread may run, and so are
the reading of `currentTerm` by `persistMetadata` and its write. Everything else a thread does is left out; whether a vote is
granted, a command committed or an election won is a parameter. The AppendEntries handler holds the mutex all the time, so that
its test and its assignment are one step.
-/

namespace RaftStore

/-- What a thread still does to the term of its node. -/
inductive TermProg where
  | done
  /-- `term < currentTerm`, outside the mutex. -/
  | ifStale (term : ℤ) (yes no : TermProg)
  /-- `term > currentTerm`, outside the mutex. -/
  | ifLater (term : ℤ) (yes no : TermProg)
  /-- The mutex section that sets `currentTerm` to a term tested before. `persists`: the metadata is written in the section. -/
  | assign (term : ℤ) (persists : Bool) (next : TermProg)
  /-- The mutex section of `start_election`: `currentTerm++`. -/
  | increment (next : TermProg)
  /-- The AppendEntries handler up to its reply. `candidate`: the node is one. -/
  | appendEntries (term : ℤ) (candidate : Bool) (next : TermProg)
  /-- `persistMetadata` reads `currentTerm`. -/
  | gather (next : TermProg)
  /-- `persistMetadata` writes the term it has read. -/
  | write (term : ℤ) (next : TermProg)
  /-- A message or a reply with `currentTerm` goes out. -/
  | send (next : TermProg)
  /-- The reply to a message comes in, with its term, or does not. -/
  | recv (next : Option ℤ → TermProg)

namespace TermProg

/-! ## Functions of the sources -/

/-- `persistMetadata`, outside the mutex. -/
def persistMetadata (next : TermProg) : TermProg := .gather next

/-- `RaftNode::becomeFollower`. -/
def becomeFollower (newTerm : ℤ) (next : TermProg) : TermProg := .assign newTerm false (persistMetadata next)

/-- `handle_node_client`, RequestVote. -/
def requestVote (term : ℤ) (voteGranted : Bool) : TermProg :=
  let vote := if voteGranted then persistMetadata (.send .done) else .send .done
  .ifStale term (.send .done) (.ifLater term (becomeFollower term vote) vote)

/-- `handle_node_client`, AppendEntries. -/
def handleAppendEntries (term : ℤ) (candidate : Bool) : TermProg := .appendEntries term candidate (.send .done)

/-- `handle_node_client`, InstallSnapshot. `done`: the snapshot is installed. -/
def installSnapshot (term : ℤ) (done : Bool) : TermProg :=
  let rest := if done then persistMetadata (.send .done) else .send .done
  .ifStale term (.send .done) (.ifLater term (becomeFollower term rest) rest)

/-- The loop of `start_election` over the peers that are left, and what follows it. -/
def askVotes (elected : Bool) : ℕ → TermProg
  | 0 => if elected then persistMetadata .done else .done
  | peers + 1 => .send (.recv fun
      | none => askVotes elected peers
      | some term => .ifLater term (.assign term true .done) (askVotes elected peers))

/-- `start_election`. -/
def startElection (peers : ℕ) (elected : Bool) : TermProg := .increment (persistMetadata (askVotes elected peers))

/-- `send_heartbeats`, for as many messages as it sends. -/
def sendHeartbeats : ℕ → TermProg
  | 0 => .done
  | messages + 1 => .send (.recv fun
      | none => sendHeartbeats messages
      | some term => .ifLater term (.assign term false (persistMetadata .done)) (sendHeartbeats messages))

/-- The loop of `handleClientCommand` over the peers, and what follows it. -/
def handleClientCommand (committed : Bool) : ℕ → TermProg
  | 0 => if committed then persistMetadata .done else .done
  | messages + 1 => .send (.recv fun
      | none => handleClientCommand committed messages
      | some term => .ifLater term (.assign term true .done) (handleClientCommand committed messages))

end TermProg

/-- What makes a thread start: a message of another node, an election timeout, a promotion, a client command. -/
inductive TermCause where
  | requestVote (term : ℤ) (voteGranted : Bool)
  | appendEntries (term : ℤ) (candidate : Bool)
  | installSnapshot (term : ℤ) (done : Bool)
  | startElection (peers : ℕ) (elected : Bool)
  | sendHeartbeats (messages : ℕ)
  | clientCommand (committed : Bool) (messages : ℕ)

/-- The thread that is started. -/
def TermCause.prog : TermCause → TermProg
  | requestVote term voteGranted => .requestVote term voteGranted
  | appendEntries term candidate => .handleAppendEntries term candidate
  | installSnapshot term done => .installSnapshot term done
  | startElection peers elected => .startElection peers elected
  | sendHeartbeats messages => .sendHeartbeats messages
  | clientCommand committed messages => .handleClientCommand committed messages

/-- The term of a node, the one in its metadata file, and the terms of the messages and replies it has sent. -/
structure NodeTerm where
  currentTerm : ℤ
  saved : ℤ
  sent : List ℤ

/-- The next step of a thread: the node after it, and what the thread still does. -/
def NodeTerm.exec (n : NodeTerm) (reply : Option ℤ) : TermProg → NodeTerm × TermProg
  | .done => (n, .done)
  | .ifStale term yes no => (n, if term < n.currentTerm then yes else no)
  | .ifLater term yes no => (n, if n.currentTerm < term then yes else no)
  | .assign term persists next =>
    ({ n with currentTerm := term, saved := if persists then term else n.saved }, next)
  | .increment next => ({ n with currentTerm := n.currentTerm + 1 }, next)
  | .appendEntries term candidate next =>
    if term < n.currentTerm then (n, next)
    else
      let term := if n.currentTerm < term ∨ candidate then term else n.currentTerm
      ({ n with currentTerm := term, saved := term }, next)
  | .gather next => (n, .write n.currentTerm next)
  | .write term next => ({ n with saved := term }, next)
  | .send next => ({ n with sent := n.sent ++ [n.currentTerm] }, next)
  | .recv next => (n, next reply)

/-- A node with its threads. -/
structure Terms where
  node : NodeTerm
  threads : List TermProg

/-- What can happen to the term of a node: a thread starts, a thread does its next step, where it may get a reply, or the node
crashes and is started again. -/
inductive TermAction where
  | start (cause : TermCause)
  | go (k : ℕ) (reply : Option ℤ)
  | crash

namespace Terms

/-- A node that has never run. -/
def init : Terms := { node := { currentTerm := 0, saved := 0, sent := [] }, threads := [] }

/-- The thread at place `k` does its next step. -/
def go (x : Terms) (k : ℕ) (reply : Option ℤ) (p : TermProg) : Terms where
  node := (x.node.exec reply p).1
  threads := x.threads.set k (x.node.exec reply p).2

/-- One step; `none` where there is no such thread. A crash ends all threads, and `loadMetadata` takes the term of the file. -/
def step (x : Terms) : TermAction → Option Terms
  | .start cause => some { x with threads := x.threads ++ [cause.prog] }
  | .go k reply => x.threads[k]?.map (x.go k reply)
  | .crash => some { node := { x.node with currentTerm := x.node.saved }, threads := [] }

end Terms

end RaftStore
