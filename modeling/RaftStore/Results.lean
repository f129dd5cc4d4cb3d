import RaftStore.Site
import RaftStore.Systems.Runs

/-!
# Concurrent client commands

The calls of `handleClientCommand` of one leader: each appends its entry, replicates it to one peer after another, and runs its commit section
when it has passed the test of the commit rule. What an apply loop makes of each entry and what each call returns is noted.
-/

namespace RaftStore

/-- What `applyToStateMachine` makes of the entries in the next turns of an apply loop: the index, the entry and the result of each. -/
def Applying.results (r : Applying) : ℕ → List (ℤ × LogEntry × Str)
  | 0 => []
  | k + 1 =>
    match r.node.entryAt (r.node.logIdx (r.node.lastApplied + 1)) with
    | none => r.applyNext.results k
    | some e => (r.node.lastApplied + 1, e, r.applyNext.applyResult) :: r.applyNext.results k

namespace RaftNode

/-- The beginning of the apply loop of `handleClientCommand`, for an entry at `newIndex`. -/
def committing (n : RaftNode) (store : KVStore) (newIndex : ℤ) : Applying :=
  { node := n.setCommitIndex newIndex, store := store, applyResult := [], events := [] }

/-- What this loop makes of the entries up to `newIndex`. -/
def resultsUpTo (n : RaftNode) (store : KVStore) (newIndex : ℤ) : List (ℤ × LogEntry × Str) :=
  if n.shutdownRequested then [] else (n.committing store newIndex).results (newIndex - n.lastApplied).toNat

end RaftNode

/-- What a call that has passed the commit test has returned, and what is cached for its `clientId` then. -/
structure Answer where
  call : ClientCall
  returned : Str
  cached : Option Str

/-- A call has returned, and its client finds cached, the result that `applyToStateMachine` has produced for the entry that it appended. -/
def Answer.Own (a : Answer) (applications : List (ℤ × LogEntry × Str)) : Prop :=
  ∃ result, (a.call.newIndex, a.call.entry, result) ∈ applications ∧ a.returned = result ∧ a.cached = some result

instance (a : Answer) (applications : List (ℤ × LogEntry × Str)) : Decidable (a.Own applications) :=
  decidable_of_iff ((a.call.newIndex, a.call.entry, a.returned) ∈ applications ∧ a.cached = some a.returned)
    ⟨fun h => ⟨_, h.1, rfl, h.2⟩, fun ⟨_, hmem, hret, hcached⟩ => hret ▸ ⟨hret ▸ hmem, hcached⟩⟩

/-- A leader and its client commands. `passed`: the calls that have passed the test of the commit rule; `applications`: the entries that they
have applied, with their results. -/
structure Serving where
  site : Site
  store : KVStore
  passed : List ℕ
  applications : List (ℤ × LogEntry × Str)
  answers : List Answer

/-- What a call of `handleClientCommand` does next: it begins, sends to a peer, goes on with the reply, makes the test of the commit rule, or
runs its commit section. -/
inductive CallAct where
  | request (req : ClientRequest)
  | send (k next : ℕ)
  | reply (k : ℕ) (r : Option Reply)
  | test (k : ℕ)
  | commit (k : ℕ)
  deriving DecidableEq

/-- The call whose commit section runs. -/
def CallAct.commits : CallAct → Option ℕ
  | commit k => some k
  | _ => none

namespace Serving

/-- A leader without calls. -/
def start (site : Site) (store : KVStore) : Serving :=
  { site := site, store := store, passed := [], applications := [], answers := [] }

/-- A call has gone through all the peers. -/
def Replicated (x : Serving) (call : ClientCall) : Prop := call.phase = .ready ∧ x.site.node.peerRpcPorts.length ≤ call.i

instance (x : Serving) (call : ClientCall) : Decidable (x.Replicated call) := instDecidableAnd

/-- The test of the commit rule, after the last peer. -/
def testCommit (x : Serving) (k : ℕ) (call : ClientCall) : Serving :=
  if x.site.node.shutdownRequested then
    { x with site := x.site.clientAt k { call with phase := .done (ascii "error: shutdown") } }
  else if Site.mayCommit x.site.node call then { x with passed := k :: x.passed }
  else { x with site := x.site.clientAt k { call with phase := .done (ascii "error: not committed") } }

/-- The commit section. -/
def commitCall (x : Serving) (k : ℕ) (call : ClientCall) : Serving :=
  let (n, store, applyResult, _) := Site.commit x.site.node x.store call
  { x with
    site := { x.site with node := n }.clientAt k { call with phase := .done applyResult }
    store := store
    applications := x.applications ++ x.site.node.resultsUpTo x.store call.newIndex
    answers := x.answers ++ [{ call := call, returned := applyResult, cached := n.clientResultCache.lookup call.req.clientId }] }

/-- One step of one of the calls. -/
def step (x : Serving) : CallAct → Option Serving
  | .request req => some { x with site := (x.site.clientRequest x.store req).site }
  | .send k next =>
    match x.site.clients[k]? with
    | none => none
    | some call =>
      if x.Replicated call then none
      else (x.site.clientStep next k x.store).map fun o => { x with site := o.site }
  | .reply k r => (x.site.clientReply k x.store r).map fun o => { x with site := o.site }
  | .test k =>
    match x.site.clients[k]? with
    | none => none
    | some call => if x.Replicated call ∧ k ∉ x.passed then some (x.testCommit k call) else none
  | .commit k =>
    match x.site.clients[k]? with
    | none => none
    | some call => if call.phase = .ready ∧ k ∈ x.passed then some (x.commitCall k call) else none

/-- Every call that has passed the commit test has got its own result. -/
def AnswersOwn (x : Serving) : Prop := ∀ a ∈ x.answers, a.Own x.applications

instance (x : Serving) : Decidable x.AnswersOwn := inferInstanceAs (Decidable (∀ a ∈ x.answers, a.Own x.applications))

/-- A commit section runs only while nothing at the call's index or beyond it is applied. -/
def commitsInOrder (x : Serving) (act : CallAct) : Prop :=
  ∀ k ∈ act.commits, ∀ call ∈ x.site.clients[k]?, x.site.node.lastApplied < call.newIndex

instance (x : Serving) (act : CallAct) : Decidable (x.commitsInOrder act) :=
  inferInstanceAs (Decidable (∀ k ∈ act.commits, ∀ call ∈ x.site.clients[k]?, x.site.node.lastApplied < call.newIndex))

end Serving

end RaftStore
