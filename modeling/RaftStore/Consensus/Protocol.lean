import RaftStore.Consensus.Quorum
import Mathlib.Order.Defs.LinearOrder
import Mathlib.Data.Set.Insert

/-!
# A replicated log with elected leaders

The protocol in its own terms, over any type of members `ι`, any linear order of terms `T` and any type of entries `E` with a
term each. A member holds a term, a vote, two flags and a log, of which a part is on stable storage. The rest of the state is
history: who won each term, the log the winner of a term has built (the chain of the term), the requests for votes, the ballots
cast and the acknowledgements. The messages of an implementation do not occur here: what an append message may carry is a piece
of the chain of its term, and an acknowledgement is an entry of the history.

`Step strict` is what one member does in one step. Without `strict` a member may vote for a log older than its own and may drop
entries it has acknowledged: the elections are safe and logs match, but committed entries can be lost. With `strict` both are
forbidden, and committed entries stay.
-/

namespace Consensus

/-- What one member holds. `cand`: it asks for votes in its term and has not stood back; `lead`: it leads its term;
`stable`: the log a crash leaves. -/
structure Member (ι T E : Type*) where
  term : T
  vote : Option ι
  cand : Prop
  lead : Prop
  log : List E
  stable : List E

/-- A vote cast: by whom, in which term, for whom, the log the candidate had shown and the log the voter had. -/
structure Ballot (ι T E : Type*) where
  voter : ι
  term : T
  candidate : ι
  candLog : List E
  voterLog : List E

/-- The members and the history of the run. `winner t` is the member elected in term `t`, `chain t` the log it has built. An
acknowledgement `(v, t, k)`: member `v` holds the first `k` entries of the chain of `t` on stable storage. -/
structure State (ι T E : Type*) where
  member : ι → Member ι T E
  winner : T → Option ι
  chain : T → List E
  requests : Set (T × ι × List E)
  ballots : Set (Ballot ι T E)
  acks : Set (ι × T × ℕ)

/-- The start of a run: every member in term `t₀` with an empty log, and no history. -/
def State.init {ι T E : Type*} (t₀ : T) : State ι T E where
  member := fun _ => { term := t₀, vote := none, cand := False, lead := False, log := [], stable := [] }
  winner := fun _ => none
  chain := fun _ => []
  requests := ∅
  ballots := ∅
  acks := ∅

section Logs

variable {T E : Type*} (τ : E → T)

/-- Two logs have entries of one term at position `k - 1`, or `k` is zero: the check an append message is subject to. -/
def SameTermAt (l l' : List E) (k : ℕ) : Prop :=
  k = 0 ∨ ∃ e e', l[k - 1]? = some e ∧ l'[k - 1]? = some e' ∧ τ e = τ e'

variable [LinearOrder T]

/-- The log `l` is at least as up to date as `l'`: the last term is later, or the same and `l` is no shorter. -/
def UpToDate (l l' : List E) : Prop :=
  l' = [] ∨ ∃ e e', l.getLast? = some e ∧ l'.getLast? = some e' ∧
    (τ e' < τ e ∨ τ e = τ e' ∧ l'.length ≤ l.length)

/-- The terms of a log do not decrease. -/
def Sorted (l : List E) : Prop := l.Pairwise (fun e e' => τ e ≤ τ e')

end Logs

section Steps

variable {ι T E : Type*} [DecidableEq ι]

/-- Put another record in the place of member `v`. -/
def State.put (a : State ι T E) (v : ι) (m : Member ι T E) : State ι T E :=
  { a with member := Function.update a.member v m }

variable [LinearOrder T] (τ : E → T) (𝓠 : QuorumSystem ι)

/-- What one member does in one step. -/
inductive Step (strict : Prop) (a : State ι T E) : State ι T E → Prop where
  /-- A later term is seen: the member takes it, without a vote and without a role. -/
  | adopt (v : ι) (t : T) (h : (a.member v).term < t) :
      Step strict a (a.put v { a.member v with
        term := t, vote := none, cand := False, lead := False, stable := (a.member v).log })
  /-- A candidate stands back in its own term, and forgets the vote it gave itself. -/
  | yield (v : ι) (h : (a.member v).cand) :
      Step strict a (a.put v { a.member v with vote := none, cand := False, stable := (a.member v).log })
  /-- A member becomes a candidate of a later term and votes for itself. -/
  | campaign (v : ι) (t : T) (h : (a.member v).term < t) :
      Step strict a { a.put v { a.member v with
          term := t, vote := some v, cand := True, lead := False, stable := (a.member v).log } with
        ballots := insert ⟨v, t, v, (a.member v).log, (a.member v).log⟩ a.ballots }
  /-- A member shows its log and asks for votes in its term. -/
  | ask (v : ι) :
      Step strict a { a with requests := insert ((a.member v).term, v, (a.member v).log) a.requests }
  /-- A member that has no vote in its term, or has it with the same candidate, grants a request of that term. -/
  | grant (v c : ι) (L : List E) (hr : ((a.member v).term, c, L) ∈ a.requests)
      (hv : (a.member v).vote = none ∨ (a.member v).vote = some c)
      (hu : strict → UpToDate τ L (a.member v).log) :
      Step strict a { a.put v { a.member v with vote := some c, stable := (a.member v).log } with
        ballots := insert ⟨v, (a.member v).term, c, L, (a.member v).log⟩ a.ballots }
  /-- A candidate that a quorum has voted for in its term leads it. -/
  | elect (c : ι) (Q : Finset ι) (hc : (a.member c).cand) (hQ : 𝓠.IsQuorum Q)
      (hb : ∀ v ∈ Q, ∃ b ∈ a.ballots, b.voter = v ∧ b.term = (a.member c).term ∧ b.candidate = c) :
      Step strict a { a.put c { a.member c with cand := False, lead := True, stable := (a.member c).log } with
        winner := Function.update a.winner (a.member c).term (some c)
        chain := Function.update a.chain (a.member c).term (a.member c).log }
  /-- A leader adds an entry of its term. -/
  | append (c : ι) (e : E) (hl : (a.member c).lead) (he : τ e = (a.member c).term) :
      Step strict a { a.put c { a.member c with log := (a.member c).log ++ [e] } with
        chain := Function.update a.chain (a.member c).term (a.chain (a.member c).term ++ [e]) }
  /-- A member writes its log to stable storage. -/
  | save (v : ι) :
      Step strict a (a.put v { a.member v with stable := (a.member v).log })
  /-- A leader acknowledges its own log as far as it is stable. -/
  | confirm (c : ι) (k : ℕ) (hl : (a.member c).lead) (hk : k ≤ (a.member c).stable.length) :
      Step strict a { a with acks := insert (c, (a.member c).term, k) a.acks }
  /-- A member finds that its log has the entry of the chain of its term at position `k - 1`, and acknowledges. -/
  | keep (v w : ι) (k : ℕ) (hw : a.winner (a.member v).term = some w) (hne : w ≠ v)
      (hk : k ≤ (a.chain (a.member v).term).length)
      (hm : SameTermAt τ (a.member v).log (a.chain (a.member v).term) k) :
      Step strict a { a with acks := insert (v, (a.member v).term, k) a.acks }
  /-- A member puts the first `k` entries of the chain of its term in the place of its log, and acknowledges. -/
  | replace (v w : ι) (k : ℕ) (hw : a.winner (a.member v).term = some w) (hne : w ≠ v)
      (hk : k ≤ (a.chain (a.member v).term).length)
      (hd : strict → (a.member v).log.length ≤ k ∨
        ¬SameTermAt τ (a.member v).log (a.chain (a.member v).term) k) :
      Step strict a { a.put v { a.member v with
          log := (a.chain (a.member v).term).take k, stable := (a.chain (a.member v).term).take k } with
        acks := insert (v, (a.member v).term, k) a.acks }
  /-- A member crashes and comes back with what is on stable storage: its term, its vote and the stable part of its log. -/
  | crash (v : ι) :
      Step strict a (a.put v { a.member v with cand := False, lead := False, log := (a.member v).stable })

/-- Any number of steps. -/
inductive Steps (strict : Prop) : State ι T E → State ι T E → Prop where
  | refl (a : State ι T E) : Steps strict a a
  | tail {a b c : State ι T E} : Steps strict a b → Step τ 𝓠 strict b c → Steps strict a c

variable {τ 𝓠}

/-- One step is a run of steps. -/
theorem Step.steps {strict : Prop} {a b : State ι T E} (h : Step τ 𝓠 strict a b) : Steps τ 𝓠 strict a b :=
  (Steps.refl a).tail h

/-- Runs of steps compose. -/
theorem Steps.trans {strict : Prop} {a b c : State ι T E} (h : Steps τ 𝓠 strict a b) (h' : Steps τ 𝓠 strict b c) :
    Steps τ 𝓠 strict a c := by
  induction h' with
  | refl => exact h
  | tail _ hs ih => exact ih.tail hs

end Steps

end Consensus
